import Forest.Lib.Result
import Forest.Multisig.State

/-!
# The multisig actor's methods

Each method is a function of what it reads of the runtime, its parameters and the state, and
returns the new state or an error; a failed call changes nothing, since the runtime reverts it.
`propose` and `approve` hand control to the runtime in the middle, when an approved transaction
is sent: they are cut there into the part before the send (`proposeTransaction`,
`approveLookup`, `approveTransaction`), the decision to send (`executeCheck`) and the cleanup
after it (`deleteTransaction`).  What the send does to the state is the business of the
runs in `Forest.Multisig.Invariant`.

`resolve_to_id_addr` and the blake2b digest of a serialized proposal are runtime services,
taken as functions; the caller's code is reported by the runtime.
-/

namespace Forest.Multisig

/-- What a method reads of the runtime: the message, the code of the immediate caller (whether
it is one of `CALLER_TYPES_SIGNABLE`, and its CID as shown), the balance and the epoch. -/
structure Runtime (α : Type) where
  caller : α
  receiver : α
  valueReceived : Int
  callerSignable : Bool
  callerCode : String
  currentBalance : Int
  currEpoch : Int

/-- `ConstructorParams`. -/
structure ConstructorParams (α : Type) where
  signers : List α
  numApprovalsThreshold : Nat
  unlockDuration : Int
  startEpoch : Int

/-- `ProposeParams`; the field `to` of the source is `toAddress`. -/
structure ProposeParams (α : Type) where
  toAddress : α
  value : Int
  method : Nat
  params : List UInt8

/-- `TxnIDParams`: the id of a transaction, and the hash of its proposal or nothing. -/
structure TxnIDParams where
  id : TxnID
  proposalHash : List UInt8

/-- `AddSignerParams`. -/
structure AddSignerParams (α : Type) where
  signer : α
  increase : Bool

/-- `RemoveSignerParams`. -/
structure RemoveSignerParams (α : Type) where
  signer : α
  decrease : Bool

/-- `SwapSignerParams`; the fields `from` and `to` of the source are `fromAddress` and
`toAddress`. -/
structure SwapSignerParams (α : Type) where
  fromAddress : α
  toAddress : α

/-- `ChangeNumApprovalsThresholdParams`. -/
structure ChangeNumApprovalsThresholdParams where
  newThreshold : Nat

/-- `LockBalanceParams`. -/
structure LockBalanceParams where
  startEpoch : Int
  unlockDuration : Int
  amount : Int

/-- `ProposalHashData`: what the proposal hash covers. -/
structure ProposalHashData (α : Type) where
  requester : Option α
  toAddress : α
  value : Int
  method : Nat
  params : List UInt8

variable {α : Type} [DecidableEq α] [ToString α]

section Runtime

/-- `validate_immediate_caller_is`. -/
def validateImmediateCallerIs (rt : Runtime α) (addresses : List α) : Except ActorError Unit :=
  if addresses.contains rt.caller then .ok ()
  else .error ⟨.sysErrForbidden, s!"caller {rt.caller} is not one of supported"⟩

/-- `validate_immediate_caller_type(CALLER_TYPES_SIGNABLE)`. -/
def validateImmediateCallerTypeSignable (rt : Runtime α) : Except ActorError Unit :=
  if rt.callerSignable then .ok ()
  else .error ⟨.sysErrForbidden, s!"caller cid type {rt.callerCode} not one of supported"⟩

/-- `resolve_to_id_addr` with the error the signer methods give it. -/
def resolveAddress (resolve : α → Except BoxError α) (address : α) : Except ActorError α :=
  (resolve address).mapError fun e =>
    e.downcastDefault .errIllegalState s!"failed to resolve address {address}"

/-- `compute_proposal_hash`: the digest of the serialized proposal data, the first approver as
the requester. -/
def computeProposalHash (hashData : ProposalHashData α → List UInt8) (txn : Transaction α) :
    List UInt8 :=
  hashData ⟨txn.approved.head?, txn.toAddress, txn.value, txn.method, txn.params⟩

end Runtime

section Methods

variable (resolve : α → Except BoxError α) (hashData : ProposalHashData α → List UInt8)

/-- One signer of the constructor: resolve it and refuse a duplicate. -/
def resolveSigner (resolved : List α) (signer : α) : Except ActorError (List α) := do
  let address ← (resolve signer).mapError fun e =>
    e.downcastDefault .errIllegalState s!"failed to resolve addr {signer} to ID addr"
  if resolved.contains address then
    throw ⟨.errIllegalArgument, s!"duplicate signer not allowed: {signer}"⟩
  return resolved ++ [address]

/-- `Actor::constructor`: the state of a new multisig. -/
def constructor (initActorAddr : α) (rt : Runtime α) (params : ConstructorParams α) :
    Except ActorError (State α) := do
  validateImmediateCallerIs rt [initActorAddr]
  if params.signers.isEmpty then
    throw ⟨.errIllegalArgument, "Must have at least one signer"⟩
  if params.signers.length > signersMax then
    throw ⟨.errIllegalArgument, s!"cannot add more than {signersMax} signers"⟩
  let resolvedSigners ← params.signers.foldlM (resolveSigner resolve) []
  if params.numApprovalsThreshold > params.signers.length then
    throw ⟨.errIllegalArgument, "must not require more approvals than signers"⟩
  if params.numApprovalsThreshold < 1 then
    throw ⟨.errIllegalArgument, "must require at least one approval"⟩
  if params.unlockDuration < 0 then
    throw ⟨.errIllegalArgument, "negative unlock duration disallowed"⟩
  let st : State α := ⟨resolvedSigners, params.numApprovalsThreshold, 0, 0, 0, 0, SortedMap.empty⟩
  if params.unlockDuration ≠ 0 then
    return st.setLocked params.startEpoch params.unlockDuration rt.valueReceived
  return st

/-- The checks of `propose` and its first transaction: the new transaction, with no approvals,
stored under the next id. -/
def proposeTransaction (rt : Runtime α) (params : ProposeParams α) (st : State α) :
    Except ActorError (State α × TxnID × Transaction α) := do
  validateImmediateCallerTypeSignable rt
  let proposer := rt.caller
  if params.value < 0 then
    throw ⟨.errIllegalArgument, s!"proposed value must be non-negative, was {params.value}"⟩
  if !st.isSigner proposer then
    throw ⟨.errForbidden, s!"{proposer} is not a signer"⟩
  let tId := st.nextTxId
  let txn : Transaction α := ⟨params.toAddress, params.value, params.method, params.params, []⟩
  return ({ st with nextTxId := st.nextTxId + 1, pendingTxs := st.pendingTxs.set tId txn }, tId, txn)

/-- `get_transaction`: the pending transaction of an id, checked against the proposal hash when
one is given. -/
def getTransaction (ptx : SortedMap TxnID (Transaction α)) (txnId : TxnID)
    (proposalHash : List UInt8) (checkHash : Bool) : Except ActorError (Transaction α) := do
  let some txn := ptx.get? txnId
    | throw ⟨.errNotFound, s!"no such transaction TxnID({txnId}) for approval"⟩
  if checkHash then
    let calculatedHash := computeProposalHash hashData txn
    if !proposalHash.isEmpty && proposalHash != calculatedHash then
      throw ⟨.errIllegalArgument,
        "hash does not match proposal params (ensure requester is an ID address)"⟩
  return txn

/-- The checks of `approve` and its first transaction: the approver is a signer, and the
transaction is pending. -/
def approveLookup (rt : Runtime α) (params : TxnIDParams) (st : State α) :
    Except ActorError (Transaction α) := do
  validateImmediateCallerTypeSignable rt
  let approver := rt.caller
  if !st.isSigner approver then
    throw ⟨.errForbidden, s!"{approver} is not a signer"⟩
  getTransaction hashData st.pendingTxs params.id params.proposalHash true

/-- `approve_transaction` up to the send: refuse a second approval by the caller, then store the
transaction with the caller's approval added. -/
def approveTransaction (rt : Runtime α) (txId : TxnID) (txn : Transaction α) (st : State α) :
    Except ActorError (State α × Transaction α) := do
  txn.approved.forM fun previousApprover =>
    if previousApprover = rt.caller then
      throw ⟨.errForbidden, s!"{previousApprover} already approved this message"⟩
    else pure ()
  let txn := { txn with approved := txn.approved ++ [rt.caller] }
  return ({ st with pendingTxs := st.pendingTxs.set txId txn }, txn)

/-- The decision of `execute_transaction_if_approved`: whether the approvals meet the threshold,
after checking, when they do, that the balance left unlocked covers the value. -/
def executeCheck (rt : Runtime α) (st : State α) (txn : Transaction α) : Except ActorError Bool := do
  let thresholdMet := txn.approved.length ≥ st.numApprovalsThreshold
  if thresholdMet then
    (st.checkAvailable rt.currentBalance txn.value rt.currEpoch).mapError fun e =>
      ⟨.errInsufficientFunds, s!"insufficient funds unlocked: {e}"⟩
  return thresholdMet

/-- The last transaction of `execute_transaction_if_approved`, after the send: delete the
executed transaction. -/
def deleteTransaction (txnId : TxnID) (st : State α) : State α :=
  { st with pendingTxs := st.pendingTxs.delete txnId }

/-- `Actor::cancel`: the first approver withdraws a pending transaction. -/
def cancel (rt : Runtime α) (params : TxnIDParams) (st : State α) : Except ActorError (State α) := do
  validateImmediateCallerTypeSignable rt
  let callerAddr := rt.caller
  if !st.isSigner callerAddr then
    throw ⟨.errForbidden, s!"{callerAddr} is not a signer"⟩
  let some tx := st.pendingTxs.get? params.id
    | throw ⟨.errNotFound, s!"no such transaction TxnID({params.id}) to cancel"⟩
  if tx.approved.head? != some callerAddr then
    throw ⟨.errForbidden, "Cannot cancel another signers transaction"⟩
  let calculatedHash := computeProposalHash hashData tx
  if !params.proposalHash.isEmpty && params.proposalHash != calculatedHash then
    throw ⟨.errIllegalState, "hash does not match proposal params"⟩
  return { st with pendingTxs := st.pendingTxs.delete params.id }

/-- `Actor::add_signer`, called by the multisig itself. -/
def addSigner (rt : Runtime α) (params : AddSignerParams α) (st : State α) :
    Except ActorError (State α) := do
  validateImmediateCallerIs rt [rt.receiver]
  let resolvedNewSigner ← resolveAddress resolve params.signer
  if st.signers.length ≥ signersMax then
    throw ⟨.errForbidden, s!"cannot add more than {signersMax} signers"⟩
  if st.isSigner resolvedNewSigner then
    throw ⟨.errForbidden, s!"{resolvedNewSigner} is already a signer"⟩
  return { st with
    signers := st.signers ++ [resolvedNewSigner]
    numApprovalsThreshold :=
      if params.increase then st.numApprovalsThreshold + 1 else st.numApprovalsThreshold }

/-- `Actor::remove_signer`, called by the multisig itself: the threshold is lowered when asked,
and the signer's approvals are purged. -/
def removeSigner (rt : Runtime α) (params : RemoveSignerParams α) (st : State α) :
    Except ActorError (State α) := do
  validateImmediateCallerIs rt [rt.receiver]
  let resolvedOldSigner ← resolveAddress resolve params.signer
  if !st.isSigner resolvedOldSigner then
    throw ⟨.errForbidden, s!"{resolvedOldSigner} is not a signer"⟩
  if st.signers.length = 1 then
    throw ⟨.errForbidden, "Cannot remove only signer"⟩
  if !params.decrease && st.signers.length - 1 < st.numApprovalsThreshold then
    throw ⟨.errIllegalArgument,
      s!"can't reduce signers to {st.signers.length} below threshold {st.numApprovalsThreshold} with decrease=false"⟩
  let st ← if params.decrease then do
      if st.numApprovalsThreshold < 2 then
        throw ⟨.errIllegalArgument,
          s!"can't decrease approvals from {st.numApprovalsThreshold} to {st.numApprovalsThreshold - 1}"⟩
      pure { st with numApprovalsThreshold := st.numApprovalsThreshold - 1 }
    else pure st
  let st := st.purgeApprovals resolvedOldSigner
  return { st with signers := st.signers.filter (· != resolvedOldSigner) }

/-- `Actor::swap_signer`, called by the multisig itself: the new signer takes the old one's place
at the end of the list, and the old one's approvals are purged. -/
def swapSigner (rt : Runtime α) (params : SwapSignerParams α) (st : State α) :
    Except ActorError (State α) := do
  validateImmediateCallerIs rt [rt.receiver]
  let fromResolved ← resolveAddress resolve params.fromAddress
  let toResolved ← resolveAddress resolve params.toAddress
  if !st.isSigner fromResolved then
    throw ⟨.errForbidden, s!"{fromResolved} is not a signer"⟩
  if st.isSigner toResolved then
    throw ⟨.errIllegalArgument, s!"{toResolved} is already a signer"⟩
  let st := { st with signers := st.signers.filter (· != fromResolved) ++ [toResolved] }
  return st.purgeApprovals fromResolved

/-- `Actor::change_num_approvals_threshold`, called by the multisig itself. -/
def changeNumApprovalsThreshold (rt : Runtime α) (params : ChangeNumApprovalsThresholdParams)
    (st : State α) : Except ActorError (State α) := do
  validateImmediateCallerIs rt [rt.receiver]
  if params.newThreshold = 0 || params.newThreshold > st.signers.length then
    throw ⟨.errIllegalArgument, "New threshold value not supported"⟩
  return { st with numApprovalsThreshold := params.newThreshold }

/-- `Actor::lock_balance`, called by the multisig itself: a lock may be set once. -/
def lockBalance (rt : Runtime α) (params : LockBalanceParams) (st : State α) :
    Except ActorError (State α) := do
  validateImmediateCallerIs rt [rt.receiver]
  if params.unlockDuration ≤ 0 then
    throw ⟨.errIllegalArgument, "unlock duration must be positive"⟩
  if params.amount < 0 then
    throw ⟨.errIllegalArgument, "amount to lock must be positive"⟩
  if st.unlockDuration ≠ 0 then
    throw ⟨.errForbidden, "modification of unlock disallowed"⟩
  return st.setLocked params.startEpoch params.unlockDuration params.amount

end Methods

/-! ## What a successful call did

One lemma per method: the checks that passed, and the state it returned. -/

section Inversion

variable {resolve : α → Except BoxError α} {hashData : ProposalHashData α → List UInt8}
  {rt : Runtime α} {st st' : State α}

theorem resolveSigner_eq_ok {resolved result : List α} {signer : α}
    (ran : resolveSigner resolve resolved signer = .ok result) :
    ∃ address, address ∉ resolved ∧ result = resolved ++ [address] := by
  unfold resolveSigner at ran
  obtain ⟨address, -, ran⟩ := Except.bind_eq_ok.mp ran
  simp only [pure, Except.pure, bind, Except.bind, throw, throwThe, MonadExceptOf.throw] at ran
  split_ifs at ran with duplicate
  exact ⟨address, by simpa using duplicate, (Except.ok.inj ran).symm⟩

/-- The constructor's loop over the signers keeps the resolved signers distinct, one for each
signer. -/
theorem foldlM_resolveSigner :
    ∀ {signers resolved result : List α}, resolved.Nodup →
      signers.foldlM (resolveSigner resolve) resolved = .ok result →
      result.Nodup ∧ result.length = resolved.length + signers.length
  | [], resolved, result, distinct, ran => by
    simp only [List.foldlM, pure, Except.pure, Except.ok.injEq] at ran
    subst ran
    exact ⟨distinct, rfl⟩
  | signer :: rest, resolved, result, distinct, ran => by
    rw [List.foldlM_cons] at ran
    obtain ⟨middle, step, ran⟩ := Except.bind_eq_ok.mp ran
    obtain ⟨address, fresh, rfl⟩ := resolveSigner_eq_ok step
    have middleDistinct : (resolved ++ [address]).Nodup :=
      distinct.append (List.nodup_singleton address) (List.disjoint_singleton.mpr fresh)
    obtain ⟨resultDistinct, counted⟩ := foldlM_resolveSigner middleDistinct ran
    refine ⟨resultDistinct, ?_⟩
    simp only [counted, List.length_append, List.length_cons, List.length_nil]
    omega

/-- A new multisig has distinct signers, at most `SIGNERS_MAX` of them, a threshold between 1
and their number, no pending transaction and the first id next. -/
theorem constructor_eq_ok {initActorAddr : α} {params : ConstructorParams α}
    (ran : constructor resolve initActorAddr rt params = .ok st) :
    st.signers.Nodup ∧ 1 ≤ st.numApprovalsThreshold ∧
      st.numApprovalsThreshold ≤ st.signers.length ∧ st.signers.length ≤ signersMax ∧
      st.pendingTxs = SortedMap.empty ∧ st.nextTxId = 0 := by
  unfold constructor at ran
  obtain ⟨⟨⟩, -, ran⟩ := Except.bind_eq_ok.mp ran
  by_cases noSigners : params.signers.isEmpty = true
  · simp [noSigners] at ran
  by_cases tooMany : params.signers.length > signersMax
  · simp [noSigners, tooMany] at ran
  simp only [noSigners, tooMany, Bool.false_eq_true, if_false] at ran
  obtain ⟨resolvedSigners, resolvedRan, ran⟩ := Except.bind_eq_ok.mp ran
  obtain ⟨distinct, counted⟩ := foldlM_resolveSigner List.nodup_nil resolvedRan
  simp only [List.length_nil, Nat.zero_add] at counted
  simp only [pure, Except.pure, bind, Except.bind, throw, throwThe, MonadExceptOf.throw] at ran
  split_ifs at ran with tooManyApprovals noApprovals negative locked
  all_goals
    -- with or without a lock, which only sets the lock fields
    obtain rfl := Except.ok.inj ran
    have sizes : 1 ≤ params.numApprovalsThreshold ∧
        params.numApprovalsThreshold ≤ resolvedSigners.length ∧
        resolvedSigners.length ≤ signersMax := by omega
    exact ⟨distinct, sizes.1, sizes.2.1, sizes.2.2, rfl, rfl⟩

theorem proposeTransaction_eq_ok {params : ProposeParams α}
    {result : State α × TxnID × Transaction α} (ran : proposeTransaction rt params st = .ok result) :
    st.isSigner rt.caller = true ∧
      result = ({ st with nextTxId := st.nextTxId + 1,
                          pendingTxs := st.pendingTxs.set st.nextTxId
                            ⟨params.toAddress, params.value, params.method, params.params, []⟩ },
        st.nextTxId, ⟨params.toAddress, params.value, params.method, params.params, []⟩) := by
  unfold proposeTransaction at ran
  obtain ⟨⟨⟩, -, ran⟩ := Except.bind_eq_ok.mp ran
  simp only [pure, Except.pure, bind, Except.bind, throw, throwThe, MonadExceptOf.throw] at ran
  split_ifs at ran with negative notSigner
  exact ⟨by simpa using notSigner, (Except.ok.inj ran).symm⟩

omit [DecidableEq α] [ToString α] in
theorem getTransaction_eq_ok {ptx : SortedMap TxnID (Transaction α)} {txnId : TxnID}
    {proposalHash : List UInt8} {checkHash : Bool} {txn : Transaction α}
    (ran : getTransaction hashData ptx txnId proposalHash checkHash = .ok txn) :
    ptx.get? txnId = some txn := by
  unfold getTransaction at ran
  cases found : ptx.get? txnId with
  | none => simp [found] at ran
  | some pending =>
    simp only [found, pure, Except.pure, bind, Except.bind, throw, throwThe,
      MonadExceptOf.throw] at ran
    split_ifs at ran with checked mismatch
    · rw [Except.ok.inj ran]
    · rw [Except.ok.inj ran]

theorem approveLookup_eq_ok {params : TxnIDParams} {txn : Transaction α}
    (ran : approveLookup hashData rt params st = .ok txn) :
    st.isSigner rt.caller = true ∧ st.pendingTxs.get? params.id = some txn := by
  unfold approveLookup at ran
  obtain ⟨⟨⟩, -, ran⟩ := Except.bind_eq_ok.mp ran
  by_cases signer : st.isSigner rt.caller = true
  · simp only [signer, Bool.not_true, Bool.false_eq_true, if_false] at ran
    exact ⟨signer, getTransaction_eq_ok ran⟩
  · simp [signer] at ran

theorem approveTransaction_eq_ok {txId : TxnID} {txn : Transaction α}
    {result : State α × Transaction α} (ran : approveTransaction rt txId txn st = .ok result) :
    rt.caller ∉ txn.approved ∧
      result = ({ st with pendingTxs :=
                    (st.pendingTxs.set txId { txn with approved := txn.approved ++ [rt.caller] }) },
        { txn with approved := txn.approved ++ [rt.caller] }) := by
  unfold approveTransaction at ran
  obtain ⟨⟨⟩, checked, ran⟩ := Except.bind_eq_ok.mp ran
  simp only [pure, Except.pure] at ran
  refine ⟨fun approvedBefore => ?_, (Except.ok.inj ran).symm⟩
  -- the loop over the previous approvers refuses the caller
  have refused := Except.forM_eq_ok.mp checked rt.caller approvedBefore
  simp at refused

omit [DecidableEq α] [ToString α] in
/-- The decision to send is that the approvals meet the threshold. -/
theorem executeCheck_eq_ok {txn : Transaction α} {met : Bool}
    (ran : executeCheck rt st txn = .ok met) :
    met = decide (st.numApprovalsThreshold ≤ txn.approved.length) := by
  unfold executeCheck at ran
  by_cases reached : st.numApprovalsThreshold ≤ txn.approved.length
  · simp only [ge_iff_le, reached, decide_true, if_true] at ran
    obtain ⟨⟨⟩, -, ran⟩ := Except.bind_eq_ok.mp ran
    simp only [pure, Except.pure, Except.ok.injEq] at ran
    simp [← ran, reached]
  · simp only [ge_iff_le, reached, decide_false, if_false, pure, Except.pure, Except.ok.injEq] at ran
    simp [← ran, reached]

theorem cancel_eq_ok {params : TxnIDParams} (ran : cancel hashData rt params st = .ok st') :
    ∃ tx, st.pendingTxs.get? params.id = some tx ∧ tx.approved.head? = some rt.caller ∧
      st' = { st with pendingTxs := st.pendingTxs.delete params.id } := by
  unfold cancel at ran
  obtain ⟨⟨⟩, -, ran⟩ := Except.bind_eq_ok.mp ran
  cases found : st.pendingTxs.get? params.id with
  | none =>
    simp only [found, bind, Except.bind, throw, throwThe, MonadExceptOf.throw] at ran
    split_ifs at ran
  | some tx =>
    simp only [found, pure, Except.pure, bind, Except.bind, throw, throwThe,
      MonadExceptOf.throw] at ran
    split_ifs at ran with notSigner notFirst mismatch
    exact ⟨tx, rfl, by simpa using notFirst, (Except.ok.inj ran).symm⟩

theorem addSigner_eq_ok {params : AddSignerParams α} (ran : addSigner resolve rt params st = .ok st') :
    ∃ signer, resolveAddress resolve params.signer = .ok signer ∧
      st.signers.length < signersMax ∧ signer ∉ st.signers ∧
      st' = { st with
        signers := st.signers ++ [signer]
        numApprovalsThreshold :=
          if params.increase then st.numApprovalsThreshold + 1 else st.numApprovalsThreshold } := by
  unfold addSigner at ran
  obtain ⟨⟨⟩, -, ran⟩ := Except.bind_eq_ok.mp ran
  obtain ⟨signer, resolved, ran⟩ := Except.bind_eq_ok.mp ran
  simp only [pure, Except.pure, bind, Except.bind, throw, throwThe, MonadExceptOf.throw] at ran
  split_ifs at ran with full already increase
  · exact ⟨signer, resolved, by omega, by simpa [State.isSigner] using already,
      by rw [if_pos increase]; exact (Except.ok.inj ran).symm⟩
  · exact ⟨signer, resolved, by omega, by simpa [State.isSigner] using already,
      by rw [if_neg increase]; exact (Except.ok.inj ran).symm⟩

theorem removeSigner_eq_ok {params : RemoveSignerParams α}
    (ran : removeSigner resolve rt params st = .ok st') :
    ∃ signer, resolveAddress resolve params.signer = .ok signer ∧ signer ∈ st.signers ∧
      st.signers.length ≠ 1 ∧
      (params.decrease = false → st.numApprovalsThreshold ≤ st.signers.length - 1) ∧
      (params.decrease = true → 2 ≤ st.numApprovalsThreshold) ∧
      st' = { st with
        signers := st.signers.filter (· != signer)
        numApprovalsThreshold :=
          if params.decrease then st.numApprovalsThreshold - 1 else st.numApprovalsThreshold
        pendingTxs := (st.purgeApprovals signer).pendingTxs } := by
  unfold removeSigner at ran
  obtain ⟨⟨⟩, -, ran⟩ := Except.bind_eq_ok.mp ran
  obtain ⟨signer, resolved, ran⟩ := Except.bind_eq_ok.mp ran
  refine ⟨signer, resolved, ?_⟩
  simp only [pure, Except.pure, bind, Except.bind, throw, throwThe, MonadExceptOf.throw] at ran
  split_ifs at ran with notSigner only short decrease low
  · -- the threshold is lowered with the signer
    obtain rfl := Except.ok.inj ran
    exact ⟨by simpa [State.isSigner] using notSigner, only, by simp [decrease], fun _ => by omega,
      by simp only [decrease, if_true]; rfl⟩
  · obtain rfl := Except.ok.inj ran
    have kept : params.decrease = false := by simpa using decrease
    exact ⟨by simpa [State.isSigner] using notSigner, only, fun _ => by simp_all,
      by simp [kept], by simp only [kept, Bool.false_eq_true, if_false]; rfl⟩

theorem swapSigner_eq_ok {params : SwapSignerParams α}
    (ran : swapSigner resolve rt params st = .ok st') :
    ∃ fromSigner toSigner, resolveAddress resolve params.fromAddress = .ok fromSigner ∧
      resolveAddress resolve params.toAddress = .ok toSigner ∧
      fromSigner ∈ st.signers ∧ toSigner ∉ st.signers ∧
      st' = { st with
        signers := st.signers.filter (· != fromSigner) ++ [toSigner]
        pendingTxs := (st.purgeApprovals fromSigner).pendingTxs } := by
  unfold swapSigner at ran
  obtain ⟨⟨⟩, -, ran⟩ := Except.bind_eq_ok.mp ran
  obtain ⟨fromSigner, fromResolved, ran⟩ := Except.bind_eq_ok.mp ran
  obtain ⟨toSigner, toResolved, ran⟩ := Except.bind_eq_ok.mp ran
  simp only [pure, Except.pure, bind, Except.bind, throw, throwThe, MonadExceptOf.throw] at ran
  split_ifs at ran with notSigner already
  exact ⟨fromSigner, toSigner, fromResolved, toResolved,
    by simpa [State.isSigner] using notSigner, by simpa [State.isSigner] using already,
    (Except.ok.inj ran).symm⟩

theorem changeNumApprovalsThreshold_eq_ok {params : ChangeNumApprovalsThresholdParams}
    (ran : changeNumApprovalsThreshold rt params st = .ok st') :
    0 < params.newThreshold ∧ params.newThreshold ≤ st.signers.length ∧
      st' = { st with numApprovalsThreshold := params.newThreshold } := by
  unfold changeNumApprovalsThreshold at ran
  obtain ⟨⟨⟩, -, ran⟩ := Except.bind_eq_ok.mp ran
  simp only [pure, Except.pure, bind, Except.bind, throw, throwThe, MonadExceptOf.throw] at ran
  split_ifs at ran with unsupported
  simp only [Bool.or_eq_true, decide_eq_true_eq, not_or, not_lt] at unsupported
  exact ⟨by omega, unsupported.2, (Except.ok.inj ran).symm⟩

theorem lockBalance_eq_ok {params : LockBalanceParams} (ran : lockBalance rt params st = .ok st') :
    st' = st.setLocked params.startEpoch params.unlockDuration params.amount := by
  unfold lockBalance at ran
  obtain ⟨⟨⟩, -, ran⟩ := Except.bind_eq_ok.mp ran
  simp only [pure, Except.pure, bind, Except.bind, throw, throwThe, MonadExceptOf.throw] at ran
  split_ifs at ran
  exact (Except.ok.inj ran).symm

end Inversion

end Forest.Multisig

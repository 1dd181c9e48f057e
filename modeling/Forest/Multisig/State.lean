import Mathlib.Data.Int.Order.Basic
import Forest.Lib.SortedMap

/-!
# The multisig actor's state

A multisig holds a list of signers, the number of approvals a transaction needs, the id of the
next transaction, a linear lock on its balance, and the pending transactions by id, each with
the signers that approved it in order.  The pending transactions are a HAMT in the source; here
they are a `SortedMap`, whose traversal visits the ids in order where the HAMT visits them in
hash order: `purge_approvals` collects before it changes anything, so its result does not depend
on the order.

Addresses are a type `α` with decidable equality, shown in messages by `ToString`: the actor only
compares them.  Store errors of the HAMT (load, flush) are not modelled.
-/

namespace Forest.Multisig

/-- `SIGNERS_MAX`: the most signers a multisig may have. -/
def signersMax : Nat := 256

/-- `TxnID`: the id of a pending transaction, an `i64`. -/
abbrev TxnID := Int

/-- The exit codes the multisig actor and the caller checks of its runtime raise. -/
inductive ExitCode where
  | sysErrForbidden
  | errIllegalArgument
  | errForbidden
  | errNotFound
  | errIllegalState
  | errInsufficientFunds
  deriving DecidableEq, Repr

/-- An actor error: its exit code and message. -/
structure ActorError where
  exitCode : ExitCode
  msg : String
  deriving DecidableEq, Repr

/-- `ActorError::wrap`: prefix the message. -/
def ActorError.wrap (error : ActorError) (msg : String) : ActorError :=
  { error with msg := msg ++ ": " ++ error.msg }

/-- A boxed error: an actor error, or any other error by its text. -/
inductive BoxError where
  | actor (error : ActorError)
  | other (text : String)
  deriving DecidableEq, Repr

/-- `downcast_default`: keep an actor error (wrapped), make any other one an actor error with
the default exit code. -/
def BoxError.downcastDefault (error : BoxError) (defaultExitCode : ExitCode) (msg : String) :
    ActorError :=
  match error with
  | .actor error => error.wrap msg
  | .other text => ⟨defaultExitCode, msg ++ ": " ++ text⟩

/-- `Transaction`: a proposed send, and the signers that approved it in order.  The field `to`
of the source is `toAddress`. -/
structure Transaction (α : Type) where
  toAddress : α
  value : Int
  method : Nat
  params : List UInt8
  approved : List α
  deriving DecidableEq, Repr

/-- The multisig actor's state. -/
structure State (α : Type) where
  signers : List α
  numApprovalsThreshold : Nat
  nextTxId : TxnID
  initialBalance : Int
  startEpoch : Int
  unlockDuration : Int
  pendingTxs : SortedMap TxnID (Transaction α)

/-- `Integer::div_ceil`: the quotient rounded up. -/
def divCeil (numerator denominator : Int) : Int :=
  -Int.fdiv (-numerator) denominator

namespace State

variable {α : Type} [DecidableEq α]

/-- `is_signer`. -/
def isSigner (st : State α) (address : α) : Bool :=
  st.signers.contains address

/-- `set_locked`. -/
def setLocked (st : State α) (startEpoch unlockDuration lockedAmount : Int) : State α :=
  { st with startEpoch := startEpoch, unlockDuration := unlockDuration,
            initialBalance := lockedAmount }

omit [DecidableEq α] in
@[simp] theorem setLocked_signers (st : State α) (startEpoch unlockDuration lockedAmount : Int) :
    (st.setLocked startEpoch unlockDuration lockedAmount).signers = st.signers := rfl

omit [DecidableEq α] in
@[simp] theorem setLocked_numApprovalsThreshold (st : State α)
    (startEpoch unlockDuration lockedAmount : Int) :
    (st.setLocked startEpoch unlockDuration lockedAmount).numApprovalsThreshold =
      st.numApprovalsThreshold := rfl

omit [DecidableEq α] in
@[simp] theorem setLocked_nextTxId (st : State α) (startEpoch unlockDuration lockedAmount : Int) :
    (st.setLocked startEpoch unlockDuration lockedAmount).nextTxId = st.nextTxId := rfl

omit [DecidableEq α] in
@[simp] theorem setLocked_pendingTxs (st : State α) (startEpoch unlockDuration lockedAmount : Int) :
    (st.setLocked startEpoch unlockDuration lockedAmount).pendingTxs = st.pendingTxs := rfl

/-- `amount_locked`: the initial balance, released linearly over the unlock duration and
rounded up. -/
def amountLocked (st : State α) (elapsedEpoch : Int) : Int :=
  if elapsedEpoch ≥ st.unlockDuration then 0
  else if elapsedEpoch ≤ 0 then st.initialBalance
  else
    let remainingLockDuration := st.unlockDuration - elapsedEpoch
    let numerator := st.initialBalance * remainingLockDuration
    let denominator := st.unlockDuration
    divCeil numerator denominator

/-- `check_available`: the value may be spent from the balance without touching what is still
locked. -/
def checkAvailable (st : State α) (balance amountToSpend currEpoch : Int) : Except String Unit := do
  if amountToSpend < 0 then
    throw s!"amount to spend {amountToSpend} less than zero"
  if balance < amountToSpend then
    throw s!"current balance {balance} less than amount to spend {amountToSpend}"
  if amountToSpend = 0 then
    -- a transaction that sends no value is always permitted
    return ()
  let remainingBalance := balance - amountToSpend
  let amountLocked := st.amountLocked (currEpoch - st.startEpoch)
  if remainingBalance < amountLocked then
    throw s!"actor balance {remainingBalance} if spent {amountToSpend} would be less than required locked amount {amountLocked}"

/-- One update of `purge_approvals`: drop the address from the approvals of a collected
transaction, and keep the transaction only if approvals are left. -/
def purgeApproval (addr : α) (txns : SortedMap TxnID (Transaction α))
    (entry : TxnID × Transaction α) : SortedMap TxnID (Transaction α) :=
  let txn := { entry.2 with approved := entry.2.approved.filter (· != addr) }
  if !txn.approved.isEmpty then txns.set entry.1 txn else txns.delete entry.1

/-- `purge_approvals`: remove an address from the approvals of every pending transaction, and
delete the transactions left without approvals. -/
def purgeApprovals (st : State α) (addr : α) : State α :=
  let txnIdsToPurge := st.pendingTxs.entries.filter fun entry => entry.2.approved.contains addr
  { st with pendingTxs := txnIdsToPurge.foldl (purgeApproval addr) st.pendingTxs }

/-- What `purge_approvals` does to one pending transaction: nothing if the address did not
approve it; otherwise drop the approval, and the transaction if none is left. -/
def purgedTransaction (addr : α) (txn : Transaction α) : Option (Transaction α) :=
  if txn.approved.contains addr then
    if (txn.approved.filter (· != addr)).isEmpty then none
    else some { txn with approved := txn.approved.filter (· != addr) }
  else some txn

theorem get?_purgeApproval (addr : α) (txns : SortedMap TxnID (Transaction α))
    (entry : TxnID × Transaction α) (id : TxnID) :
    (purgeApproval addr txns entry).get? id =
      if entry.1 = id then
        (if (entry.2.approved.filter (· != addr)).isEmpty then none
          else some { entry.2 with approved := entry.2.approved.filter (· != addr) })
      else txns.get? id := by
  unfold purgeApproval
  by_cases same : entry.1 = id
  · by_cases emptied : (entry.2.approved.filter (· != addr)).isEmpty <;> simp [emptied, same]
  · have other : id ≠ entry.1 := Ne.symm same
    by_cases emptied : (entry.2.approved.filter (· != addr)).isEmpty <;> simp [emptied, same, other]

/-- The updates of `purge_approvals` over entries with distinct keys: each key collected is
purged, every other key keeps its transaction. -/
theorem get?_foldl_purgeApproval (addr : α) (id : TxnID) :
    ∀ {collected : List (TxnID × Transaction α)} (txns : SortedMap TxnID (Transaction α)),
      collected.Pairwise (fun earlier later => earlier.1 < later.1) →
      (collected.foldl (purgeApproval addr) txns).get? id =
        match SortedMap.find? id collected with
        | some txn =>
          if (txn.approved.filter (· != addr)).isEmpty then none
          else some { txn with approved := txn.approved.filter (· != addr) }
        | none => txns.get? id
  | [], _, _ => rfl
  | first :: rest, txns, sorted => by
    obtain ⟨firstBelow, restSorted⟩ := List.pairwise_cons.mp sorted
    rw [List.foldl_cons, get?_foldl_purgeApproval addr id _ restSorted, get?_purgeApproval]
    by_cases isFirst : first.1 = id
    · -- the later keys are above the first, so the first entry is the one found
      have restNone : SortedMap.find? id rest = none :=
        SortedMap.find?_eq_none_of_forall_ne fun entry member same => by
          have above := firstBelow entry member
          rw [same, isFirst] at above
          exact lt_irrefl id above
      simp [restNone, SortedMap.find?, isFirst]
    · cases found : SortedMap.find? id rest <;> simp [SortedMap.find?, isFirst, found]

/-- After `purge_approvals`, each pending transaction is what `purgedTransaction` makes of it. -/
theorem get?_purgeApprovals (st : State α) (addr : α) (id : TxnID) :
    (st.purgeApprovals addr).pendingTxs.get? id = (st.pendingTxs.get? id).bind (purgedTransaction addr) := by
  unfold purgeApprovals
  dsimp only
  rw [get?_foldl_purgeApproval addr id _ (st.pendingTxs.sorted.filter _),
    SortedMap.find?_filter_entries _ _ st.pendingTxs.sorted]
  cases pending : SortedMap.find? id st.pendingTxs.entries with
  | none => simp [SortedMap.get?, pending]
  | some txn =>
    by_cases approvedBy : addr ∈ txn.approved <;>
      simp [Option.filter, approvedBy, SortedMap.get?, pending, purgedTransaction]

@[simp] theorem purgeApprovals_signers (st : State α) (addr : α) :
    (st.purgeApprovals addr).signers = st.signers := rfl

@[simp] theorem purgeApprovals_numApprovalsThreshold (st : State α) (addr : α) :
    (st.purgeApprovals addr).numApprovalsThreshold = st.numApprovalsThreshold := rfl

@[simp] theorem purgeApprovals_nextTxId (st : State α) (addr : α) :
    (st.purgeApprovals addr).nextTxId = st.nextTxId := rfl

end State

end Forest.Multisig

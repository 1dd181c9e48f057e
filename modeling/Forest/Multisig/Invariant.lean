import Forest.Lib.Reentrant
import Forest.Multisig.Actor

/-!
# Runs of the multisig, and what every run keeps

A transaction that `propose` or `approve` executes is sent through the runtime, and the send may
call the multisig again before the transaction is deleted: a signer change proposed to the
multisig itself runs as such a nested call, as may a `propose`, `approve` or `cancel` from
another actor.  What a nested send does to the state is therefore a run of the multisig itself,
and the runs are the least solution of that equation (`Reentrant.runs`): `Call nested` is one
successful call whose sends do what `nested` allows.  A failed call, nested or not, is reverted
and leaves no trace.

Each call records the pending transactions it removes, as `Removal`s carrying what the removal
rests on.  Over every run from a constructed state, `Invariant` holds (distinct signers, a
threshold between 1 and their number, at most `SIGNERS_MAX` of them, and approvals of every
pending transaction that are some, distinct and by signers, under ids below the next one), and
every pending transaction that disappears was executed with its approvals at the threshold,
cancelled by its first approver, or purged of its last approvals (`Accounted`).
-/

namespace Forest.Multisig

open Reentrant

/-- How a pending transaction leaves the map, with what its removal rests on. -/
inductive Removal (α : Type) where
  /-- `execute_transaction_if_approved` deleted it after the send: its approvals, and the
  threshold they met. -/
  | executed (id : TxnID) (approved : List α) (threshold : Nat)
  /-- `cancel` deleted it: the caller, and its approvals. -/
  | cancelled (id : TxnID) (caller : α) (approved : List α)
  /-- `purge_approvals` deleted it: the signer purged, and its approvals before. -/
  | purged (id : TxnID) (signer : α) (approved : List α)

namespace Removal

variable {α : Type}

/-- The id of the transaction removed. -/
def txnId : Removal α → TxnID
  | executed id _ _ => id
  | cancelled id _ _ => id
  | purged id _ _ => id

/-- The removal is one of those the multisig allows: an execution whose approvals met the
threshold, a cancellation by the first approver, or a purge of the only signer that approved. -/
def Justified : Removal α → Prop
  | executed _ approved threshold => threshold ≤ approved.length
  | cancelled _ caller approved => approved.head? = some caller
  | purged _ signer approved => approved ≠ [] ∧ ∀ approver ∈ approved, approver = signer

end Removal

variable {α : Type} [DecidableEq α] [ToString α]

/-- The removals of `purge_approvals`: the pending transactions the signer alone approved. -/
def State.purgeRemovals (st : State α) (signer : α) : List (Removal α) :=
  (st.pendingTxs.entries.filter fun entry =>
      entry.2.approved.contains signer && (entry.2.approved.filter (· != signer)).isEmpty).map
    fun entry => .purged entry.1 signer entry.2.approved

section Semantics

variable (resolve : α → Except BoxError α) (hashData : ProposalHashData α → List UInt8)

/-- `execute_transaction_if_approved` from `st`: below the threshold nothing happens; at it,
the transaction is sent, what the send does to the state is what `nested` allows, and the
transaction is then deleted. -/
inductive ExecuteIfApproved (nested : State α → List (Removal α) → State α → Prop)
    (rt : Runtime α) (txnId : TxnID) (txn : Transaction α) :
    State α → Bool → List (Removal α) → State α → Prop
  | notApproved {st : State α} (check : executeCheck rt st txn = .ok false) :
      ExecuteIfApproved nested rt txnId txn st false [] st
  | executed {st sent : State α} {removals : List (Removal α)}
      (check : executeCheck rt st txn = .ok true) (send : nested st removals sent) :
      ExecuteIfApproved nested rt txnId txn st true
        (removals ++ [.executed txnId txn.approved st.numApprovalsThreshold])
        (deleteTransaction txnId sent)

/-- One successful call of a method of the multisig, with the removals it records, whose sends
do what `nested` allows.  `approve` either executes the transaction at once, its approvals
already meeting the threshold, or adds the caller's approval and then tries. -/
inductive Call (nested : State α → List (Removal α) → State α → Prop) :
    State α → List (Removal α) → State α → Prop
  | propose {rt : Runtime α} {params : ProposeParams α} {st proposed approvedState after : State α}
      {tId : TxnID} {txn approvedTxn : Transaction α} {applied : Bool}
      {removals : List (Removal α)}
      (proposing : proposeTransaction rt params st = .ok (proposed, tId, txn))
      (approving : approveTransaction rt tId txn proposed = .ok (approvedState, approvedTxn))
      (executing : ExecuteIfApproved nested rt tId approvedTxn approvedState applied removals after) :
      Call nested st removals after
  | approveExecuted {rt : Runtime α} {params : TxnIDParams} {st after : State α}
      {txn : Transaction α} {removals : List (Removal α)}
      (lookup : approveLookup hashData rt params st = .ok txn)
      (executing : ExecuteIfApproved nested rt params.id txn st true removals after) :
      Call nested st removals after
  | approveApproved {rt : Runtime α} {params : TxnIDParams} {st approvedState after : State α}
      {txn approvedTxn : Transaction α} {applied : Bool} {removals : List (Removal α)}
      (lookup : approveLookup hashData rt params st = .ok txn)
      (notYet : ExecuteIfApproved nested rt params.id txn st false [] st)
      (approving : approveTransaction rt params.id txn st = .ok (approvedState, approvedTxn))
      (executing :
        ExecuteIfApproved nested rt params.id approvedTxn approvedState applied removals after) :
      Call nested st removals after
  | cancel {rt : Runtime α} {params : TxnIDParams} {st after : State α} {txn : Transaction α}
      (pending : st.pendingTxs.get? params.id = some txn)
      (cancelled : cancel hashData rt params st = .ok after) :
      Call nested st [.cancelled params.id rt.caller txn.approved] after
  | addSigner {rt : Runtime α} {params : AddSignerParams α} {st after : State α}
      (added : addSigner resolve rt params st = .ok after) :
      Call nested st [] after
  | removeSigner {rt : Runtime α} {params : RemoveSignerParams α} {st after : State α} {signer : α}
      (resolved : resolveAddress resolve params.signer = .ok signer)
      (removed : removeSigner resolve rt params st = .ok after) :
      Call nested st (st.purgeRemovals signer) after
  | swapSigner {rt : Runtime α} {params : SwapSignerParams α} {st after : State α} {signer : α}
      (resolved : resolveAddress resolve params.fromAddress = .ok signer)
      (swapped : swapSigner resolve rt params st = .ok after) :
      Call nested st (st.purgeRemovals signer) after
  | changeNumApprovalsThreshold {rt : Runtime α} {params : ChangeNumApprovalsThresholdParams}
      {st after : State α} (changed : changeNumApprovalsThreshold rt params st = .ok after) :
      Call nested st [] after
  | lockBalance {rt : Runtime α} {params : LockBalanceParams} {st after : State α}
      (locked : lockBalance rt params st = .ok after) :
      Call nested st [] after

variable {resolve hashData}

omit [DecidableEq α] [ToString α] in
theorem ExecuteIfApproved.mono {nested nested' : State α → List (Removal α) → State α → Prop}
    (le : nested ≤ nested') {rt : Runtime α} {txnId : TxnID} {txn : Transaction α}
    {st after : State α} {applied : Bool} {removals : List (Removal α)}
    (executing : ExecuteIfApproved nested rt txnId txn st applied removals after) :
    ExecuteIfApproved nested' rt txnId txn st applied removals after := by
  cases executing with
  | notApproved check => exact .notApproved check
  | executed check send => exact .executed check (le _ _ _ send)

theorem Call.mono {nested nested' : State α → List (Removal α) → State α → Prop}
    (le : nested ≤ nested') : Call resolve hashData nested ≤ Call resolve hashData nested' := by
  intro st removals after called
  cases called with
  | propose proposing approving executing => exact .propose proposing approving (executing.mono le)
  | approveExecuted lookup executing => exact .approveExecuted lookup (executing.mono le)
  | approveApproved lookup notYet approving executing =>
    exact .approveApproved lookup (notYet.mono le) approving (executing.mono le)
  | cancel pending cancelled => exact .cancel pending cancelled
  | addSigner added => exact .addSigner added
  | removeSigner resolved removed => exact .removeSigner resolved removed
  | swapSigner resolved swapped => exact .swapSigner resolved swapped
  | changeNumApprovalsThreshold changed => exact .changeNumApprovalsThreshold changed
  | lockBalance locked => exact .lockBalance locked

variable (resolve hashData)

/-- The calls, as an operator on what their sends may do. -/
def calls : (State α → List (Removal α) → State α → Prop) →o
    (State α → List (Removal α) → State α → Prop) where
  toFun := Call resolve hashData
  monotone' _ _ le := Call.mono le

/-- The runs of the multisig: sequences of successful calls whose sends are runs. -/
def Runs : State α → List (Removal α) → State α → Prop :=
  runs (calls resolve hashData)

end Semantics

/-! ## The invariant -/

/-- The approvals of a pending transaction: there are some, they are distinct, and each is by a
signer. -/
structure ApprovalsValid (signers approved : List α) : Prop where
  nonempty : approved ≠ []
  nodup : approved.Nodup
  bySigners : ∀ approver ∈ approved, approver ∈ signers

/-- The multisig invariant: distinct signers, at most `SIGNERS_MAX` of them, a threshold between
1 and their number, and pending transactions with valid approvals under ids below the next. -/
structure Invariant (st : State α) : Prop where
  signersNodup : st.signers.Nodup
  thresholdPos : 1 ≤ st.numApprovalsThreshold
  thresholdLe : st.numApprovalsThreshold ≤ st.signers.length
  signersLe : st.signers.length ≤ signersMax
  approvals : ∀ id txn, st.pendingTxs.get? id = some txn → ApprovalsValid st.signers txn.approved
  idsBelow : ∀ id txn, st.pendingTxs.get? id = some txn → id < st.nextTxId

section Invariant

variable {resolve : α → Except BoxError α} {hashData : ProposalHashData α → List UInt8}
  {rt : Runtime α} {st st' : State α}

omit [DecidableEq α] [ToString α] in
theorem ApprovalsValid.of_subset {signers signers' approved : List α}
    (valid : ApprovalsValid signers approved) (grown : ∀ signer ∈ signers, signer ∈ signers') :
    ApprovalsValid signers' approved :=
  ⟨valid.nonempty, valid.nodup, fun approver member => grown approver (valid.bySigners approver member)⟩

omit [DecidableEq α] [ToString α] in
/-- A signer that has not approved yet adds an approval. -/
theorem ApprovalsValid.append {signers approved : List α} {caller : α} (nodup : approved.Nodup)
    (bySigners : ∀ approver ∈ approved, approver ∈ signers) (signer : caller ∈ signers)
    (fresh : caller ∉ approved) : ApprovalsValid signers (approved ++ [caller]) := by
  refine ⟨by simp, nodup.append (List.nodup_singleton caller) (List.disjoint_singleton.mpr fresh),
    fun approver member => ?_⟩
  rcases List.mem_append.mp member with before | isCaller
  · exact bySigners approver before
  · rw [List.mem_singleton.mp isCaller]
    exact signer

omit [ToString α] in
/-- What `purge_approvals` leaves of valid approvals is valid among the other signers. -/
theorem ApprovalsValid.purge {signers : List α} {signer : α} {txn purged : Transaction α}
    (valid : ApprovalsValid signers txn.approved)
    (kept : State.purgedTransaction signer txn = some purged) :
    ApprovalsValid (signers.filter (· != signer)) purged.approved := by
  unfold State.purgedTransaction at kept
  split_ifs at kept with approvedBy emptied
  · -- the signer's approval is dropped, and others are left
    cases kept
    refine ⟨by simpa using emptied, valid.nodup.filter _, fun approver member => ?_⟩
    obtain ⟨approvedBefore, other⟩ := List.mem_filter.mp member
    exact List.mem_filter.mpr ⟨valid.bySigners approver approvedBefore, other⟩
  · -- the signer did not approve, so every approver is another signer
    cases kept
    refine ⟨valid.nonempty, valid.nodup, fun approver member => ?_⟩
    have other : approver ≠ signer := fun same => approvedBy (by simpa [same] using member)
    exact List.mem_filter.mpr ⟨valid.bySigners approver member, by simpa using other⟩

omit [ToString α] in
theorem length_filter_ne_of_mem {signers : List α} {signer : α} (nodup : signers.Nodup)
    (member : signer ∈ signers) : (signers.filter (· != signer)).length = signers.length - 1 := by
  rw [← nodup.erase_eq_filter, List.length_erase_of_mem member]

theorem invariant_of_constructor {initActorAddr : α} {params : ConstructorParams α}
    (ran : constructor resolve initActorAddr rt params = .ok st) : Invariant st := by
  obtain ⟨nodup, thresholdPos, thresholdLe, signersLe, empty, -⟩ := constructor_eq_ok ran
  refine ⟨nodup, thresholdPos, thresholdLe, signersLe, fun id txn pending => ?_,
    fun id txn pending => ?_⟩ <;> simp [empty] at pending

omit [DecidableEq α] [ToString α] in
/-- A change of the pending transactions alone keeps the invariant when every transaction it
leaves is valid and below the next id. -/
theorem Invariant.withPending (inv : Invariant st) (sameSigners : st'.signers = st.signers)
    (sameThreshold : st'.numApprovalsThreshold = st.numApprovalsThreshold)
    (pending : ∀ id txn, st'.pendingTxs.get? id = some txn →
      ApprovalsValid st.signers txn.approved ∧ id < st'.nextTxId) : Invariant st' := by
  refine ⟨?_, ?_, ?_, ?_, fun id txn found => ?_, fun id txn found => (pending id txn found).2⟩
  · rw [sameSigners]
    exact inv.signersNodup
  · rw [sameThreshold]
    exact inv.thresholdPos
  · rw [sameSigners, sameThreshold]
    exact inv.thresholdLe
  · rw [sameSigners]
    exact inv.signersLe
  · rw [sameSigners]
    exact (pending id txn found).1

omit [DecidableEq α] [ToString α] in
theorem Invariant.deleteTransaction (inv : Invariant st) (txnId : TxnID) :
    Invariant (deleteTransaction txnId st) :=
  inv.withPending rfl rfl fun id txn found => by
    simp only [Multisig.deleteTransaction, SortedMap.get?_delete] at found
    split at found
    · cases found
    · exact ⟨inv.approvals id txn found, inv.idsBelow id txn found⟩

omit [DecidableEq α] [ToString α] in
theorem Invariant.store (inv : Invariant st) {txId : TxnID} {txn : Transaction α}
    (below : txId < st.nextTxId) (valid : ApprovalsValid st.signers txn.approved) :
    Invariant { st with pendingTxs := st.pendingTxs.set txId txn } :=
  inv.withPending rfl rfl fun id stored found => by
    simp only [SortedMap.get?_set] at found
    split at found
    · rename_i same
      cases found
      exact ⟨valid, same ▸ below⟩
    · exact ⟨inv.approvals id stored found, inv.idsBelow id stored found⟩

omit [DecidableEq α] [ToString α] in
theorem Invariant.nextTxId_succ (inv : Invariant st) :
    Invariant { st with nextTxId := st.nextTxId + 1 } :=
  inv.withPending rfl rfl fun id txn found =>
    ⟨inv.approvals id txn found, (inv.idsBelow id txn found).trans (Int.lt_succ st.nextTxId)⟩

/-- `propose` up to the send: the new transaction is stored with the proposer's approval under
the next id. -/
theorem Invariant.propose (inv : Invariant st) {params : ProposeParams α}
    {proposed approvedState : State α} {tId : TxnID} {txn approvedTxn : Transaction α}
    (proposing : proposeTransaction rt params st = .ok (proposed, tId, txn))
    (approving : approveTransaction rt tId txn proposed = .ok (approvedState, approvedTxn)) :
    Invariant approvedState := by
  obtain ⟨signer, proposedEq⟩ := proposeTransaction_eq_ok proposing
  simp only [Prod.mk.injEq] at proposedEq
  obtain ⟨rfl, rfl, rfl⟩ := proposedEq
  obtain ⟨-, approvedEq⟩ := approveTransaction_eq_ok approving
  simp only [Prod.mk.injEq] at approvedEq
  obtain ⟨rfl, -⟩ := approvedEq
  -- the transaction stored with no approvals is overwritten with the proposer's
  simp only [SortedMap.set_set]
  exact inv.nextTxId_succ.store (Int.lt_succ st.nextTxId)
    (ApprovalsValid.append List.nodup_nil (by simp) (by simpa [State.isSigner] using signer)
      (List.not_mem_nil))

/-- `approve` up to the send: the caller's approval is added to a pending transaction. -/
theorem Invariant.approve (inv : Invariant st) {params : TxnIDParams}
    {approvedState : State α} {txn approvedTxn : Transaction α}
    (lookup : approveLookup hashData rt params st = .ok txn)
    (approving : approveTransaction rt params.id txn st = .ok (approvedState, approvedTxn)) :
    Invariant approvedState := by
  obtain ⟨signer, found⟩ := approveLookup_eq_ok lookup
  obtain ⟨fresh, approvedEq⟩ := approveTransaction_eq_ok approving
  simp only [Prod.mk.injEq] at approvedEq
  obtain ⟨rfl, -⟩ := approvedEq
  have valid := inv.approvals params.id txn found
  exact inv.store (inv.idsBelow params.id txn found)
    (ApprovalsValid.append valid.nodup valid.bySigners (by simpa [State.isSigner] using signer) fresh)

theorem Invariant.addSigner (inv : Invariant st) {params : AddSignerParams α}
    (ran : Multisig.addSigner resolve rt params st = .ok st') : Invariant st' := by
  obtain ⟨signer, -, room, fresh, rfl⟩ := addSigner_eq_ok ran
  have thresholdPos := inv.thresholdPos
  have thresholdLe := inv.thresholdLe
  refine ⟨inv.signersNodup.append (List.nodup_singleton signer) (List.disjoint_singleton.mpr fresh),
    ?_, ?_, ?_, fun id txn found => (inv.approvals id txn found).of_subset
      fun _ member => List.mem_append_left _ member, inv.idsBelow⟩
  · dsimp only
    split <;> omega
  · simp only [List.length_append, List.length_singleton]
    split <;> omega
  · simp only [List.length_append, List.length_singleton]
    omega

omit [ToString α] in
/-- What `purge_approvals` leaves pending is valid among the other signers, under an old id. -/
theorem Invariant.purged (inv : Invariant st) {signer : α} {id : TxnID} {purged : Transaction α}
    (found : (st.purgeApprovals signer).pendingTxs.get? id = some purged) :
    ApprovalsValid (st.signers.filter (· != signer)) purged.approved ∧ id < st.nextTxId := by
  rw [State.get?_purgeApprovals, Option.bind_eq_some_iff] at found
  obtain ⟨txn, pending, kept⟩ := found
  exact ⟨(inv.approvals id txn pending).purge kept, inv.idsBelow id txn pending⟩

theorem Invariant.removeSigner (inv : Invariant st) {params : RemoveSignerParams α}
    (ran : Multisig.removeSigner resolve rt params st = .ok st') : Invariant st' := by
  obtain ⟨signer, -, member, notOnly, kept, lowered, rfl⟩ := removeSigner_eq_ok ran
  have fewer := length_filter_ne_of_mem inv.signersNodup member
  have several : 2 ≤ st.signers.length := by
    have := List.length_pos_of_mem member
    omega
  have thresholdPos := inv.thresholdPos
  have thresholdLe := inv.thresholdLe
  have signersLe := inv.signersLe
  refine ⟨inv.signersNodup.filter _, ?_, ?_, ?_, fun id txn found => (inv.purged found).1,
    fun id txn found => (inv.purged found).2⟩
  · -- a lowered threshold was at least 2
    dsimp only
    split
    · have := lowered (by assumption)
      omega
    · omega
  · dsimp only
    rw [fewer]
    split
    · omega
    · exact kept (by simpa using ‹¬params.decrease = true›)
  · dsimp only
    omega

theorem Invariant.swapSigner (inv : Invariant st) {params : SwapSignerParams α}
    (ran : Multisig.swapSigner resolve rt params st = .ok st') : Invariant st' := by
  obtain ⟨fromSigner, toSigner, -, -, member, fresh, rfl⟩ := swapSigner_eq_ok ran
  have fewer := length_filter_ne_of_mem inv.signersNodup member
  have swapped : (st.signers.filter (· != fromSigner) ++ [toSigner]).length = st.signers.length := by
    have := List.length_pos_of_mem member
    simp only [List.length_append, List.length_singleton, fewer]
    omega
  have freshAfter : toSigner ∉ st.signers.filter (· != fromSigner) := fun kept =>
    fresh (List.mem_filter.mp kept).1
  refine ⟨(inv.signersNodup.filter _).append (List.nodup_singleton toSigner)
      (List.disjoint_singleton.mpr freshAfter), inv.thresholdPos, ?_, ?_,
    fun id txn found => (inv.purged found).1.of_subset fun _ kept => List.mem_append_left _ kept,
    fun id txn found => (inv.purged found).2⟩
  · dsimp only
    rw [swapped]
    exact inv.thresholdLe
  · dsimp only
    rw [swapped]
    exact inv.signersLe

theorem Invariant.changeNumApprovalsThreshold (inv : Invariant st)
    {params : ChangeNumApprovalsThresholdParams}
    (ran : Multisig.changeNumApprovalsThreshold rt params st = .ok st') : Invariant st' := by
  obtain ⟨positive, atMost, rfl⟩ := changeNumApprovalsThreshold_eq_ok ran
  exact ⟨inv.signersNodup, positive, atMost, inv.signersLe, inv.approvals, inv.idsBelow⟩

theorem Invariant.lockBalance (inv : Invariant st) {params : LockBalanceParams}
    (ran : Multisig.lockBalance rt params st = .ok st') : Invariant st' := by
  rw [lockBalance_eq_ok ran]
  exact ⟨inv.signersNodup, inv.thresholdPos, inv.thresholdLe, inv.signersLe, inv.approvals,
    inv.idsBelow⟩

omit [DecidableEq α] [ToString α] in
/-- `execute_transaction_if_approved` keeps the invariant when its send does. -/
theorem ExecuteIfApproved.invariant {nested : State α → List (Removal α) → State α → Prop}
    (nestedKeeps : ∀ first removals last, nested first removals last → Invariant first →
      Invariant last)
    {txnId : TxnID} {txn : Transaction α} {applied : Bool} {removals : List (Removal α)}
    (executing : ExecuteIfApproved nested rt txnId txn st applied removals st')
    (inv : Invariant st) : Invariant st' := by
  cases executing with
  | notApproved => exact inv
  | executed _ send => exact (nestedKeeps _ _ _ send inv).deleteTransaction txnId

/-- One call keeps the invariant when its sends do. -/
theorem Invariant.call {nested : State α → List (Removal α) → State α → Prop}
    (nestedKeeps : ∀ first removals last, nested first removals last → Invariant first →
      Invariant last)
    {removals : List (Removal α)} (called : Call resolve hashData nested st removals st')
    (inv : Invariant st) : Invariant st' := by
  cases called with
  | propose proposing approving executing =>
    exact executing.invariant nestedKeeps (inv.propose proposing approving)
  | approveExecuted _ executing => exact executing.invariant nestedKeeps inv
  | approveApproved lookup _ approving executing =>
    exact executing.invariant nestedKeeps (inv.approve lookup approving)
  | cancel _ cancelled =>
    obtain ⟨_, -, -, rfl⟩ := cancel_eq_ok cancelled
    exact inv.deleteTransaction _
  | addSigner added => exact inv.addSigner added
  | removeSigner _ removed => exact inv.removeSigner removed
  | swapSigner _ swapped => exact inv.swapSigner swapped
  | changeNumApprovalsThreshold changed => exact inv.changeNumApprovalsThreshold changed
  | lockBalance locked => exact inv.lockBalance locked

/-- Every run keeps the invariant, nested sends included. -/
theorem Invariant.runs {removals : List (Removal α)} (run : Runs resolve hashData st removals st')
    (inv : Invariant st) : Invariant st' :=
  runs_invariant Invariant (fun _ nestedKeeps _ _ _ called inv => Invariant.call nestedKeeps called inv)
    run inv

end Invariant

/-! ## Every removal is accounted for -/

/-- From `st` to `st'` with the removals recorded: each removal is justified, and each
transaction pending in `st` and gone in `st'` has a removal under its id. -/
def Accounted (st : State α) (removals : List (Removal α)) (st' : State α) : Prop :=
  (∀ removal ∈ removals, removal.Justified) ∧
    ∀ id txn, st.pendingTxs.get? id = some txn → st'.pendingTxs.get? id = none →
      ∃ removal ∈ removals, removal.txnId = id

section Accounted

variable {resolve : α → Except BoxError α} {hashData : ProposalHashData α → List UInt8}
  {rt : Runtime α} {st st' : State α}

omit [DecidableEq α] [ToString α] in
theorem Accounted.refl (st : State α) : Accounted st [] st := by
  refine ⟨fun _ member => (nomatch member), fun id txn pending gone => ?_⟩
  rw [pending] at gone
  cases gone

omit [DecidableEq α] [ToString α] in
theorem Accounted.trans {first middle last : State α} {before after : List (Removal α)}
    (earlier : Accounted first before middle) (later : Accounted middle after last) :
    Accounted first (before ++ after) last := by
  refine ⟨fun removal member => ?_, fun id txn pending gone => ?_⟩
  · rcases List.mem_append.mp member with inBefore | inAfter
    · exact earlier.1 removal inBefore
    · exact later.1 removal inAfter
  · -- the transaction is gone by the middle state, or goes after it
    cases between : middle.pendingTxs.get? id with
    | none =>
      obtain ⟨removal, member, named⟩ := earlier.2 id txn pending between
      exact ⟨removal, List.mem_append_left _ member, named⟩
    | some txn' =>
      obtain ⟨removal, member, named⟩ := later.2 id txn' between gone
      exact ⟨removal, List.mem_append_right _ member, named⟩

omit [DecidableEq α] [ToString α] in
/-- A change that removes no pending transaction needs no removal. -/
theorem Accounted.of_kept
    (kept : ∀ id txn, st.pendingTxs.get? id = some txn → (st'.pendingTxs.get? id).isSome) :
    Accounted st [] st' := by
  refine ⟨fun _ member => (nomatch member), fun id txn pending gone => ?_⟩
  have present := kept id txn pending
  rw [gone] at present
  cases present

omit [DecidableEq α] [ToString α] in
/-- Storing a transaction removes none. -/
theorem Accounted.stored {txId : TxnID} {txn : Transaction α}
    (stored : st'.pendingTxs = st.pendingTxs.set txId txn) : Accounted st [] st' :=
  Accounted.of_kept fun id old pending => by
    rw [stored, SortedMap.get?_set]
    split
    · rfl
    · rw [pending]
      rfl

omit [DecidableEq α] [ToString α] in
/-- Deleting a transaction after a run, with a justified removal under its id. -/
theorem Accounted.deleteTransaction {removals : List (Removal α)}
    (accounted : Accounted st removals st') {removal : Removal α} (justified : removal.Justified) :
    Accounted st (removals ++ [removal]) (deleteTransaction removal.txnId st') := by
  refine ⟨fun other member => ?_, fun id txn pending gone => ?_⟩
  · rcases List.mem_append.mp member with earlier | isNew
    · exact accounted.1 other earlier
    · rw [List.mem_singleton.mp isNew]
      exact justified
  · by_cases same : id = removal.txnId
    · exact ⟨removal, List.mem_append_right _ (List.mem_singleton_self removal), same.symm⟩
    · simp only [Multisig.deleteTransaction, SortedMap.get?_delete, same, if_false] at gone
      obtain ⟨other, member, named⟩ := accounted.2 id txn pending gone
      exact ⟨other, List.mem_append_left _ member, named⟩

omit [ToString α] in
/-- The removals `purge_approvals` records account for what it deletes, and each is the purge
of a transaction that the signer alone approved. -/
theorem Accounted.purgeApprovals (signer : α)
    (purged : st'.pendingTxs = (st.purgeApprovals signer).pendingTxs) :
    Accounted st (st.purgeRemovals signer) st' := by
  refine ⟨fun removal member => ?_, fun id txn pending gone => ?_⟩
  · obtain ⟨⟨id, txn⟩, collected, rfl⟩ := List.mem_map.mp member
    have test := (List.mem_filter.mp collected).2
    simp only [Bool.and_eq_true, List.contains_iff_mem, List.isEmpty_iff, List.filter_eq_nil_iff,
      bne_iff_ne, ne_eq, not_not] at test
    exact ⟨List.ne_nil_of_mem test.1, test.2⟩
  · -- a transaction that `purge_approvals` deletes is one it collected
    rw [purged, State.get?_purgeApprovals, pending, Option.bind_some] at gone
    unfold State.purgedTransaction at gone
    split_ifs at gone with approvedBy emptied
    refine ⟨.purged id signer txn.approved, List.mem_map.mpr ⟨(id, txn), ?_, rfl⟩, rfl⟩
    exact List.mem_filter.mpr ⟨(SortedMap.mem_entries_iff _).mpr pending, by simp only [approvedBy, emptied, Bool.and_self]⟩

omit [DecidableEq α] [ToString α] in
/-- `execute_transaction_if_approved` accounts for its removals when its send does: the
transaction it deletes met the threshold. -/
theorem ExecuteIfApproved.accounted {txnId : TxnID} {txn : Transaction α} {applied : Bool}
    {removals : List (Removal α)}
    (executing : ExecuteIfApproved Accounted rt txnId txn st applied removals st') :
    Accounted st removals st' := by
  cases executing with
  | notApproved => exact .refl _
  | executed check send =>
    have reached : st.numApprovalsThreshold ≤ txn.approved.length :=
      of_decide_eq_true (executeCheck_eq_ok check).symm
    exact send.deleteTransaction
      (show (Removal.executed txnId txn.approved st.numApprovalsThreshold).Justified from reached)

/-- One call accounts for its removals when its sends do. -/
theorem Accounted.call {removals : List (Removal α)}
    (called : Call resolve hashData Accounted st removals st') : Accounted st removals st' := by
  cases called with
  | propose proposing approving executing =>
    obtain ⟨-, proposedEq⟩ := proposeTransaction_eq_ok proposing
    obtain ⟨-, approvedEq⟩ := approveTransaction_eq_ok approving
    simp only [Prod.mk.injEq] at proposedEq approvedEq
    obtain ⟨rfl, rfl, rfl⟩ := proposedEq
    obtain ⟨rfl, -⟩ := approvedEq
    -- the transaction proposed is stored twice, first with no approvals
    exact (Accounted.stored (SortedMap.set_set _ _ _ _)).trans executing.accounted
  | approveExecuted _ executing => exact executing.accounted
  | approveApproved _ _ approving executing =>
    obtain ⟨-, approvedEq⟩ := approveTransaction_eq_ok approving
    simp only [Prod.mk.injEq] at approvedEq
    obtain ⟨rfl, -⟩ := approvedEq
    exact (Accounted.stored rfl).trans executing.accounted
  | @cancel rt params _ _ txn pending cancelled =>
    obtain ⟨found, foundEq, first, rfl⟩ := cancel_eq_ok cancelled
    rw [pending] at foundEq
    cases foundEq
    exact (Accounted.refl st).deleteTransaction
      (show (Removal.cancelled params.id rt.caller txn.approved).Justified from first)
  | addSigner added =>
    obtain ⟨-, -, -, -, rfl⟩ := addSigner_eq_ok added
    exact .refl _
  | removeSigner resolved removed =>
    obtain ⟨signer, resolvedAgain, -, -, -, -, rfl⟩ := removeSigner_eq_ok removed
    rw [resolved] at resolvedAgain
    cases resolvedAgain
    exact Accounted.purgeApprovals _ rfl
  | swapSigner resolved swapped =>
    obtain ⟨fromSigner, -, resolvedAgain, -, -, -, rfl⟩ := swapSigner_eq_ok swapped
    rw [resolved] at resolvedAgain
    cases resolvedAgain
    exact Accounted.purgeApprovals _ rfl
  | changeNumApprovalsThreshold changed =>
    obtain ⟨-, -, rfl⟩ := changeNumApprovalsThreshold_eq_ok changed
    exact .refl _
  | lockBalance locked =>
    rw [lockBalance_eq_ok locked]
    exact .refl _

/-- Every run accounts for its removals, nested sends included. -/
theorem Accounted.runs {removals : List (Removal α)} (run : Runs resolve hashData st removals st') :
    Accounted st removals st' :=
  runs_le_of_closed Accounted.refl Accounted.trans Accounted.call run

end Accounted

section Constructed

variable {resolve : α → Except BoxError α} {hashData : ProposalHashData α → List UInt8}

/-- Over every run from a state the constructor made, and over every part of such a run: the
invariant holds at its end, and each pending transaction that goes in that part is accounted
for by a justified removal. -/
theorem multisig_state_invariant {initActorAddr : α} {rt : Runtime α}
    {params : ConstructorParams α} {created st st' : State α} {before removals : List (Removal α)}
    (constructed : constructor resolve initActorAddr rt params = .ok created)
    (reached : Runs resolve hashData created before st)
    (run : Runs resolve hashData st removals st') :
    Invariant st' ∧ Accounted st removals st' := by
  have atStart := invariant_of_constructor constructed
  have atReached := atStart.runs reached
  exact ⟨atReached.runs run, Accounted.runs run⟩

end Constructed

/-- Signers 2 and 3, both needed: 2 creates the multisig and proposes a send to 5, which waits
for the second approval. -/
theorem multisig_state_invariant_after_proposal :
    Invariant (⟨[2, 3], 2, 1, 0, 0, 0,
        (SortedMap.empty.set 0 ⟨5, 0, 0, [], []⟩).set 0 ⟨5, 0, 0, [], [2]⟩⟩ : State Nat) ∧
      Accounted ⟨[2, 3], 2, 0, 0, 0, 0, SortedMap.empty⟩ []
        ⟨[2, 3], 2, 1, 0, 0, 0, (SortedMap.empty.set 0 ⟨5, 0, 0, [], []⟩).set 0 ⟨5, 0, 0, [], [2]⟩⟩ := by
  let rt : Runtime Nat := ⟨2, 100, 0, true, "account", 0, 0⟩
  let created : State Nat := ⟨[2, 3], 2, 0, 0, 0, 0, SortedMap.empty⟩
  let proposed : State Nat := ⟨[2, 3], 2, 1, 0, 0, 0, SortedMap.empty.set 0 ⟨5, 0, 0, [], []⟩⟩
  have constructed : constructor Except.ok 2 rt ⟨[2, 3], 2, 0, 0⟩ = .ok created := rfl
  have proposing : proposeTransaction rt ⟨5, 0, 0, []⟩ created =
      .ok (proposed, 0, ⟨5, 0, 0, [], []⟩) := rfl
  have approving : approveTransaction rt 0 ⟨5, 0, 0, [], []⟩ proposed =
      .ok ({ proposed with pendingTxs := proposed.pendingTxs.set 0 ⟨5, 0, 0, [], [2]⟩ },
        ⟨5, 0, 0, [], [2]⟩) := rfl
  have waiting : executeCheck rt { proposed with pendingTxs := proposed.pendingTxs.set 0 ⟨5, 0, 0, [], [2]⟩ }
      ⟨5, 0, 0, [], [2]⟩ = .ok false := rfl
  have reached : Runs Except.ok (fun _ => []) created [] created := runs_refl created
  exact multisig_state_invariant constructed reached
    (runs_of_call (Call.propose proposing approving (.notApproved waiting)))

end Forest.Multisig

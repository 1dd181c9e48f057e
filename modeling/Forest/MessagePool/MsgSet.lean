import Mathlib
import Forest.MessagePool.MsgChain
import Forest.Lib.SortedMap

/-!
# The pending messages of one sender

`MsgSet` holds a sender's pending messages by nonce, the nonce it expects next, and a memo
`required_funds` of the funds its messages need.  `add` stores a message, replacing the one at
its nonce if the new premium is high enough; `rm` removes the message at a nonce when it was
applied in a tipset or pruned.

The calls take `&mut self`: a call that returns `Err` keeps what it changed before failing, so
each is an `EStateM` program whose error result carries the state.  The `HashMap` of messages is
a `SortedMap` of nonces, and the CID of a message is any function of it that may fail as
`cid()` may.
-/

namespace Forest.MessagePool

open Forest

/-- `RBF_NUM`: `((REPLACE_BY_FEE_RATIO - 1) * 256) as u64` for the ratio `1.25`. -/
def rbfNum : Int := 64

/-- `RBF_DENOM`. -/
def rbfDenom : Int := 256

/-- `MsgSet`. -/
structure MsgSet (A : Type) where
  msgs : SortedMap Nat (SignedMessage A)
  nextSequence : Nat
  requiredFunds : Int

/-- A call on a message set; an `Err` keeps the changes made before it. -/
abbrev MsgSetM (A α : Type) := EStateM Error (MsgSet A) α

namespace MsgSet

variable {A C : Type} [DecidableEq C] (cid : SignedMessage A → Except Error C)

/-- `MsgSet::new`. -/
def new (sequence : Nat) : MsgSet A :=
  ⟨SortedMap.empty, sequence, 0⟩

/-- The least premium that replaces a message of premium `premium`. -/
def minPrice (premium : Int) : Int :=
  premium + (premium * rbfNum).fdiv rbfDenom + 1

/-- Lift a fallible computation that does not touch the set. -/
def liftError {α : Type} (x : Except Error α) : MsgSetM A α := fun mset =>
  match x with
  | .ok a => .ok a mset
  | .error e => .error e mset

/-- The first step of `MsgSet::add`: `next_sequence` moves past the message if the set is empty
or the message is at or past it. -/
def raiseNext (mset : MsgSet A) (m : SignedMessage A) : MsgSet A :=
  if mset.msgs.entries.isEmpty || m.sequence ≥ mset.nextSequence then
    { mset with nextSequence := m.sequence + 1 }
  else mset

/-- The check of `MsgSet::add` at an occupied nonce: a different message replaces the stored one
only with a premium above `min_price`; the same message is a duplicate. -/
def checkReplace (m exms : SignedMessage A) : Except Error Unit := do
  if (← cid m) ≠ (← cid exms) then
    let premium := exms.gasPremium
    if m.gasPremium ≤ minPrice premium then
      throw .gasPriceTooLow
  else
    throw .duplicateSequence

/-- `MsgSet::add`: raise `next_sequence`, check a message already at the nonce, and store the
message at its nonce. -/
def add (m : SignedMessage A) : MsgSetM A Unit := do
  modify fun mset => raiseNext mset m
  if let some exms := (← get).msgs.get? m.sequence then
    liftError (checkReplace cid m exms)
  modify fun mset => { mset with msgs := mset.msgs.set m.sequence m }

/-- The `while` loop of `rm`: the first nonce from `sequence` on with no message, looking at
no more than `fuel` nonces. -/
def firstFreeFrom (msgs : SortedMap Nat (SignedMessage A)) : Nat → Nat → Nat
  | 0, sequence => sequence
  | fuel + 1, sequence =>
    if (msgs.get? sequence).isSome then firstFreeFrom msgs fuel (sequence + 1) else sequence

/-- `MsgSet::rm`: remove the message at `sequence`.  An applied message moves `next_sequence`
past it; a pruned one moves it back to it. -/
def rm (sequence : Nat) (applied : Bool) : MsgSetM A Unit :=
  modify fun mset =>
    match mset.msgs.get? sequence with
    | none =>
      if applied && sequence ≥ mset.nextSequence then
        { mset with nextSequence :=
            firstFreeFrom mset.msgs (mset.msgs.entries.length + 1) (sequence + 1) }
      else mset
    | some m =>
      let mset := { mset with
        msgs := mset.msgs.delete sequence
        requiredFunds := mset.requiredFunds - m.requiredFunds }
      if applied then
        if sequence ≥ mset.nextSequence then { mset with nextSequence := sequence + 1 } else mset
      else if sequence < mset.nextSequence then { mset with nextSequence := sequence }
      else mset

/-- `MsgSet::get_required_funds`: the memo, less the message at `sequence` if there is one. -/
def getRequiredFunds (mset : MsgSet A) (sequence : Nat) : Int :=
  match mset.msgs.get? sequence with
  | some m => mset.requiredFunds - m.requiredFunds
  | none => mset.requiredFunds

/-! ## What one call does -/

/-- Whether `add` may store the message: at a free nonce always, at an occupied one by the
replace-by-fee check. -/
def admission (mset : MsgSet A) (m : SignedMessage A) : Except Error Unit :=
  match mset.msgs.get? m.sequence with
  | some exms => checkReplace cid m exms
  | none => .ok ()

@[simp]
theorem raiseNext_msgs (mset : MsgSet A) (m : SignedMessage A) :
    (raiseNext mset m).msgs = mset.msgs := by
  unfold raiseNext
  split <;> rfl

@[simp]
theorem raiseNext_requiredFunds (mset : MsgSet A) (m : SignedMessage A) :
    (raiseNext mset m).requiredFunds = mset.requiredFunds := by
  unfold raiseNext
  split <;> rfl

/-- What `add` returns and leaves: the message stored if it is admitted, and `next_sequence`
raised whether it is or not. -/
theorem add_run (mset : MsgSet A) (m : SignedMessage A) :
    (add cid m).run mset =
      match admission cid mset m with
      | .ok () => .ok () { raiseNext mset m with msgs := mset.msgs.set m.sequence m }
      | .error e => .error e (raiseNext mset m) := by
  unfold add admission
  cases found : mset.msgs.get? m.sequence with
  | none =>
    simp [EStateM.run, bind, EStateM.bind, get, getThe, MonadStateOf.get, EStateM.get, modify,
      modifyGet, MonadStateOf.modifyGet, EStateM.modifyGet, found]
  | some exms =>
    cases checked : checkReplace cid m exms with
    | ok u =>
      simp [EStateM.run, bind, EStateM.bind, get, getThe, MonadStateOf.get, EStateM.get, modify,
        modifyGet, MonadStateOf.modifyGet, EStateM.modifyGet, found, liftError, checked]
    | error e =>
      simp [EStateM.run, bind, EStateM.bind, get, getThe, MonadStateOf.get, EStateM.get, modify,
        modifyGet, MonadStateOf.modifyGet, EStateM.modifyGet, found, liftError, checked]

/-- A replacement passes the check exactly when both CIDs are computed, they differ, and the new
premium is above `min_price` of the stored one. -/
theorem checkReplace_eq_ok (m exms : SignedMessage A) :
    checkReplace cid m exms = .ok () ↔ ∃ mCid exmsCid, cid m = .ok mCid ∧
      cid exms = .ok exmsCid ∧ mCid ≠ exmsCid ∧ minPrice exms.gasPremium < m.gasPremium := by
  unfold checkReplace
  cases mCid : cid m with
  | error e => simp [bind, Except.bind]
  | ok mc =>
    cases eCid : cid exms with
    | error e => simp [bind, Except.bind]
    | ok ec =>
      by_cases same : mc = ec
      · simp [bind, Except.bind, same, throw, throwThe, MonadExceptOf.throw]
      · by_cases low : m.gasPremium ≤ minPrice exms.gasPremium
        · simp [bind, Except.bind, same, low, throw, throwThe, MonadExceptOf.throw]
        · simp [bind, Except.bind, same, low, pure, Except.pure]
          omega

/-- The funds the stored messages need: what the memo `required_funds` stands for. -/
def storedFunds (mset : MsgSet A) : Int :=
  (mset.msgs.entries.map fun entry => entry.2.requiredFunds).sum

/-- The funds of the message at a nonce, or nothing. -/
def fundsAt (mset : MsgSet A) (sequence : Nat) : Int :=
  match mset.msgs.get? sequence with
  | some m => m.requiredFunds
  | none => 0

/-- Storing a message changes the stored funds by its funds less those of the message it
replaces. -/
theorem storedFunds_set (mset : MsgSet A) (m : SignedMessage A) (nextSequence : Nat)
    (requiredFunds : Int) :
    storedFunds ⟨mset.msgs.set m.sequence m, nextSequence, requiredFunds⟩ =
      storedFunds mset + m.requiredFunds - fundsAt mset m.sequence := by
  unfold storedFunds fundsAt
  rw [SortedMap.sum_set]
  cases found : mset.msgs.get? m.sequence with
  | none =>
    rw [SortedMap.delete_of_get?_eq_none found]
    dsimp only
    omega
  | some old =>
    rw [SortedMap.sum_eq_add_delete found]
    dsimp only
    omega

/-- `get_required_funds` is the memo less the funds of the message at the nonce. -/
theorem getRequiredFunds_eq (mset : MsgSet A) (sequence : Nat) :
    mset.getRequiredFunds sequence = mset.requiredFunds - fundsAt mset sequence := by
  unfold getRequiredFunds fundsAt
  cases mset.msgs.get? sequence <;> simp

/-- `rm` takes the removed message's funds out of both the memo and the stored funds. -/
theorem rm_run (mset : MsgSet A) (sequence : Nat) (applied : Bool) :
    ∃ mset', (rm sequence applied).run mset = .ok () mset' ∧
      mset'.requiredFunds = mset.requiredFunds - fundsAt mset sequence ∧
      storedFunds mset' = storedFunds mset - fundsAt mset sequence := by
  refine ⟨_, rfl, ?_⟩
  unfold fundsAt
  cases found : mset.msgs.get? sequence with
  | none =>
    simp only [found, Int.sub_zero]
    split <;> exact ⟨rfl, rfl⟩
  | some m =>
    have stored := SortedMap.sum_eq_add_delete found fun entry => entry.2.requiredFunds
    simp only [found]
    split
    · split <;> exact ⟨rfl, by unfold storedFunds at *; simp only at stored ⊢; omega⟩
    · split <;> exact ⟨rfl, by unfold storedFunds at *; simp only at stored ⊢; omega⟩

/-! ## Runs of calls

The pool calls `add` and `rm` on a sender's set in any order, and keeps the set whether a call
returned `Ok` or `Err`.  Only `rm` moves the memo, by the funds of the message it removes. -/

/-- A call on a message set. -/
inductive Call (A : Type) where
  | add (m : SignedMessage A)
  | rm (sequence : Nat) (applied : Bool)

/-- The set a call leaves, whether it returned `Ok` or `Err`. -/
def afterCall (mset : MsgSet A) : Call A → MsgSet A
  | .add m =>
    match (add cid m).run mset with
    | .ok _ mset' => mset'
    | .error _ mset' => mset'
  | .rm sequence applied =>
    match (rm sequence applied).run mset with
    | .ok _ mset' => mset'
    | .error _ mset' => mset'

/-- The funds of the messages the calls remove, each counted when its `rm` runs. -/
def removedFunds : MsgSet A → List (Call A) → Int
  | _, [] => 0
  | mset, .add m :: rest => removedFunds (afterCall cid mset (.add m)) rest
  | mset, .rm sequence applied :: rest =>
    fundsAt mset sequence + removedFunds (afterCall cid mset (.rm sequence applied)) rest

/-- `add` leaves the memo as it was, whether it stores the message or fails. -/
theorem add_keeps_memo (mset : MsgSet A) (m : SignedMessage A) :
    (afterCall cid mset (.add m)).requiredFunds = mset.requiredFunds := by
  simp only [afterCall, add_run]
  cases admission cid mset m <;> simp

/-- Over any run of calls, the memo moves only by the funds of the messages `rm` removes. -/
theorem memo_after_calls (calls : List (Call A)) :
    ∀ mset : MsgSet A, (calls.foldl (afterCall cid) mset).requiredFunds =
      mset.requiredFunds - removedFunds cid mset calls := by
  induction calls with
  | nil => simp [removedFunds]
  | cons call rest inductionHypothesis =>
    intro mset
    rw [List.foldl_cons, inductionHypothesis]
    cases call with
    | add m =>
      rw [removedFunds, add_keeps_memo]
    | rm sequence applied =>
      obtain ⟨mset', ran, memo, -⟩ := rm_run mset sequence applied
      have after : afterCall cid mset (.rm sequence applied) = mset' := by
        simp only [afterCall, ran]
      rw [removedFunds, after, memo]
      omega

/-- What the calls do to the memo: over any run of calls it moves only by the funds `rm`
removes, while an admitted `add` changes the stored funds by its message's funds less those it
replaces and leaves the memo alone; `get_required_funds` is the memo less the funds at the
nonce; a different message replaces a stored one exactly when its premium is above `min_price`;
and a failed `add` keeps the `next_sequence` it raised. -/
theorem msgset_memo_ignores_add :
    (∀ (mset : MsgSet A) (calls : List (Call A)),
      (calls.foldl (afterCall cid) mset).requiredFunds =
        mset.requiredFunds - removedFunds cid mset calls) ∧
    (∀ (mset : MsgSet A) (m : SignedMessage A), admission cid mset m = .ok () →
      storedFunds (afterCall cid mset (.add m)) =
        storedFunds mset + m.requiredFunds - fundsAt mset m.sequence ∧
      (afterCall cid mset (.add m)).requiredFunds = mset.requiredFunds) ∧
    (∀ (mset : MsgSet A) (sequence : Nat),
      mset.getRequiredFunds sequence = mset.requiredFunds - fundsAt mset sequence) ∧
    (∀ (mset : MsgSet A) (m exms : SignedMessage A) (mCid exmsCid : C),
      mset.msgs.get? m.sequence = some exms → cid m = .ok mCid → cid exms = .ok exmsCid →
      mCid ≠ exmsCid →
      ((∃ mset', (add cid m).run mset = .ok () mset') ↔ minPrice exms.gasPremium < m.gasPremium)) ∧
    (∀ (mset mset' : MsgSet A) (m : SignedMessage A) (e : Error),
      (add cid m).run mset = .error e mset' → mset' = raiseNext mset m) := by
  refine ⟨fun mset calls => memo_after_calls cid calls mset, ?_, getRequiredFunds_eq, ?_, ?_⟩
  · intro mset m admitted
    have after : afterCall cid mset (.add m) =
        { raiseNext mset m with msgs := mset.msgs.set m.sequence m } := by
      simp only [afterCall, add_run, admitted]
    refine ⟨?_, add_keeps_memo cid mset m⟩
    rw [after]
    exact storedFunds_set mset m _ _
  · intro mset m exms mCid exmsCid found mHash exmsHash different
    have admitted : admission cid mset m = checkReplace cid m exms := by
      simp only [admission, found]
    rw [add_run, admitted]
    constructor
    · rintro ⟨mset', stored⟩
      cases checked : checkReplace cid m exms with
      | error e => simp only [checked] at stored; cases stored
      | ok u =>
        obtain ⟨mCid', exmsCid', mHash', exmsHash', -, above⟩ := (checkReplace_eq_ok cid m exms).mp checked
        exact above
    · intro above
      have checked := (checkReplace_eq_ok cid m exms).mpr ⟨mCid, exmsCid, mHash, exmsHash, different, above⟩
      simp only [checked]
      exact ⟨_, rfl⟩
  · intro mset mset' m e failed
    rw [add_run] at failed
    cases admitted : admission cid mset m with
    | ok u => simp only [admitted] at failed; cases failed
    | error e' =>
      simp only [admitted, EStateM.Result.error.injEq] at failed
      exact failed.2.symm

/-- A message of nonce 0 that needs 10 in funds: gas limit 10 at a fee cap of 1. -/
def fundedMessage : SignedMessage Nat := ⟨0, 0, 0, 10, 1, 1, 0⟩

/-- A CID for the messages of the witness: their premium, which tells them apart. -/
def premiumCid (m : SignedMessage Nat) : Except Error Int := .ok m.gasPremium

/-- A fresh set given one message needing 10 keeps a memo of 0 against stored funds of 10, and
once the message is pruned the memo is -10 with nothing stored. -/
theorem msgset_memo_ignores_add_one_message :
    (afterCall premiumCid (new 0) (.add fundedMessage)).requiredFunds = 0 ∧
      storedFunds (afterCall premiumCid (new 0) (.add fundedMessage)) = 10 ∧
      ([Call.add fundedMessage, Call.rm 0 false].foldl (afterCall premiumCid)
        (new 0)).requiredFunds = -10 := by
  obtain ⟨run, stored, -, -, -⟩ := msgset_memo_ignores_add premiumCid
  obtain ⟨funds, memo⟩ := stored (new 0) fundedMessage rfl
  refine ⟨memo, ?_, ?_⟩
  · rw [funds]
    rfl
  · rw [run]
    rfl

end MsgSet

end Forest.MessagePool

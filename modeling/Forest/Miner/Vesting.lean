import Forest.Miner.Policy
import Forest.Lib.Loop
import Forest.Lib.SortBy
import Mathlib.Algebra.Order.BigOperators.Group.List

/-!
# The vesting table

A miner's locked rewards are kept as a list of `(epoch, amount)` entries, sorted by epoch with
distinct epochs.  Three calls change it:

* `unlock_vested_funds` drops the entries before the first one that vests at or after the
  current epoch, and returns their sum;
* `add_locked_funds` spreads a sum over the epochs after `current_epoch + initial_delay`, one
  quantized epoch per step, adding to an entry already at that epoch (found through a map from
  epochs to indices) or appending a new one, and sorts the table afterwards;
* `unlock_unvested_funds` takes up to a target from the entries at or after the current epoch,
  in order, emptying entries one by one and reducing the last one it touches; the emptied
  entries are removed at the end by `drain(start..=end)`.

`add_locked_funds`'s `while` loop is run with fuel; `vested_so_far` reaches the sum after at
most `max 1 vest_period` steps when the step is positive (`addLockedFunds_spec`).
`unlock_unvested_funds` returns `min(target, sum at or after the epoch)` only when no amount is
negative: a negative entry lowers `amount_unlocked` without ending the loop.
-/

namespace Forest.Miner

open Forest

/-- `VestingFund`: an amount that vests at an epoch. -/
structure VestingFund where
  epoch : Int
  amount : Int
  deriving DecidableEq, Repr

/-- `VestingFunds`: the vesting table. -/
structure VestingFunds where
  funds : List VestingFund
  deriving DecidableEq, Repr

/-- `VestSpec`: how a sum vests. -/
structure VestSpec where
  initialDelay : Int
  vestPeriod : Int
  stepDuration : Int
  quantization : Int
  deriving DecidableEq, Repr

/-- The locals of `add_locked_funds`'s loop; `epoch_to_index` is a function from epochs. -/
structure AddLockedState where
  funds : List VestingFund
  epochToIndex : Int → Option Nat
  vestedSoFar : Int
  epoch : Int

/-- The locals of `unlock_unvested_funds`'s loop when it ends, with the entries as it leaves
them. -/
structure UnlockOutcome where
  funds : List VestingFund
  amountUnlocked : Int
  last : Option Nat
  start : Nat

namespace VestingFunds

/-- `VestingFunds::new`. -/
def new : VestingFunds := ⟨[]⟩

/-- The sum of the table's amounts. -/
def total (table : VestingFunds) : Int := (table.funds.map (·.amount)).sum

/-- The table is sorted by epoch with distinct epochs. -/
def Sorted (table : VestingFunds) : Prop :=
  table.funds.Pairwise fun earlier later => earlier.epoch < later.epoch

instance (table : VestingFunds) : Decidable table.Sorted :=
  inferInstanceAs (Decidable (List.Pairwise _ _))

/-- `unlock_vested_funds`: drop the entries before the first that vests at or after the
current epoch (all of them if none does), and return their sum. -/
def unlockVestedFunds (table : VestingFunds) (currentEpoch : Int) : VestingFunds × Int :=
  let i := table.funds.findIdx fun fund => decide (fund.epoch ≥ currentEpoch)
  (⟨table.funds.drop i⟩, ((table.funds.take i).map (·.amount)).sum)

/-- The map `epoch_to_index` as `add_locked_funds` first builds it: each entry's epoch maps
to the entry's index, a later index overwriting an earlier one. -/
def indexEpochs (funds : List VestingFund) : Int → Option Nat :=
  funds.zipIdx.foldl (fun epochToIndex entry =>
    Function.update epochToIndex entry.1.epoch (some entry.2)) fun _ => none

/-- One turn of `add_locked_funds`'s loop: step the epoch, quantize it, vest linearly up to it
(all of the sum once the period has elapsed), and add what vests this time to the entry at the
quantized epoch, or append one. -/
def addLockedStep (vestingSum vestBegin provingPeriodStart : Int) (spec : VestSpec)
    (state : AddLockedState) : AddLockedState :=
  let epoch := state.epoch + spec.stepDuration
  let vestEpoch := (QuantSpec.mk spec.quantization provingPeriodStart).quantizeUp epoch
  let elapsed := vestEpoch - vestBegin
  let targetVest :=
    if elapsed < spec.vestPeriod then (vestingSum * elapsed).fdiv spec.vestPeriod
    else vestingSum
  let vestThisTime := targetVest - state.vestedSoFar
  match state.epochToIndex vestEpoch with
  | some index =>
    { state with
      funds := state.funds.modify index fun fund => { fund with amount := fund.amount + vestThisTime }
      vestedSoFar := targetVest
      epoch := epoch }
  | none =>
    { funds := state.funds ++ [⟨vestEpoch, vestThisTime⟩]
      epochToIndex := Function.update state.epochToIndex vestEpoch (some state.funds.length)
      vestedSoFar := targetVest
      epoch := epoch }

/-- `add_locked_funds`, with at most `fuel` turns of its `while vested_so_far < vesting_sum`
loop; `none` when the fuel runs out.  The table is sorted by epoch at the end
(`sort_by_key` is stable, as the merge sort is). -/
def addLockedFunds (table : VestingFunds) (currentEpoch vestingSum provingPeriodStart : Int)
    (spec : VestSpec) (fuel : Nat) : Option VestingFunds :=
  let vestBegin := currentEpoch + spec.initialDelay
  let start : AddLockedState := ⟨table.funds, indexEpochs table.funds, 0, vestBegin⟩
  (Loop.findSuccessor (addLockedStep vestingSum vestBegin provingPeriodStart spec)
      (fun state => !decide (state.vestedSoFar < vestingSum)) fuel start).map fun finished =>
    ⟨finished.funds.sortByCachedKey (·.epoch)⟩

/-- The loop of `unlock_unvested_funds` from entry `i` on: stop once the target is reached;
take what is needed from an entry at or after the current epoch, remembering it as `last`
when it is emptied and reducing it otherwise; move `start` past an earlier entry. -/
def unlockUnvestedLoop (currentEpoch target : Int) :
    Nat → Int → Option Nat → Nat → List VestingFund → UnlockOutcome
  | _, amountUnlocked, last, start, [] => ⟨[], amountUnlocked, last, start⟩
  | i, amountUnlocked, last, start, vf :: rest =>
    if amountUnlocked ≥ target then ⟨vf :: rest, amountUnlocked, last, start⟩
    else if vf.epoch ≥ currentEpoch then
      let unlockAmount := min (target - amountUnlocked) vf.amount
      let amountUnlocked := amountUnlocked + unlockAmount
      let newAmount := vf.amount - unlockAmount
      if newAmount = 0 then
        let outcome := unlockUnvestedLoop currentEpoch target (i + 1) amountUnlocked (some i) start rest
        { outcome with funds := vf :: outcome.funds }
      else
        let outcome := unlockUnvestedLoop currentEpoch target (i + 1) amountUnlocked last start rest
        { outcome with funds := { vf with amount := newAmount } :: outcome.funds }
    else
      let outcome := unlockUnvestedLoop currentEpoch target (i + 1) amountUnlocked last (i + 1) rest
      { outcome with funds := vf :: outcome.funds }

/-- `Vec::drain(start..=end)`: remove the entries from `start` to `end`; it panics when
`start > end + 1` or `end` is past the last entry. -/
def drainInclusive (funds : List VestingFund) (start stop : Nat) : Option (List VestingFund) :=
  if start ≤ stop + 1 ∧ stop < funds.length then some (funds.take start ++ funds.drop (stop + 1))
  else none

/-- `unlock_unvested_funds`: the table and the amount unlocked; `none` where the drain
panics. -/
def unlockUnvestedFunds (table : VestingFunds) (currentEpoch target : Int) :
    Option (VestingFunds × Int) :=
  let outcome := unlockUnvestedLoop currentEpoch target 0 0 none 0 table.funds
  match outcome.last with
  | some stop => (drainInclusive outcome.funds outcome.start stop).map fun funds =>
    (⟨funds⟩, outcome.amountUnlocked)
  | none => some (⟨outcome.funds⟩, outcome.amountUnlocked)

/-! ## The table's order -/

variable {table : VestingFunds}

theorem sorted_iff (table : VestingFunds) :
    table.Sorted ↔ (table.funds.map (·.epoch)).Pairwise (· < ·) := by
  rw [Sorted, List.pairwise_map]

/-- In a sorted table the entries before an epoch come first. -/
theorem Sorted.closed (sorted : table.Sorted) (currentEpoch : Int) :
    table.funds.Pairwise fun earlier later =>
      decide (later.epoch < currentEpoch) = true → decide (earlier.epoch < currentEpoch) = true :=
  sorted.imp fun before laterBelow => by
    simp only [decide_eq_true_eq] at laterBelow ⊢
    omega

/-- A sorted table is its entries before an epoch followed by the others. -/
theorem Sorted.split (sorted : table.Sorted) (currentEpoch : Int) :
    table.funds = table.funds.filter (fun fund => fund.epoch < currentEpoch) ++
      table.funds.filter fun fund => currentEpoch ≤ fund.epoch := by
  have before := List.takeWhile_eq_filter_of_pairwise (sorted.closed currentEpoch)
  have after := List.dropWhile_eq_filter_of_pairwise (sorted.closed currentEpoch)
  simp only [← decide_not, Int.not_lt] at after
  rw [← before, ← after, List.takeWhile_append_dropWhile]

/-! ## Unlocking vested funds -/

/-- `unlock_vested_funds` on a sorted table keeps exactly the entries at or after the epoch and
returns the sum of the others. -/
theorem unlockVestedFunds_spec (sorted : table.Sorted) (currentEpoch : Int) :
    (table.unlockVestedFunds currentEpoch).1.funds =
        table.funds.filter (fun fund => currentEpoch ≤ fund.epoch) ∧
      (table.unlockVestedFunds currentEpoch).2 =
        ((table.funds.filter fun fund => fund.epoch < currentEpoch).map (·.amount)).sum := by
  have before := List.takeWhile_eq_filter_of_pairwise (sorted.closed currentEpoch)
  have after := List.dropWhile_eq_filter_of_pairwise (sorted.closed currentEpoch)
  rw [List.takeWhile_eq_take_findIdx_not] at before
  rw [List.dropWhile_eq_drop_findIdx_not] at after
  simp only [← decide_not, Int.not_lt] at before after
  simp only [unlockVestedFunds, ge_iff_le]
  exact ⟨after, by rw [before]⟩

/-! ## Unlocking unvested funds -/

/-- How many entries are emptied when `need` is taken from them in order. -/
def emptiedCount (need : Int) : List VestingFund → Nat
  | [] => 0
  | fund :: rest =>
    if need ≤ 0 then 0
    else if fund.amount ≤ need then emptiedCount (need - fund.amount) rest + 1
    else 0

/-- What is left of the entries once `need` is taken from them in order: the emptied ones are
gone and the next one is reduced. -/
def takeInOrder (need : Int) : List VestingFund → List VestingFund
  | [] => []
  | fund :: rest =>
    if need ≤ 0 then fund :: rest
    else if fund.amount ≤ need then takeInOrder (need - fund.amount) rest
    else { fund with amount := fund.amount - need } :: rest

theorem emptiedCount_le_length (need : Int) :
    ∀ entries : List VestingFund, emptiedCount need entries ≤ entries.length := by
  intro entries
  induction entries generalizing need with
  | nil => simp [emptiedCount]
  | cons fund rest inductionHypothesis =>
    have restBound := inductionHypothesis (need - fund.amount)
    simp only [emptiedCount, List.length_cons]
    split_ifs <;> omega

/-- Taking from entries with no negative amount removes `min(need, sum)` from their sum. -/
theorem sum_takeInOrder {need : Int} (needNonneg : 0 ≤ need) {entries : List VestingFund}
    (nonneg : ∀ fund ∈ entries, 0 ≤ fund.amount) :
    ((takeInOrder need entries).map (·.amount)).sum =
      (entries.map (·.amount)).sum - min need (entries.map (·.amount)).sum := by
  induction entries generalizing need with
  | nil => simp [takeInOrder, needNonneg]
  | cons fund rest inductionHypothesis =>
    have restNonneg : 0 ≤ (rest.map (·.amount)).sum :=
      List.sum_nonneg fun amount member => by
        obtain ⟨later, laterMember, rfl⟩ := List.mem_map.mp member
        exact nonneg later (List.mem_cons_of_mem fund laterMember)
    have fundNonneg := nonneg fund List.mem_cons_self
    simp only [takeInOrder, List.map_cons, List.sum_cons]
    split_ifs with nothingNeeded emptied
    · simp only [List.map_cons, List.sum_cons]
      omega
    · rw [inductionHypothesis (by omega) fun later member =>
        nonneg later (List.mem_cons_of_mem fund member)]
      omega
    · simp only [List.map_cons, List.sum_cons]
      omega

/-- Taking from entries removes some of the first and may reduce the next; the epochs left
are those of a suffix. -/
theorem epochs_takeInOrder (need : Int) (entries : List VestingFund) :
    (takeInOrder need entries).map (·.epoch) =
      (entries.drop (emptiedCount need entries)).map (·.epoch) := by
  induction entries generalizing need with
  | nil => rfl
  | cons fund rest inductionHypothesis =>
    simp only [takeInOrder, emptiedCount]
    split_ifs
    · rfl
    · rw [inductionHypothesis]
      rfl
    · rfl

/-- The loop over entries before the epoch only moves `start` past them, while the target is
not reached. -/
theorem unlockUnvestedLoop_before {currentEpoch target amountUnlocked : Int} {last : Option Nat}
    (short : amountUnlocked < target) {after : List VestingFund} :
    ∀ {earlier : List VestingFund} {i : Nat}, (∀ fund ∈ earlier, fund.epoch < currentEpoch) →
      unlockUnvestedLoop currentEpoch target i amountUnlocked last i (earlier ++ after) =
        { unlockUnvestedLoop currentEpoch target (i + earlier.length) amountUnlocked last
            (i + earlier.length) after with
          funds := earlier ++ (unlockUnvestedLoop currentEpoch target (i + earlier.length)
            amountUnlocked last (i + earlier.length) after).funds }
  | [], i, _ => by simp
  | fund :: rest, i, allEarlier => by
    have fundEarlier := allEarlier fund List.mem_cons_self
    have notReached : ¬amountUnlocked ≥ target := by omega
    have notAfter : ¬fund.epoch ≥ currentEpoch := by omega
    rw [List.cons_append, unlockUnvestedLoop, if_neg notReached, if_neg notAfter,
      unlockUnvestedLoop_before short fun later member =>
        allEarlier later (List.mem_cons_of_mem fund member)]
    simp only [List.length_cons, List.cons_append]
    rw [show i + 1 + rest.length = i + (rest.length + 1) by omega]

/-- The loop over entries at or after the epoch, none negative, takes `min(need, sum)` from
them in order: it leaves the emptied entries in place, reduces the next, and remembers the last
emptied one. -/
theorem emptiedCount_of_nonpos {need : Int} (nothingNeeded : need ≤ 0)
    (entries : List VestingFund) : emptiedCount need entries = 0 := by
  cases entries with
  | nil => rfl
  | cons fund rest => simp [emptiedCount, nothingNeeded]

theorem takeInOrder_of_nonpos {need : Int} (nothingNeeded : need ≤ 0)
    (entries : List VestingFund) : takeInOrder need entries = entries := by
  cases entries with
  | nil => rfl
  | cons fund rest => simp [takeInOrder, nothingNeeded]

/-- The loop over entries at or after the epoch, none negative, takes `min(need, sum)` from
them in order: it leaves the emptied entries in place, reduces the next, and remembers the last
emptied one. -/
theorem unlockUnvestedLoop_after {currentEpoch target : Int} (start : Nat) :
    ∀ (after : List VestingFund) (i : Nat) (amountUnlocked : Int) (last : Option Nat),
      (∀ fund ∈ after, currentEpoch ≤ fund.epoch ∧ 0 ≤ fund.amount) → amountUnlocked ≤ target →
      let outcome := unlockUnvestedLoop currentEpoch target i amountUnlocked last start after
      let emptied := emptiedCount (target - amountUnlocked) after
      outcome.funds = after.take emptied ++ takeInOrder (target - amountUnlocked) after ∧
        outcome.start = start ∧
        outcome.last = (if emptied = 0 then last else some (i + emptied - 1)) ∧
        outcome.amountUnlocked =
          amountUnlocked + min (target - amountUnlocked) (after.map (·.amount)).sum
  | [], i, amountUnlocked, last, _, within => by
    simp [unlockUnvestedLoop, emptiedCount, takeInOrder]
    omega
  | fund :: rest, i, amountUnlocked, last, allAfter, within => by
    obtain ⟨fundAfter, fundNonneg⟩ := allAfter fund List.mem_cons_self
    have restAfter := fun later member => allAfter later (List.mem_cons_of_mem fund member)
    have restNonneg : 0 ≤ (rest.map (·.amount)).sum :=
      List.sum_nonneg fun amount member => by
        obtain ⟨later, laterMember, rfl⟩ := List.mem_map.mp member
        exact (restAfter later laterMember).2
    intro outcome emptied
    by_cases reached : amountUnlocked ≥ target
    · -- the target is met: the loop stops and nothing more is taken
      have nothingNeeded : target - amountUnlocked ≤ 0 := by omega
      simp only [outcome, emptied, unlockUnvestedLoop, if_pos reached, emptiedCount, takeInOrder,
        if_pos nothingNeeded, List.take_zero, List.nil_append, List.map_cons, List.sum_cons,
        ite_true, true_and]
      omega
    have needMore : ¬target - amountUnlocked ≤ 0 := by omega
    by_cases emptiesFund : fund.amount ≤ target - amountUnlocked
    · -- the entry is emptied and remembered as `last`; the loop goes on with the rest
      have zero : fund.amount - min (target - amountUnlocked) fund.amount = 0 := by omega
      have unlocked : amountUnlocked + min (target - amountUnlocked) fund.amount =
          amountUnlocked + fund.amount := by omega
      have remaining : target - (amountUnlocked + fund.amount) =
          target - amountUnlocked - fund.amount := by omega
      have restWithin : amountUnlocked + fund.amount ≤ target := by omega
      obtain ⟨restFunds, restStart, restLast, restUnlocked⟩ :=
        unlockUnvestedLoop_after start rest (i + 1) (amountUnlocked + fund.amount) (some i)
          restAfter restWithin
      simp only [remaining] at restFunds restLast restUnlocked
      simp only [outcome, emptied, unlockUnvestedLoop, if_neg reached, if_pos fundAfter, zero,
        unlocked, ite_true, emptiedCount, takeInOrder, if_neg needMore, if_pos emptiesFund,
        restFunds, restStart, restLast, restUnlocked, List.take_succ_cons, List.cons_append,
        List.map_cons, List.sum_cons, true_and]
      refine ⟨?_, ?_⟩
      · -- the emptied entry is the last one unless the rest empties more
        split
        · next noneEmptied => simp [noneEmptied]
        · congr 1
          omega
      · omega
    · -- the entry covers what is still needed: it is reduced and the loop stops after it
      have reduced : fund.amount - min (target - amountUnlocked) fund.amount ≠ 0 := by omega
      have unlocked : amountUnlocked + min (target - amountUnlocked) fund.amount = target := by
        omega
      obtain ⟨restFunds, restStart, restLast, restUnlocked⟩ :=
        unlockUnvestedLoop_after start rest (i + 1) target last restAfter le_rfl
      simp only [Int.sub_self, emptiedCount_of_nonpos le_rfl, takeInOrder_of_nonpos le_rfl,
        List.take_zero, List.nil_append] at restFunds restLast restUnlocked
      simp only [outcome, emptied, unlockUnvestedLoop, if_neg reached, if_pos fundAfter,
        if_neg reduced, unlocked, emptiedCount, takeInOrder, if_neg needMore,
        if_neg emptiesFund, restFunds, restStart, restLast, restUnlocked, List.take_zero,
        List.nil_append, List.map_cons, List.sum_cons, ite_true, true_and]
      refine ⟨?_, ?_⟩
      · congr 2
        omega
      · omega

/-- Once the target is met the loop stops where it is. -/
theorem unlockUnvestedLoop_of_reached {currentEpoch target amountUnlocked : Int}
    (reached : target ≤ amountUnlocked) (i : Nat) (last : Option Nat) (start : Nat) :
    ∀ entries : List VestingFund,
      unlockUnvestedLoop currentEpoch target i amountUnlocked last start entries =
        ⟨entries, amountUnlocked, last, start⟩
  | [] => rfl
  | fund :: rest => by
    rw [unlockUnvestedLoop, if_pos reached]

/-- What `unlock_unvested_funds` does to a sorted table with no negative amount, for a target
that is not negative: it keeps the entries before the epoch, takes the target from the others
in order, and returns what it took, all of them at most. -/
theorem unlockUnvestedFunds_eq (sorted : table.Sorted)
    (nonneg : ∀ fund ∈ table.funds, 0 ≤ fund.amount) {target : Int} (targetNonneg : 0 ≤ target)
    (currentEpoch : Int) :
    let before := table.funds.filter fun fund => fund.epoch < currentEpoch
    let after := table.funds.filter fun fund => currentEpoch ≤ fund.epoch
    table.unlockUnvestedFunds currentEpoch target =
      some (⟨before ++ takeInOrder target after⟩, min target (after.map (·.amount)).sum) := by
  intro before after
  have afterNonneg : 0 ≤ (after.map (·.amount)).sum :=
    List.sum_nonneg fun amount member => by
      obtain ⟨fund, fundMember, rfl⟩ := List.mem_map.mp member
      exact nonneg fund (List.mem_of_mem_filter fundMember)
  have split : table.funds = before ++ after := sorted.split currentEpoch
  rcases targetNonneg.eq_or_lt with zeroTarget | positive
  · -- a zero target is met at once: the loop stops before the first entry
    subst zeroTarget
    rw [unlockUnvestedFunds, unlockUnvestedLoop_of_reached le_rfl, takeInOrder_of_nonpos le_rfl,
      ← split]
    simp only [Option.some.injEq, Prod.mk.injEq, true_and]
    omega
  · have allBefore : ∀ fund ∈ before, fund.epoch < currentEpoch := fun fund member => by
      simpa using (List.mem_filter.mp member).2
    have allAfter : ∀ fund ∈ after, currentEpoch ≤ fund.epoch ∧ 0 ≤ fund.amount :=
      fun fund member => ⟨by simpa using (List.mem_filter.mp member).2,
        nonneg fund (List.mem_of_mem_filter member)⟩
    obtain ⟨afterFunds, afterStart, afterLast, afterUnlocked⟩ :=
      unlockUnvestedLoop_after (0 + before.length) after (0 + before.length) 0 none allAfter
        targetNonneg
    have emptiedBound := emptiedCount_le_length (target - 0) after
    simp only [Int.sub_zero, Nat.zero_add] at afterFunds afterStart afterLast
    simp only [Int.sub_zero, Int.zero_add, Nat.zero_add] at afterUnlocked emptiedBound
    rw [unlockUnvestedFunds, split, unlockUnvestedLoop_before positive allBefore]
    simp only [Nat.zero_add, afterLast]
    by_cases noneEmptied : emptiedCount target after = 0
    · -- nothing was emptied: no drain
      simp only [noneEmptied, ite_true, afterFunds, afterUnlocked, List.take_zero,
        List.nil_append]
    · -- the emptied entries, right after the earlier ones, are drained
      have takenLength : (after.take (emptiedCount target after)).length =
          emptiedCount target after := by
        rw [List.length_take]
        omega
      have inRange : before.length ≤ before.length + emptiedCount target after - 1 + 1 ∧
          before.length + emptiedCount target after - 1 <
            (before ++ (after.take (emptiedCount target after) ++
              takeInOrder target after)).length := by
        simp only [List.length_append, takenLength]
        omega
      simp only [noneEmptied, ite_false, afterFunds, afterStart, afterUnlocked, drainInclusive,
        if_pos inRange, Option.map_some]
      have pastEmptied : before.length + emptiedCount target after - 1 + 1 =
          (before ++ after.take (emptiedCount target after)).length := by
        simp only [List.length_append, takenLength]
        omega
      rw [List.take_left, ← List.append_assoc, pastEmptied, List.drop_left]

/-! ## Adding locked funds -/

section Modify

variable {α β : Type}

/-- Changing one entry in a way a measure does not see leaves the measured list as it is. -/
theorem map_modify_of_forall (g : α → β) (f : α → α) (unseen : ∀ a, g (f a) = g a) :
    ∀ (l : List α) (i : Nat), (l.modify i f).map g = l.map g
  | [], _ => by simp
  | a :: l, 0 => by simp [unseen]
  | a :: l, i + 1 => by simp [map_modify_of_forall g f unseen l i]

/-- Changing the entry at an index changes a sum over the list by the change of that entry. -/
theorem sum_map_modify {g : α → Int} {f : α → α} :
    ∀ {l : List α} {i : Nat} {a : α}, l[i]? = some a →
      ((l.modify i f).map g).sum = (l.map g).sum - g a + g (f a)
  | [], _, _, found => by simp at found
  | b :: l, 0, a, found => by
    simp only [List.getElem?_cons_zero, Option.some.injEq] at found
    subst found
    simp only [List.modify_zero_cons, List.map_cons, List.sum_cons]
    omega
  | b :: l, i + 1, a, found => by
    simp only [List.getElem?_cons_succ] at found
    simp only [List.modify_succ_cons, List.map_cons, List.sum_cons, sum_map_modify found]
    omega

/-- Changing an entry that fails a test, into one that still fails it, leaves the entries
that pass as they are. -/
theorem filter_modify_of_not (p : α → Bool) (f : α → α) :
    ∀ {l : List α} {i : Nat} {a : α}, l[i]? = some a → p a = false → p (f a) = false →
      (l.modify i f).filter p = l.filter p
  | [], _, _, found, _, _ => by simp at found
  | b :: l, 0, a, found, fails, stillFails => by
    simp only [List.getElem?_cons_zero, Option.some.injEq] at found
    subst found
    simp [fails, stillFails]
  | b :: l, i + 1, a, found, fails, stillFails => by
    simp only [List.getElem?_cons_succ] at found
    simp only [List.modify_succ_cons, List.filter_cons,
      filter_modify_of_not p f found fails stillFails]

end Modify

/-- `epoch_to_index` points into the entries: a mapped epoch is the epoch of the entry at its
index, and an unmapped epoch is no entry's. -/
structure IndexSound (funds : List VestingFund) (epochToIndex : Int → Option Nat) : Prop where
  mapped : ∀ epoch i, epochToIndex epoch = some i → (funds.map (·.epoch))[i]? = some epoch
  unmapped : ∀ epoch, epochToIndex epoch = none → epoch ∉ funds.map (·.epoch)

/-- The map built at the start of `add_locked_funds` points into the table. -/
theorem indexSound_indexEpochs (funds : List VestingFund) :
    IndexSound funds (indexEpochs funds) := by
  induction funds using List.reverseRecOn with
  | nil => exact ⟨(fun _ _ mapped => by cases mapped), fun _ _ => List.not_mem_nil⟩
  | append_singleton earlier fund inductionHypothesis =>
    -- the last entry is written last
    have unfolded : indexEpochs (earlier ++ [fund]) =
        Function.update (indexEpochs earlier) fund.epoch (some earlier.length) := by
      simp [indexEpochs, List.zipIdx_append]
    refine ⟨fun epoch i mapped => ?_, fun epoch unmapped => ?_⟩
    · rw [unfolded, Function.update_apply] at mapped
      split at mapped
      · next same =>
        cases mapped
        simp [same]
      · have earlierEntry := inductionHypothesis.mapped epoch i mapped
        rw [List.map_append, List.getElem?_append_left
          (List.getElem?_eq_some_iff.mp earlierEntry).1]
        exact earlierEntry
    · rw [unfolded, Function.update_apply] at unmapped
      split at unmapped
      · cases unmapped
      · next differs =>
        simpa [differs] using inductionHypothesis.unmapped epoch unmapped

variable {vestingSum vestBegin provingPeriodStart : Int} {spec : VestSpec}

/-- Every turn of the loop moves the epoch by one step. -/
@[simp] theorem addLockedStep_epoch (state : AddLockedState) :
    (addLockedStep vestingSum vestBegin provingPeriodStart spec state).epoch =
      state.epoch + spec.stepDuration := by
  unfold addLockedStep
  dsimp only
  split <;> rfl

/-- Every turn of the loop vests up to the quantized epoch it reaches. -/
theorem addLockedStep_vestedSoFar (state : AddLockedState) :
    let vestEpoch := (QuantSpec.mk spec.quantization provingPeriodStart).quantizeUp
      (state.epoch + spec.stepDuration)
    (addLockedStep vestingSum vestBegin provingPeriodStart spec state).vestedSoFar =
      if vestEpoch - vestBegin < spec.vestPeriod then
        (vestingSum * (vestEpoch - vestBegin)).fdiv spec.vestPeriod
      else vestingSum := by
  unfold addLockedStep
  dsimp only
  split <;> rfl

theorem iterate_addLockedStep_epoch (state : AddLockedState) (turns : Nat) :
    ((addLockedStep vestingSum vestBegin provingPeriodStart spec)^[turns] state).epoch =
      state.epoch + turns * spec.stepDuration := by
  induction turns with
  | zero => simp
  | succ turns inductionHypothesis =>
    rw [Function.iterate_succ_apply', addLockedStep_epoch, inductionHypothesis, Nat.cast_succ,
      Int.add_mul, Int.one_mul, Int.add_assoc]

/-- Whether the map points into the entries depends only on their epochs. -/
theorem IndexSound.of_epochs_eq {funds funds' : List VestingFund} {epochToIndex : Int → Option Nat}
    (sound : IndexSound funds epochToIndex) (sameEpochs : funds'.map (·.epoch) = funds.map (·.epoch)) :
    IndexSound funds' epochToIndex :=
  ⟨fun epoch i mapped => sameEpochs ▸ sound.mapped epoch i mapped,
    fun epoch unmapped => sameEpochs ▸ sound.unmapped epoch unmapped⟩

/-- What holds of `add_locked_funds`'s locals at every turn: the map points into the entries,
their epochs are distinct, the entries hold the original sum plus what has vested, the entries
up to `vest_begin` are the original ones, the clock has not gone back, and no more than the sum
has vested. -/
structure LoopInvariant (original : List VestingFund) (vestingSum vestBegin : Int)
    (state : AddLockedState) : Prop where
  index : IndexSound state.funds state.epochToIndex
  distinct : (state.funds.map (·.epoch)).Nodup
  total : (state.funds.map (·.amount)).sum = (original.map (·.amount)).sum + state.vestedSoFar
  frame : state.funds.filter (fun fund => fund.epoch ≤ vestBegin) =
    original.filter fun fund => fund.epoch ≤ vestBegin
  begun : vestBegin ≤ state.epoch
  bounded : state.vestedSoFar ≤ vestingSum

/-- The loop starts from the table, with nothing vested yet. -/
theorem LoopInvariant.start (sorted : table.Sorted) (sumNonneg : 0 ≤ vestingSum) :
    LoopInvariant table.funds vestingSum vestBegin
      ⟨table.funds, indexEpochs table.funds, 0, vestBegin⟩ where
  index := indexSound_indexEpochs table.funds
  distinct := ((sorted_iff table).mp sorted).imp fun below => Int.ne_of_lt below
  total := by simp
  frame := rfl
  begun := le_rfl
  bounded := sumNonneg

/-- Linear vesting never goes past the sum. -/
theorem targetVest_le {vestPeriod elapsed : Int} (sumNonneg : 0 ≤ vestingSum)
    (started : 0 < elapsed) :
    (if elapsed < vestPeriod then (vestingSum * elapsed).fdiv vestPeriod else vestingSum) ≤
      vestingSum := by
  split
  · next early =>
    rw [Int.fdiv_eq_ediv_of_nonneg _ (by omega)]
    exact Int.ediv_le_of_le_mul (by omega)
      (Int.mul_le_mul_of_nonneg_left (Int.le_of_lt early) sumNonneg)
  · exact le_rfl

/-- Every turn keeps the invariant, when the step and the quantization are positive and the
sum is not negative. -/
theorem LoopInvariant.step {original : List VestingFund} {state : AddLockedState}
    (stepPositive : 0 < spec.stepDuration) (quantPositive : 0 < spec.quantization)
    (sumNonneg : 0 ≤ vestingSum) (invariant : LoopInvariant original vestingSum vestBegin state) :
    LoopInvariant original vestingSum vestBegin
      (addLockedStep vestingSum vestBegin provingPeriodStart spec state) := by
  unfold addLockedStep
  dsimp only
  set vestEpoch := (QuantSpec.mk spec.quantization provingPeriodStart).quantizeUp
    (state.epoch + spec.stepDuration) with vestEpochIs
  set targetVest := if vestEpoch - vestBegin < spec.vestPeriod then
    (vestingSum * (vestEpoch - vestBegin)).fdiv spec.vestPeriod else vestingSum with targetVestIs
  -- the quantized epoch lies after `vest_begin`, and the target does not pass the sum
  have roundedUp : state.epoch + spec.stepDuration ≤ vestEpoch :=
    (QuantSpec.quantizeUp_spec quantPositive _).1
  have begun := invariant.begun
  have afterBegin : vestBegin < vestEpoch := by omega
  have targetBound : targetVest ≤ vestingSum := targetVest_le sumNonneg (by omega)
  split
  · -- an entry at the epoch already: add to it
    next index mapped =>
    have entry := invariant.index.mapped _ _ mapped
    rw [List.getElem?_map] at entry
    obtain ⟨fund, found, fundEpoch⟩ : ∃ fund, state.funds[index]? = some fund ∧
        fund.epoch = vestEpoch := by
      cases stored : state.funds[index]? with
      | none => simp [stored] at entry
      | some fund => exact ⟨fund, rfl, by simpa [stored] using entry⟩
    -- adding to an entry keeps its epoch
    let addVested := fun fund : VestingFund =>
      { fund with amount := fund.amount + (targetVest - state.vestedSoFar) }
    have sameEpochs := map_modify_of_forall (·.epoch) addVested (fun _ => rfl) state.funds index
    refine ⟨invariant.index.of_epochs_eq sameEpochs, sameEpochs ▸ invariant.distinct, ?_, ?_,
      show vestBegin ≤ state.epoch + spec.stepDuration by omega, targetBound⟩
    · dsimp only
      rw [sum_map_modify found, invariant.total]
      dsimp only
      omega
    · rw [filter_modify_of_not _ addVested found (by simp [fundEpoch]; omega)
        (by simp [addVested, fundEpoch]; omega), invariant.frame]
  · -- a new epoch: append an entry and map the epoch to its index
    next unmapped =>
    have fresh := invariant.index.unmapped _ unmapped
    refine ⟨⟨fun epoch i mapped => ?_, fun epoch stillUnmapped => ?_⟩, ?_, ?_, ?_,
      show vestBegin ≤ state.epoch + spec.stepDuration by omega, targetBound⟩
    · dsimp only at mapped ⊢
      rw [Function.update_apply] at mapped
      split at mapped
      · next same =>
        cases mapped
        simp [same]
      · have earlierEntry := invariant.index.mapped epoch i mapped
        rw [List.map_append, List.getElem?_append_left
          (List.getElem?_eq_some_iff.mp earlierEntry).1]
        exact earlierEntry
    · dsimp only at stillUnmapped ⊢
      rw [Function.update_apply] at stillUnmapped
      split at stillUnmapped
      · cases stillUnmapped
      · next differs =>
        simpa [differs] using invariant.index.unmapped epoch stillUnmapped
    · dsimp only
      rw [List.map_append, List.nodup_append]
      exact ⟨invariant.distinct, List.nodup_singleton _, by simpa using fresh⟩
    · dsimp only
      simp only [List.map_append, List.sum_append, invariant.total, List.map_cons, List.map_nil,
        List.sum_cons, List.sum_nil]
      omega
    · -- the new entry lies after `vest_begin`
      have notUpTo : ¬vestEpoch ≤ vestBegin := by omega
      dsimp only
      simp only [List.filter_append, invariant.frame, List.filter_cons, List.filter_nil,
        decide_eq_true_eq, if_neg notUpTo, List.append_nil]

/-- The invariant holds after any number of turns. -/
theorem LoopInvariant.iterate {original : List VestingFund} {state : AddLockedState}
    (stepPositive : 0 < spec.stepDuration) (quantPositive : 0 < spec.quantization)
    (sumNonneg : 0 ≤ vestingSum) (invariant : LoopInvariant original vestingSum vestBegin state)
    (turns : Nat) :
    LoopInvariant original vestingSum vestBegin
      ((addLockedStep vestingSum vestBegin provingPeriodStart spec)^[turns] state) := by
  induction turns with
  | zero => exact invariant
  | succ turns inductionHypothesis =>
    rw [Function.iterate_succ_apply']
    exact inductionHypothesis.step stepPositive quantPositive sumNonneg

/-- Once more turns than the vesting period have run from `vest_begin`, the whole sum has
vested: the quantized epoch is at least one step per turn past `vest_begin`. -/
theorem vestedSoFar_after_period (stepPositive : 0 < spec.stepDuration)
    (quantPositive : 0 < spec.quantization) {state : AddLockedState}
    (fromBegin : state.epoch = vestBegin) :
    ((addLockedStep vestingSum vestBegin provingPeriodStart spec)^[spec.vestPeriod.toNat + 1]
      state).vestedSoFar = vestingSum := by
  rw [Function.iterate_succ_apply', addLockedStep_vestedSoFar]
  set turns := spec.vestPeriod.toNat
  have reached : ((addLockedStep vestingSum vestBegin provingPeriodStart spec)^[turns] state).epoch =
      state.epoch + turns * spec.stepDuration :=
    iterate_addLockedStep_epoch state turns
  have roundedUp := (QuantSpec.quantizeUp_spec (show 0 < (QuantSpec.mk spec.quantization
    provingPeriodStart).unit from quantPositive)
    (((addLockedStep vestingSum vestBegin provingPeriodStart spec)^[turns] state).epoch +
      spec.stepDuration)).1
  -- each turn moves at least one epoch, and there are at least as many turns as the period
  have perTurn : (turns : Int) ≤ turns * spec.stepDuration := by
    have scaled := Int.mul_le_mul_of_nonneg_left (show 1 ≤ spec.stepDuration by omega)
      (show (0 : Int) ≤ turns by omega)
    rwa [Int.mul_one] at scaled
  have periodBound : spec.vestPeriod ≤ (turns : Int) := Int.self_le_toNat _
  rw [if_neg (by omega)]

/-- Entries sorted by epoch whose epochs are distinct are sorted strictly. -/
theorem sorted_of_sortByCachedKey {funds : List VestingFund}
    (distinct : (funds.map (·.epoch)).Nodup) :
    (⟨funds.sortByCachedKey (·.epoch)⟩ : VestingFunds).Sorted := by
  have sortedDistinct : ((funds.sortByCachedKey (·.epoch)).map (·.epoch)).Nodup :=
    ((List.sortByCachedKey_perm funds).map _).nodup_iff.mpr distinct
  exact ((List.sortByCachedKey_sorted funds).and (List.pairwise_map.mp sortedDistinct)).imp
    fun ordered => lt_of_le_of_ne ordered.1 ordered.2

/-- `add_locked_funds` on a sorted table, with a sum that is not negative and a positive step
and quantization: with more fuel than the vesting period its loop ends, and it leaves a sorted
table holding exactly the sum more, with the entries up to `current_epoch + initial_delay`
unchanged. -/
theorem addLockedFunds_spec (sorted : table.Sorted) (sumNonneg : 0 ≤ vestingSum)
    (stepPositive : 0 < spec.stepDuration) (quantPositive : 0 < spec.quantization)
    (currentEpoch : Int) :
    ∃ result : VestingFunds,
      (∀ fuel, spec.vestPeriod.toNat + 1 < fuel →
        table.addLockedFunds currentEpoch vestingSum provingPeriodStart spec fuel = some result) ∧
      result.Sorted ∧ result.total = table.total + vestingSum ∧
      ∀ fund, fund.epoch ≤ currentEpoch + spec.initialDelay →
        (fund ∈ result.funds ↔ fund ∈ table.funds) := by
  set begin := currentEpoch + spec.initialDelay
  set step := addLockedStep vestingSum begin provingPeriodStart spec
  set start : AddLockedState := ⟨table.funds, indexEpochs table.funds, 0, begin⟩
  set finished := fun state : AddLockedState => !decide (state.vestedSoFar < vestingSum)
  have invariantAt : ∀ turns, LoopInvariant table.funds vestingSum begin (step^[turns] start) :=
    (LoopInvariant.start sorted sumNonneg).iterate stepPositive quantPositive sumNonneg
  -- the loop ends at the first turn where everything has vested, at the latest after the period
  have allVested : (step^[spec.vestPeriod.toNat + 1] start).vestedSoFar = vestingSum :=
    vestedSoFar_after_period stepPositive quantPositive rfl
  have endsByPeriod : finished (step^[spec.vestPeriod.toNat + 1] start) = true := by
    simp only [finished, allVested, Int.lt_irrefl, decide_false, Bool.not_false]
  have ends : ∃ turns, finished (step^[turns] start) = true := ⟨_, endsByPeriod⟩
  set last := Nat.find ends
  have lastEnds : finished (step^[last] start) = true := Nat.find_spec ends
  have lastBound : last ≤ spec.vestPeriod.toNat + 1 := Nat.find_min' ends endsByPeriod
  have earlierGoOn : ∀ earlier < last, finished (step^[earlier] start) = false :=
    fun earlier below => by simpa using Nat.find_min ends below
  have ran := Loop.findSuccessor_of_first last start lastEnds earlierGoOn
  have atLast := invariantAt last
  have vestedAll : (step^[last] start).vestedSoFar = vestingSum := by
    simp only [finished, Bool.not_eq_true', decide_eq_false_iff_not, Int.not_lt] at lastEnds
    exact le_antisymm atLast.bounded lastEnds
  have perm : List.Perm ((step^[last] start).funds.sortByCachedKey (·.epoch))
      (step^[last] start).funds :=
    List.sortByCachedKey_perm _
  refine ⟨⟨(step^[last] start).funds.sortByCachedKey (·.epoch)⟩, fun fuel enough => ?_,
    sorted_of_sortByCachedKey atLast.distinct, ?_, fun fund upTo => ?_⟩
  · rw [addLockedFunds, ran fuel (by omega)]
    rfl
  · rw [total, (perm.map _).sum_eq, atLast.total, vestedAll]
    rfl
  · -- the entries up to `vest_begin` are the table's, before and after sorting
    have kept := congrArg (fund ∈ ·) atLast.frame
    simp only [List.mem_filter, decide_eq_true_eq, upTo, and_true, eq_iff_iff] at kept
    exact perm.mem_iff.trans kept

/-- What `unlock_unvested_funds` guarantees on a sorted table with no negative amount: it
returns `min(target, sum at or after the epoch)`, the total drops by as much, the entries
before the epoch stay, and the table stays sorted. -/
theorem unlockUnvestedFunds_spec (sorted : table.Sorted)
    (nonneg : ∀ fund ∈ table.funds, 0 ≤ fund.amount) {target : Int} (targetNonneg : 0 ≤ target)
    (currentEpoch : Int) :
    let unvested := ((table.funds.filter fun fund => currentEpoch ≤ fund.epoch).map (·.amount)).sum
    ∃ result : VestingFunds,
      table.unlockUnvestedFunds currentEpoch target = some (result, min target unvested) ∧
      result.total = table.total - min target unvested ∧
      result.funds.filter (fun fund => fund.epoch < currentEpoch) =
        table.funds.filter (fun fund => fund.epoch < currentEpoch) ∧
      result.Sorted := by
  set before := table.funds.filter fun fund => fund.epoch < currentEpoch
  set after := table.funds.filter fun fund => currentEpoch ≤ fund.epoch
  intro unvested
  have split : table.funds = before ++ after := sorted.split currentEpoch
  have afterNonneg : ∀ fund ∈ after, 0 ≤ fund.amount :=
    fun fund member => nonneg fund (List.mem_of_mem_filter member)
  -- what is left of the later entries keeps their epochs, from some point on
  have leftEpochs := epochs_takeInOrder target after
  have leftAfter : ∀ fund ∈ takeInOrder target after, currentEpoch ≤ fund.epoch := by
    intro fund member
    have epochLeft : fund.epoch ∈ (after.drop (emptiedCount target after)).map (·.epoch) :=
      leftEpochs ▸ List.mem_map_of_mem member
    obtain ⟨later, laterMember, sameEpoch⟩ := List.mem_map.mp epochLeft
    have := (List.mem_filter.mp (List.mem_of_mem_drop laterMember)).2
    simp only [decide_eq_true_eq] at this
    omega
  refine ⟨⟨before ++ takeInOrder target after⟩,
    unlockUnvestedFunds_eq sorted nonneg targetNonneg currentEpoch, ?_, ?_, ?_⟩
  · have taken := sum_takeInOrder targetNonneg afterNonneg
    simp only [total, List.map_append, List.sum_append, taken]
    rw [split, List.map_append, List.sum_append]
    omega
  · have leftDropped : (takeInOrder target after).filter (fun fund => fund.epoch < currentEpoch) =
        [] :=
      List.filter_eq_nil_iff.mpr fun fund member => by simpa using leftAfter fund member
    have beforeKept : before.filter (fun fund => fund.epoch < currentEpoch) = before :=
      List.filter_eq_self.mpr fun fund member => (List.mem_filter.mp member).2
    rw [List.filter_append, beforeKept, leftDropped, List.append_nil]
  · rw [sorted_iff] at sorted ⊢
    rw [split] at sorted
    refine sorted.sublist ?_
    simp only [List.map_append, leftEpochs]
    exact (List.Sublist.refl _).append ((List.drop_sublist _ _).map _)

/-- The vesting table's laws, for every table sorted by epoch with distinct epochs:
`add_locked_funds` ends, keeps the table sorted, adds exactly the sum and only after
`current_epoch + initial_delay`; `unlock_vested_funds` removes exactly the entries before the
epoch and returns their sum; and on a table with no negative amount `unlock_unvested_funds`
returns `min(target, sum at or after the epoch)`, lowers the total by that much, keeps the
earlier entries and the order. -/
theorem vesting_table_laws {table : VestingFunds} (sorted : table.Sorted) :
    (∀ (currentEpoch vestingSum provingPeriodStart : Int) (spec : VestSpec), 0 ≤ vestingSum →
      0 < spec.stepDuration → 0 < spec.quantization →
      ∃ result : VestingFunds,
        (∀ fuel, spec.vestPeriod.toNat + 1 < fuel →
          table.addLockedFunds currentEpoch vestingSum provingPeriodStart spec fuel =
            some result) ∧
        result.Sorted ∧ result.total = table.total + vestingSum ∧
        ∀ fund, fund.epoch ≤ currentEpoch + spec.initialDelay →
          (fund ∈ result.funds ↔ fund ∈ table.funds)) ∧
    (∀ currentEpoch : Int,
      (table.unlockVestedFunds currentEpoch).1.funds =
          table.funds.filter (fun fund => currentEpoch ≤ fund.epoch) ∧
        (table.unlockVestedFunds currentEpoch).2 =
          ((table.funds.filter fun fund => fund.epoch < currentEpoch).map (·.amount)).sum) ∧
    ((∀ fund ∈ table.funds, 0 ≤ fund.amount) → ∀ currentEpoch target : Int, 0 ≤ target →
      let unvested :=
        ((table.funds.filter fun fund => currentEpoch ≤ fund.epoch).map (·.amount)).sum
      ∃ result : VestingFunds,
        table.unlockUnvestedFunds currentEpoch target = some (result, min target unvested) ∧
        result.total = table.total - min target unvested ∧
        result.funds.filter (fun fund => fund.epoch < currentEpoch) =
          table.funds.filter (fun fund => fund.epoch < currentEpoch) ∧
        result.Sorted) :=
  ⟨fun _ _ _ _ sumNonneg stepPositive quantPositive =>
    addLockedFunds_spec sorted sumNonneg stepPositive quantPositive _,
    unlockVestedFunds_spec sorted,
    fun nonneg _ _ targetNonneg => unlockUnvestedFunds_spec sorted nonneg targetNonneg _⟩

/-- A sorted table of two entries, vesting 5 at epoch 10 and 7 at epoch 20. -/
def twoEntryTable : VestingFunds := ⟨[⟨10, 5⟩, ⟨20, 7⟩]⟩

theorem vesting_table_laws_two_entries :
    twoEntryTable.Sorted ∧
    (∀ (currentEpoch vestingSum provingPeriodStart : Int) (spec : VestSpec), 0 ≤ vestingSum →
      0 < spec.stepDuration → 0 < spec.quantization →
      ∃ result : VestingFunds,
        (∀ fuel, spec.vestPeriod.toNat + 1 < fuel →
          twoEntryTable.addLockedFunds currentEpoch vestingSum provingPeriodStart spec fuel =
            some result) ∧
        result.Sorted ∧ result.total = twoEntryTable.total + vestingSum ∧
        ∀ fund, fund.epoch ≤ currentEpoch + spec.initialDelay →
          (fund ∈ result.funds ↔ fund ∈ twoEntryTable.funds)) ∧
    (∀ currentEpoch : Int,
      (twoEntryTable.unlockVestedFunds currentEpoch).1.funds =
          twoEntryTable.funds.filter (fun fund => currentEpoch ≤ fund.epoch) ∧
        (twoEntryTable.unlockVestedFunds currentEpoch).2 =
          ((twoEntryTable.funds.filter fun fund => fund.epoch < currentEpoch).map (·.amount)).sum) ∧
    ((∀ fund ∈ twoEntryTable.funds, 0 ≤ fund.amount) → ∀ currentEpoch target : Int, 0 ≤ target →
      let unvested :=
        ((twoEntryTable.funds.filter fun fund => currentEpoch ≤ fund.epoch).map (·.amount)).sum
      ∃ result : VestingFunds,
        twoEntryTable.unlockUnvestedFunds currentEpoch target = some (result, min target unvested) ∧
        result.total = twoEntryTable.total - min target unvested ∧
        result.funds.filter (fun fund => fund.epoch < currentEpoch) =
          twoEntryTable.funds.filter (fun fund => fund.epoch < currentEpoch) ∧
        result.Sorted) :=
  have sorted : twoEntryTable.Sorted := by decide
  ⟨sorted, vesting_table_laws sorted⟩

/-- With a negative amount `unlock_unvested_funds` does not return `min(target, sum at or after
the epoch)`: from 5 at epoch 10 and -3 at epoch 11 it takes 4 of the 5 and stops, though only 2
are there. -/
theorem unlockUnvestedFunds_negative_entry :
    (⟨[⟨10, 5⟩, ⟨11, -3⟩]⟩ : VestingFunds).Sorted ∧
      (⟨[⟨10, 5⟩, ⟨11, -3⟩]⟩ : VestingFunds).unlockUnvestedFunds 0 4 =
        some (⟨[⟨10, 1⟩, ⟨11, -3⟩]⟩, 4) ∧
      min 4 (((⟨[⟨10, 5⟩, ⟨11, -3⟩]⟩ : VestingFunds).funds.filter
        fun fund => 0 ≤ fund.epoch).map (·.amount)).sum = 2 := by
  decide

end VestingFunds

end Forest.Miner

import Mathlib
import Forest.Miner.BitfieldQueue
import Forest.Lib.Usize

namespace Forest.Miner

/-!
# A partition and its early terminations

`Partition` of `miner/partition_state.rs` with the fields that removing partitions and
popping early terminations read, its state checks, and `pop_early_terminations`, which
takes at most a given number of sectors from the queue of early terminations.

The queue is an AMT of bit fields whose index is the epoch cast with `as usize`, visited in
increasing index.  The traversal takes whole entries while the count stays below the
limit, and splits the entry that would pass it with `BitField::slice`, writing the rest
back once the taken entries are deleted.  `TerminationResult` of `termination.rs` collects
the sectors taken by epoch with the counts the callers bound.
-/

/-- The fields of `Partition` that removing partitions and popping early terminations read. -/
structure Partition where
  sectors : Finset Nat
  unproven : Finset Nat
  faults : Finset Nat
  recoveries : Finset Nat
  terminated : Finset Nat
  earlyTerminated : SortedMap Nat (Finset Nat)
  livePower : PowerPair
  unprovenPower : PowerPair
  faultyPower : PowerPair
  recoveringPower : PowerPair

namespace Partition

/-- `Partition::live_sectors`: the sectors not terminated. -/
def liveSectors (partition : Partition) : Finset Nat :=
  partition.sectors \ partition.terminated

/-- `is_negative` of either component of a power. -/
def negativePower (power : PowerPair) : Bool :=
  decide (power.raw < 0) || decide (power.qa < 0)

/-- `Partition::validate_power_state`. -/
def validatePowerState (partition : Partition) : Except String Unit :=
  if negativePower partition.livePower then .error "Partition left with negative live power"
  else if negativePower partition.unprovenPower then
    .error "Partition left with negative unproven power"
  else if negativePower partition.faultyPower then
    .error "Partition left with negative faulty power"
  else if negativePower partition.recoveringPower then
    .error "Partition left with negative recovering power"
  else if partition.unprovenPower.raw > partition.livePower.raw then
    .error "Partition left with invalid unproven power"
  else if partition.faultyPower.raw > partition.livePower.raw then
    .error "Partition left with invalid faulty power"
  else if partition.recoveringPower.raw > partition.livePower.raw ||
      partition.recoveringPower.raw > partition.faultyPower.raw then
    .error "Partition left with invalid recovering power"
  else .ok ()

/-- `Partition::validate_bf_state`. -/
def validateBfState (partition : Partition) : Except String Unit :=
  let merge := partition.unproven ∪ partition.faults
  if ¬ Disjoint partition.terminated merge then
    .error "Partition left with terminated sectors in multiple states"
  else if ¬ merge ∪ partition.terminated ⊆ partition.sectors then
    .error "Partition left with invalid sector state"
  else if ¬ partition.recoveries ⊆ partition.faults then
    .error "Partition left with invalid recovery state"
  else .ok ()

/-- `Partition::validate_state`. -/
def validateState (partition : Partition) : Except String Unit :=
  match partition.validatePowerState with
  | .error message => .error message
  | .ok () => partition.validateBfState

end Partition

/-- `TerminationResult`: the sectors taken by epoch, and the partitions and sectors
counted. -/
structure TerminationResult where
  sectors : SortedMap Int (Finset Nat)
  partitionsProcessed : Nat
  sectorsProcessed : Nat

namespace TerminationResult

/-- `TerminationResult::new`. -/
def new : TerminationResult :=
  ⟨SortedMap.empty, 0, 0⟩

/-- `AddAssign for TerminationResult`: the counts add, and the sectors of one epoch are
joined.  The hash map of the right side is visited in increasing epoch; a union does not
depend on the order. -/
def addAssign (result other : TerminationResult) : TerminationResult where
  sectors := other.sectors.entries.foldl (fun sectors entry =>
    sectors.set entry.1 ((sectors.get? entry.1).getD ∅ ∪ entry.2)) result.sectors
  partitionsProcessed := result.partitionsProcessed + other.partitionsProcessed
  sectorsProcessed := result.sectorsProcessed + other.sectorsProcessed

/-- `TerminationResult::below_limit`. -/
def belowLimit (result : TerminationResult) (partitionLimit sectorLimit : Nat) : Bool :=
  decide (result.partitionsProcessed < partitionLimit) && decide (result.sectorsProcessed < sectorLimit)

/-- The result holds `sector` at `epoch`. -/
def Has (result : TerminationResult) (epoch : Int) (sector : Nat) : Prop :=
  ∃ sectors, result.sectors.get? epoch = some sectors ∧ sector ∈ sectors

end TerminationResult

/-- `BitField::iter`: the bits in increasing order, scanned up to the largest. -/
def bitsAscending (bits : Finset Nat) : List Nat :=
  (List.range (bits.sup id + 1)).filter (· ∈ bits)

/-- `BitField::slice`: the `len` bits after the first `start`, in increasing order, if there
are that many. -/
def slice (bits : Finset Nat) (start len : Nat) : Except String (Finset Nat) :=
  let chosen := (((bitsAscending bits).drop start).take len).toFinset
  if chosen.card = len then .ok chosen else .error "Not enough bits"

/-- The state of the traversal in `Partition::pop_early_terminations`: the indices taken
whole, the rest of a split entry with its epoch, and the result so far. -/
structure PopState where
  processed : List Nat
  remaining : Option (Finset Nat × Int)
  result : TerminationResult

namespace Partition

/-- The closure of the traversal in `pop_early_terminations`: an entry that fits in what is
left of `maxSectors` is taken whole, a larger one is split; the traversal goes on while the
count is below `maxSectors`. -/
def popEarlyVisit (maxSectors : Nat) (i : Nat) (sectors : Finset Nat) (state : PopState) :
    Except String (Bool × PopState) :=
  let epoch := I64.ofUsize i
  let count := sectors.card
  match Usize.checkedSub maxSectors state.result.sectorsProcessed with
  | .error panic => .error panic
  | .ok limit =>
    if limit < count then
      match slice sectors 0 limit with
      | .error cause => .error s!"failed to slice early terminations: {cause}"
      | .ok toProcess =>
        let result := { state.result with
          sectors := state.result.sectors.set epoch toProcess
          sectorsProcessed := state.result.sectorsProcessed + limit }
        .ok (decide (result.sectorsProcessed < maxSectors),
          { state with remaining := some (sectors \ toProcess, epoch), result := result })
    else
      let result := { state.result with
        sectors := state.result.sectors.set epoch sectors
        sectorsProcessed := state.result.sectorsProcessed + count }
      .ok (decide (result.sectorsProcessed < maxSectors),
        { state with processed := state.processed ++ [i], result := result })

/-- The traversal state before the first entry: one partition processed. -/
def popStart : PopState :=
  ⟨[], none, { TerminationResult.new with partitionsProcessed := 1 }⟩

/-- `Partition::pop_early_terminations`: the sectors taken with whether the queue still holds
entries, and the partition left. -/
def popEarlyTerminations (partition : Partition) (maxSectors : Nat) :
    Except String ((TerminationResult × Bool) × Partition) :=
  match SortedMap.forEachWhile (popEarlyVisit maxSectors) partition.earlyTerminated.entries
      popStart with
  | .error cause => .error s!"failed to walk early terminations queue: {cause}"
  | .ok state =>
    match amtBatchDelete partition.earlyTerminated state.processed true with
    | .error cause => .error s!"failed to remove entries from early terminations queue: {cause}"
    | .ok queue =>
      let written : Except String (SortedMap Nat (Finset Nat)) :=
        match state.remaining with
        | none => .ok queue
        | some (remainingSectors, remainingEpoch) =>
          match amtSet queue (I64.toUsize remainingEpoch) remainingSectors with
          | .error cause =>
            .error s!"failed to update remaining entry early terminations queue: {cause}"
          | .ok queue => .ok queue
      match written with
      | .error cause => .error cause
      | .ok queue =>
        let partition := { partition with earlyTerminated := queue }
        match partition.validateState with
        | .error cause => .error cause
        | .ok () => .ok ((state.result, decide (0 < queue.entries.length)), partition)

end Partition

/-! ## Entries of the queue -/

/-- Some entry holds `sector` at the index that casts to `epoch`. -/
def EntriesHold (entries : List (Nat × Finset Nat)) (epoch : Int) (sector : Nat) : Prop :=
  ∃ entry ∈ entries, I64.ofUsize entry.1 = epoch ∧ sector ∈ entry.2

/-- The sectors of the entries, counted entry by entry. -/
def entriesCount (entries : List (Nat × Finset Nat)) : Nat :=
  (entries.map fun entry => entry.2.card).sum

section Entries

variable {first second : List (Nat × Finset Nat)} {epoch : Int} {sector : Nat}

@[simp] theorem entriesHold_nil : ¬ EntriesHold [] epoch sector := by
  simp [EntriesHold]

@[simp] theorem entriesHold_append :
    EntriesHold (first ++ second) epoch sector ↔
      EntriesHold first epoch sector ∨ EntriesHold second epoch sector := by
  simp only [EntriesHold, List.mem_append, or_and_right, exists_or]

@[simp] theorem entriesHold_cons {index : Nat} {sectors : Finset Nat} :
    EntriesHold ((index, sectors) :: second) epoch sector ↔
      I64.ofUsize index = epoch ∧ sector ∈ sectors ∨ EntriesHold second epoch sector := by
  simp [EntriesHold]

@[simp] theorem entriesCount_nil : entriesCount [] = 0 := rfl

@[simp] theorem entriesCount_append :
    entriesCount (first ++ second) = entriesCount first + entriesCount second := by
  simp [entriesCount]

@[simp] theorem entriesCount_cons {index : Nat} {sectors : Finset Nat} :
    entriesCount ((index, sectors) :: second) = sectors.card + entriesCount second := by
  simp [entriesCount]

/-- Entries with distinct keys below `2 ^ 64` cast to distinct epochs, so two parts of them
never hold one pair. -/
theorem EntriesHold.apart (distinct : ((first ++ second).map Prod.fst).Nodup)
    (below : ∀ entry ∈ first ++ second, entry.1 < 2 ^ 64) (inFirst : EntriesHold first epoch sector) :
    ¬ EntriesHold second epoch sector := by
  rintro ⟨later, laterIn, laterEpoch, -⟩
  obtain ⟨earlier, earlierIn, earlierEpoch, -⟩ := inFirst
  have sameKey : earlier.1 = later.1 :=
    I64.ofUsize_injective (below _ (List.mem_append_left _ earlierIn))
      (below _ (List.mem_append_right _ laterIn)) (earlierEpoch.trans laterEpoch.symm)
  rw [List.map_append] at distinct
  exact List.disjoint_of_nodup_append distinct (List.mem_map_of_mem earlierIn)
    (sameKey ▸ List.mem_map_of_mem laterIn)

end Entries

namespace Partition

/-- The partition queues `sector` at `epoch`. -/
def Queued (partition : Partition) : Int → Nat → Prop :=
  EntriesHold partition.earlyTerminated.entries

/-- The number of sectors queued, entry by entry. -/
def queuedCount (partition : Partition) : Nat :=
  entriesCount partition.earlyTerminated.entries

end Partition

namespace TerminationResult

@[simp] theorem not_has_new {epoch : Int} {sector : Nat} : ¬ TerminationResult.new.Has epoch sector := by
  simp [Has, new]

/-- Setting the sectors of an epoch the result holds nothing at adds exactly those. -/
theorem has_set_of_fresh {result : TerminationResult} {epoch : Int} {sectors : Finset Nat}
    (fresh : ∀ sector, ¬ result.Has epoch sector) (processed : Nat) (other : Int) (sector : Nat) :
    ({ result with sectors := result.sectors.set epoch sectors, sectorsProcessed := processed } :
      TerminationResult).Has other sector ↔
      result.Has other sector ∨ epoch = other ∧ sector ∈ sectors := by
  by_cases same : epoch = other
  · subst same
    have nothing := fresh sector
    simp only [Has, SortedMap.get?_set, if_true, Option.some.injEq, exists_eq_left'] at nothing ⊢
    simp [nothing]
  · simp [Has, SortedMap.get?_set, same]

@[simp] theorem addAssign_partitionsProcessed (result other : TerminationResult) :
    (result.addAssign other).partitionsProcessed =
      result.partitionsProcessed + other.partitionsProcessed :=
  rfl

@[simp] theorem addAssign_sectorsProcessed (result other : TerminationResult) :
    (result.addAssign other).sectorsProcessed = result.sectorsProcessed + other.sectorsProcessed :=
  rfl

@[simp] theorem belowLimit_iff (result : TerminationResult) (partitionLimit sectorLimit : Nat) :
    result.belowLimit partitionLimit sectorLimit = true ↔
      result.partitionsProcessed < partitionLimit ∧ result.sectorsProcessed < sectorLimit := by
  simp [belowLimit]

/-- Joining the sectors of one more epoch adds exactly those. -/
theorem has_join (sectors : SortedMap Int (Finset Nat)) (joined : Int) (more : Finset Nat)
    (epoch : Int) (sector : Nat) :
    (∃ found, (sectors.set joined ((sectors.get? joined).getD ∅ ∪ more)).get? epoch = some found ∧
        sector ∈ found) ↔
      (∃ found, sectors.get? epoch = some found ∧ sector ∈ found) ∨ joined = epoch ∧ sector ∈ more := by
  by_cases same : joined = epoch
  · subst same
    cases sectors.get? joined <;> simp
  · simp [same]

/-- The sum of two results holds the pairs of each. -/
theorem has_addAssign (result other : TerminationResult) (epoch : Int) (sector : Nat) :
    (result.addAssign other).Has epoch sector ↔ result.Has epoch sector ∨ other.Has epoch sector := by
  -- the join visits the entries of `other` one by one
  have folded : ∀ (entries : List (Int × Finset Nat)) (sectors : SortedMap Int (Finset Nat)),
      (∃ found, (entries.foldl (fun sectors entry =>
          sectors.set entry.1 ((sectors.get? entry.1).getD ∅ ∪ entry.2)) sectors).get? epoch =
          some found ∧ sector ∈ found) ↔
        (∃ found, sectors.get? epoch = some found ∧ sector ∈ found) ∨
          ∃ entry ∈ entries, entry.1 = epoch ∧ sector ∈ entry.2 := by
    intro entries
    induction entries with
    | nil => simp
    | cons entry rest inductionHypothesis =>
      intro sectors
      rw [List.foldl_cons, inductionHypothesis, has_join]
      simp only [List.mem_cons, exists_eq_or_imp]
      exact or_assoc
  have listed : (∃ entry ∈ other.sectors.entries, entry.1 = epoch ∧ sector ∈ entry.2) ↔
      other.Has epoch sector := by
    constructor
    · rintro ⟨⟨key, found⟩, member, rfl, inFound⟩
      exact ⟨found, (SortedMap.mem_entries_iff _).mp member, inFound⟩
    · rintro ⟨found, lookup, inFound⟩
      exact ⟨(epoch, found), (SortedMap.mem_entries_iff _).mpr lookup, rfl, inFound⟩
  rw [← listed]
  exact folded other.sectors.entries result.sectors

end TerminationResult

section Bits

variable {bits : Finset Nat}

/-- The scan lists each bit once, in increasing order. -/
theorem bitsAscending_increasing : (bitsAscending bits).Pairwise (· < ·) :=
  List.pairwise_lt_range.filter _

@[simp] theorem mem_bitsAscending {bit : Nat} : bit ∈ bitsAscending bits ↔ bit ∈ bits := by
  have belowTop : bit ∈ bits → bit < bits.sup id + 1 := fun member => by
    have atMost : id bit ≤ bits.sup id := Finset.le_sup member
    exact Nat.lt_succ_of_le atMost
  simp only [bitsAscending, List.mem_filter, List.mem_range, decide_eq_true_eq]
  exact ⟨fun listed => listed.2, fun member => ⟨belowTop member, member⟩⟩

theorem bitsAscending_nodup : (bitsAscending bits).Nodup :=
  List.nodup_range.filter _

theorem length_bitsAscending : (bitsAscending bits).length = bits.card := by
  rw [← List.toFinset_card_of_nodup bitsAscending_nodup]
  congr 1
  ext bit
  simp

/-- Slicing off the first `len` bits of a set with at least that many gives `len` of its bits. -/
theorem slice_of_le {len : Nat} (enough : len ≤ bits.card) :
    ∃ chosen, slice bits 0 len = .ok chosen ∧ chosen ⊆ bits ∧ chosen.card = len := by
  have distinct : ((bitsAscending bits).take len).Nodup :=
    bitsAscending_nodup.sublist (List.take_sublist _ _)
  have card : ((bitsAscending bits).take len).toFinset.card = len := by
    rw [List.toFinset_card_of_nodup distinct, List.length_take, length_bitsAscending]
    omega
  refine ⟨((bitsAscending bits).take len).toFinset, by simp [slice, card], ?_, card⟩
  intro bit member
  rw [List.mem_toFinset] at member
  exact mem_bitsAscending.mp (List.mem_of_mem_take member)

end Bits

/-! ## The traversal of the queue -/

/-- What the traversal state says after taking the entries `taken` whole and, with `cut`, the
sectors `T` of one more entry `(j, S)`: the indices to delete, the rest to write back, and the
sectors taken with their count, which stays within `maxSectors`. -/
structure Took (maxSectors : Nat) (taken : List (Nat × Finset Nat))
    (cut : Option (Nat × Finset Nat × Finset Nat)) (state : PopState) : Prop where
  processed : state.processed = taken.map Prod.fst
  remaining : state.remaining = cut.map fun split => (split.2.1 \ split.2.2, I64.ofUsize split.1)
  partitionsProcessed : state.result.partitionsProcessed = 1
  sectorsProcessed : state.result.sectorsProcessed =
    entriesCount taken + cut.elim 0 fun split => split.2.2.card
  withinLimit : state.result.sectorsProcessed ≤ maxSectors
  cutSubset : ∀ split ∈ cut, split.2.2 ⊆ split.2.1
  has : ∀ epoch sector, state.result.Has epoch sector ↔
    EntriesHold taken epoch sector ∨ ∃ split ∈ cut, I64.ofUsize split.1 = epoch ∧ sector ∈ split.2.2

/-- The traversal stopped after the entries `seen` with the budget used up, having taken them
all whole or the last of them in part. -/
def PopStopped (maxSectors : Nat) (seen : List (Nat × Finset Nat)) (state : PopState) : Prop :=
  state.result.sectorsProcessed = maxSectors ∧
    (Took maxSectors seen none state ∨
      ∃ whole index sectors toProcess, seen = whole ++ [(index, sectors)] ∧
        Took maxSectors whole (some (index, sectors, toProcess)) state)

namespace Partition

section Visit

variable {maxSectors index : Nat} {sectors : Finset Nat} {state : PopState}

/-- A visit that finds more sectors than the budget left takes a slice of them, keeps the rest
to write back, and stops with the budget used up. -/
theorem popEarlyVisit_of_split {toProcess : Finset Nat}
    (withinLimit : state.result.sectorsProcessed ≤ maxSectors)
    (short : maxSectors - state.result.sectorsProcessed < sectors.card)
    (sliced : slice sectors 0 (maxSectors - state.result.sectorsProcessed) = .ok toProcess) :
    popEarlyVisit maxSectors index sectors state =
      .ok (false, { state with
        remaining := some (sectors \ toProcess, I64.ofUsize index)
        result := { state.result with
          sectors := state.result.sectors.set (I64.ofUsize index) toProcess
          sectorsProcessed := maxSectors } }) := by
  have used : state.result.sectorsProcessed + (maxSectors - state.result.sectorsProcessed) =
      maxSectors := by
    omega
  simp only [popEarlyVisit, Usize.checkedSub_of_le withinLimit, if_pos short, sliced, used,
    lt_self_iff_false, decide_false]

/-- A visit that finds no more sectors than the budget left takes the entry whole, and goes on
while the budget is not used up. -/
theorem popEarlyVisit_of_whole (withinLimit : state.result.sectorsProcessed ≤ maxSectors)
    (fits : sectors.card ≤ maxSectors - state.result.sectorsProcessed) :
    popEarlyVisit maxSectors index sectors state =
      .ok (decide (state.result.sectorsProcessed + sectors.card < maxSectors), { state with
        processed := state.processed ++ [index]
        result := { state.result with
          sectors := state.result.sectors.set (I64.ofUsize index) sectors
          sectorsProcessed := state.result.sectorsProcessed + sectors.card } }) := by
  simp only [popEarlyVisit, Usize.checkedSub_of_le withinLimit, if_neg (not_lt.mpr fits)]

/-- One visit from a state that took the entries `seen` whole, at an index whose epoch none of
them has: it takes the entry whole and goes on, or stops with the budget used up, having taken
the entry whole or in part. -/
theorem popEarlyVisit_step {seen : List (Nat × Finset Nat)} (took : Took maxSectors seen none state)
    (fresh : ∀ entry ∈ seen, I64.ofUsize entry.1 ≠ I64.ofUsize index) :
    ∃ keepGoing state', popEarlyVisit maxSectors index sectors state = .ok (keepGoing, state') ∧
      if keepGoing then Took maxSectors (seen ++ [(index, sectors)]) none state'
      else PopStopped maxSectors (seen ++ [(index, sectors)]) state' := by
  have nothingThere : ∀ sector, ¬ state.result.Has (I64.ofUsize index) sector := by
    intro sector has
    rcases (took.has _ sector).mp has with ⟨entry, entryIn, entryEpoch, -⟩ | ⟨split, splitIn, -⟩
    · exact fresh entry entryIn entryEpoch
    · cases splitIn
  have withinLimit := took.withinLimit
  by_cases short : maxSectors - state.result.sectorsProcessed < sectors.card
  · -- the entry is split: the slice fills what is left of the budget
    obtain ⟨toProcess, sliced, subset, card⟩ := slice_of_le (le_of_lt short)
    refine ⟨false, _, popEarlyVisit_of_split withinLimit short sliced, ?_⟩
    simp only [Bool.false_eq_true, if_false]
    refine ⟨rfl, .inr ⟨seen, index, sectors, toProcess, rfl, ?_⟩⟩
    exact {
      processed := took.processed
      remaining := rfl
      partitionsProcessed := took.partitionsProcessed
      sectorsProcessed := by
        have counted : state.result.sectorsProcessed = entriesCount seen := by
          simpa using took.sectorsProcessed
        simp only [Option.elim]
        omega
      withinLimit := le_refl _
      cutSubset := by simpa using subset
      has := fun epoch sector => by
        rw [TerminationResult.has_set_of_fresh nothingThere, took.has]
        simp }
  · -- the entry is taken whole
    have fits : sectors.card ≤ maxSectors - state.result.sectorsProcessed := not_lt.mp short
    have tookMore : Took maxSectors (seen ++ [(index, sectors)]) none { state with
        processed := state.processed ++ [index]
        result := { state.result with
          sectors := state.result.sectors.set (I64.ofUsize index) sectors
          sectorsProcessed := state.result.sectorsProcessed + sectors.card } } := {
      processed := by simp [took.processed]
      remaining := took.remaining
      partitionsProcessed := took.partitionsProcessed
      sectorsProcessed := by simp [took.sectorsProcessed]
      withinLimit := by dsimp only; omega
      cutSubset := by simp
      has := fun epoch sector => by
        rw [TerminationResult.has_set_of_fresh nothingThere, took.has]
        simp }
    refine ⟨_, _, popEarlyVisit_of_whole withinLimit fits, ?_⟩
    by_cases going : state.result.sectorsProcessed + sectors.card < maxSectors
    · simpa [going] using tookMore
    · simp only [going, decide_false, Bool.false_eq_true, if_false]
      exact ⟨by dsimp only; omega, .inl tookMore⟩

end Visit

/-- The traversal of entries with distinct keys below `2 ^ 64` succeeds: it takes a prefix
whole, with the budget used up if entries are left, or a prefix whole and a slice of the next
entry, with the budget used up. -/
theorem forEachWhile_popEarlyVisit (maxSectors : Nat) (entries : List (Nat × Finset Nat))
    (distinct : (entries.map Prod.fst).Nodup) (below : ∀ entry ∈ entries, entry.1 < 2 ^ 64) :
    ∃ final, SortedMap.forEachWhile (popEarlyVisit maxSectors) entries popStart = .ok final ∧
      ((∃ taken rest, entries = taken ++ rest ∧ Took maxSectors taken none final ∧
          (rest ≠ [] → final.result.sectorsProcessed = maxSectors)) ∨
        ∃ whole index sectors toProcess rest, entries = whole ++ (index, sectors) :: rest ∧
          Took maxSectors whole (some (index, sectors, toProcess)) final ∧
          final.result.sectorsProcessed = maxSectors) := by
  have start : Took maxSectors [] none popStart := {
    processed := rfl
    remaining := rfl
    partitionsProcessed := rfl
    sectorsProcessed := rfl
    withinLimit := Nat.zero_le _
    cutSubset := by simp
    has := by simp [popStart, TerminationResult.Has, TerminationResult.new] }
  have step : ∀ seen state (entry : Nat × Finset Nat), seen ++ [entry] <+: entries →
      Took maxSectors seen none state →
      ∃ keepGoing state', popEarlyVisit maxSectors entry.1 entry.2 state = .ok (keepGoing, state') ∧
        if keepGoing then Took maxSectors (seen ++ [entry]) none state'
        else PopStopped maxSectors (seen ++ [entry]) state' := by
    rintro seen state ⟨index, sectors⟩ ⟨after, whole⟩ took
    apply popEarlyVisit_step took
    -- the index visited is new: the keys are distinct and cast to `i64` one to one
    intro earlier earlierIn sameEpoch
    have prefixDistinct : (seen.map Prod.fst ++ [index]).Nodup := by
      rw [← whole, List.map_append, List.map_append] at distinct
      simpa using distinct.of_append_left
    have inEntries : ∀ entry ∈ seen ++ [(index, sectors)], entry.1 < 2 ^ 64 := fun entry member =>
      below entry (whole ▸ List.mem_append_left _ member)
    have sameKey : earlier.1 = index :=
      I64.ofUsize_injective (inEntries _ (List.mem_append_left _ earlierIn))
        (inEntries (index, sectors) (by simp)) sameEpoch
    exact List.disjoint_of_nodup_append prefixDistinct (List.mem_map_of_mem earlierIn)
      (by simp [sameKey])
  rw [SortedMap.forEachWhile_eq_forWhile]
  obtain ⟨visited, rest, final, shape, run, outcome⟩ :=
    Loop.forWhile_of_invariant entries (fun seen state => Took maxSectors seen none state)
      (PopStopped maxSectors) (fun seen state entry => step seen state entry) start
  refine ⟨final, run, ?_⟩
  rcases outcome with ⟨rfl, took⟩ | ⟨used, took | ⟨whole, index, sectors, toProcess, rfl, took⟩⟩
  · exact .inl ⟨visited, [], shape, took, fun nonempty => absurd rfl nonempty⟩
  · exact .inl ⟨visited, rest, shape, took, fun _ => used⟩
  · exact .inr ⟨whole, index, sectors, toProcess, rest, by simpa using shape, took, used⟩

/-- Deleting the keys of a prefix of the entries, strictly, leaves the rest. -/
theorem amtBatchDelete_prefix {queue : SortedMap Nat (Finset Nat)} {taken rest : List (Nat × Finset Nat)}
    (split : queue.entries = taken ++ rest) (inRange : ∀ entry ∈ queue.entries, entry.1 ≤ AMT.maxIndex) :
    ∃ queue', amtBatchDelete queue (taken.map Prod.fst) true = .ok queue' ∧ queue'.entries = rest := by
  have distinct := queue.keys_nodup
  rw [split, List.map_append] at distinct
  have present : ∀ index ∈ taken.map Prod.fst, index ≤ AMT.maxIndex ∧ (queue.get? index).isSome := by
    intro index member
    obtain ⟨⟨key, value⟩, entryIn, rfl⟩ := List.mem_map.mp member
    have inQueue : (key, value) ∈ queue.entries := split ▸ List.mem_append_left _ entryIn
    refine ⟨inRange _ inQueue, ?_⟩
    rw [(SortedMap.mem_entries_iff queue).mp inQueue]
    rfl
  refine ⟨_, amtBatchDelete_of_present true distinct.of_append_left present, ?_⟩
  have noneKept : taken.filter (fun entry => decide (entry.1 ∉ taken.map Prod.fst)) = [] :=
    List.filter_eq_nil_iff.mpr fun entry member => by simp [List.mem_map_of_mem member]
  have allKept : rest.filter (fun entry => decide (entry.1 ∉ taken.map Prod.fst)) = rest :=
    List.filter_eq_self.mpr fun entry member => by
      simpa using fun inTaken => List.disjoint_of_nodup_append distinct inTaken
        (List.mem_map_of_mem member)
  show queue.entries.filter (fun entry => decide (entry.1 ∉ taken.map Prod.fst)) = rest
  rw [split, List.filter_append, noneKept, allKept, List.nil_append]

/-- What popping at most `maxSectors` early terminations from `partition` gives: the partition
with only its queue changed, one partition processed, the sectors taken within the budget and
the budget used up when entries are left, and a queue that holds exactly the pairs not
taken. -/
structure Popped (partition : Partition) (maxSectors : Nat) (result : TerminationResult)
    (more : Bool) (after : Partition) : Prop where
  onlyQueue : after = { partition with earlyTerminated := after.earlyTerminated }
  partitionsProcessed : result.partitionsProcessed = 1
  withinLimit : result.sectorsProcessed ≤ maxSectors
  usedUp : more = true → result.sectorsProcessed = maxSectors
  more_iff : more = true ↔ after.earlyTerminated.entries ≠ []
  count : partition.queuedCount = after.queuedCount + result.sectorsProcessed
  keys : ∀ entry ∈ after.earlyTerminated.entries,
    entry.1 ∈ partition.earlyTerminated.entries.map Prod.fst
  kept : ∀ epoch sector, after.Queued epoch sector → partition.Queued epoch sector
  taken : ∀ epoch sector,
    result.Has epoch sector ↔ partition.Queued epoch sector ∧ ¬ after.Queued epoch sector

section Pop

variable {partition : Partition} {maxSectors : Nat} {final : PopState}

/-- The state checks do not read the queue of early terminations. -/
@[simp] theorem validateState_earlyTerminated (queue : SortedMap Nat (Finset Nat)) :
    ({ partition with earlyTerminated := queue }).validateState = partition.validateState :=
  rfl

/-- A traversal that took a prefix whole leaves the rest of the queue. -/
theorem popEarlyTerminations_of_whole {taken rest : List (Nat × Finset Nat)}
    (valid : partition.validateState = .ok ())
    (inRange : ∀ entry ∈ partition.earlyTerminated.entries, entry.1 ≤ AMT.maxIndex)
    (below : ∀ entry ∈ partition.earlyTerminated.entries, entry.1 < 2 ^ 64)
    (run : SortedMap.forEachWhile (popEarlyVisit maxSectors) partition.earlyTerminated.entries
      popStart = .ok final)
    (split : partition.earlyTerminated.entries = taken ++ rest) (took : Took maxSectors taken none final)
    (usedUp : rest ≠ [] → final.result.sectorsProcessed = maxSectors) :
    ∃ result more after, partition.popEarlyTerminations maxSectors = .ok ((result, more), after) ∧
      Popped partition maxSectors result more after := by
  obtain ⟨queue, deleted, queueEntries⟩ := amtBatchDelete_prefix split inRange
  have distinct := partition.earlyTerminated.keys_nodup
  rw [split] at distinct below
  refine ⟨final.result, decide (0 < queue.entries.length), { partition with earlyTerminated := queue },
    ?_, ?_⟩
  · simp only [popEarlyTerminations, run, took.processed, deleted, took.remaining, Option.map_none,
      validateState_earlyTerminated, valid]
  · have counted : final.result.sectorsProcessed = entriesCount taken := by
      simpa using took.sectorsProcessed
    exact {
      onlyQueue := rfl
      partitionsProcessed := took.partitionsProcessed
      withinLimit := took.withinLimit
      usedUp := fun more => usedUp (by simpa [queueEntries, List.length_pos_iff] using more)
      more_iff := by simp [queueEntries, List.length_pos_iff]
      count := by simp [queuedCount, split, queueEntries, counted, Nat.add_comm]
      keys := fun entry member => by
        rw [queueEntries] at member
        rw [split]
        exact List.mem_map_of_mem (List.mem_append_right _ member)
      kept := fun epoch sector queued => by
        simp only [Queued, queueEntries, split, entriesHold_append] at queued ⊢
        exact .inr queued
      taken := fun epoch sector => by
        simp only [took.has, Queued, queueEntries, split, entriesHold_append]
        constructor
        · rintro (inTaken | ⟨_, ⟨⟩, -⟩)
          exact ⟨.inl inTaken, EntriesHold.apart distinct below inTaken⟩
        · rintro ⟨inTaken | inRest, notRest⟩
          · exact .inl inTaken
          · exact absurd inRest notRest }

/-- A traversal that split an entry writes its rest back in front of the entries after it. -/
theorem popEarlyTerminations_of_split {whole rest : List (Nat × Finset Nat)} {index : Nat}
    {sectors toProcess : Finset Nat}
    (valid : partition.validateState = .ok ())
    (inRange : ∀ entry ∈ partition.earlyTerminated.entries, entry.1 ≤ AMT.maxIndex)
    (below : ∀ entry ∈ partition.earlyTerminated.entries, entry.1 < 2 ^ 64)
    (run : SortedMap.forEachWhile (popEarlyVisit maxSectors) partition.earlyTerminated.entries
      popStart = .ok final)
    (split : partition.earlyTerminated.entries = whole ++ (index, sectors) :: rest)
    (took : Took maxSectors whole (some (index, sectors, toProcess)) final)
    (usedUp : final.result.sectorsProcessed = maxSectors) :
    ∃ result more after, partition.popEarlyTerminations maxSectors = .ok ((result, more), after) ∧
      Popped partition maxSectors result more after := by
  obtain ⟨queue, deleted, queueEntries⟩ := amtBatchDelete_prefix split inRange
  have indexInRange : index ≤ AMT.maxIndex := inRange (index, sectors) (by simp [split])
  have indexBelow : index < 2 ^ 64 := by
    unfold AMT.maxIndex at indexInRange
    omega
  have written : amtSet queue (I64.toUsize (I64.ofUsize index)) (sectors \ toProcess) =
      .ok (queue.set index (sectors \ toProcess)) := by
    rw [I64.toUsize_ofUsize indexBelow]
    exact if_neg (not_lt.mpr indexInRange)
  have writtenEntries : (queue.set index (sectors \ toProcess)).entries =
      (index, sectors \ toProcess) :: rest :=
    SortedMap.entries_set_of_first queueEntries _
  have subset : toProcess ⊆ sectors := took.cutSubset _ rfl
  have distinct := partition.earlyTerminated.keys_nodup
  rw [split] at distinct below
  -- the entry split and the entries after it are a part of the queue of their own
  have distinctLater : (((index, sectors) :: rest).map Prod.fst).Nodup := by
    rw [List.map_append] at distinct
    exact distinct.of_append_right
  have belowLater : ∀ entry ∈ [(index, sectors)] ++ rest, entry.1 < 2 ^ 64 :=
    fun entry member => below entry (List.mem_append_right _ member)
  refine ⟨final.result, true, { partition with earlyTerminated := queue.set index (sectors \ toProcess) },
    ?_, ?_⟩
  · simp only [popEarlyTerminations, run, took.processed, deleted, took.remaining, Option.map_some,
      written, validateState_earlyTerminated, valid, writtenEntries, List.length_cons,
      Nat.zero_lt_succ, decide_true]
  · have counted : final.result.sectorsProcessed = entriesCount whole + toProcess.card := by
      simpa using took.sectorsProcessed
    have cardLeft : (sectors \ toProcess).card = sectors.card - toProcess.card :=
      Finset.card_sdiff_of_subset subset
    have cardLe : toProcess.card ≤ sectors.card := Finset.card_le_card subset
    exact {
      onlyQueue := rfl
      partitionsProcessed := took.partitionsProcessed
      withinLimit := le_of_eq usedUp
      usedUp := fun _ => usedUp
      more_iff := by simp [writtenEntries]
      count := by
        simp only [queuedCount, split, writtenEntries, entriesCount_append, entriesCount_cons,
          counted, cardLeft]
        omega
      keys := fun entry member => by
        rw [writtenEntries] at member
        rw [split, List.map_append]
        rcases List.mem_cons.mp member with rfl | inRest
        · simp
        · exact List.mem_append_right _ (List.mem_map_of_mem (List.mem_cons_of_mem _ inRest))
      kept := fun epoch sector queued => by
        simp only [Queued, writtenEntries, split, entriesHold_append, entriesHold_cons,
          Finset.mem_sdiff] at queued ⊢
        rcases queued with ⟨sameEpoch, inSectors, -⟩ | inRest
        · exact .inr (.inl ⟨sameEpoch, inSectors⟩)
        · exact .inr (.inr inRest)
      taken := fun epoch sector => by
        simp only [took.has, Queued, writtenEntries, split, entriesHold_append, entriesHold_cons,
          Finset.mem_sdiff, Option.mem_def, Option.some.injEq, exists_eq_left']
        constructor
        · rintro (inWhole | ⟨sameEpoch, inSlice⟩)
          · have notLater := EntriesHold.apart distinct below inWhole
            simp only [entriesHold_cons, not_or] at notLater
            refine ⟨.inl inWhole, ?_⟩
            rintro (⟨sameEpoch, inSectors, -⟩ | inRest)
            · exact notLater.1 ⟨sameEpoch, inSectors⟩
            · exact notLater.2 inRest
          · have inEntry : EntriesHold [(index, sectors)] epoch sector := by
              simp [sameEpoch, subset inSlice]
            refine ⟨.inr (.inl ⟨sameEpoch, subset inSlice⟩), ?_⟩
            rintro (⟨-, -, notSlice⟩ | inRest)
            · exact notSlice inSlice
            · exact EntriesHold.apart distinctLater belowLater inEntry inRest
        · rintro ⟨inWhole | ⟨sameEpoch, inSectors⟩ | inRest, notAfter⟩
          · exact .inl inWhole
          · by_cases inSlice : sector ∈ toProcess
            · exact .inr ⟨sameEpoch, inSlice⟩
            · exact absurd (.inl ⟨sameEpoch, inSectors, inSlice⟩) notAfter
          · exact absurd (.inr inRest) notAfter }

/-- `pop_early_terminations` on a partition that passes its state checks, with a queue whose
indices are in the AMT's range, succeeds whatever the budget, and gives `Popped`. -/
theorem popEarlyTerminations_spec (valid : partition.validateState = .ok ())
    (inRange : ∀ entry ∈ partition.earlyTerminated.entries, entry.1 ≤ AMT.maxIndex)
    (maxSectors : Nat) :
    ∃ result more after, partition.popEarlyTerminations maxSectors = .ok ((result, more), after) ∧
      Popped partition maxSectors result more after := by
  have below : ∀ entry ∈ partition.earlyTerminated.entries, entry.1 < 2 ^ 64 := fun entry member => by
    have bounded := inRange entry member
    unfold AMT.maxIndex at bounded
    omega
  obtain ⟨final, run, outcome⟩ :=
    forEachWhile_popEarlyVisit maxSectors _ partition.earlyTerminated.keys_nodup below
  rcases outcome with ⟨taken, rest, split, took, usedUp⟩ |
    ⟨whole, index, sectors, toProcess, rest, split, took, usedUp⟩
  · exact popEarlyTerminations_of_whole valid inRange below run split took usedUp
  · exact popEarlyTerminations_of_split valid inRange below run split took usedUp

end Pop

end Partition

end Forest.Miner

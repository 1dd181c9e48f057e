import Forest.Miner.Partition
import Forest.Miner.ExpirationQueue
import Forest.Lib.Usize
import Mathlib.Algebra.BigOperators.Group.List.Basic

namespace Forest.Miner

/-!
# Removing partitions from a deadline

`Deadline::remove_partitions` of `miner/deadline_state.rs`.  The partitions of a deadline
are an AMT whose keys are `0, 1, …` in order; removing some of them rebuilds the AMT by
appending the kept partitions one after the other in the order `for_each` visits them, and
cuts the removed indices out of the deadline's expiration queue, a `BitFieldQueue` of
partition indices.  The two renumberings agree: the kept partition at index `p` moves to
`p` less the number of removed indices below it, which is what `BitField::cut` does to a
bit.

Only the fields of `Deadline` that the removal and the pop of early terminations read or
write are kept.
An error is the text the actor reports; the deadline it was changing is dropped with it.
-/

/-- The fields of `Deadline` that removing partitions and popping early terminations read or
write: the AMT of partitions, the AMT of the expiration queue, the partitions with early
terminations, the two sector counters, and the faulty power its state check reads. -/
structure Deadline where
  partitions : SortedMap Nat Partition
  expirationsEpochs : SortedMap Nat (Finset Nat)
  earlyTerminations : Finset Nat
  liveSectors : Nat
  totalSectors : Nat
  faultyPower : PowerPair

/-- `Deadline::validate_state`. -/
def Deadline.validateState (deadline : Deadline) : Except String Unit :=
  if deadline.liveSectors > deadline.totalSectors then
    .error "deadline left with more live sectors than total"
  else if Partition.negativePower deadline.faultyPower then
    .error "deadline left with negative faulty power"
  else .ok ()

/-- The state of the loop of `remove_partitions`: the new partitions, and the dead and live
sectors and the power of the partitions removed so far. -/
structure RemovalState where
  newPartitions : SortedMap Nat Partition
  allDeadSectors : List (Finset Nat)
  allLiveSectors : List (Finset Nat)
  removedPower : PowerPair

/-- `BitField::union` of a list of bit fields. -/
def unionAll (bitfields : List (Finset Nat)) : Finset Nat :=
  bitfields.foldr (· ∪ ·) ∅

@[simp] theorem unionAll_nil : unionAll [] = ∅ := rfl

@[simp] theorem unionAll_cons (first : Finset Nat) (rest : List (Finset Nat)) :
    unionAll (first :: rest) = first ∪ unionAll rest := rfl

@[simp] theorem mem_unionAll {bitfields : List (Finset Nat)} {bit : Nat} :
    bit ∈ unionAll bitfields ↔ ∃ bitfield ∈ bitfields, bit ∈ bitfield := by
  induction bitfields with
  | nil => simp
  | cons first rest inductionHypothesis => simp [inductionHypothesis]

namespace Deadline

/-- The closure of the loop of `remove_partitions` over one old partition: a kept partition
is appended to the new ones, and a removed one must have no faults and no unproven sectors
before its sectors and power are collected. -/
def removeVisit (toRemoveSet : List Nat) (partitionIdx : Nat) (partition : Partition)
    (state : RemovalState) : Except String RemovalState :=
  if partitionIdx ∉ toRemoveSet then
    match amtSet state.newPartitions state.newPartitions.entries.length partition with
    | .error cause => .error cause
    | .ok newPartitions => .ok { state with newPartitions := newPartitions }
  else if partition.faults ≠ ∅ then
    .error s!"cannot remove partition {partitionIdx}: has faults"
  else if partition.unproven ≠ ∅ then
    .error s!"cannot remove partition {partitionIdx}: has unproven sectors"
  else
    .ok { state with
      allDeadSectors := state.allDeadSectors ++ [partition.terminated]
      allLiveSectors := state.allLiveSectors ++ [partition.liveSectors]
      removedPower := state.removedPower + partition.livePower }

/-- The loop state before the first partition. -/
def removalStart : RemovalState :=
  ⟨SortedMap.empty, [], [], 0⟩

/-- `Deadline::remove_partitions`: the live and dead sectors and the power of the removed
partitions, with the deadline left.  The hash set of indices to remove is the sorted list
`bounded_iter` gives, so an index out of range is reported as the least one. -/
def removePartitions (deadline : Deadline) (toRemove : Finset Nat) (quant : QuantSpec) :
    Except String ((Finset Nat × Finset Nat × PowerPair) × Deadline) :=
  let partitionCount := deadline.partitions.entries.length
  match boundedIter toRemove partitionCount with
  | .error cause => .error s!"failed to expand partitions into map: {cause}"
  | .ok toRemoveSet =>
    if toRemoveSet.isEmpty then .ok ((∅, ∅, 0), deadline)
    else
      match toRemoveSet.find? (· ≥ partitionCount) with
      | some partitionIdx =>
        .error s!"partition index {partitionIdx} out of range [0, {partitionCount})"
      | none =>
        if deadline.earlyTerminations ≠ ∅ then
          .error "cannot remove partitions from deadline with early terminations"
        else
          match SortedMap.forEach (removeVisit toRemoveSet) deadline.partitions.entries
              removalStart with
          | .error cause => .error s!"while removing partitions: {cause}"
          | .ok removal =>
            let dead := unionAll removal.allDeadSectors
            let live := unionAll removal.allLiveSectors
            let removedDeadSectors := dead.card
            let removedLiveSectors := live.card
            match BitFieldQueue.cut ⟨deadline.expirationsEpochs, quant⟩ toRemove with
            | .error cause =>
              .error s!"failed cut removed partitions from deadline expiration queue: {cause}"
            | .ok expirationEpochs =>
              .ok ((live, dead, removal.removedPower),
                { deadline with
                  partitions := removal.newPartitions
                  expirationsEpochs := expirationEpochs.amt
                  liveSectors := Usize.wrappingSub deadline.liveSectors removedLiveSectors
                  totalSectors := Usize.wrappingSub deadline.totalSectors
                    (removedLiveSectors + removedDeadSectors) })

/-! ## The invariant of a deadline -/

/-- What a deadline keeps of its partitions and counters. -/
structure Invariant (deadline : Deadline) : Prop where
  /-- The keys of the partitions are `0, 1, …`, as the comment on `Deadline::partitions` says. -/
  sequential : deadline.partitions.entries.map Prod.fst =
    List.range deadline.partitions.entries.length
  /-- The partitions are within the AMT's range. -/
  partitionsInRange : ∀ entry ∈ deadline.partitions.entries, entry.1 ≤ AMT.maxIndex
  /-- A partition's terminated sectors are among its sectors. -/
  terminatedSubset : ∀ entry ∈ deadline.partitions.entries, entry.2.terminated ⊆ entry.2.sectors
  /-- No sector is in two partitions. -/
  disjoint : deadline.partitions.entries.Pairwise fun earlier later =>
    Disjoint earlier.2.sectors later.2.sectors
  /-- `live_sectors` counts the sectors that are not terminated. -/
  liveCount : deadline.liveSectors =
    (unionAll (deadline.partitions.entries.map fun entry => entry.2.liveSectors)).card
  /-- `total_sectors` counts all the sectors, within `u64`. -/
  totalCount : deadline.totalSectors =
    (unionAll (deadline.partitions.entries.map fun entry => entry.2.sectors)).card
  totalBounded : deadline.totalSectors < 2 ^ 64
  /-- The expiration queue's indices are within the AMT's range, its bit fields not empty. -/
  expirationsInRange : ∀ entry ∈ deadline.expirationsEpochs.entries, entry.1 ≤ AMT.maxIndex
  expirationsNonempty : ∀ entry ∈ deadline.expirationsEpochs.entries, entry.2.Nonempty
  /-- The expiration queue's bit fields hold partition indices, within the AMT's range. -/
  expirationsBitsInRange : ∀ entry ∈ deadline.expirationsEpochs.entries, ∀ index ∈ entry.2,
    index ≤ AMT.maxIndex

section Counting

variable {deadline : Deadline} (invariant : deadline.Invariant) (toRemove : Finset Nat)

include invariant

theorem Invariant.disjoint_of_ne {first second : Nat × Partition}
    (firstStored : first ∈ deadline.partitions.entries)
    (secondStored : second ∈ deadline.partitions.entries) (differ : first ≠ second) :
    Disjoint first.2.sectors second.2.sectors := by
  have : Std.Symm fun earlier later : Nat × Partition =>
      Disjoint earlier.2.sectors later.2.sectors := ⟨fun _ _ apart => apart.symm⟩
  exact invariant.disjoint.forall firstStored secondStored differ

/-- The live sectors of the removed partitions are at most `live_sectors`. -/
theorem Invariant.card_live_le :
    (unionAll ((deadline.partitions.entries.filter fun entry => entry.1 ∈ toRemove).map
      fun entry => entry.2.liveSectors)).card ≤ deadline.liveSectors := by
  rw [invariant.liveCount]
  apply Finset.card_le_card
  intro sector member
  simp only [mem_unionAll, List.mem_map, List.mem_filter] at member ⊢
  obtain ⟨_, ⟨entry, ⟨stored, _⟩, rfl⟩, inLive⟩ := member
  exact ⟨_, ⟨entry, stored, rfl⟩, inLive⟩

/-- The live and the dead sectors of the removed partitions are apart, and together at most
`total_sectors`. -/
theorem Invariant.card_live_add_dead_le :
    (unionAll ((deadline.partitions.entries.filter fun entry => entry.1 ∈ toRemove).map
      fun entry => entry.2.liveSectors)).card +
    (unionAll ((deadline.partitions.entries.filter fun entry => entry.1 ∈ toRemove).map
      fun entry => entry.2.terminated)).card ≤ deadline.totalSectors := by
  set removed := deadline.partitions.entries.filter fun entry => entry.1 ∈ toRemove
  have stored : ∀ entry ∈ removed, entry ∈ deadline.partitions.entries :=
    fun entry member => (List.mem_filter.mp member).1
  -- a live sector of one removed partition is not a dead sector of another
  have apart : Disjoint (unionAll (removed.map fun entry => entry.2.liveSectors))
      (unionAll (removed.map fun entry => entry.2.terminated)) := by
    rw [Finset.disjoint_left]
    intro sector inLive inDead
    simp only [mem_unionAll, List.mem_map] at inLive inDead
    obtain ⟨_, ⟨first, firstRemoved, rfl⟩, live⟩ := inLive
    obtain ⟨_, ⟨second, secondRemoved, rfl⟩, dead⟩ := inDead
    have liveSector := Finset.mem_sdiff.mp live
    by_cases same : first = second
    · subst same
      exact liveSector.2 dead
    · have deadSector := invariant.terminatedSubset second (stored second secondRemoved) dead
      exact Finset.disjoint_left.mp (invariant.disjoint_of_ne (stored first firstRemoved)
        (stored second secondRemoved) same) liveSector.1 deadSector
  rw [← Finset.card_union_of_disjoint apart, invariant.totalCount]
  apply Finset.card_le_card
  intro sector member
  simp only [Finset.mem_union, mem_unionAll, List.mem_map] at member ⊢
  rcases member with ⟨_, ⟨entry, removedEntry, rfl⟩, live⟩ | ⟨_, ⟨entry, removedEntry, rfl⟩, dead⟩
  · exact ⟨_, ⟨entry, stored entry removedEntry, rfl⟩, (Finset.mem_sdiff.mp live).1⟩
  · exact ⟨_, ⟨entry, stored entry removedEntry, rfl⟩,
      invariant.terminatedSubset entry (stored entry removedEntry) dead⟩

/-- `live_sectors` is at most `total_sectors`. -/
theorem Invariant.liveSectors_le_totalSectors : deadline.liveSectors ≤ deadline.totalSectors := by
  rw [invariant.liveCount, invariant.totalCount]
  apply Finset.card_le_card
  intro sector member
  simp only [mem_unionAll, List.mem_map] at member ⊢
  obtain ⟨_, ⟨entry, stored, rfl⟩, live⟩ := member
  exact ⟨_, ⟨entry, stored, rfl⟩, (Finset.mem_sdiff.mp live).1⟩

/-- The keys `0, 1, …` of the partitions are within the AMT's range, so there are at most
`MAX_INDEX + 1` of them. -/
theorem Invariant.length_partitions_le : deadline.partitions.entries.length ≤ AMT.maxIndex + 1 := by
  by_cases empty : deadline.partitions.entries.length = 0
  · omega
  · have isKey : deadline.partitions.entries.length - 1 ∈ deadline.partitions.entries.map Prod.fst := by
      rw [invariant.sequential]
      exact List.mem_range.mpr (by omega)
    obtain ⟨entry, stored, last⟩ := List.mem_map.mp isKey
    have := invariant.partitionsInRange entry stored
    omega

end Counting

/-! ## Counting the removed indices -/

/-- The removed indices below `index + 1` are those below `index`, and `index` if it is one. -/
theorem card_filter_lt_succ (toRemove : Finset Nat) (index : Nat) :
    (toRemove.filter (· < index + 1)).card =
      (toRemove.filter (· < index)).card + if index ∈ toRemove then 1 else 0 := by
  by_cases removed : index ∈ toRemove
  · have split : toRemove.filter (· < index + 1) = insert index (toRemove.filter (· < index)) := by
      ext other
      simp only [Finset.mem_filter, Finset.mem_insert]
      constructor
      · rintro ⟨member, below⟩
        by_cases same : other = index
        · exact .inl same
        · exact .inr ⟨member, by omega⟩
      · rintro (rfl | ⟨member, below⟩)
        · exact ⟨removed, by omega⟩
        · exact ⟨member, by omega⟩
    rw [split, Finset.card_insert_of_notMem (by simp), if_pos removed]
  · have same : toRemove.filter (· < index + 1) = toRemove.filter (· < index) := by
      ext other
      simp only [Finset.mem_filter]
      constructor
      · rintro ⟨member, below⟩
        have notIndex : other ≠ index := fun equal => removed (equal ▸ member)
        exact ⟨member, by omega⟩
      · rintro ⟨member, below⟩
        exact ⟨member, by omega⟩
    rw [same, if_neg removed, Nat.add_zero]

/-- At most `index` removed indices are below `index`. -/
theorem card_filter_lt_le (toRemove : Finset Nat) (index : Nat) :
    (toRemove.filter (· < index)).card ≤ index := by
  have within : toRemove.filter (· < index) ⊆ Finset.range index := by
    intro other member
    simpa using (Finset.mem_filter.mp member).2
  simpa using Finset.card_le_card within

/-- The keys of the first entries of a map with keys `0, 1, …` are `0, 1, …`. -/
theorem keys_of_prefix {α : Type} {entries seen : List (Nat × α)}
    (sequential : entries.map Prod.fst = List.range entries.length) (isPrefix : seen <+: entries) :
    seen.map Prod.fst = List.range seen.length := by
  have keysPrefix := isPrefix.map Prod.fst
  rw [sequential, List.prefix_iff_eq_take, List.length_map, List.take_range] at keysPrefix
  rw [keysPrefix, Nat.min_eq_left isPrefix.length_le]

/-- In a map with keys `0, 1, …` the entry after the first `seen` is at key `seen.length`. -/
theorem key_of_prefix {α : Type} {entries seen : List (Nat × α)} {key : Nat} {value : α}
    (sequential : entries.map Prod.fst = List.range entries.length)
    (isPrefix : seen ++ [(key, value)] <+: entries) : key = seen.length := by
  have keys := keys_of_prefix sequential isPrefix
  rw [List.length_append, List.length_singleton, List.range_succ, List.map_append] at keys
  have last := (List.append_inj' keys rfl).2
  simpa using last

/-! ## The loop over the old partitions -/

/-- What the loop of `remove_partitions` has built after the old partitions `seen`: the kept
ones at the new indices `0, 1, …`, each moved down by the removed indices below it, and the
sectors and power of the removed ones in order. -/
structure Removed (toRemove : Finset Nat) (seen : List (Nat × Partition)) (state : RemovalState) :
    Prop where
  keys : state.newPartitions.entries.map Prod.fst =
    List.range (seen.length - (toRemove.filter (· < seen.length)).card)
  moved : ∀ entry ∈ seen, entry.1 ∉ toRemove →
    state.newPartitions.get? (entry.1 - (toRemove.filter (· < entry.1)).card) = some entry.2
  dead : state.allDeadSectors =
    (seen.filter fun entry => entry.1 ∈ toRemove).map fun entry => entry.2.terminated
  live : state.allLiveSectors =
    (seen.filter fun entry => entry.1 ∈ toRemove).map fun entry => entry.2.liveSectors
  power : state.removedPower =
    ((seen.filter fun entry => entry.1 ∈ toRemove).map fun entry => entry.2.livePower).sum

theorem removed_start (toRemove : Finset Nat) : Removed toRemove [] removalStart := by
  constructor <;> simp [removalStart, SortedMap.empty, SortedMap.get?, SortedMap.find?]

section Loop

variable {toRemove : Finset Nat} {toRemoveSet : List Nat} {entries : List (Nat × Partition)}

/-- One visit of the loop: a kept partition is appended at the next new index, and a removed
one, which has no faults and no unproven sectors, has its sectors and power collected. -/
theorem removeVisit_removed (sameSet : ∀ index, index ∈ toRemoveSet ↔ index ∈ toRemove)
    (sequential : entries.map Prod.fst = List.range entries.length)
    (inRange : ∀ entry ∈ entries, entry.1 ≤ AMT.maxIndex)
    (removable : ∀ entry ∈ entries, entry.1 ∈ toRemove →
      entry.2.faults = ∅ ∧ entry.2.unproven = ∅)
    {seen : List (Nat × Partition)} {state : RemovalState} {key : Nat} {partition : Partition}
    (isPrefix : seen ++ [(key, partition)] <+: entries) (removed : Removed toRemove seen state) :
    ∃ state', removeVisit toRemoveSet key partition state = .ok state' ∧
      Removed toRemove (seen ++ [(key, partition)]) state' := by
  have atKey : key = seen.length := key_of_prefix sequential isPrefix
  have stored : (key, partition) ∈ entries := isPrefix.subset (by simp)
  have countBelow := card_filter_lt_succ toRemove seen.length
  have countLe := card_filter_lt_le toRemove seen.length
  subst atKey
  by_cases kept : seen.length ∈ toRemove
  · -- a removed partition: its sectors and power are collected
    obtain ⟨noFaults, allProven⟩ := removable _ stored kept
    simp only at noFaults allProven
    refine ⟨{ state with
      allDeadSectors := state.allDeadSectors ++ [partition.terminated]
      allLiveSectors := state.allLiveSectors ++ [partition.liveSectors]
      removedPower := state.removedPower + partition.livePower }, ?_, ?_⟩
    · simp [removeVisit, (sameSet _).mpr kept, noFaults, allProven]
    · refine ⟨?_, ?_, ?_, ?_, ?_⟩
      · rw [removed.keys, List.length_append, List.length_singleton, countBelow, if_pos kept]
        congr 1
        omega
      · intro entry member notRemoved
        rcases List.mem_append.mp member with old | new
        · exact removed.moved entry old notRemoved
        · rw [List.mem_singleton.mp new] at notRemoved
          exact absurd kept notRemoved
      · simp [removed.dead, kept]
      · simp [removed.live, kept]
      · simp [removed.power, kept]
  · -- a kept partition, appended after the new partitions so far
    have notListed : seen.length ∉ toRemoveSet := fun listed => kept ((sameSet _).mp listed)
    set newIndex := seen.length - (toRemove.filter (· < seen.length)).card with newIndexEq
    have length : state.newPartitions.entries.length = newIndex := by
      simpa using congrArg List.length removed.keys
    have above : ∀ entry ∈ state.newPartitions.entries, entry.1 < newIndex := by
      intro entry member
      have inKeys : entry.1 ∈ state.newPartitions.entries.map Prod.fst := List.mem_map_of_mem member
      rw [removed.keys] at inKeys
      simpa using inKeys
    have newIndexInRange : ¬ newIndex > AMT.maxIndex := by
      have keyInRange := inRange _ stored
      simp only at keyInRange
      omega
    refine ⟨{ state with newPartitions := state.newPartitions.set newIndex partition }, ?_, ?_⟩
    · simp [removeVisit, notListed, amtSet, length, newIndexInRange]
    · refine ⟨?_, ?_, ?_, ?_, ?_⟩
      · have newLength :
            seen.length + 1 - (toRemove.filter (· < seen.length + 1)).card = newIndex + 1 := by
          rw [countBelow, if_neg kept]
          omega
        rw [SortedMap.entries_set_of_gt _ _ above, List.map_append, removed.keys,
          List.length_append, List.length_singleton, newLength, List.range_succ]
        rfl
      · intro entry member notRemoved
        rcases List.mem_append.mp member with old | new
        · have before := removed.moved entry old notRemoved
          -- the earlier kept partitions sit below the new index
          have differ : newIndex ≠ entry.1 - (toRemove.filter (· < entry.1)).card := by
            have below := above _ ((SortedMap.mem_entries_iff _).mpr before)
            simp only at below
            omega
          rw [SortedMap.get?_set, if_neg differ, before]
        · rw [List.mem_singleton.mp new]
          simp [newIndexEq]
      · simp [removed.dead, kept]
      · simp [removed.live, kept]
      · simp [removed.power, kept]

/-- The loop of `remove_partitions` succeeds over old partitions with keys `0, 1, …` when
the removed ones have no faults and no unproven sectors. -/
theorem forEach_removeVisit (sameSet : ∀ index, index ∈ toRemoveSet ↔ index ∈ toRemove)
    (sequential : entries.map Prod.fst = List.range entries.length)
    (inRange : ∀ entry ∈ entries, entry.1 ≤ AMT.maxIndex)
    (removable : ∀ entry ∈ entries, entry.1 ∈ toRemove →
      entry.2.faults = ∅ ∧ entry.2.unproven = ∅) :
    ∃ removal, SortedMap.forEach (removeVisit toRemoveSet) entries removalStart = .ok removal ∧
      Removed toRemove entries removal :=
  SortedMap.forEach_of_invariant entries (Removed toRemove)
    (fun _ _ _ _ isPrefix removed =>
      removeVisit_removed sameSet sequential inRange removable isPrefix removed)
    (removed_start toRemove)

end Loop

/-! ## What `remove_partitions` returns -/

theorem removePartitions_of_empty (deadline : Deadline) (quant : QuantSpec) :
    deadline.removePartitions ∅ quant = .ok ((∅, ∅, 0), deadline) := by
  simp [removePartitions, boundedIter]

section Removal

variable {deadline : Deadline} {toRemove : Finset Nat}

/-- `bounded_iter` of indices within the partitions lists them in order. -/
theorem boundedIter_of_inRange
    (inRange : ∀ index ∈ toRemove, index < deadline.partitions.entries.length) :
    boundedIter toRemove deadline.partitions.entries.length = .ok (toRemove.sort (· ≤ ·)) := by
  have within : toRemove ⊆ Finset.range deadline.partitions.entries.length :=
    fun index member => Finset.mem_range.mpr (inRange index member)
  have fits := Finset.card_le_card within
  rw [Finset.card_range] at fits
  simp [boundedIter, fits]

/-- A deadline with early terminations keeps its partitions. -/
theorem removePartitions_of_earlyTerminations (nonempty : toRemove ≠ ∅)
    (inRange : ∀ index ∈ toRemove, index < deadline.partitions.entries.length)
    (early : deadline.earlyTerminations ≠ ∅) (quant : QuantSpec) :
    deadline.removePartitions toRemove quant =
      .error "cannot remove partitions from deadline with early terminations" := by
  have listed : (toRemove.sort (· ≤ ·)).isEmpty = false := by
    simpa [List.isEmpty_iff, ← List.length_eq_zero_iff, Finset.length_sort] using nonempty
  have noneAbove : (toRemove.sort (· ≤ ·)).find? (· ≥ deadline.partitions.entries.length) = none :=
    List.find?_eq_none.mpr fun index member => by
      simpa using inRange index ((Finset.mem_sort _).mp member)
  simp [removePartitions, boundedIter_of_inRange inRange, listed, noneAbove, early]

/-- The indices the queue holds and the indices to remove lie below `usize::MAX`, where the
queue's cut of an entry is the cut of the sets. -/
theorem Invariant.cutBits_expirations (invariant : deadline.Invariant)
    (inRange : ∀ index ∈ toRemove, index < deadline.partitions.entries.length) :
    ∀ entry ∈ deadline.expirationsEpochs.entries,
      cutBits entry.2 toRemove = Bitfield.cutSet entry.2 toRemove := by
  have fits := invariant.length_partitions_le
  intro entry stored
  apply cutBits_eq_cutSet
  · intro index member
    have := invariant.expirationsBitsInRange entry stored index member
    unfold AMT.maxIndex Usize.max at *
    omega
  · intro index member
    have := inRange index member
    unfold AMT.maxIndex Usize.max at *
    omega

/-- Removing in-range partitions that have no faults and no unproven sectors from a
deadline without early terminations: the loop collects the removed partitions and renumbers
the kept ones, and the expiration queue is cut. -/
theorem removePartitions_eq (invariant : deadline.Invariant) (nonempty : toRemove ≠ ∅)
    (inRange : ∀ index ∈ toRemove, index < deadline.partitions.entries.length)
    (removable : ∀ entry ∈ deadline.partitions.entries, entry.1 ∈ toRemove →
      entry.2.faults = ∅ ∧ entry.2.unproven = ∅)
    (noEarly : deadline.earlyTerminations = ∅) (quant : QuantSpec) :
    ∃ removal expirations, Removed toRemove deadline.partitions.entries removal ∧
      expirations.entries = ((deadline.expirationsEpochs.entries.filter fun entry =>
        Bitfield.cutSet entry.2 toRemove ≠ ∅).map fun entry =>
          (entry.1, Bitfield.cutSet entry.2 toRemove)) ∧
      deadline.removePartitions toRemove quant =
        .ok ((unionAll removal.allLiveSectors, unionAll removal.allDeadSectors, removal.removedPower),
          { deadline with
            partitions := removal.newPartitions
            expirationsEpochs := expirations
            liveSectors := Usize.wrappingSub deadline.liveSectors
              (unionAll removal.allLiveSectors).card
            totalSectors := Usize.wrappingSub deadline.totalSectors
              ((unionAll removal.allLiveSectors).card + (unionAll removal.allDeadSectors).card) }) := by
  have listed : (toRemove.sort (· ≤ ·)).isEmpty = false := by
    simpa [List.isEmpty_iff, ← List.length_eq_zero_iff, Finset.length_sort] using nonempty
  have noneAbove : (toRemove.sort (· ≤ ·)).find? (· ≥ deadline.partitions.entries.length) = none :=
    List.find?_eq_none.mpr fun index member => by
      simpa using inRange index ((Finset.mem_sort _).mp member)
  obtain ⟨removal, loop, removed⟩ := forEach_removeVisit (fun _ => Finset.mem_sort (· ≤ ·))
    invariant.sequential invariant.partitionsInRange removable
  obtain ⟨cutQueue, cutRan, _, cutEntries⟩ :=
    BitFieldQueue.cut_eq ⟨deadline.expirationsEpochs, quant⟩ toRemove invariant.expirationsInRange
  have setEntries := invariant.cutBits_expirations inRange
  refine ⟨removal, cutQueue.amt, removed, ?_, ?_⟩
  · have sameFilter : (deadline.expirationsEpochs.entries.filter fun entry =>
          cutBits entry.2 toRemove ≠ ∅) =
        deadline.expirationsEpochs.entries.filter fun entry => Bitfield.cutSet entry.2 toRemove ≠ ∅ :=
      List.filter_congr fun entry stored => by simp only [setEntries entry stored]
    dsimp only at cutEntries
    rw [cutEntries, sameFilter]
    exact List.map_congr_left fun entry chosen => by
      rw [setEntries entry (List.mem_of_mem_filter chosen)]
  simp only [removePartitions, boundedIter_of_inRange inRange, listed, noneAbove, noEarly, loop,
    cutRan, Bool.false_eq_true, if_false, ne_eq, not_true_eq_false]

/-- After the loop, the kept partition at `index` is at `index` less the removed indices
below it, and the new keys are `0, 1, …` again. -/
theorem Removed.renumbered (invariant : deadline.Invariant)
    (inRange : ∀ index ∈ toRemove, index < deadline.partitions.entries.length)
    {removal : RemovalState} (removed : Removed toRemove deadline.partitions.entries removal) :
    (∀ index < deadline.partitions.entries.length, index ∉ toRemove →
      removal.newPartitions.get? (index - (toRemove.filter (· < index)).card) =
        deadline.partitions.get? index) ∧
    removal.newPartitions.entries.map Prod.fst =
      List.range (deadline.partitions.entries.length - toRemove.card) := by
  constructor
  · intro index below kept
    have isKey : index ∈ deadline.partitions.entries.map Prod.fst := by
      rw [invariant.sequential]
      exact List.mem_range.mpr below
    obtain ⟨⟨key, partition⟩, stored, rfl⟩ := List.mem_map.mp isKey
    rw [removed.moved _ stored kept, (SortedMap.mem_entries_iff _).mp stored]
  · have allBelow : toRemove.filter (· < deadline.partitions.entries.length) = toRemove :=
      Finset.filter_true_of_mem inRange
    rw [removed.keys, allBelow]

/-- The counters drop by the sectors returned, without wrapping. -/
theorem counters_of_removed (invariant : deadline.Invariant) {live dead : Finset Nat}
    (liveLe : live.card ≤ deadline.liveSectors)
    (bothLe : live.card + dead.card ≤ deadline.totalSectors) :
    Usize.wrappingSub deadline.liveSectors live.card + live.card = deadline.liveSectors ∧
      Usize.wrappingSub deadline.totalSectors (live.card + dead.card) + live.card + dead.card =
        deadline.totalSectors := by
  have liveBelow := invariant.liveSectors_le_totalSectors
  have totalBelow := invariant.totalBounded
  rw [Usize.wrappingSub_of_le (by omega) liveLe, Usize.wrappingSub_of_le totalBelow bothLe]
  omega

end Removal

/-- Removing partitions renumbers the partitions and the expiration queue alike.  For a
deadline that keeps its invariant, and indices in range whose partitions have no faults and
no unproven sectors, the call succeeds when there are no early terminations.  When it
succeeds, the kept partition at `index` is at `index` less the removed indices below it and
the new keys are `0, 1, …`; every entry of the expiration queue holds its surviving
partitions renumbered the same way, and an entry left with none is dropped; the live and
dead sectors and the power returned are the unions and the sum over the removed partitions;
and `live_sectors` and `total_sectors` drop by the sectors returned. -/
theorem removePartitions_renumbers {deadline : Deadline} (invariant : deadline.Invariant)
    {toRemove : Finset Nat}
    (inRange : ∀ index ∈ toRemove, index < deadline.partitions.entries.length)
    (removable : ∀ entry ∈ deadline.partitions.entries, entry.1 ∈ toRemove →
      entry.2.faults = ∅ ∧ entry.2.unproven = ∅) (quant : QuantSpec) :
    (deadline.earlyTerminations = ∅ →
      ∃ result, deadline.removePartitions toRemove quant = .ok result) ∧
    ∀ live dead removedPower after,
      deadline.removePartitions toRemove quant = .ok ((live, dead, removedPower), after) →
      (∀ index < deadline.partitions.entries.length, index ∉ toRemove →
        after.partitions.get? (index - (toRemove.filter (· < index)).card) =
          deadline.partitions.get? index) ∧
      after.partitions.entries.map Prod.fst =
        List.range (deadline.partitions.entries.length - toRemove.card) ∧
      after.expirationsEpochs.entries =
        ((deadline.expirationsEpochs.entries.filter fun entry =>
          Bitfield.cutSet entry.2 toRemove ≠ ∅).map fun entry =>
            (entry.1, Bitfield.cutSet entry.2 toRemove)) ∧
      live = unionAll ((deadline.partitions.entries.filter fun entry => entry.1 ∈ toRemove).map
        fun entry => entry.2.liveSectors) ∧
      dead = unionAll ((deadline.partitions.entries.filter fun entry => entry.1 ∈ toRemove).map
        fun entry => entry.2.terminated) ∧
      removedPower = ((deadline.partitions.entries.filter fun entry => entry.1 ∈ toRemove).map
        fun entry => entry.2.livePower).sum ∧
      after.liveSectors + live.card = deadline.liveSectors ∧
      after.totalSectors + live.card + dead.card = deadline.totalSectors := by
  by_cases noIndices : toRemove = ∅
  · -- nothing to remove: the deadline is returned as it is
    subst noIndices
    refine ⟨fun _ => ⟨_, removePartitions_of_empty deadline quant⟩, ?_⟩
    intro live dead removedPower after ran
    rw [removePartitions_of_empty, Except.ok.injEq, Prod.mk.injEq, Prod.mk.injEq,
      Prod.mk.injEq] at ran
    obtain ⟨⟨rfl, rfl, rfl⟩, rfl⟩ := ran
    have queueKept : (deadline.expirationsEpochs.entries.filter fun entry =>
        Bitfield.cutSet entry.2 ∅ ≠ ∅).map (fun entry => (entry.1, Bitfield.cutSet entry.2 ∅)) =
        deadline.expirationsEpochs.entries := by
      rw [List.filter_eq_self.mpr fun entry stored => by
        simpa [← Finset.nonempty_iff_ne_empty] using invariant.expirationsNonempty entry stored]
      simp
    refine ⟨by simp, by simpa using invariant.sequential, queueKept.symm, by simp, by simp,
      by simp, by simp, by simp⟩
  · refine ⟨fun noEarly => ?_, ?_⟩
    · obtain ⟨_, _, _, _, succeeded⟩ :=
        removePartitions_eq invariant noIndices inRange removable noEarly quant
      exact ⟨_, succeeded⟩
    · intro live dead removedPower after ran
      by_cases early : deadline.earlyTerminations = ∅
      · obtain ⟨removal, expirations, removed, cutEntries, succeeded⟩ :=
          removePartitions_eq invariant noIndices inRange removable early quant
        rw [succeeded, Except.ok.injEq, Prod.mk.injEq, Prod.mk.injEq, Prod.mk.injEq] at ran
        obtain ⟨⟨rfl, rfl, rfl⟩, rfl⟩ := ran
        obtain ⟨moved, keys⟩ := removed.renumbered invariant inRange
        have liveLe := invariant.card_live_le toRemove
        have bothLe := invariant.card_live_add_dead_le toRemove
        rw [← removed.live] at liveLe
        rw [← removed.live, ← removed.dead] at bothLe
        obtain ⟨liveCounter, totalCounter⟩ := counters_of_removed invariant liveLe bothLe
        exact ⟨moved, keys, cutEntries, removed.live ▸ rfl, removed.dead ▸ rfl, removed.power,
          liveCounter, totalCounter⟩
      · rw [removePartitions_of_earlyTerminations noIndices inRange early] at ran
        cases ran

/-- A partition of one live sector, with no faults and nothing queued. -/
def onlySector (sector : Nat) : Partition :=
  ⟨{sector}, ∅, ∅, ∅, ∅, SortedMap.empty, 0, 0, 0, 0⟩

/-- Three partitions of one sector each, all three expiring at one epoch. -/
def threePartitions : Deadline where
  partitions := ⟨[(0, onlySector 0), (1, onlySector 1), (2, onlySector 2)], by decide⟩
  expirationsEpochs := ⟨[(10, {0, 1, 2})], by decide⟩
  earlyTerminations := ∅
  liveSectors := 3
  totalSectors := 3
  faultyPower := 0

theorem removePartitions_renumbers_middle :
    threePartitions.Invariant ∧
      (∀ index ∈ ({1} : Finset Nat), index < threePartitions.partitions.entries.length) ∧
      (∀ entry ∈ threePartitions.partitions.entries, entry.1 ∈ ({1} : Finset Nat) →
        entry.2.faults = ∅ ∧ entry.2.unproven = ∅) ∧
      (threePartitions.earlyTerminations = ∅ →
        ∃ result, threePartitions.removePartitions {1} QuantSpec.noQuantization = .ok result) ∧
      ∀ live dead removedPower after,
        threePartitions.removePartitions {1} QuantSpec.noQuantization =
          .ok ((live, dead, removedPower), after) →
        (∀ index < threePartitions.partitions.entries.length, index ∉ ({1} : Finset Nat) →
          after.partitions.get? (index - (({1} : Finset Nat).filter (· < index)).card) =
            threePartitions.partitions.get? index) ∧
        after.partitions.entries.map Prod.fst =
          List.range (threePartitions.partitions.entries.length - ({1} : Finset Nat).card) ∧
        after.expirationsEpochs.entries =
          ((threePartitions.expirationsEpochs.entries.filter fun entry =>
            Bitfield.cutSet entry.2 {1} ≠ ∅).map fun entry => (entry.1, Bitfield.cutSet entry.2 {1})) ∧
        live = unionAll ((threePartitions.partitions.entries.filter fun entry =>
          entry.1 ∈ ({1} : Finset Nat)).map fun entry => entry.2.liveSectors) ∧
        dead = unionAll ((threePartitions.partitions.entries.filter fun entry =>
          entry.1 ∈ ({1} : Finset Nat)).map fun entry => entry.2.terminated) ∧
        removedPower = ((threePartitions.partitions.entries.filter fun entry =>
          entry.1 ∈ ({1} : Finset Nat)).map fun entry => entry.2.livePower).sum ∧
        after.liveSectors + live.card = threePartitions.liveSectors ∧
        after.totalSectors + live.card + dead.card = threePartitions.totalSectors :=
  have invariant : threePartitions.Invariant :=
    { sequential := by decide
      partitionsInRange := by simp [threePartitions, AMT.maxIndex]
      terminatedSubset := by simp [threePartitions, onlySector]
      disjoint := by decide
      liveCount := by decide
      totalCount := by decide
      totalBounded := by simp [threePartitions, onlySector]
      expirationsInRange := by simp [threePartitions, AMT.maxIndex]
      expirationsNonempty := by simp [threePartitions, onlySector]
      expirationsBitsInRange := by simp [threePartitions, AMT.maxIndex] }
  have inRange : ∀ index ∈ ({1} : Finset Nat), index < threePartitions.partitions.entries.length := by
    decide
  have removable : ∀ entry ∈ threePartitions.partitions.entries, entry.1 ∈ ({1} : Finset Nat) →
      entry.2.faults = ∅ ∧ entry.2.unproven = ∅ := by
    decide
  ⟨invariant, inRange, removable,
    removePartitions_renumbers invariant inRange removable QuantSpec.noQuantization⟩

end Deadline

end Forest.Miner

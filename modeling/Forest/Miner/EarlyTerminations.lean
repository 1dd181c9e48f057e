import Forest.Miner.Deadline
import Forest.Lib.Loop
import Forest.Lib.Drain
import Mathlib.Algebra.Order.BigOperators.Group.List
import Mathlib.Algebra.Order.Group.Nat

namespace Forest.Miner

/-!
# Popping early terminations

`Deadline::pop_early_terminations` of `miner/deadline_state.rs` and
`State::pop_early_terminations` of `miner/state.rs`.  The miner keeps two indexes of where
early terminations wait: the state's bit field of deadlines, and each deadline's bit field of
partitions.  Both loops visit their index in increasing order, hand the level below what is
left of the budget, add up the results, mark an index finished when the level below reports
nothing more, and stop once a limit is reached; the finished indices are unset at the end,
and the call has more to do exactly when its index is not empty.

The budget is `max - processed` on `u64`, modelled with the subtraction of a build with
overflow checks (`Usize.checkedSub`): a call that returns `Ok` did not underflow.
-/

/-- The state of the loop of `Deadline::pop_early_terminations`: the partitions, the result so
far, and the partitions found finished. -/
structure DeadlinePopState where
  partitions : SortedMap Nat Partition
  result : TerminationResult
  finished : List Nat

namespace Deadline

/-- The body of the loop of `Deadline::pop_early_terminations` at `partitionIdx`: a missing
partition is finished; another pops with what is left of the sector budget, is finished when it
reports nothing more, and is stored back; the loop stops once a limit is reached. -/
def popEarlyVisit (maxPartitions maxSectors : Nat) (partitionIdx : Nat) (state : DeadlinePopState) :
    Except String (Bool × DeadlinePopState) :=
  match amtGet state.partitions partitionIdx with
  | .error cause => .error s!"failed to load partition {partitionIdx}: {cause}"
  | .ok none => .ok (true, { state with finished := state.finished ++ [partitionIdx] })
  | .ok (some partition) =>
    match Usize.checkedSub maxSectors state.result.sectorsProcessed with
    | .error panic => .error panic
    | .ok budget =>
      match partition.popEarlyTerminations budget with
      | .error cause => .error s!"failed to pop terminations from partition: {cause}"
      | .ok ((partitionResult, more), partition) =>
        let result := state.result.addAssign partitionResult
        let finished := if more then state.finished else state.finished ++ [partitionIdx]
        match amtSet state.partitions partitionIdx partition with
        | .error cause => .error s!"failed to store partition {partitionIdx}: {cause}"
        | .ok partitions =>
          .ok (result.belowLimit maxPartitions maxSectors, ⟨partitions, result, finished⟩)

/-- `Deadline::pop_early_terminations`: the sectors popped with whether partitions with early
terminations are left, and the deadline after. -/
def popEarlyTerminations (deadline : Deadline) (maxPartitions maxSectors : Nat) :
    Except String ((TerminationResult × Bool) × Deadline) :=
  match Loop.forWhile (popEarlyVisit maxPartitions maxSectors)
      (bitsAscending deadline.earlyTerminations) ⟨deadline.partitions, TerminationResult.new, []⟩ with
  | .error cause => .error cause
  | .ok state =>
    let earlyTerminations := deadline.earlyTerminations \ state.finished.toFinset
    .ok ((state.result, decide (earlyTerminations ≠ ∅)),
      { deadline with partitions := state.partitions, earlyTerminations := earlyTerminations })

end Deadline

/-! ## What a deadline queues -/

/-- The partition at `partitionIdx` of the map queues `sector` at `epoch`. -/
def PartitionsQueued (partitions : SortedMap Nat Partition) (partitionIdx : Nat) (epoch : Int)
    (sector : Nat) : Prop :=
  ∃ partition, partitions.get? partitionIdx = some partition ∧ partition.Queued epoch sector

/-- The sectors queued in the partitions of the map. -/
def partitionsCount (partitions : SortedMap Nat Partition) : Nat :=
  (partitions.entries.map fun entry => entry.2.queuedCount).sum

/-- The partition at `partitionIdx` of the map has entries in its queue. -/
def QueueNonempty (partitions : SortedMap Nat Partition) (partitionIdx : Nat) : Prop :=
  ∃ partition, partitions.get? partitionIdx = some partition ∧ partition.earlyTerminated.entries ≠ []

namespace Deadline

/-- The deadline queues `sector` at `epoch` in the partition `partitionIdx`. -/
def Queued (deadline : Deadline) : Nat → Int → Nat → Prop :=
  PartitionsQueued deadline.partitions

/-- The sectors queued in the partitions of the deadline. -/
def queuedCount (deadline : Deadline) : Nat :=
  partitionsCount deadline.partitions

/-- What is left to pop: the sectors queued and the partitions indexed. -/
def earlyMeasure (deadline : Deadline) : Nat :=
  deadline.queuedCount + deadline.earlyTerminations.card

/-- What popping early terminations needs of a deadline: indices in the AMT's range, partitions
that pass their state checks with queues whose indices are in range, and an index that holds
every partition with entries in its queue. -/
structure EarlyWellformed (deadline : Deadline) : Prop where
  indicesInRange : ∀ partitionIdx ∈ deadline.earlyTerminations, partitionIdx ≤ AMT.maxIndex
  partitionsValid : ∀ entry ∈ deadline.partitions.entries, entry.2.validateState = .ok ()
  queuesInRange : ∀ entry ∈ deadline.partitions.entries,
    ∀ queued ∈ entry.2.earlyTerminated.entries, queued.1 ≤ AMT.maxIndex
  indexed : ∀ partitionIdx, QueueNonempty deadline.partitions partitionIdx →
    partitionIdx ∈ deadline.earlyTerminations

/-- What popping early terminations from a deadline gives: only its partitions and its index
change, the counts stay within the limits and reach one of them when partitions are left, the
partitions left hold exactly the pairs not returned, what is left to pop drops when there was
something indexed, and the deadline stays ready for the next pop. -/
structure Popped (deadline : Deadline) (maxPartitions maxSectors : Nat) (result : TerminationResult)
    (more : Bool) (after : Deadline) : Prop where
  onlyIndexAndPartitions : after =
    { deadline with partitions := after.partitions, earlyTerminations := after.earlyTerminations }
  partitionsWithin : result.partitionsProcessed ≤ maxPartitions
  sectorsWithin : result.sectorsProcessed ≤ maxSectors
  usedUp : more = true → result.belowLimit maxPartitions maxSectors = false
  more_iff : more = true ↔ after.earlyTerminations ≠ ∅
  indexShrinks : after.earlyTerminations ⊆ deadline.earlyTerminations
  count : deadline.queuedCount = after.queuedCount + result.sectorsProcessed
  progress : deadline.earlyTerminations ≠ ∅ → after.earlyMeasure < deadline.earlyMeasure
  kept : ∀ partitionIdx epoch sector, after.Queued partitionIdx epoch sector →
    deadline.Queued partitionIdx epoch sector
  taken : ∀ epoch sector, result.Has epoch sector ↔
    ∃ partitionIdx, deadline.Queued partitionIdx epoch sector ∧ ¬ after.Queued partitionIdx epoch sector
  wellformed : after.EarlyWellformed

/-- What the loop of `Deadline::pop_early_terminations` keeps after visiting the partitions
`seen` of `deadline`: the others are untouched, the visited ones have only their queues
changed, the result holds exactly the pairs gone from them, the finished ones are the visited
ones whose queues are empty, and the counts stay within the limits. -/
structure PopLoop (deadline : Deadline) (maxPartitions maxSectors : Nat) (seen : List Nat)
    (state : DeadlinePopState) : Prop where
  unvisited : ∀ partitionIdx ∉ seen,
    state.partitions.get? partitionIdx = deadline.partitions.get? partitionIdx
  onlyQueues : ∀ partitionIdx partition, state.partitions.get? partitionIdx = some partition →
    ∃ old, deadline.partitions.get? partitionIdx = some old ∧
      partition = { old with earlyTerminated := partition.earlyTerminated } ∧
      ∀ queued ∈ partition.earlyTerminated.entries, queued.1 ∈ old.earlyTerminated.entries.map Prod.fst
  kept : ∀ partitionIdx epoch sector, PartitionsQueued state.partitions partitionIdx epoch sector →
    deadline.Queued partitionIdx epoch sector
  taken : ∀ epoch sector, state.result.Has epoch sector ↔
    ∃ partitionIdx, deadline.Queued partitionIdx epoch sector ∧
      ¬ PartitionsQueued state.partitions partitionIdx epoch sector
  finished : ∀ partitionIdx, partitionIdx ∈ state.finished ↔
    partitionIdx ∈ seen ∧ ¬ QueueNonempty state.partitions partitionIdx
  count : partitionsCount state.partitions + state.result.sectorsProcessed = deadline.queuedCount
  partitionsWithin : state.result.partitionsProcessed ≤ maxPartitions
  sectorsWithin : state.result.sectorsProcessed ≤ maxSectors
  progress : seen ≠ [] → state.finished ≠ [] ∨ 0 < state.result.sectorsProcessed

section Loop

variable {deadline : Deadline} {maxPartitions maxSectors partitionIdx : Nat} {seen : List Nat}
  {state : DeadlinePopState}

/-- A missing partition is finished and the loop goes on. -/
theorem popEarlyVisit_of_missing (inRange : partitionIdx ≤ AMT.maxIndex)
    (missing : state.partitions.get? partitionIdx = none) :
    popEarlyVisit maxPartitions maxSectors partitionIdx state =
      .ok (true, { state with finished := state.finished ++ [partitionIdx] }) := by
  simp only [popEarlyVisit, amtGet, if_neg (not_lt.mpr inRange), missing]

/-- A present partition pops with what is left of the sector budget and is stored back; it is
finished when it reports nothing more, and the loop goes on while below both limits. -/
theorem popEarlyVisit_of_present {partition after : Partition} {partitionResult : TerminationResult}
    {more : Bool} (inRange : partitionIdx ≤ AMT.maxIndex)
    (present : state.partitions.get? partitionIdx = some partition)
    (withinLimit : state.result.sectorsProcessed ≤ maxSectors)
    (popped : partition.popEarlyTerminations (maxSectors - state.result.sectorsProcessed) =
      .ok ((partitionResult, more), after)) :
    popEarlyVisit maxPartitions maxSectors partitionIdx state =
      .ok ((state.result.addAssign partitionResult).belowLimit maxPartitions maxSectors,
        ⟨state.partitions.set partitionIdx after, state.result.addAssign partitionResult,
          if more then state.finished else state.finished ++ [partitionIdx]⟩) := by
  simp only [popEarlyVisit, amtGet, amtSet, if_neg (not_lt.mpr inRange), present,
    Usize.checkedSub_of_le withinLimit, popped]

/-- The loop invariant holds before the first partition. -/
theorem PopLoop.start : PopLoop deadline maxPartitions maxSectors [] ⟨deadline.partitions, TerminationResult.new, []⟩ where
  unvisited := fun _ _ => rfl
  onlyQueues := fun _ partition present => ⟨partition, present, rfl, fun queued member =>
    List.mem_map_of_mem member⟩
  kept := fun _ _ _ queued => queued
  taken := fun epoch sector => by simp [TerminationResult.not_has_new, Deadline.Queued]
  finished := fun _ => by simp
  count := rfl
  partitionsWithin := Nat.zero_le _
  sectorsWithin := Nat.zero_le _
  progress := fun nonempty => absurd rfl nonempty

/-- Visiting a missing partition marks it finished and changes nothing else. -/
theorem PopLoop.missing (loop : PopLoop deadline maxPartitions maxSectors seen state)
    (missing : state.partitions.get? partitionIdx = none) :
    PopLoop deadline maxPartitions maxSectors (seen ++ [partitionIdx])
      { state with finished := state.finished ++ [partitionIdx] } where
  unvisited := fun other notSeen => loop.unvisited other fun inSeen =>
    notSeen (List.mem_append_left _ inSeen)
  onlyQueues := loop.onlyQueues
  kept := loop.kept
  taken := loop.taken
  finished := fun other => by
    by_cases same : other = partitionIdx
    · subst same
      have notNonempty : ¬ QueueNonempty state.partitions other := by
        rintro ⟨partition, present, -⟩
        rw [missing] at present
        cases present
      simp [notNonempty]
    · simp [loop.finished, same]
  count := loop.count
  partitionsWithin := loop.partitionsWithin
  sectorsWithin := loop.sectorsWithin
  progress := fun _ => .inl (by simp)

/-- Visiting a present partition that pops with what is left of the budget keeps the loop
invariant, with the partition stored back and finished when its queue is empty. -/
theorem PopLoop.popped {partition after : Partition} {partitionResult : TerminationResult}
    {more : Bool} (loop : PopLoop deadline maxPartitions maxSectors seen state)
    (fresh : partitionIdx ∉ seen) (present : state.partitions.get? partitionIdx = some partition)
    (partitionsBelow : state.result.partitionsProcessed < maxPartitions)
    (sectorsBelow : state.result.sectorsProcessed < maxSectors)
    (popped : Partition.Popped partition (maxSectors - state.result.sectorsProcessed) partitionResult
      more after) :
    PopLoop deadline maxPartitions maxSectors (seen ++ [partitionIdx])
      ⟨state.partitions.set partitionIdx after, state.result.addAssign partitionResult,
        if more then state.finished else state.finished ++ [partitionIdx]⟩ := by
  -- the partition visited is the deadline's own, and the finished ones were all seen before
  have original : deadline.partitions.get? partitionIdx = some partition :=
    (loop.unvisited partitionIdx fresh) ▸ present
  have notFinished : partitionIdx ∉ state.finished := fun finished =>
    fresh ((loop.finished partitionIdx).mp finished).1
  have queuedHere : ∀ epoch sector, PartitionsQueued state.partitions partitionIdx epoch sector ↔
      partition.Queued epoch sector := by
    simp [PartitionsQueued, present]
  have queuedThere : ∀ epoch sector, deadline.Queued partitionIdx epoch sector ↔
      partition.Queued epoch sector := by
    simp [Deadline.Queued, PartitionsQueued, original]
  have queuedAfter : ∀ other epoch sector,
      PartitionsQueued (state.partitions.set partitionIdx after) other epoch sector ↔
        if partitionIdx = other then after.Queued epoch sector
        else PartitionsQueued state.partitions other epoch sector := by
    intro other epoch sector
    by_cases same : partitionIdx = other
    · simp [PartitionsQueued, same]
    · simp [PartitionsQueued, same]
  have summed : partitionsCount (state.partitions.set partitionIdx after) + partition.queuedCount =
      partitionsCount state.partitions + after.queuedCount :=
    SortedMap.sum_set_add state.partitions present after fun entry => entry.2.queuedCount
  have counted := popped.count
  have loopCount := loop.count
  have within := loop.sectorsWithin
  have pieceWithin := popped.withinLimit
  constructor
  · intro other notSeen
    have notHere : partitionIdx ≠ other := fun same => notSeen (by simp [same])
    rw [SortedMap.get?_set, if_neg notHere]
    exact loop.unvisited other fun inSeen => notSeen (List.mem_append_left _ inSeen)
  · intro other stored storedEq
    by_cases same : partitionIdx = other
    · subst same
      rw [SortedMap.get?_set, if_pos rfl, Option.some.injEq] at storedEq
      subst storedEq
      exact ⟨partition, original, popped.onlyQueue, popped.keys⟩
    · rw [SortedMap.get?_set, if_neg same] at storedEq
      exact loop.onlyQueues other stored storedEq
  · intro other epoch sector queued
    rw [queuedAfter] at queued
    split at queued
    · next same =>
      subst same
      exact (queuedThere epoch sector).mpr (popped.kept epoch sector queued)
    · exact loop.kept other epoch sector queued
  · intro epoch sector
    rw [TerminationResult.has_addAssign, loop.taken, popped.taken]
    constructor
    · rintro (⟨other, had, gone⟩ | ⟨had, gone⟩)
      · have notHere : partitionIdx ≠ other := by
          rintro rfl
          exact gone ((queuedHere epoch sector).mpr ((queuedThere epoch sector).mp had))
        exact ⟨other, had, by rw [queuedAfter, if_neg notHere]; exact gone⟩
      · exact ⟨partitionIdx, (queuedThere epoch sector).mpr had, by simpa [queuedAfter] using gone⟩
    · rintro ⟨other, had, gone⟩
      rw [queuedAfter] at gone
      split at gone
      · next same =>
        subst same
        exact .inr ⟨(queuedThere epoch sector).mp had, gone⟩
      · exact .inl ⟨other, had, gone⟩
  · intro other
    by_cases same : other = partitionIdx
    · subst same
      have nonemptyAfter : QueueNonempty (state.partitions.set other after) other ↔
          after.earlyTerminated.entries ≠ [] := by
        simp [QueueNonempty]
      rw [nonemptyAfter, ← popped.more_iff]
      cases more <;> simp [notFinished]
    · have nonemptyAfter : QueueNonempty (state.partitions.set partitionIdx after) other ↔
          QueueNonempty state.partitions other := by
        simp [QueueNonempty, Ne.symm same]
      rw [nonemptyAfter]
      cases more <;> simp [loop.finished, same]
  · show partitionsCount (state.partitions.set partitionIdx after) +
      (state.result.sectorsProcessed + partitionResult.sectorsProcessed) = deadline.queuedCount
    omega
  · simp only [TerminationResult.addAssign_partitionsProcessed, popped.partitionsProcessed]
    omega
  · simp only [TerminationResult.addAssign_sectorsProcessed]
    omega
  · intro _
    cases more with
    | false => exact .inl (by simp)
    | true =>
      have used := popped.usedUp rfl
      exact .inr (by simp only [TerminationResult.addAssign_sectorsProcessed]; omega)

/-- The loop goes on: the invariant holds, both limits are still ahead, and every partition seen
so far is finished. -/
def LoopGoing (deadline : Deadline) (maxPartitions maxSectors : Nat) (seen : List Nat)
    (state : DeadlinePopState) : Prop :=
  PopLoop deadline maxPartitions maxSectors seen state ∧
    state.result.belowLimit maxPartitions maxSectors = true ∧ ∀ partitionIdx ∈ seen, partitionIdx ∈ state.finished

/-- The loop stopped after a visit that reached a limit. -/
def LoopStopped (deadline : Deadline) (maxPartitions maxSectors : Nat) (seen : List Nat)
    (state : DeadlinePopState) : Prop :=
  seen ≠ [] ∧ PopLoop deadline maxPartitions maxSectors seen state ∧
    state.result.belowLimit maxPartitions maxSectors = false

/-- One visit of an indexed partition not seen before, from a state where the loop goes on:
it succeeds, and the loop goes on or stops at a limit. -/
theorem popEarlyVisit_step (wellformed : deadline.EarlyWellformed)
    (going : LoopGoing deadline maxPartitions maxSectors seen state) (fresh : partitionIdx ∉ seen)
    (indexed : partitionIdx ∈ deadline.earlyTerminations) :
    ∃ keepGoing state', popEarlyVisit maxPartitions maxSectors partitionIdx state = .ok (keepGoing, state') ∧
      if keepGoing then LoopGoing deadline maxPartitions maxSectors (seen ++ [partitionIdx]) state'
      else LoopStopped deadline maxPartitions maxSectors (seen ++ [partitionIdx]) state' := by
  obtain ⟨loop, below, allFinished⟩ := going
  obtain ⟨partitionsBelow, sectorsBelow⟩ := (TerminationResult.belowLimit_iff _ _ _).mp below
  have inRange := wellformed.indicesInRange partitionIdx indexed
  cases present : state.partitions.get? partitionIdx with
  | none =>
    refine ⟨true, _, popEarlyVisit_of_missing inRange present, ?_⟩
    rw [if_pos rfl]
    refine ⟨loop.missing present, below, fun other member => ?_⟩
    rcases List.mem_append.mp member with inSeen | isNew
    · exact List.mem_append_left _ (allFinished other inSeen)
    · exact List.mem_append_right _ isNew
  | some partition =>
    -- the partition is the deadline's own: it passes its checks and its queue is in range
    have original : deadline.partitions.get? partitionIdx = some partition :=
      (loop.unvisited partitionIdx fresh) ▸ present
    have member : (partitionIdx, partition) ∈ deadline.partitions.entries :=
      (SortedMap.mem_entries_iff _).mpr original
    obtain ⟨partitionResult, more, after, ran, popped⟩ :=
      Partition.popEarlyTerminations_spec (wellformed.partitionsValid _ member)
        (wellformed.queuesInRange _ member) (maxSectors - state.result.sectorsProcessed)
    have nextLoop := loop.popped fresh present partitionsBelow sectorsBelow popped
    refine ⟨_, _, popEarlyVisit_of_present inRange present (le_of_lt sectorsBelow) ran, ?_⟩
    cases stillBelow : (state.result.addAssign partitionResult).belowLimit maxPartitions maxSectors with
    | true =>
      rw [if_pos rfl]
      -- a partition with entries left used up the budget, so this one is finished
      have notMore : more = false := by
        cases more with
        | false => rfl
        | true =>
          have used := popped.usedUp rfl
          have bothBelow := (TerminationResult.belowLimit_iff _ _ _).mp stillBelow
          simp only [TerminationResult.addAssign_sectorsProcessed] at bothBelow
          omega
      subst notMore
      refine ⟨nextLoop, stillBelow, fun other member => ?_⟩
      rcases List.mem_append.mp member with inSeen | isNew
      · exact List.mem_append_left _ (allFinished other inSeen)
      · exact List.mem_append_right _ isNew
    | false =>
      rw [if_neg Bool.false_ne_true]
      exact ⟨by simp, nextLoop, stillBelow⟩

/-- The loop of `Deadline::pop_early_terminations` over a ready deadline, with both limits
positive, succeeds: it visits every indexed partition and goes on, or stops at a limit. -/
theorem forWhile_popEarlyVisit (wellformed : deadline.EarlyWellformed)
    (partitionsAvailable : 0 < maxPartitions) (sectorsAvailable : 0 < maxSectors) :
    ∃ visited rest state, bitsAscending deadline.earlyTerminations = visited ++ rest ∧
      Loop.forWhile (popEarlyVisit maxPartitions maxSectors) (bitsAscending deadline.earlyTerminations)
        ⟨deadline.partitions, TerminationResult.new, []⟩ = .ok state ∧
      (rest = [] ∧ LoopGoing deadline maxPartitions maxSectors visited state ∨
        LoopStopped deadline maxPartitions maxSectors visited state) := by
  apply Loop.forWhile_of_invariant
  · intro seen state partitionIdx isPrefix going
    exact popEarlyVisit_step wellformed going (Loop.not_mem_seen bitsAscending_nodup isPrefix)
      (mem_bitsAscending.mp (Loop.mem_of_prefix isPrefix))
  · exact ⟨PopLoop.start,
      (TerminationResult.belowLimit_iff _ _ _).mpr ⟨partitionsAvailable, sectorsAvailable⟩,
      fun _ member => absurd member List.not_mem_nil⟩

/-- However the loop ended, unsetting the finished partitions gives `Popped`. -/
theorem popped_of_loop {visited rest : List Nat} (wellformed : deadline.EarlyWellformed)
    (split : bitsAscending deadline.earlyTerminations = visited ++ rest)
    (ended : rest = [] ∧ LoopGoing deadline maxPartitions maxSectors visited state ∨
      LoopStopped deadline maxPartitions maxSectors visited state) :
    Popped deadline maxPartitions maxSectors state.result
      (decide (deadline.earlyTerminations \ state.finished.toFinset ≠ ∅))
      { deadline with
        partitions := state.partitions
        earlyTerminations := deadline.earlyTerminations \ state.finished.toFinset } := by
  have loop : PopLoop deadline maxPartitions maxSectors visited state := by
    rcases ended with ⟨-, loop, -⟩ | ⟨-, loop, -⟩ <;> exact loop
  have seenIndexed : ∀ partitionIdx ∈ visited, partitionIdx ∈ deadline.earlyTerminations :=
    fun partitionIdx member => mem_bitsAscending.mp (split ▸ List.mem_append_left _ member)
  have finishedSeen : ∀ partitionIdx ∈ state.finished, partitionIdx ∈ visited :=
    fun partitionIdx member => ((loop.finished partitionIdx).mp member).1
  have finishedIndexed : state.finished.toFinset ⊆ deadline.earlyTerminations := fun partitionIdx member =>
    seenIndexed partitionIdx (finishedSeen partitionIdx (List.mem_toFinset.mp member))
  have visitedNonempty : deadline.earlyTerminations ≠ ∅ → visited ≠ [] := by
    intro nonempty
    rcases ended with ⟨rfl, -⟩ | ⟨seenNonempty, -⟩
    · obtain ⟨partitionIdx, member⟩ := Finset.nonempty_iff_ne_empty.mpr nonempty
      rw [List.append_nil] at split
      exact List.ne_nil_of_mem (split ▸ mem_bitsAscending.mpr member)
    · exact seenNonempty
  have loopCount := loop.count
  refine {
    onlyIndexAndPartitions := rfl
    partitionsWithin := loop.partitionsWithin
    sectorsWithin := loop.sectorsWithin
    usedUp := ?_
    more_iff := by simp
    indexShrinks := Finset.sdiff_subset
    count := by
      show deadline.queuedCount = partitionsCount state.partitions + state.result.sectorsProcessed
      omega
    progress := ?_
    kept := loop.kept
    taken := loop.taken
    wellformed := ?_ }
  · -- the loop went over every indexed partition and finished them all, or stopped at a limit
    intro more
    rcases ended with ⟨rfl, -, -, allFinished⟩ | ⟨-, -, stopped⟩
    · exfalso
      apply decide_eq_true_iff.mp more
      ext partitionIdx
      simp only [Finset.mem_sdiff, List.mem_toFinset, Finset.notMem_empty, iff_false, not_and,
        not_not]
      intro member
      rw [List.append_nil] at split
      exact allFinished partitionIdx (split ▸ mem_bitsAscending.mpr member)
    · exact stopped
  · -- a partition finished leaves the index, and sectors taken leave the queues
    intro nonempty
    have shrinks : (deadline.earlyTerminations \ state.finished.toFinset).card ≤
        deadline.earlyTerminations.card :=
      Finset.card_le_card Finset.sdiff_subset
    show partitionsCount state.partitions + (deadline.earlyTerminations \ state.finished.toFinset).card <
      deadline.queuedCount + deadline.earlyTerminations.card
    rcases loop.progress (visitedNonempty nonempty) with finishedNonempty | positive
    · obtain ⟨partitionIdx, member⟩ := List.exists_mem_of_ne_nil _ finishedNonempty
      have fewer : (deadline.earlyTerminations \ state.finished.toFinset).card <
          deadline.earlyTerminations.card :=
        Finset.card_lt_card (Finset.sdiff_ssubset finishedIndexed ⟨partitionIdx, List.mem_toFinset.mpr member⟩)
      omega
    · omega
  · constructor
    · intro partitionIdx member
      exact wellformed.indicesInRange partitionIdx (Finset.mem_sdiff.mp member).1
    · rintro ⟨partitionIdx, partition⟩ member
      obtain ⟨old, original, shape, -⟩ :=
        loop.onlyQueues partitionIdx partition ((SortedMap.mem_entries_iff _).mp member)
      show partition.validateState = .ok ()
      rw [shape, Partition.validateState_earlyTerminated]
      exact wellformed.partitionsValid _ ((SortedMap.mem_entries_iff _).mpr original)
    · rintro ⟨partitionIdx, partition⟩ member queued queuedIn
      obtain ⟨old, original, -, keys⟩ :=
        loop.onlyQueues partitionIdx partition ((SortedMap.mem_entries_iff _).mp member)
      obtain ⟨oldQueued, oldIn, sameKey⟩ := List.mem_map.mp (keys queued queuedIn)
      rw [← sameKey]
      exact wellformed.queuesInRange _ ((SortedMap.mem_entries_iff _).mpr original) oldQueued oldIn
    · intro partitionIdx nonemptyAfter
      rw [Finset.mem_sdiff, List.mem_toFinset]
      by_cases seen : partitionIdx ∈ visited
      · exact ⟨seenIndexed partitionIdx seen, fun finished =>
          ((loop.finished partitionIdx).mp finished).2 nonemptyAfter⟩
      · have untouched : QueueNonempty deadline.partitions partitionIdx := by
          rw [QueueNonempty, ← loop.unvisited partitionIdx seen]
          exact nonemptyAfter
        exact ⟨wellformed.indexed partitionIdx untouched, fun finished => seen (finishedSeen _ finished)⟩

/-- `Deadline::pop_early_terminations` on a ready deadline, with both limits positive, succeeds
and gives `Popped`. -/
theorem popEarlyTerminations_spec (wellformed : deadline.EarlyWellformed)
    (partitionsAvailable : 0 < maxPartitions) (sectorsAvailable : 0 < maxSectors) :
    ∃ result more after, deadline.popEarlyTerminations maxPartitions maxSectors = .ok ((result, more), after) ∧
      Popped deadline maxPartitions maxSectors result more after := by
  obtain ⟨visited, rest, state, split, run, ended⟩ :=
    forWhile_popEarlyVisit wellformed partitionsAvailable sectorsAvailable
  exact ⟨_, _, _, by simp only [popEarlyTerminations, run], popped_of_loop wellformed split ended⟩

/-- Popping never adds to what is left to pop. -/
theorem Popped.measure_le {result : TerminationResult} {more : Bool} {after : Deadline}
    (popped : Popped deadline maxPartitions maxSectors result more after) :
    after.earlyMeasure ≤ deadline.earlyMeasure := by
  have counted := popped.count
  have shrinks := Finset.card_le_card popped.indexShrinks
  unfold earlyMeasure
  omega

/-- The state checks of a deadline do not read its partitions or its index. -/
theorem Popped.validateState {result : TerminationResult} {more : Bool} {after : Deadline}
    (popped : Popped deadline maxPartitions maxSectors result more after) :
    after.validateState = deadline.validateState := by
  rw [popped.onlyIndexAndPartitions]
  rfl

end Loop

end Deadline

/-- `WPOST_PERIOD_DEADLINES`: the number of deadlines in a proving period. -/
def wPoStPeriodDeadlines : Nat := 48

/-- `Deadlines`: one deadline for each of the `WPOST_PERIOD_DEADLINES` of a proving period. -/
structure Deadlines where
  due : List Deadline
  length_due : due.length = wPoStPeriodDeadlines

namespace Deadlines

/-- `Deadlines::load_deadline`. -/
def loadDeadline (deadlines : Deadlines) (deadlineIdx : Nat) : Except String Deadline :=
  if tooLarge : deadlineIdx ≥ wPoStPeriodDeadlines then .error s!"invalid deadline {deadlineIdx}"
  else .ok (deadlines.due.get ⟨deadlineIdx, by rw [deadlines.length_due]; omega⟩)

/-- `Deadlines::update_deadline`: the deadline must pass its state check. -/
def updateDeadline (deadlines : Deadlines) (deadlineIdx : Nat) (deadline : Deadline) :
    Except String Deadlines :=
  if deadlineIdx ≥ wPoStPeriodDeadlines then .error s!"invalid deadline {deadlineIdx}"
  else
    match deadline.validateState with
    | .error cause => .error cause
    | .ok () => .ok ⟨deadlines.due.set deadlineIdx deadline, by rw [List.length_set]; exact deadlines.length_due⟩

/-- A deadline index in range loads the deadline at that position. -/
theorem loadDeadline_of_lt {deadlines : Deadlines} {deadlineIdx : Nat}
    (inRange : deadlineIdx < wPoStPeriodDeadlines) :
    ∃ deadline, deadlines.loadDeadline deadlineIdx = .ok deadline ∧
      deadlines.due[deadlineIdx]? = some deadline := by
  have below : deadlineIdx < deadlines.due.length := by
    rw [deadlines.length_due]
    exact inRange
  refine ⟨deadlines.due[deadlineIdx], ?_, List.getElem?_eq_getElem below⟩
  simp [loadDeadline, Nat.not_le.mpr inRange]

/-- A deadline index in range stores a deadline that passes its state check. -/
theorem updateDeadline_of_valid {deadlines : Deadlines} {deadlineIdx : Nat} {deadline : Deadline}
    (inRange : deadlineIdx < wPoStPeriodDeadlines) (valid : deadline.validateState = .ok ()) :
    ∃ updated, deadlines.updateDeadline deadlineIdx deadline = .ok updated ∧
      updated.due = deadlines.due.set deadlineIdx deadline :=
  ⟨⟨deadlines.due.set deadlineIdx deadline, by rw [List.length_set]; exact deadlines.length_due⟩,
    by simp only [updateDeadline, if_neg (Nat.not_le.mpr inRange), valid], rfl⟩

end Deadlines

/-- Replacing the item at a position changes a sum over the list by the difference of the two
items. -/
theorem sum_map_set_add {α : Type} {items : List α} {index : Nat} {old : α}
    (present : items[index]? = some old) (item : α) (measure : α → Nat) :
    ((items.set index item).map measure).sum + measure old = (items.map measure).sum + measure item := by
  obtain ⟨inRange, oldEq⟩ := List.getElem?_eq_some_iff.mp present
  have unchanged : items.set index old = items := oldEq ▸ List.set_getElem_self inRange
  have after := List.sum_set (items.map measure) index (measure item)
  have before := List.sum_set (items.map measure) index (measure old)
  rw [← List.map_set] at after before
  rw [unchanged] at before
  simp only [List.length_map, inRange, if_true] at after before
  omega

/-- The fields of the miner `State` that popping early terminations and advancing the
deadline read or write: the deadlines with early terminations, the deadlines, the first
epoch of the current proving period and the index of the current deadline. -/
structure State where
  earlyTerminations : Finset Nat
  deadlines : Deadlines
  provingPeriodStart : Int
  currentDeadline : Nat

/-- The state of the loop of `State::pop_early_terminations`: the deadlines, the result so far,
and the deadlines to unset. -/
structure StatePopState where
  deadlines : Deadlines
  result : TerminationResult
  toUnset : List Nat

/-- Deadline `location.1` of the list queues `sector` at `epoch` in its partition
`location.2`. -/
def DeadlinesQueued (deadlines : List Deadline) (location : Nat × Nat) (epoch : Int) (sector : Nat) :
    Prop :=
  ∃ deadline, deadlines[location.1]? = some deadline ∧ deadline.Queued location.2 epoch sector

namespace State

/-- The state queues `sector` at `epoch` in partition `location.2` of deadline `location.1`. -/
def Queued (state : State) : Nat × Nat → Int → Nat → Prop :=
  DeadlinesQueued state.deadlines.due

/-- The sectors queued in all the partitions of all the deadlines. -/
def queuedCount (state : State) : Nat :=
  (state.deadlines.due.map Deadline.queuedCount).sum

/-- What is left to pop: the sectors queued, the partitions indexed and the deadlines
indexed. -/
def earlyMeasure (state : State) : Nat :=
  (state.deadlines.due.map Deadline.earlyMeasure).sum + state.earlyTerminations.card

/-- What popping early terminations needs of a state: indexed deadlines in range, deadlines
that pass their state checks and are ready, and an index that holds every deadline with
partitions in its own index. -/
structure EarlyWellformed (state : State) : Prop where
  indicesInRange : ∀ deadlineIdx ∈ state.earlyTerminations, deadlineIdx < wPoStPeriodDeadlines
  deadlinesReady : ∀ deadline ∈ state.deadlines.due,
    deadline.EarlyWellformed ∧ deadline.validateState = .ok ()
  indexed : ∀ deadlineIdx deadline, state.deadlines.due[deadlineIdx]? = some deadline →
    deadline.earlyTerminations ≠ ∅ → deadlineIdx ∈ state.earlyTerminations

/-- What popping early terminations from the state gives: the counts within the limits, more
exactly when deadlines stay indexed, the deadlines holding exactly the pairs not returned,
what is left to pop dropping when something was indexed, and a state ready for the next
pop. -/
structure Popped (state : State) (maxPartitions maxSectors : Nat) (result : TerminationResult)
    (more : Bool) (after : State) : Prop where
  partitionsWithin : result.partitionsProcessed ≤ maxPartitions
  sectorsWithin : result.sectorsProcessed ≤ maxSectors
  more_iff : more = true ↔ after.earlyTerminations ≠ ∅
  indexShrinks : after.earlyTerminations ⊆ state.earlyTerminations
  count : state.queuedCount = after.queuedCount + result.sectorsProcessed
  progress : state.earlyTerminations ≠ ∅ → after.earlyMeasure < state.earlyMeasure
  kept : ∀ location epoch sector, after.Queued location epoch sector →
    state.Queued location epoch sector
  taken : ∀ epoch sector, result.Has epoch sector ↔
    ∃ location, state.Queued location epoch sector ∧ ¬ after.Queued location epoch sector
  wellformed : after.EarlyWellformed

/-- What the loop of `State::pop_early_terminations` keeps after visiting the deadlines `seen`:
the others are untouched, every deadline is ready, the result holds exactly the pairs gone,
the deadlines to unset are the visited ones with an empty index, and the counts stay within
the limits. -/
structure PopLoop (state : State) (maxPartitions maxSectors : Nat) (seen : List Nat)
    (loop : StatePopState) : Prop where
  unvisited : ∀ deadlineIdx ∉ seen, loop.deadlines.due[deadlineIdx]? = state.deadlines.due[deadlineIdx]?
  ready : ∀ deadline ∈ loop.deadlines.due, deadline.EarlyWellformed ∧ deadline.validateState = .ok ()
  kept : ∀ location epoch sector, DeadlinesQueued loop.deadlines.due location epoch sector →
    state.Queued location epoch sector
  taken : ∀ epoch sector, loop.result.Has epoch sector ↔
    ∃ location, state.Queued location epoch sector ∧ ¬ DeadlinesQueued loop.deadlines.due location epoch sector
  unset : ∀ deadlineIdx, deadlineIdx ∈ loop.toUnset ↔ deadlineIdx ∈ seen ∧
    ∀ deadline, loop.deadlines.due[deadlineIdx]? = some deadline → deadline.earlyTerminations = ∅
  count : (loop.deadlines.due.map Deadline.queuedCount).sum + loop.result.sectorsProcessed =
    state.queuedCount
  measureLe : (loop.deadlines.due.map Deadline.earlyMeasure).sum ≤
    (state.deadlines.due.map Deadline.earlyMeasure).sum
  partitionsWithin : loop.result.partitionsProcessed ≤ maxPartitions
  sectorsWithin : loop.result.sectorsProcessed ≤ maxSectors
  progress : seen ≠ [] → loop.toUnset ≠ [] ∨
    (loop.deadlines.due.map Deadline.earlyMeasure).sum < (state.deadlines.due.map Deadline.earlyMeasure).sum

/-- The body of the loop of `State::pop_early_terminations` at `deadlineIdx`: the deadline pops
with what is left of both budgets, is unset when it reports nothing more, and is stored back;
the loop stops once a limit is reached. -/
def popEarlyVisit (maxPartitions maxSectors : Nat) (deadlineIdx : Nat) (state : StatePopState) :
    Except String (Bool × StatePopState) :=
  match state.deadlines.loadDeadline deadlineIdx with
  | .error cause => .error cause
  | .ok deadline =>
    match Usize.checkedSub maxPartitions state.result.partitionsProcessed with
    | .error panic => .error panic
    | .ok partitionBudget =>
      match Usize.checkedSub maxSectors state.result.sectorsProcessed with
      | .error panic => .error panic
      | .ok sectorBudget =>
        match deadline.popEarlyTerminations partitionBudget sectorBudget with
        | .error cause =>
          .error s!"failed to pop early terminations for deadline {deadlineIdx}: {cause}"
        | .ok ((deadlineResult, more), deadline) =>
          let result := state.result.addAssign deadlineResult
          let toUnset := if more then state.toUnset else state.toUnset ++ [deadlineIdx]
          match state.deadlines.updateDeadline deadlineIdx deadline with
          | .error cause => .error cause
          | .ok deadlines =>
            .ok (result.belowLimit maxPartitions maxSectors, ⟨deadlines, result, toUnset⟩)

/-- `State::pop_early_terminations`: at most `maxPartitions` partitions and `maxSectors` sectors
of early terminations, with whether deadlines with early terminations are left. -/
def popEarlyTerminations (state : State) (maxPartitions maxSectors : Nat) :
    Except String ((TerminationResult × Bool) × State) :=
  if state.earlyTerminations = ∅ then .ok ((TerminationResult.new, false), state)
  else
    match Loop.forWhile (popEarlyVisit maxPartitions maxSectors)
        (bitsAscending state.earlyTerminations) ⟨state.deadlines, TerminationResult.new, []⟩ with
    | .error cause => .error cause
    | .ok loop =>
      let earlyTerminations := state.earlyTerminations \ loop.toUnset.toFinset
      .ok ((loop.result, decide (earlyTerminations ≠ ∅)),
        { state with deadlines := loop.deadlines, earlyTerminations := earlyTerminations })

section Loop

variable {state : State} {maxPartitions maxSectors deadlineIdx : Nat} {seen : List Nat}
  {loop : StatePopState}

/-- A deadline in range pops with what is left of both budgets and is stored back; it is to be
unset when it reports nothing more, and the loop goes on while below both limits. -/
theorem popEarlyVisit_of_popped {deadline after : Deadline} {deadlineResult : TerminationResult}
    {more : Bool} {updated : Deadlines}
    (loaded : loop.deadlines.loadDeadline deadlineIdx = .ok deadline)
    (partitionsLe : loop.result.partitionsProcessed ≤ maxPartitions)
    (sectorsLe : loop.result.sectorsProcessed ≤ maxSectors)
    (popped : deadline.popEarlyTerminations (maxPartitions - loop.result.partitionsProcessed)
      (maxSectors - loop.result.sectorsProcessed) = .ok ((deadlineResult, more), after))
    (stored : loop.deadlines.updateDeadline deadlineIdx after = .ok updated) :
    popEarlyVisit maxPartitions maxSectors deadlineIdx loop =
      .ok ((loop.result.addAssign deadlineResult).belowLimit maxPartitions maxSectors,
        ⟨updated, loop.result.addAssign deadlineResult,
          if more then loop.toUnset else loop.toUnset ++ [deadlineIdx]⟩) := by
  simp only [popEarlyVisit, loaded, Usize.checkedSub_of_le partitionsLe,
    Usize.checkedSub_of_le sectorsLe, popped, stored]

/-- The loop invariant holds before the first deadline of a ready state. -/
theorem PopLoop.start (wellformed : state.EarlyWellformed) :
    PopLoop state maxPartitions maxSectors [] ⟨state.deadlines, TerminationResult.new, []⟩ where
  unvisited := fun _ _ => rfl
  ready := wellformed.deadlinesReady
  kept := fun _ _ _ queued => queued
  taken := fun epoch sector => by simp [TerminationResult.not_has_new, Queued]
  unset := fun _ => by simp
  count := rfl
  measureLe := le_refl _
  partitionsWithin := Nat.zero_le _
  sectorsWithin := Nat.zero_le _
  progress := fun nonempty => absurd rfl nonempty

/-- Visiting a deadline that pops with what is left of both budgets keeps the loop invariant,
with the deadline stored back and to be unset when its index is empty. -/
theorem PopLoop.popped {old after : Deadline} {deadlineResult : TerminationResult} {more : Bool}
    {updated : Deadlines} (current : PopLoop state maxPartitions maxSectors seen loop)
    (fresh : deadlineIdx ∉ seen) (present : loop.deadlines.due[deadlineIdx]? = some old)
    (partitionsBelow : loop.result.partitionsProcessed < maxPartitions)
    (sectorsBelow : loop.result.sectorsProcessed < maxSectors)
    (popped : Deadline.Popped old (maxPartitions - loop.result.partitionsProcessed)
      (maxSectors - loop.result.sectorsProcessed) deadlineResult more after)
    (stored : updated.due = loop.deadlines.due.set deadlineIdx after) :
    PopLoop state maxPartitions maxSectors (seen ++ [deadlineIdx])
      ⟨updated, loop.result.addAssign deadlineResult,
        if more then loop.toUnset else loop.toUnset ++ [deadlineIdx]⟩ := by
  -- the deadline visited is the state's own, and the ones to unset were all seen before
  have original : state.deadlines.due[deadlineIdx]? = some old :=
    (current.unvisited deadlineIdx fresh) ▸ present
  have below : deadlineIdx < loop.deadlines.due.length := (List.getElem?_eq_some_iff.mp present).1
  have notUnset : deadlineIdx ∉ loop.toUnset := fun unset =>
    fresh ((current.unset deadlineIdx).mp unset).1
  have lookup : ∀ other, updated.due[other]? =
      if deadlineIdx = other then some after else loop.deadlines.due[other]? := by
    intro other
    rw [stored, List.getElem?_set]
    by_cases same : deadlineIdx = other
    · rw [if_pos same, if_pos same, if_pos below]
    · rw [if_neg same, if_neg same]
  have queuedAfter : ∀ location epoch sector, DeadlinesQueued updated.due location epoch sector ↔
      if deadlineIdx = location.1 then after.Queued location.2 epoch sector
      else DeadlinesQueued loop.deadlines.due location epoch sector := by
    intro location epoch sector
    by_cases same : deadlineIdx = location.1
    · simp [DeadlinesQueued, lookup, same]
    · simp [DeadlinesQueued, lookup, same]
  have queuedHere : ∀ partitionIdx epoch sector,
      DeadlinesQueued loop.deadlines.due (deadlineIdx, partitionIdx) epoch sector ↔
        old.Queued partitionIdx epoch sector := by
    simp [DeadlinesQueued, present]
  have queuedThere : ∀ partitionIdx epoch sector,
      state.Queued (deadlineIdx, partitionIdx) epoch sector ↔ old.Queued partitionIdx epoch sector := by
    simp [Queued, DeadlinesQueued, original]
  have counted : ((loop.deadlines.due.set deadlineIdx after).map Deadline.queuedCount).sum +
      old.queuedCount = (loop.deadlines.due.map Deadline.queuedCount).sum + after.queuedCount :=
    sum_map_set_add present after Deadline.queuedCount
  have measured : ((loop.deadlines.due.set deadlineIdx after).map Deadline.earlyMeasure).sum +
      old.earlyMeasure = (loop.deadlines.due.map Deadline.earlyMeasure).sum + after.earlyMeasure :=
    sum_map_set_add present after Deadline.earlyMeasure
  have oldReady := current.ready old (List.mem_of_getElem? present)
  have lower := popped.measure_le
  have poppedCount := popped.count
  have loopCount := current.count
  have loopMeasure := current.measureLe
  have partitionsPiece := popped.partitionsWithin
  have sectorsPiece := popped.sectorsWithin
  rw [← stored] at counted measured
  constructor
  · intro other notSeen
    have notHere : deadlineIdx ≠ other := fun same => notSeen (by simp [same])
    rw [lookup, if_neg notHere]
    exact current.unvisited other fun inSeen => notSeen (List.mem_append_left _ inSeen)
  · intro deadline member
    rw [stored] at member
    rcases List.mem_or_eq_of_mem_set member with before | rfl
    · exact current.ready deadline before
    · exact ⟨popped.wellformed, popped.validateState.trans oldReady.2⟩
  · rintro ⟨other, partitionIdx⟩ epoch sector queued
    rw [queuedAfter] at queued
    split at queued
    · next same =>
      simp only at same
      subst same
      exact (queuedThere partitionIdx epoch sector).mpr (popped.kept partitionIdx epoch sector queued)
    · exact current.kept _ epoch sector queued
  · intro epoch sector
    rw [TerminationResult.has_addAssign, current.taken, popped.taken]
    constructor
    · rintro (⟨⟨other, partitionIdx⟩, had, gone⟩ | ⟨partitionIdx, had, gone⟩)
      · have notHere : deadlineIdx ≠ other := by
          rintro rfl
          exact gone ((queuedHere partitionIdx epoch sector).mpr
            ((queuedThere partitionIdx epoch sector).mp had))
        exact ⟨(other, partitionIdx), had, by rw [queuedAfter, if_neg notHere]; exact gone⟩
      · exact ⟨(deadlineIdx, partitionIdx), (queuedThere partitionIdx epoch sector).mpr had,
          by simpa [queuedAfter] using gone⟩
    · rintro ⟨⟨other, partitionIdx⟩, had, gone⟩
      rw [queuedAfter] at gone
      split at gone
      · next same =>
        simp only at same
        subst same
        exact .inr ⟨partitionIdx, (queuedThere partitionIdx epoch sector).mp had, gone⟩
      · exact .inl ⟨(other, partitionIdx), had, gone⟩
  · intro other
    by_cases same : other = deadlineIdx
    · subst same
      have emptyAfter : (∀ deadline, updated.due[other]? = some deadline →
          deadline.earlyTerminations = ∅) ↔ after.earlyTerminations = ∅ := by
        simp [lookup]
      rw [emptyAfter]
      have moreIff := popped.more_iff
      cases more with
      | false =>
        have empty : after.earlyTerminations = ∅ := by simpa using moreIff
        simp [empty]
      | true =>
        have nonempty : after.earlyTerminations ≠ ∅ := moreIff.mp rfl
        simp [notUnset, nonempty]
    · have sameLookup : updated.due[other]? = loop.deadlines.due[other]? := by
        rw [lookup, if_neg (Ne.symm same)]
      rw [sameLookup]
      cases more <;> simp [current.unset, same]
  · show (updated.due.map Deadline.queuedCount).sum +
      (loop.result.sectorsProcessed + deadlineResult.sectorsProcessed) = state.queuedCount
    omega
  · show (updated.due.map Deadline.earlyMeasure).sum ≤ (state.deadlines.due.map Deadline.earlyMeasure).sum
    omega
  · simp only [TerminationResult.addAssign_partitionsProcessed]
    omega
  · simp only [TerminationResult.addAssign_sectorsProcessed]
    omega
  · intro _
    cases more with
    | false => exact .inl (by simp)
    | true =>
      -- a deadline still indexed had partitions in its index, so popping it lowered its measure
      have stillIndexed : after.earlyTerminations ≠ ∅ := popped.more_iff.mp rfl
      have wasIndexed : old.earlyTerminations ≠ ∅ := fun empty =>
        stillIndexed (Finset.subset_empty.mp (empty ▸ popped.indexShrinks))
      have dropped := popped.progress wasIndexed
      exact .inr (by show (updated.due.map Deadline.earlyMeasure).sum < _; omega)

/-- The loop goes on: the invariant holds, both limits are still ahead, and every deadline seen
so far is to be unset. -/
def LoopGoing (state : State) (maxPartitions maxSectors : Nat) (seen : List Nat)
    (loop : StatePopState) : Prop :=
  PopLoop state maxPartitions maxSectors seen loop ∧
    loop.result.belowLimit maxPartitions maxSectors = true ∧ ∀ deadlineIdx ∈ seen, deadlineIdx ∈ loop.toUnset

/-- The loop stopped after a visit that reached a limit. -/
def LoopStopped (state : State) (maxPartitions maxSectors : Nat) (seen : List Nat)
    (loop : StatePopState) : Prop :=
  seen ≠ [] ∧ PopLoop state maxPartitions maxSectors seen loop ∧
    loop.result.belowLimit maxPartitions maxSectors = false

/-- One visit of an indexed deadline not seen before, from a state where the loop goes on: it
succeeds, and the loop goes on or stops at a limit. -/
theorem popEarlyVisit_step (wellformed : state.EarlyWellformed)
    (going : LoopGoing state maxPartitions maxSectors seen loop) (fresh : deadlineIdx ∉ seen)
    (indexed : deadlineIdx ∈ state.earlyTerminations) :
    ∃ keepGoing loop', popEarlyVisit maxPartitions maxSectors deadlineIdx loop = .ok (keepGoing, loop') ∧
      if keepGoing then LoopGoing state maxPartitions maxSectors (seen ++ [deadlineIdx]) loop'
      else LoopStopped state maxPartitions maxSectors (seen ++ [deadlineIdx]) loop' := by
  obtain ⟨current, below, allUnset⟩ := going
  obtain ⟨partitionsBelow, sectorsBelow⟩ := (TerminationResult.belowLimit_iff _ _ _).mp below
  have inRange := wellformed.indicesInRange deadlineIdx indexed
  obtain ⟨old, loaded, present⟩ := @Deadlines.loadDeadline_of_lt loop.deadlines deadlineIdx inRange
  have oldReady := current.ready old (List.mem_of_getElem? present)
  -- both budgets left are positive: the loop goes on only below both limits
  obtain ⟨deadlineResult, more, after, ran, popped⟩ :=
    Deadline.popEarlyTerminations_spec oldReady.1
      (Nat.sub_pos_of_lt partitionsBelow) (Nat.sub_pos_of_lt sectorsBelow)
  obtain ⟨updated, stored, storedDue⟩ :=
    Deadlines.updateDeadline_of_valid inRange (popped.validateState.trans oldReady.2)
  have nextLoop := current.popped fresh present partitionsBelow sectorsBelow popped storedDue
  refine ⟨_, _, popEarlyVisit_of_popped loaded (le_of_lt partitionsBelow) (le_of_lt sectorsBelow)
    ran stored, ?_⟩
  cases stillBelow : (loop.result.addAssign deadlineResult).belowLimit maxPartitions maxSectors with
  | true =>
    rw [if_pos rfl]
    -- a deadline with partitions left reached one of its limits, so this one is to be unset
    have notMore : more = false := by
      cases more with
      | false => rfl
      | true =>
        have used := popped.usedUp rfl
        have notBoth : ¬ (deadlineResult.partitionsProcessed <
            maxPartitions - loop.result.partitionsProcessed ∧
            deadlineResult.sectorsProcessed < maxSectors - loop.result.sectorsProcessed) :=
          fun both => by
            rw [(TerminationResult.belowLimit_iff _ _ _).mpr both] at used
            cases used
        have bothBelow := (TerminationResult.belowLimit_iff _ _ _).mp stillBelow
        simp only [TerminationResult.addAssign_partitionsProcessed,
          TerminationResult.addAssign_sectorsProcessed] at bothBelow
        omega
    subst notMore
    refine ⟨nextLoop, stillBelow, fun other member => ?_⟩
    rcases List.mem_append.mp member with inSeen | isNew
    · exact List.mem_append_left _ (allUnset other inSeen)
    · exact List.mem_append_right _ isNew
  | false =>
    rw [if_neg Bool.false_ne_true]
    exact ⟨by simp, nextLoop, stillBelow⟩

/-- The loop of `State::pop_early_terminations` over a ready state, with both limits positive,
succeeds: it visits every indexed deadline and goes on, or stops at a limit. -/
theorem forWhile_popEarlyVisit (wellformed : state.EarlyWellformed)
    (partitionsAvailable : 0 < maxPartitions) (sectorsAvailable : 0 < maxSectors) :
    ∃ visited rest loop, bitsAscending state.earlyTerminations = visited ++ rest ∧
      Loop.forWhile (popEarlyVisit maxPartitions maxSectors) (bitsAscending state.earlyTerminations)
        ⟨state.deadlines, TerminationResult.new, []⟩ = .ok loop ∧
      (rest = [] ∧ LoopGoing state maxPartitions maxSectors visited loop ∨
        LoopStopped state maxPartitions maxSectors visited loop) := by
  apply Loop.forWhile_of_invariant
  · intro seen loop deadlineIdx isPrefix going
    exact popEarlyVisit_step wellformed going (Loop.not_mem_seen bitsAscending_nodup isPrefix)
      (mem_bitsAscending.mp (Loop.mem_of_prefix isPrefix))
  · exact ⟨PopLoop.start wellformed,
      (TerminationResult.belowLimit_iff _ _ _).mpr ⟨partitionsAvailable, sectorsAvailable⟩,
      fun _ member => absurd member List.not_mem_nil⟩

/-- However the loop ended, unsetting the deadlines with empty indexes gives `Popped`. -/
theorem popped_of_loop {visited rest : List Nat} (wellformed : state.EarlyWellformed)
    (split : bitsAscending state.earlyTerminations = visited ++ rest)
    (ended : rest = [] ∧ LoopGoing state maxPartitions maxSectors visited loop ∨
      LoopStopped state maxPartitions maxSectors visited loop) :
    Popped state maxPartitions maxSectors loop.result
      (decide (state.earlyTerminations \ loop.toUnset.toFinset ≠ ∅))
      { state with
        deadlines := loop.deadlines
        earlyTerminations := state.earlyTerminations \ loop.toUnset.toFinset } := by
  have current : PopLoop state maxPartitions maxSectors visited loop := by
    rcases ended with ⟨-, current, -⟩ | ⟨-, current, -⟩ <;> exact current
  have seenIndexed : ∀ deadlineIdx ∈ visited, deadlineIdx ∈ state.earlyTerminations :=
    fun deadlineIdx member => mem_bitsAscending.mp (split ▸ List.mem_append_left _ member)
  have unsetSeen : ∀ deadlineIdx ∈ loop.toUnset, deadlineIdx ∈ visited :=
    fun deadlineIdx member => ((current.unset deadlineIdx).mp member).1
  have unsetIndexed : loop.toUnset.toFinset ⊆ state.earlyTerminations := fun deadlineIdx member =>
    seenIndexed deadlineIdx (unsetSeen deadlineIdx (List.mem_toFinset.mp member))
  have visitedNonempty : state.earlyTerminations ≠ ∅ → visited ≠ [] := by
    intro nonempty
    rcases ended with ⟨rfl, -⟩ | ⟨seenNonempty, -⟩
    · obtain ⟨deadlineIdx, member⟩ := Finset.nonempty_iff_ne_empty.mpr nonempty
      rw [List.append_nil] at split
      exact List.ne_nil_of_mem (split ▸ mem_bitsAscending.mpr member)
    · exact seenNonempty
  have loopCount := current.count
  have loopMeasure := current.measureLe
  refine {
    partitionsWithin := current.partitionsWithin
    sectorsWithin := current.sectorsWithin
    more_iff := by simp
    indexShrinks := Finset.sdiff_subset
    count := by
      show state.queuedCount = (loop.deadlines.due.map Deadline.queuedCount).sum +
        loop.result.sectorsProcessed
      omega
    progress := ?_
    kept := current.kept
    taken := current.taken
    wellformed := ?_ }
  · -- a deadline unset leaves the index, and a deadline popped lowers its own measure
    intro nonempty
    have shrinks : (state.earlyTerminations \ loop.toUnset.toFinset).card ≤
        state.earlyTerminations.card :=
      Finset.card_le_card Finset.sdiff_subset
    show (loop.deadlines.due.map Deadline.earlyMeasure).sum +
        (state.earlyTerminations \ loop.toUnset.toFinset).card <
      (state.deadlines.due.map Deadline.earlyMeasure).sum + state.earlyTerminations.card
    rcases current.progress (visitedNonempty nonempty) with unsetNonempty | lower
    · obtain ⟨deadlineIdx, member⟩ := List.exists_mem_of_ne_nil _ unsetNonempty
      have fewer : (state.earlyTerminations \ loop.toUnset.toFinset).card <
          state.earlyTerminations.card :=
        Finset.card_lt_card (Finset.sdiff_ssubset unsetIndexed ⟨deadlineIdx, List.mem_toFinset.mpr member⟩)
      omega
    · omega
  · constructor
    · intro deadlineIdx member
      exact wellformed.indicesInRange deadlineIdx (Finset.mem_sdiff.mp member).1
    · exact current.ready
    · intro deadlineIdx deadline present nonempty
      rw [Finset.mem_sdiff, List.mem_toFinset]
      by_cases seen : deadlineIdx ∈ visited
      · exact ⟨seenIndexed deadlineIdx seen, fun unset =>
          nonempty (((current.unset deadlineIdx).mp unset).2 deadline present)⟩
      · have untouched : state.deadlines.due[deadlineIdx]? = some deadline := by
          rw [← current.unvisited deadlineIdx seen]
          exact present
        exact ⟨wellformed.indexed deadlineIdx deadline untouched nonempty,
          fun unset => seen (unsetSeen _ unset)⟩

/-- `State::pop_early_terminations` on a ready state, with both limits positive, succeeds and
gives `Popped`; with nothing indexed it returns at once. -/
theorem popEarlyTerminations_spec (wellformed : state.EarlyWellformed)
    (partitionsAvailable : 0 < maxPartitions) (sectorsAvailable : 0 < maxSectors) :
    ∃ result more after, state.popEarlyTerminations maxPartitions maxSectors = .ok ((result, more), after) ∧
      Popped state maxPartitions maxSectors result more after := by
  by_cases empty : state.earlyTerminations = ∅
  · refine ⟨TerminationResult.new, false, state, by simp [popEarlyTerminations, empty], ?_⟩
    exact {
      partitionsWithin := Nat.zero_le _
      sectorsWithin := Nat.zero_le _
      more_iff := by simp [empty]
      indexShrinks := le_refl _
      count := rfl
      progress := fun nonempty => absurd empty nonempty
      kept := fun _ _ _ queued => queued
      taken := fun epoch sector => by simp [TerminationResult.not_has_new]
      wellformed := wellformed }
  · obtain ⟨visited, rest, loop, split, run, ended⟩ :=
      forWhile_popEarlyVisit wellformed partitionsAvailable sectorsAvailable
    exact ⟨_, _, _, by simp only [popEarlyTerminations, if_neg empty, run],
      popped_of_loop wellformed split ended⟩

end Loop

/-- A ready state with nothing indexed queues nothing: the indexes hold every deadline and
every partition with something queued. -/
theorem EarlyWellformed.nothing_queued {state : State} (wellformed : state.EarlyWellformed)
    (empty : state.earlyTerminations = ∅) (location : Nat × Nat) (epoch : Int) (sector : Nat) :
    ¬ state.Queued location epoch sector := by
  obtain ⟨deadlineIdx, partitionIdx⟩ := location
  rintro ⟨deadline, present, partition, partitionPresent, entry, entryIn, -, -⟩
  -- the partition's queue has an entry, so its deadline indexes it, so the state indexes the deadline
  have partitionIndexed :=
    (wellformed.deadlinesReady deadline (List.mem_of_getElem? present)).1.indexed partitionIdx
      ⟨partition, partitionPresent, List.ne_nil_of_mem entryIn⟩
  have deadlineIndexed :=
    wellformed.indexed deadlineIdx deadline present (Finset.ne_empty_of_mem partitionIndexed)
  rw [empty] at deadlineIndexed
  exact Finset.notMem_empty _ deadlineIndexed

/-- A queued pair is counted: its entry counts it, its partition the entry, its deadline the
partition, and the state the deadline. -/
theorem queuedCount_pos_of_queued {state : State} {location : Nat × Nat} {epoch : Int}
    {sector : Nat} (queued : state.Queued location epoch sector) : 0 < state.queuedCount := by
  obtain ⟨deadlineIdx, partitionIdx⟩ := location
  obtain ⟨deadline, present, partition, partitionPresent, entry, entryIn, -, inEntry⟩ := queued
  have entryCounted : entry.2.card ≤ partition.queuedCount :=
    List.le_sum_of_mem (List.mem_map_of_mem entryIn)
  have partitionCounted : partition.queuedCount ≤ deadline.queuedCount :=
    List.le_sum_of_mem (List.mem_map_of_mem ((SortedMap.mem_entries_iff _).mpr partitionPresent))
  have deadlineCounted : deadline.queuedCount ≤ state.queuedCount :=
    List.le_sum_of_mem (List.mem_map_of_mem (List.mem_of_getElem? present))
  have positive : 0 < entry.2.card := Finset.card_pos.mpr ⟨sector, inEntry⟩
  omega

/-! ## Repeated pops -/

section Drain

variable {maxPartitions maxSectors : Nat}

/-- What a pop that returned gives, read off `popEarlyTerminations_spec`. -/
theorem popped_of_ok {state after : State} {result : TerminationResult} {more : Bool}
    (wellformed : state.EarlyWellformed) (partitionsAvailable : 0 < maxPartitions)
    (sectorsAvailable : 0 < maxSectors)
    (ran : state.popEarlyTerminations maxPartitions maxSectors = .ok ((result, more), after)) :
    Popped state maxPartitions maxSectors result more after := by
  obtain ⟨result', more', after', ran', popped⟩ :=
    popEarlyTerminations_spec wellformed partitionsAvailable sectorsAvailable
  rw [ran] at ran'
  simp only [Except.ok.injEq, Prod.mk.injEq] at ran'
  obtain ⟨⟨rfl, rfl⟩, rfl⟩ := ran'
  exact popped

/-- A pop with both limits positive is a step of a bounded drain: it succeeds from a ready
state, keeps it ready, and when it reports more, what is left to pop has dropped and is not
zero. -/
theorem popEarlyTerminations_progress (partitionsAvailable : 0 < maxPartitions)
    (sectorsAvailable : 0 < maxSectors) :
    Drain.Progress (fun state : State => state.popEarlyTerminations maxPartitions maxSectors)
      EarlyWellformed earlyMeasure where
  succeeds := fun state wellformed => by
    obtain ⟨result, more, after, ran, -⟩ :=
      popEarlyTerminations_spec wellformed partitionsAvailable sectorsAvailable
    exact ⟨_, ran⟩
  valid := fun state result more after wellformed ran =>
    (popped_of_ok wellformed partitionsAvailable sectorsAvailable ran).wellformed
  decreases := fun state result after wellformed ran => by
    have popped := popped_of_ok wellformed partitionsAvailable sectorsAvailable ran
    have stillIndexed : after.earlyTerminations ≠ ∅ := popped.more_iff.mp rfl
    have wasIndexed : state.earlyTerminations ≠ ∅ := fun empty =>
      stillIndexed (Finset.subset_empty.mp (empty ▸ popped.indexShrinks))
    have indexedAfter : 0 < after.earlyTerminations.card :=
      Finset.card_pos.mpr (Finset.nonempty_iff_ne_empty.mpr stillIndexed)
    exact ⟨popped.progress wasIndexed, by unfold earlyMeasure; omega⟩

/-- A pop with both limits positive is an exact step of a drain of the queued pairs, located
by deadline and partition and keyed by epoch and sector. -/
theorem popEarlyTerminations_exact (partitionsAvailable : 0 < maxPartitions)
    (sectorsAvailable : 0 < maxSectors) :
    Drain.Exact (fun state : State => state.popEarlyTerminations maxPartitions maxSectors)
      EarlyWellformed (fun state (item : (Nat × Nat) × Int × Nat) => state.Queued item.1 item.2.1 item.2.2)
      (fun result (key : Int × Nat) => result.Has key.1 key.2) Prod.snd := by
  intro state result more after wellformed ran
  have popped := popped_of_ok wellformed partitionsAvailable sectorsAvailable ran
  refine ⟨popped.wellformed, fun item queued => popped.kept item.1 item.2.1 item.2.2 queued, ?_⟩
  rintro ⟨epoch, sector⟩
  dsimp only
  rw [popped.taken]
  constructor
  · rintro ⟨location, had, gone⟩
    exact ⟨(location, epoch, sector), rfl, had, gone⟩
  · rintro ⟨⟨location, epoch', sector'⟩, sameKey, had, gone⟩
    simp only [Prod.mk.injEq] at sameKey
    obtain ⟨rfl, rfl⟩ := sameKey
    exact ⟨location, had, gone⟩

end Drain

end State

/-! ## A state with a stale deadline index -/

/-- A deadline with nothing in it. -/
def emptyDeadline : Deadline :=
  ⟨SortedMap.empty, SortedMap.empty, ∅, 0, 0, 0⟩

/-- A partition whose one sector waits in its early terminations at index 5. -/
def oneQueuedPartition : Partition :=
  ⟨{7}, ∅, ∅, ∅, {7}, ⟨[(5, {7})], by decide⟩, 0, 0, 0, 0⟩

/-- A deadline whose partition 0, the one above, is indexed. -/
def oneQueuedDeadline : Deadline :=
  ⟨⟨[(0, oneQueuedPartition)], by decide⟩, SortedMap.empty, {0}, 0, 0, 0⟩

/-- Deadline 0 is the one above; the state also indexes deadline 1, which has nothing to pop. -/
def staleIndexState : State :=
  ⟨{0, 1}, ⟨oneQueuedDeadline :: List.replicate 47 emptyDeadline, by decide⟩, 0, 0⟩

theorem emptyDeadline_ready : emptyDeadline.EarlyWellformed ∧ emptyDeadline.validateState = .ok () :=
  ⟨{ indicesInRange := by simp [emptyDeadline]
     partitionsValid := by simp [emptyDeadline, SortedMap.empty]
     queuesInRange := by simp [emptyDeadline, SortedMap.empty]
     indexed := by simp [emptyDeadline, QueueNonempty] }, rfl⟩

theorem oneQueuedDeadline_ready :
    oneQueuedDeadline.EarlyWellformed ∧ oneQueuedDeadline.validateState = .ok () :=
  ⟨{ indicesInRange := by simp [oneQueuedDeadline, AMT.maxIndex]
     partitionsValid := by
       intro entry member
       simp only [oneQueuedDeadline, List.mem_singleton] at member
       subst member
       rfl
     queuesInRange := by simp [oneQueuedDeadline, oneQueuedPartition, AMT.maxIndex]
     indexed := by
       rintro partitionIdx ⟨partition, present, -⟩
       have isZero : partitionIdx = 0 := by
         by_contra notZero
         simp [oneQueuedDeadline, SortedMap.get?, SortedMap.find?, Ne.symm notZero] at present
       simp [oneQueuedDeadline, isZero] }, rfl⟩

theorem staleIndexState_wellformed : staleIndexState.EarlyWellformed where
  indicesInRange := by decide
  deadlinesReady := by
    intro deadline member
    simp only [staleIndexState, List.mem_cons, List.mem_replicate] at member
    rcases member with rfl | ⟨-, rfl⟩
    · exact oneQueuedDeadline_ready
    · exact emptyDeadline_ready
  indexed := by
    intro deadlineIdx deadline present nonempty
    cases deadlineIdx with
    | zero => decide
    | succ later =>
      simp only [staleIndexState, List.getElem?_cons_succ, List.getElem?_replicate] at present
      split at present
      · simp only [Option.some.injEq] at present
        subst present
        exact absurd rfl nonempty
      · cases present

/-- Only partition 0 of deadline 0 queues anything. -/
theorem staleIndexState_queued_location {location : Nat × Nat} {epoch : Int} {sector : Nat}
    (queued : staleIndexState.Queued location epoch sector) : location = (0, 0) := by
  obtain ⟨deadlineIdx, partitionIdx⟩ := location
  obtain ⟨deadline, present, partition, partitionPresent, -⟩ := queued
  cases deadlineIdx with
  | zero =>
    simp only [staleIndexState, List.getElem?_cons_zero, Option.some.injEq] at present
    subst present
    by_contra notZero
    have otherPartition : partitionIdx ≠ 0 := fun isZero => notZero (by rw [isZero])
    simp [oneQueuedDeadline, SortedMap.get?, SortedMap.find?, Ne.symm otherPartition] at partitionPresent
  | succ later =>
    simp only [staleIndexState, List.getElem?_cons_succ, List.getElem?_replicate] at present
    split at present
    · simp only [Option.some.injEq] at present
      subst present
      simp [emptyDeadline, SortedMap.get?, SortedMap.empty, SortedMap.find?] at partitionPresent
    · cases present

/-! ## Popping until nothing is left -/

namespace State

/-- Popping early terminations is a bounded exact drain.  From a ready state (indexes in range
that hold every deadline and every partition with something queued, deadlines and partitions
that pass their state checks) where each queued pair sits in one partition, with both limits
positive: a pop succeeds, so none of its limit arithmetic underflows; it stays within both
limits, removes exactly the pairs it returns and counts them, and reports no more only when
nothing is queued; and popping until it reports no more finishes within
`max 1 state.earlyMeasure` calls and returns every pair queued at the start exactly once. -/
theorem popEarlyTerminations_bounded_exact_drain (state : State) (maxPartitions maxSectors : Nat)
    (wellformed : state.EarlyWellformed)
    (separated : ∀ location location' epoch sector, state.Queued location epoch sector →
      state.Queued location' epoch sector → location = location')
    (partitionsAvailable : 0 < maxPartitions) (sectorsAvailable : 0 < maxSectors) :
    (∃ out, state.popEarlyTerminations maxPartitions maxSectors = .ok out) ∧
    (∀ result more after,
      state.popEarlyTerminations maxPartitions maxSectors = .ok ((result, more), after) →
      result.partitionsProcessed ≤ maxPartitions ∧ result.sectorsProcessed ≤ maxSectors ∧
      (∀ location epoch sector, after.Queued location epoch sector →
        state.Queued location epoch sector) ∧
      (∀ epoch sector, result.Has epoch sector ↔
        ∃ location, state.Queued location epoch sector ∧ ¬ after.Queued location epoch sector) ∧
      state.queuedCount = after.queuedCount + result.sectorsProcessed ∧
      (more = false → ∀ location epoch sector, ¬ after.Queued location epoch sector)) ∧
    ∃ results final,
      Drain.drain (fun state : State => state.popEarlyTerminations maxPartitions maxSectors)
        (max 1 state.earlyMeasure) state = .ok (results, false, final) ∧
      (∀ epoch sector, (∃ result ∈ results, result.Has epoch sector) ↔
        ∃ location, state.Queued location epoch sector) ∧
      results.Pairwise fun earlier later =>
        ∀ epoch sector, earlier.Has epoch sector → ¬ later.Has epoch sector := by
  have progress := popEarlyTerminations_progress partitionsAvailable sectorsAvailable
  have exact := popEarlyTerminations_exact partitionsAvailable sectorsAvailable
  -- a pop that reports no more leaves an empty index, and so nothing queued
  have doneEmpty : ∀ (state : State) result after, state.EarlyWellformed →
      state.popEarlyTerminations maxPartitions maxSectors = .ok ((result, false), after) →
      ∀ location epoch sector, ¬ after.Queued location epoch sector := by
    intro state result after wellformed ran
    have popped := popped_of_ok wellformed partitionsAvailable sectorsAvailable ran
    have empty : after.earlyTerminations = ∅ := by
      simpa using popped.more_iff
    exact popped.wellformed.nothing_queued empty
  refine ⟨progress.succeeds state wellformed, ?_, ?_⟩
  · intro result more after ran
    have popped := popped_of_ok wellformed partitionsAvailable sectorsAvailable ran
    refine ⟨popped.partitionsWithin, popped.sectorsWithin, popped.kept, popped.taken, popped.count, ?_⟩
    rintro rfl
    exact doneEmpty state result after wellformed ran
  · obtain ⟨results, final, drained, -⟩ :=
      Drain.drain_finishes progress _ state wellformed (le_refl _)
    have nothingLeft : ∀ location epoch sector, ¬ final.Queued location epoch sector :=
      Drain.drain_done progress.valid doneEmpty _ state results final wellformed drained
    have separatedItems : Drain.Separated
        (fun state (item : (Nat × Nat) × Int × Nat) => state.Queued item.1 item.2.1 item.2.2)
        Prod.snd state := by
      rintro ⟨location, epoch, sector⟩ ⟨location', epoch', sector'⟩ queued queued' sameKey
      simp only [Prod.mk.injEq] at sameKey
      obtain ⟨rfl, rfl⟩ := sameKey
      rw [separated location location' epoch sector queued queued']
    obtain ⟨-, reports, distinct⟩ :=
      Drain.drain_exact exact _ state results false final wellformed separatedItems drained
    refine ⟨results, final, drained, fun epoch sector => ?_,
      distinct.imp fun apart epoch sector => apart (epoch, sector)⟩
    rw [reports (epoch, sector)]
    constructor
    · rintro ⟨⟨location, epoch', sector'⟩, sameKey, queued, -⟩
      simp only [Prod.mk.injEq] at sameKey
      obtain ⟨rfl, rfl⟩ := sameKey
      exact ⟨location, queued⟩
    · rintro ⟨location, queued⟩
      exact ⟨(location, epoch, sector), rfl, queued, nothingLeft location epoch sector⟩

theorem popEarlyTerminations_bounded_exact_drain_staleIndex :
    staleIndexState.EarlyWellformed ∧
    (∀ location location' epoch sector, staleIndexState.Queued location epoch sector →
      staleIndexState.Queued location' epoch sector → location = location') ∧
    (0 : Nat) < 1 ∧
    ((∃ out, staleIndexState.popEarlyTerminations 1 1 = .ok out) ∧
    (∀ result more after,
      staleIndexState.popEarlyTerminations 1 1 = .ok ((result, more), after) →
      result.partitionsProcessed ≤ 1 ∧ result.sectorsProcessed ≤ 1 ∧
      (∀ location epoch sector, after.Queued location epoch sector →
        staleIndexState.Queued location epoch sector) ∧
      (∀ epoch sector, result.Has epoch sector ↔
        ∃ location, staleIndexState.Queued location epoch sector ∧
          ¬ after.Queued location epoch sector) ∧
      staleIndexState.queuedCount = after.queuedCount + result.sectorsProcessed ∧
      (more = false → ∀ location epoch sector, ¬ after.Queued location epoch sector)) ∧
    ∃ results final,
      Drain.drain (fun state : State => state.popEarlyTerminations 1 1)
        (max 1 staleIndexState.earlyMeasure) staleIndexState = .ok (results, false, final) ∧
      (∀ epoch sector, (∃ result ∈ results, result.Has epoch sector) ↔
        ∃ location, staleIndexState.Queued location epoch sector) ∧
      results.Pairwise fun earlier later =>
        ∀ epoch sector, earlier.Has epoch sector → ¬ later.Has epoch sector) :=
  have separated : ∀ location location' epoch sector, staleIndexState.Queued location epoch sector →
      staleIndexState.Queued location' epoch sector → location = location' :=
    fun _ _ _ _ queued queued' =>
      (staleIndexState_queued_location queued).trans (staleIndexState_queued_location queued').symm
  ⟨staleIndexState_wellformed, separated, Nat.one_pos,
    popEarlyTerminations_bounded_exact_drain staleIndexState 1 1 staleIndexState_wellformed separated
      Nat.one_pos Nat.one_pos⟩

/-- A stale bit in the state's index: the ready state above indexes deadline 1, which has
nothing to pop.  Popping one sector empties every queue but stops at the limits before
deadline 1, which stays indexed, so the pop reports more although nothing is queued. -/
theorem popEarlyTerminations_more_with_nothing_queued :
    staleIndexState.EarlyWellformed ∧
      ∃ result after, staleIndexState.popEarlyTerminations 1 1 = .ok ((result, true), after) ∧
        ∀ location epoch sector, ¬ after.Queued location epoch sector := by
  obtain ⟨result, more, after, ran, popped⟩ :=
    popEarlyTerminations_spec staleIndexState_wellformed Nat.one_pos Nat.one_pos
  -- the pop run on the state reports more, having taken the one sector queued
  have ranOut : (match staleIndexState.popEarlyTerminations 1 1 with
      | .ok ((result, more), _) => more && decide (result.sectorsProcessed = 1)
      | .error _ => false) = true := by
    decide
  rw [ran] at ranOut
  obtain ⟨moreTrue, processed⟩ : more = true ∧ result.sectorsProcessed = 1 := by
    simpa using ranOut
  subst moreTrue
  have counted := popped.count
  have queuedBefore : staleIndexState.queuedCount = 1 := by decide
  refine ⟨staleIndexState_wellformed, result, after, ran, fun location epoch sector queued => ?_⟩
  have positive := queuedCount_pos_of_queued queued
  omega

end State

end Forest.Miner

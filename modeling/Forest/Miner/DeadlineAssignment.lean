import Forest.Miner.EarlyTerminations
import Forest.Lib.Heap
import Forest.Lib.Usize

/-!
# Assigning new sectors to deadlines

`assign_deadlines` of `miner/deadline_assignment.rs` hands each new sector to one of the
deadlines that are open for it.  The open deadlines go into a `BinaryHeap` whose `Entry` order is
`cmp` reversed, so the heap's top is the least deadline under `cmp`: the fewest partitions after
compaction, then before it, then an open partition, the fullest open one, the fewest live
sectors, the lowest index.  Each sector goes to the top, whose counters are then bumped through
`peek_mut`; the loop returns an error as soon as the top has reached the partition limit.

`cmp` is a lexicographic order on six keys (`cmp_eq_rankCmp`), so the heap has a top and, with
the indices distinct, exactly one (`Heap` of `Forest.Lib.Heap`).  The heap then always holds
the counters of the open deadlines after the choices made so far (`counters`), and each choice
is the least of them (`Greedy`).  The limit check looks at the top only: an error says that the
least deadline is full, not that every deadline is.

The counters are sector counts, kept as `Nat`: a deadline would need `2 ^ 64` sectors before a
`u64` addition wrapped.  The limit `partition_size * max_partitions` is a `u64` product and
wraps.  `div_rounding_up` panics on a zero partition size: collecting two deadlines or more into
the heap compares them and panics, while a single deadline is never compared.
-/

namespace Forest.Miner

namespace DeadlineAssignment

/-- `div_rounding_up`. -/
def divRoundingUp (dividend divisor : Nat) : Nat :=
  dividend / divisor + if dividend % divisor > 0 then 1 else 0

/-- `DeadlineAssignmentInfo`: a deadline's index and its sector counters. -/
structure DeadlineAssignmentInfo where
  index : Nat
  liveSectors : Nat
  totalSectors : Nat
  deriving DecidableEq, Repr

namespace DeadlineAssignmentInfo

variable (info : DeadlineAssignmentInfo) (partitionSize : Nat)

/-- `partitions_after_assignment`. -/
def partitionsAfterAssignment : Nat :=
  divRoundingUp (info.totalSectors + 1) partitionSize

/-- `compact_partitions_after_assignment`. -/
def compactPartitionsAfterAssignment : Nat :=
  divRoundingUp (info.liveSectors + 1) partitionSize

/-- `is_full_now`. -/
def isFullNow : Bool :=
  info.totalSectors % partitionSize == 0

/-- `max_partitions_reached`. -/
def maxPartitionsReached (maxPartitions : Nat) : Bool :=
  decide (info.totalSectors ≥ Usize.wrappingMul partitionSize maxPartitions)

/-- The write through the heap's `PeekMut`: one more live sector and one more in total. -/
def addSector : DeadlineAssignmentInfo :=
  { info with liveSectors := info.liveSectors + 1, totalSectors := info.totalSectors + 1 }

end DeadlineAssignmentInfo

open DeadlineAssignmentInfo

/-- `cmp`: the order in which deadlines are preferred, least first.  `then_with` is
`Ordering.then`, and `reverse` is `Ordering.swap`. -/
def cmp (a b : DeadlineAssignmentInfo) (partitionSize : Nat) : Ordering :=
  (compare (a.compactPartitionsAfterAssignment partitionSize)
      (b.compactPartitionsAfterAssignment partitionSize))
    |>.then (compare (a.partitionsAfterAssignment partitionSize)
      (b.partitionsAfterAssignment partitionSize))
    |>.then (compare (a.isFullNow partitionSize) (b.isFullNow partitionSize))
    |>.then (if !a.isFullNow partitionSize && !b.isFullNow partitionSize then
        (compare a.totalSectors b.totalSectors).swap
      else .eq)
    |>.then (compare a.liveSectors b.liveSectors)
    |>.then (compare a.index b.index)

/-- The order of the heap's `Entry`: `cmp` reversed, so that the top of the max-heap is the least
deadline.  Every entry carries the same partition size, which is the argument here. -/
def entryCmp (partitionSize : Nat) (self other : DeadlineAssignmentInfo) : Ordering :=
  (cmp self other partitionSize).swap

/-- The deadlines that are present, with their index, in the order the heap collects them. -/
def initialInfos (deadlines : List (Option Deadline)) : List DeadlineAssignmentInfo :=
  deadlines.zipIdx.filterMap fun (deadline, index) =>
    deadline.map fun dl =>
      { index := index, liveSectors := dl.liveSectors, totalSectors := dl.totalSectors }

/-- `changes[index].push(item)`: an index out of range panics. -/
def pushAt {α : Type} (changes : List (List α)) (index : Nat) (item : α) :
    Option (List (List α)) :=
  if index < changes.length then some (changes.modify index (· ++ [item])) else none

/-- The `for sector in sectors` loop over the heap's contents and the sectors given to each
deadline so far.  `none` is a panic. -/
def assignLoop (maxPartitions partitionSize : Nat) :
    List DeadlineAssignmentInfo → List (List SectorOnChainInfo) → List SectorOnChainInfo →
      Option (Except String (List (List SectorOnChainInfo)))
  | _, changes, [] => some (.ok changes)
  | heap, changes, sector :: rest =>
    -- `heap.peek_mut().unwrap()`
    match Heap.peek (entryCmp partitionSize) heap with
    | none => none
    | some info =>
      if info.maxPartitionsReached partitionSize maxPartitions then
        some (.error s!"max partitions limit {maxPartitions} reached for all deadlines")
      else
        match pushAt changes info.index sector with
        | none => none
        | some changes =>
          assignLoop maxPartitions partitionSize
            (Heap.modifyTop (entryCmp partitionSize) addSector heap) changes rest

/-- `assign_deadlines`. -/
def assignDeadlines (maxPartitions partitionSize : Nat) (deadlines : List (Option Deadline))
    (sectors : List SectorOnChainInfo) : Option (Except String (List (List SectorOnChainInfo))) :=
  let heap := initialInfos deadlines
  -- collecting two entries or more into the heap compares them, and `cmp` divides by the
  -- partition size
  if partitionSize = 0 ∧ 2 ≤ heap.length then none
  -- `assert!(!heap.is_empty())`
  else if heap.isEmpty then none
  else assignLoop maxPartitions partitionSize heap (List.replicate wPoStPeriodDeadlines []) sectors

/-! ## The order -/

/-- Comparing negated counts is comparing the counts the other way. -/
theorem compare_neg_natCast (x y : Nat) :
    compare (-(x : Int)) (-(y : Int)) = (compare x y).swap := by
  rcases lt_trichotomy x y with below | rfl | above
  · rw [compare_lt_iff_lt.mpr below, compare_gt_iff_gt.mpr (by omega)]
    rfl
  · simp
  · rw [compare_gt_iff_gt.mpr above, compare_lt_iff_lt.mpr (by omega)]
    rfl

/-- `cmp` as a lexicographic order on six keys; the fourth ranks an open partition by how full
it is and leaves two deadlines with no open partition level. -/
def rankCmp (partitionSize : Nat) : DeadlineAssignmentInfo → DeadlineAssignmentInfo → Ordering :=
  compareLex (compareOn (·.compactPartitionsAfterAssignment partitionSize)) <|
    compareLex (compareOn (·.partitionsAfterAssignment partitionSize)) <|
    compareLex (compareOn (·.isFullNow partitionSize)) <|
    compareLex (compareOn fun info =>
      if info.isFullNow partitionSize then (0 : Int) else -(info.totalSectors : Int)) <|
    compareLex (compareOn (·.liveSectors)) (compareOn (·.index))

theorem cmp_eq_rankCmp (a b : DeadlineAssignmentInfo) (partitionSize : Nat) :
    cmp a b partitionSize = rankCmp partitionSize a b := by
  simp only [cmp, rankCmp, compareLex, compareOn, Ordering.then_assoc]
  -- the fourth keys agree when the third ones do, and are not reached when they differ
  cases a.isFullNow partitionSize <;> cases b.isFullNow partitionSize
  · simp [compare_neg_natCast]
  · rfl
  · rfl
  · simp

instance (partitionSize : Nat) : Std.TransCmp fun a b => cmp a b partitionSize := by
  have same : (fun a b => cmp a b partitionSize) = rankCmp partitionSize := by
    funext a b
    exact cmp_eq_rankCmp a b partitionSize
  rw [same]
  unfold rankCmp
  infer_instance

/-- The heap's order is `cmp` with its arguments exchanged. -/
theorem entryCmp_eq (partitionSize : Nat) (self other : DeadlineAssignmentInfo) :
    entryCmp partitionSize self other = cmp other self partitionSize := by
  have oriented : cmp self other partitionSize = (cmp other self partitionSize).swap :=
    @Std.OrientedCmp.eq_swap _ (fun a b => cmp a b partitionSize) _ self other
  rw [entryCmp, oriented, Ordering.swap_swap]

instance (partitionSize : Nat) : Std.TransCmp (entryCmp partitionSize) := by
  have same : entryCmp partitionSize = fun self other => cmp other self partitionSize := by
    funext self other
    exact entryCmp_eq partitionSize self other
  rw [same]
  exact Std.TransCmp.opposite

/-- Only a deadline compares equal to itself: the last key is the index. -/
theorem index_eq_of_cmp_eq {a b : DeadlineAssignmentInfo} {partitionSize : Nat}
    (same : cmp a b partitionSize = .eq) : a.index = b.index := by
  simp only [cmp, Ordering.then_eq_eq] at same
  exact compare_eq_iff_eq.mp same.2

/-! ## What the heap holds -/

/-- A deadline's counters after the sectors of `choices` have been given out. -/
def DeadlineAssignmentInfo.afterChoices (choices : List Nat) (info : DeadlineAssignmentInfo) :
    DeadlineAssignmentInfo :=
  { info with
    liveSectors := info.liveSectors + choices.count info.index
    totalSectors := info.totalSectors + choices.count info.index }

/-- The counters of every present deadline after the sectors of `choices` have been given out. -/
def counters (deadlines : List (Option Deadline)) (choices : List Nat) :
    List DeadlineAssignmentInfo :=
  (initialInfos deadlines).map (afterChoices choices)

@[simp]
theorem index_afterChoices (choices : List Nat) (info : DeadlineAssignmentInfo) :
    (info.afterChoices choices).index = info.index := rfl

theorem mem_initialInfos {deadlines : List (Option Deadline)} {info : DeadlineAssignmentInfo} :
    info ∈ initialInfos deadlines ↔ ∃ deadline, deadlines[info.index]? = some (some deadline) ∧
      info = ⟨info.index, deadline.liveSectors, deadline.totalSectors⟩ := by
  simp only [initialInfos, List.mem_filterMap, Option.map_eq_some_iff, Prod.exists,
    List.mem_zipIdx_iff_getElem?]
  constructor
  · rintro ⟨slot, index, found, deadline, rfl, rfl⟩
    exact ⟨deadline, found, rfl⟩
  · rintro ⟨deadline, found, shape⟩
    exact ⟨some deadline, info.index, found, deadline, rfl, shape.symm⟩

theorem index_lt_of_mem_initialInfos {deadlines : List (Option Deadline)}
    {info : DeadlineAssignmentInfo} (member : info ∈ initialInfos deadlines) :
    info.index < deadlines.length := by
  obtain ⟨deadline, found, -⟩ := mem_initialInfos.mp member
  exact (List.getElem?_eq_some_iff.mp found).1

/-- The heap's indices are distinct: each present deadline goes in once. -/
theorem nodup_index_initialInfos (deadlines : List (Option Deadline)) :
    ((initialInfos deadlines).map index).Nodup := by
  have distinct : deadlines.zipIdx.Pairwise fun first second => first.2 ≠ second.2 := by
    apply List.pairwise_map.mp
    rw [List.zipIdx_map_snd]
    exact List.nodup_range'
  rw [List.Nodup, List.pairwise_map, initialInfos, List.pairwise_filterMap]
  refine distinct.imp ?_
  rintro ⟨first, firstIndex⟩ ⟨second, secondIndex⟩ apart firstInfo firstIs secondInfo secondIs
  simp only [Option.map_eq_some_iff] at firstIs secondIs
  obtain ⟨-, -, rfl⟩ := firstIs
  obtain ⟨-, -, rfl⟩ := secondIs
  exact apart

theorem initialInfos_ne_nil {deadlines : List (Option Deadline)}
    (available : ∃ deadline ∈ deadlines, deadline.isSome) : initialInfos deadlines ≠ [] := by
  obtain ⟨slot, member, present⟩ := available
  obtain ⟨deadline, rfl⟩ := Option.isSome_iff_exists.mp present
  obtain ⟨index, found⟩ := List.mem_iff_getElem?.mp member
  have listed : ⟨index, deadline.liveSectors, deadline.totalSectors⟩ ∈ initialInfos deadlines :=
    mem_initialInfos.mpr ⟨deadline, found, rfl⟩
  exact List.ne_nil_of_mem listed

@[simp]
theorem afterChoices_nil : afterChoices [] = id := rfl

@[simp]
theorem counters_nil (deadlines : List (Option Deadline)) :
    counters deadlines [] = initialInfos deadlines := by
  simp [counters]

theorem map_index_counters (deadlines : List (Option Deadline)) (choices : List Nat) :
    (counters deadlines choices).map index = (initialInfos deadlines).map index := by
  simp [counters, Function.comp_def]

theorem mem_counters {deadlines : List (Option Deadline)} {choices : List Nat}
    {info : DeadlineAssignmentInfo} :
    info ∈ counters deadlines choices ↔
      ∃ start ∈ initialInfos deadlines, info = start.afterChoices choices := by
  simp [counters, eq_comm]

/-- One more choice bumps the counters of the deadline chosen. -/
theorem counters_append_singleton (deadlines : List (Option Deadline)) (choices : List Nat)
    (choice : Nat) :
    counters deadlines (choices ++ [choice]) = (counters deadlines choices).map fun info =>
      if info.index = choice then info.addSector else info := by
  rw [counters, counters, List.map_map]
  apply List.map_congr_left
  intro info _
  by_cases chosen : info.index = choice
  · subst chosen
    rw [Function.comp_apply, index_afterChoices, if_pos rfl]
    simp only [afterChoices, addSector, List.count_append, List.count_singleton_self,
      Nat.add_assoc]
  · rw [Function.comp_apply, index_afterChoices, if_neg chosen]
    have notCounted : [choice].count info.index = 0 :=
      List.count_eq_zero.mpr (by simpa [eq_comm] using chosen)
    simp only [afterChoices, List.count_append, notCounted, Nat.add_zero]

/-- `top` is the least deadline of `infos` under `cmp`: every other deadline compares greater. -/
def IsLeast (partitionSize : Nat) (infos : List DeadlineAssignmentInfo)
    (top : DeadlineAssignmentInfo) : Prop :=
  top ∈ infos ∧ ∀ other ∈ infos, other.index ≠ top.index → cmp top other partitionSize = .lt

/-- The heap's top is the least deadline. -/
theorem isLeast_of_peek {partitionSize : Nat} {infos : List DeadlineAssignmentInfo}
    {top : DeadlineAssignmentInfo} (peeked : Heap.peek (entryCmp partitionSize) infos = some top) :
    IsLeast partitionSize infos top := by
  obtain ⟨member, notAbove⟩ := Heap.peek_spec peeked
  refine ⟨member, fun other otherMember apart => ?_⟩
  have notGreater : cmp top other partitionSize ≠ .gt := by
    rw [← entryCmp_eq]
    exact notAbove other otherMember
  have notEqual : cmp top other partitionSize ≠ .eq :=
    fun same => apart (index_eq_of_cmp_eq same).symm
  cases compared : cmp top other partitionSize <;> simp_all

/-- The write through `peek_mut` gives the counters of one more choice, of the top. -/
theorem modifyTop_counters {partitionSize : Nat} {deadlines : List (Option Deadline)}
    {choices : List Nat} {top : DeadlineAssignmentInfo}
    (peeked : Heap.peek (entryCmp partitionSize) (counters deadlines choices) = some top) :
    Heap.modifyTop (entryCmp partitionSize) addSector (counters deadlines choices) =
      counters deadlines (choices ++ [top.index]) := by
  have distinct : ((counters deadlines choices).map index).Nodup := by
    rw [map_index_counters]
    exact nodup_index_initialInfos deadlines
  obtain ⟨position, at_, modified⟩ := Heap.modifyTop_of_peek addSector peeked
  rw [modified, Heap.modify_eq_map_of_key distinct at_, counters_append_singleton]

/-! ## The sectors given to each deadline -/

/-- The sectors an assignment gives to deadline `index`, in their order. -/
def assignedTo (assignment : List (SectorOnChainInfo × Nat)) (index : Nat) :
    List SectorOnChainInfo :=
  (assignment.filter fun pair => pair.2 == index).map Prod.fst

/-- The `changes` an assignment leaves: the sectors of each deadline of the proving period. -/
def changesOf (assignment : List (SectorOnChainInfo × Nat)) : List (List SectorOnChainInfo) :=
  (List.range wPoStPeriodDeadlines).map (assignedTo assignment)

theorem changesOf_nil : changesOf [] = List.replicate wPoStPeriodDeadlines [] := by
  have nothing : assignedTo [] = fun _ => [] := rfl
  rw [changesOf, nothing, List.map_const', List.length_range]

/-- Pushing a sector to a deadline of the period extends the assignment by it. -/
theorem pushAt_changesOf (assignment : List (SectorOnChainInfo × Nat)) {index : Nat}
    (inRange : index < wPoStPeriodDeadlines) (sector : SectorOnChainInfo) :
    pushAt (changesOf assignment) index sector =
      some (changesOf (assignment ++ [(sector, index)])) := by
  have long : index < (changesOf assignment).length := by simpa [changesOf] using inRange
  rw [pushAt, if_pos long, Option.some.injEq]
  apply List.ext_getElem?
  intro position
  rw [List.getElem?_modify]
  by_cases inPeriod : position < wPoStPeriodDeadlines
  · by_cases same : index = position
    · subst same
      simp [changesOf, assignedTo, List.getElem?_range inPeriod]
    · have other : ¬(index == position) = true := by simpa using same
      simp [changesOf, assignedTo, List.getElem?_range inPeriod, same, other]
  · have beyond : ∀ changes : List (List SectorOnChainInfo),
        changes.length = wPoStPeriodDeadlines → changes[position]? = none :=
      fun changes sized => List.getElem?_eq_none (by omega)
    rw [beyond _ (by simp [changesOf]), beyond _ (by simp [changesOf])]
    rfl

/-! ## The greedy rule -/

/-- The greedy rule of `assign_deadlines`: each choice is the least deadline under `cmp` of the
counters the earlier choices left, and that deadline had not reached the partition limit. -/
def Greedy (maxPartitions partitionSize : Nat) (deadlines : List (Option Deadline))
    (choices : List Nat) : Prop :=
  ∀ step (inRange : step < choices.length), ∃ top,
    IsLeast partitionSize (counters deadlines (choices.take step)) top ∧
      top.index = choices[step] ∧ top.maxPartitionsReached partitionSize maxPartitions = false

namespace Greedy

variable {maxPartitions partitionSize : Nat} {deadlines : List (Option Deadline)}

theorem nil : Greedy maxPartitions partitionSize deadlines [] :=
  fun _ inRange => absurd inRange (Nat.not_lt_zero _)

/-- A choice of the least deadline, with room, extends a greedy run. -/
theorem snoc {choices : List Nat} (greedy : Greedy maxPartitions partitionSize deadlines choices)
    {top : DeadlineAssignmentInfo} (least : IsLeast partitionSize (counters deadlines choices) top)
    (room : top.maxPartitionsReached partitionSize maxPartitions = false) :
    Greedy maxPartitions partitionSize deadlines (choices ++ [top.index]) := by
  intro step inRange
  rw [List.length_append, List.length_singleton] at inRange
  rcases Nat.lt_succ_iff_lt_or_eq.mp inRange with earlier | rfl
  · obtain ⟨earlierTop, earlierLeast, earlierIndex, earlierRoom⟩ := greedy step earlier
    refine ⟨earlierTop, ?_, ?_, earlierRoom⟩
    · rwa [List.take_append_of_le_length earlier.le]
    · rw [List.getElem_append_left earlier]
      exact earlierIndex
  · refine ⟨top, ?_, by simp, room⟩
    rwa [List.take_left' rfl]

/-- The choices of a greedy run before a step are a greedy run. -/
theorem of_append {choices more : List Nat}
    (greedy : Greedy maxPartitions partitionSize deadlines (choices ++ more)) :
    Greedy maxPartitions partitionSize deadlines choices := by
  intro step inRange
  obtain ⟨top, least, topIndex, room⟩ := greedy step (by simp; omega)
  refine ⟨top, ?_, ?_, room⟩
  · rwa [List.take_append_of_le_length inRange.le] at least
  · rw [topIndex, List.getElem_append_left inRange]

/-- Every choice of a greedy run is a deadline that is present. -/
theorem present {choices : List Nat}
    (greedy : Greedy maxPartitions partitionSize deadlines choices) :
    ∀ choice ∈ choices, ∃ deadline, deadlines[choice]? = some (some deadline) := by
  intro choice member
  obtain ⟨step, inRange, rfl⟩ := List.getElem_of_mem member
  obtain ⟨top, ⟨topMember, -⟩, topIndex, -⟩ := greedy step inRange
  obtain ⟨start, started, rfl⟩ := mem_counters.mp topMember
  obtain ⟨deadline, found, -⟩ := mem_initialInfos.mp started
  rw [← topIndex]
  exact ⟨deadline, found⟩

/-- A deadline that a greedy run gave a sector to ends within the partition limit: it had room
before its last sector. -/
theorem totalSectors_le {choices : List Nat}
    (greedy : Greedy maxPartitions partitionSize deadlines choices) :
    ∀ info ∈ counters deadlines choices, 0 < choices.count info.index →
      info.totalSectors ≤ Usize.wrappingMul partitionSize maxPartitions := by
  induction choices using List.reverseRecOn with
  | nil => simp
  | append_singleton choices choice inductionHypothesis =>
    intro info member counted
    obtain ⟨top, least, topIndex, room⟩ := greedy choices.length (by simp)
    rw [List.take_left' rfl] at least
    simp only [List.getElem_append_right (le_refl _), Nat.sub_self, List.getElem_singleton] at topIndex
    rw [counters_append_singleton, List.mem_map] at member
    obtain ⟨before, beforeMember, rfl⟩ := member
    by_cases chosen : before.index = choice
    · -- the deadline of the last choice is the top it was chosen as
      have isTop : before = top := by
        have distinct : ((counters deadlines choices).map index).Nodup := by
          rw [map_index_counters]
          exact nodup_index_initialInfos deadlines
        exact List.inj_on_of_nodup_map distinct beforeMember least.1 (chosen.trans topIndex.symm)
      subst isTop
      simp only [maxPartitionsReached, decide_eq_false_iff_not, not_le] at room
      simp only [chosen, if_true, addSector]
      omega
    · have notCounted : [choice].count before.index = 0 :=
        List.count_eq_zero.mpr (by simpa using chosen)
      simp only [chosen, if_false] at counted ⊢
      rw [List.count_append, notCounted, Nat.add_zero] at counted
      exact inductionHypothesis greedy.of_append before beforeMember counted

end Greedy

/-! ## The loop -/

section Loop

variable {maxPartitions partitionSize : Nat} {deadlines : List (Option Deadline)}

/-- The loop from any point of a greedy run: it either gives every remaining sector out by the
greedy rule, or stops at the first sector whose least deadline has reached the limit. -/
theorem assignLoop_run (present : initialInfos deadlines ≠ [])
    (withinPeriod : deadlines.length ≤ wPoStPeriodDeadlines) (rest : List SectorOnChainInfo) :
    ∀ (done : List SectorOnChainInfo) (choices : List Nat), done.length = choices.length →
      Greedy maxPartitions partitionSize deadlines choices →
      ∃ more : List Nat, Greedy maxPartitions partitionSize deadlines (choices ++ more) ∧
        ((more.length = rest.length ∧
          assignLoop maxPartitions partitionSize (counters deadlines choices)
              (changesOf (done.zip choices)) rest =
            some (.ok (changesOf ((done ++ rest).zip (choices ++ more))))) ∨
         (more.length < rest.length ∧
          (∃ top, IsLeast partitionSize (counters deadlines (choices ++ more)) top ∧
            top.maxPartitionsReached partitionSize maxPartitions = true) ∧
          assignLoop maxPartitions partitionSize (counters deadlines choices)
              (changesOf (done.zip choices)) rest =
            some (.error s!"max partitions limit {maxPartitions} reached for all deadlines"))) := by
  induction rest with
  | nil =>
    intro done choices _ greedy
    exact ⟨[], by simpa using greedy, Or.inl ⟨rfl, by simp [assignLoop]⟩⟩
  | cons sector rest inductionHypothesis =>
    intro done choices sameLength greedy
    have nonempty : counters deadlines choices ≠ [] := by simpa [counters] using present
    obtain ⟨top, peeked⟩ : ∃ top,
        Heap.peek (entryCmp partitionSize) (counters deadlines choices) = some top :=
      Heap.peek_isSome nonempty
    have least := isLeast_of_peek peeked
    cases reached : top.maxPartitionsReached partitionSize maxPartitions with
    | true =>
      -- the least deadline is full: the loop stops at this sector
      refine ⟨[], by simpa using greedy, Or.inr ⟨by simp, ⟨top, by simpa using least, reached⟩, ?_⟩⟩
      simp only [assignLoop, peeked, reached, if_true]
    | false =>
      have inPeriod : top.index < wPoStPeriodDeadlines := by
        obtain ⟨start, started, rfl⟩ := mem_counters.mp least.1
        have := index_lt_of_mem_initialInfos started
        simp only [index_afterChoices]
        omega
      have zipped : (done ++ [sector]).zip (choices ++ [top.index]) =
          done.zip choices ++ [(sector, top.index)] := by
        rw [List.zip_append sameLength]
        rfl
      have step : assignLoop maxPartitions partitionSize (counters deadlines choices)
            (changesOf (done.zip choices)) (sector :: rest) =
          assignLoop maxPartitions partitionSize (counters deadlines (choices ++ [top.index]))
            (changesOf ((done ++ [sector]).zip (choices ++ [top.index]))) rest := by
        rw [zipped, ← modifyTop_counters peeked]
        simp only [assignLoop, peeked, reached, Bool.false_eq_true, if_false,
          pushAt_changesOf _ inPeriod sector]
      obtain ⟨more, greedyMore, outcome⟩ := inductionHypothesis (done ++ [sector])
        (choices ++ [top.index]) (by simp [sameLength]) (greedy.snoc least reached)
      refine ⟨top.index :: more, by simpa using greedyMore, ?_⟩
      rw [step]
      rcases outcome with ⟨sameRest, finished⟩ | ⟨fewer, full, failed⟩
      · exact Or.inl ⟨by simp [sameRest], by simpa using finished⟩
      · exact Or.inr ⟨by simp [fewer], by simpa using full, failed⟩

end Loop

/-- `assign_deadlines` gives each sector in turn to the least deadline under `cmp` of the
counters so far, among the deadlines that are present, and a deadline it gives a sector to ends
within the partition limit.  It returns `Err` exactly when, at some sector, the least deadline
has reached the limit, whatever room the other deadlines have. -/
theorem assign_deadlines_least_first (maxPartitions partitionSize : Nat)
    (deadlines : List (Option Deadline)) (sectors : List SectorOnChainInfo)
    (available : ∃ deadline ∈ deadlines, deadline.isSome) (sized : 0 < partitionSize)
    (withinPeriod : deadlines.length ≤ wPoStPeriodDeadlines) :
    ∃ choices : List Nat, Greedy maxPartitions partitionSize deadlines choices ∧
      (∀ choice ∈ choices, ∃ deadline, deadlines[choice]? = some (some deadline)) ∧
      (∀ info ∈ counters deadlines choices, 0 < choices.count info.index →
        info.totalSectors ≤ partitionSize * maxPartitions) ∧
      ((choices.length = sectors.length ∧
        assignDeadlines maxPartitions partitionSize deadlines sectors =
          some (.ok (changesOf (sectors.zip choices)))) ∨
       (choices.length < sectors.length ∧
        (∃ top, IsLeast partitionSize (counters deadlines choices) top ∧
          top.maxPartitionsReached partitionSize maxPartitions = true) ∧
        assignDeadlines maxPartitions partitionSize deadlines sectors =
          some (.error s!"max partitions limit {maxPartitions} reached for all deadlines"))) := by
  have present := initialInfos_ne_nil available
  obtain ⟨choices, greedy, outcome⟩ := @assignLoop_run maxPartitions partitionSize deadlines
    present withinPeriod sectors [] [] rfl Greedy.nil
  have start : assignDeadlines maxPartitions partitionSize deadlines sectors =
      assignLoop maxPartitions partitionSize (counters deadlines []) (changesOf ([].zip []))
        sectors := by
    have notEmpty : (initialInfos deadlines).isEmpty = false :=
      List.isEmpty_eq_false_iff.mpr present
    have compared : ¬(partitionSize = 0 ∧ 2 ≤ (initialInfos deadlines).length) := by omega
    simp only [assignDeadlines, compared, notEmpty, counters_nil, List.zip_nil_left,
      changesOf_nil, if_false, Bool.false_eq_true]
  have withinLimit : ∀ info ∈ counters deadlines choices, 0 < choices.count info.index →
      info.totalSectors ≤ partitionSize * maxPartitions := fun info member counted =>
    (greedy.totalSectors_le info member counted).trans (Nat.mod_le _ _)
  refine ⟨choices, by simpa using greedy, by simpa using greedy.present, by simpa using withinLimit,
    ?_⟩
  rw [start]
  simpa using outcome

/-- A deadline whose four sectors have all been terminated and not yet compacted away. -/
def terminatedDeadline : Deadline where
  partitions := SortedMap.empty
  expirationsEpochs := SortedMap.empty
  earlyTerminations := ∅
  liveSectors := 0
  totalSectors := 4
  faultyPower := 0

/-- A deadline with three live sectors. -/
def openDeadline : Deadline where
  partitions := SortedMap.empty
  expirationsEpochs := SortedMap.empty
  earlyTerminations := ∅
  liveSectors := 3
  totalSectors := 3
  faultyPower := 0

/-- A new sector. -/
def newSector : SectorOnChainInfo := ⟨7, 0, 100, 0, 0, 0⟩

/-- With two sectors to a partition and two partitions to a deadline, the terminated deadline is
the least (one partition after compaction, against two) and full, so the first sector fails,
although the other deadline has room for one more. -/
theorem assign_deadlines_least_first_full_top :
    (∃ top, IsLeast 2 (counters [some terminatedDeadline, some openDeadline] []) top ∧
      top.maxPartitionsReached 2 2 = true) ∧
    (∃ info ∈ counters [some terminatedDeadline, some openDeadline] [],
      info.maxPartitionsReached 2 2 = false) ∧
    assignDeadlines 2 2 [some terminatedDeadline, some openDeadline] [newSector] =
      some (.error "max partitions limit 2 reached for all deadlines") := by
  have failed : assignDeadlines 2 2 [some terminatedDeadline, some openDeadline] [newSector] =
      some (.error "max partitions limit 2 reached for all deadlines") := by
    rfl
  obtain ⟨choices, -, -, -, outcome⟩ := assign_deadlines_least_first 2 2
    [some terminatedDeadline, some openDeadline] [newSector]
    ⟨some terminatedDeadline, List.mem_cons_self, rfl⟩ (by decide) (by decide)
  rcases outcome with ⟨-, finished⟩ | ⟨fewer, full, -⟩
  · rw [failed] at finished
    cases finished
  · have noChoice : choices = [] := by
      simp only [List.length_singleton, Nat.lt_one_iff, List.length_eq_zero_iff] at fewer
      exact fewer
    subst noChoice
    exact ⟨full, ⟨⟨1, 3, 3⟩, by decide, by decide⟩, failed⟩

end DeadlineAssignment

end Forest.Miner

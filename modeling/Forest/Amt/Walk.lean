import Forest.Amt.ArraySemantics
import Forest.Lib.Loop
import Forest.Lib.SortedMap

/-!
# Walking an AMT in index order

`Node::for_each_while` visits the values below a node slot by slot.  The child in slot `k`
of a node at height `h` starts at `offset + k * nodes_for_height(bit_width, h)`, and the walk
stops after the first value its closure refuses.

`Node.values` is the same walk in exact arithmetic over the dirty links of a node: the
`(index, value)` pairs in slot order.  On a dense node, the walk of the model hands over
`takeThrough` of that list while no index passes `usize::MAX`.  While every index lies
within `MAX_INDEX`, the list is strictly increasing in the index and holds exactly what
`Node::get` reads.  Every call of a run from `Amt::new_with_bit_width` keeps that bound.  So
`Amt::for_each_while` visits the entries of the sparse array the run builds, in increasing
index order.
-/

namespace Forest.AMT

open Loop

variable {V C : Type}

section Values

variable (bitWidth : Nat)

/-- The values of a leaf with their indices, from slot `i` on. -/
def leafValues (offset : Nat) : Nat → List (Option V) → List (Nat × V)
  | _, [] => []
  | i, none :: rest => leafValues offset (i + 1) rest
  | i, some v :: rest => (offset + i, v) :: leafValues offset (i + 1) rest

/-- What one slot of a link node adds to the walk: the values below a dirty link, which
start at `offset + k * span` for slot `k`. -/
def slotValues (below : Node V C → Nat → List (Nat × V)) (span offset : Nat) :
    Option (Link V C) × Nat → List (Nat × V)
  | (some (.dirty child), k) => below child (offset + k * span)
  | _ => []

/-- The values below a node whose links are dirty, with their indices from `offset`, in
slot order. -/
def Node.values : Nat → Node V C → Nat → List (Nat × V)
  | 0, .leaf vals, offset => leafValues offset 0 vals
  | height + 1, .link links, offset =>
    links.zipIdx.flatMap (slotValues (Node.values height) (nodesForHeight bitWidth (height + 1)) offset)
  | _, _, _ => []

end Values

section Shift

variable {bitWidth : Nat}

/-- Moving the start of the walk by `offset` moves every index by `offset`. -/
def shiftBy (offset : Nat) (entry : Nat × V) : Nat × V :=
  (offset + entry.1, entry.2)

theorem leafValues_shift (offset i : Nat) (vals : List (Option V)) :
    leafValues offset i vals = (leafValues 0 i vals).map (shiftBy offset) := by
  induction vals generalizing i with
  | nil => rfl
  | cons slot rest inductionHypothesis =>
    cases slot with
    | none => exact inductionHypothesis (i + 1)
    | some v =>
      rw [leafValues, leafValues, List.map_cons, inductionHypothesis (i + 1), shiftBy,
        Nat.zero_add]

theorem Node.values_shift (height : Nat) (node : Node V C) (offset : Nat) :
    Node.values bitWidth height node offset =
      (Node.values bitWidth height node 0).map (shiftBy offset) := by
  induction height generalizing node offset with
  | zero =>
    cases node with
    | leaf vals => exact leafValues_shift offset 0 vals
    | link links => rfl
  | succ height inductionHypothesis =>
    cases node with
    | leaf vals => rfl
    | link links =>
      rw [Node.values, Node.values, List.map_flatMap]
      congr 1
      funext entry
      -- each dirty child moves with the node
      match entry with
      | (some (.dirty child), k) =>
        simp only [slotValues]
        rw [inductionHypothesis child (offset + _), inductionHypothesis child (0 + _),
          List.map_map]
        congr 1
        funext p
        simp only [shiftBy, Function.comp, Nat.zero_add, Nat.add_assoc]
      | (some (.cid _ _), _) => rfl
      | (none, _) => rfl

theorem Node.values_eq_nil_iff {height : Nat} {node : Node V C} {offset : Nat} :
    Node.values bitWidth height node offset = [] ↔ Node.values bitWidth height node 0 = [] := by
  rw [Node.values_shift height node offset, List.map_eq_nil_iff]

theorem mem_leafValues {offset i : Nat} {vals : List (Option V)} {entry : Nat × V} :
    entry ∈ leafValues offset i vals ↔
      ∃ r, vals[r]? = some (some entry.2) ∧ entry.1 = offset + i + r := by
  induction vals generalizing i with
  | nil => simp [leafValues]
  | cons slot rest inductionHypothesis =>
    -- slot `0` of the list is slot `i` of the leaf; the others move up by one
    have later : (∃ r, rest[r]? = some (some entry.2) ∧ entry.1 = offset + (i + 1) + r) ↔
        ∃ r, 0 < r ∧ (slot :: rest)[r]? = some (some entry.2) ∧ entry.1 = offset + i + r := by
      constructor
      · rintro ⟨r, found, placed⟩
        exact ⟨r + 1, Nat.succ_pos r, found, by omega⟩
      · rintro ⟨r, positive, found, placed⟩
        obtain ⟨r, rfl⟩ : ∃ r', r = r' + 1 := ⟨r - 1, by omega⟩
        exact ⟨r, found, by omega⟩
    cases slot with
    | none =>
      rw [leafValues, inductionHypothesis, later]
      constructor
      · rintro ⟨r, -, found, placed⟩
        exact ⟨r, found, placed⟩
      · rintro ⟨r, found, placed⟩
        cases r with
        | zero => simp at found
        | succ r => exact ⟨r + 1, Nat.succ_pos r, found, placed⟩
    | some v =>
      rw [leafValues, List.mem_cons, inductionHypothesis, later]
      constructor
      · rintro (rfl | ⟨r, -, found, placed⟩)
        · exact ⟨0, rfl, by simp⟩
        · exact ⟨r, found, placed⟩
      · rintro ⟨r, found, placed⟩
        cases r with
        | zero =>
          left
          simp only [List.getElem?_cons_zero, Option.some.injEq] at found
          exact Prod.ext (by simpa using placed) found.symm
        | succ r => exact .inr ⟨r + 1, Nat.succ_pos r, found, placed⟩

theorem mem_values_link {height offset : Nat} {links : List (Option (Link V C))}
    {entry : Nat × V} :
    entry ∈ Node.values bitWidth (height + 1) (.link links) offset ↔
      ∃ k child, links[k]? = some (some (.dirty child)) ∧
        entry ∈ Node.values bitWidth height child
          (offset + k * nodesForHeight bitWidth (height + 1)) := by
  rw [Node.values, List.mem_flatMap]
  constructor
  · rintro ⟨⟨slot, k⟩, member, inSlot⟩
    have found := List.mem_zipIdx_iff_getElem?.mp member
    match slot, inSlot with
    | some (.dirty child), inSlot => exact ⟨k, child, found, inSlot⟩
  · rintro ⟨k, child, found, inChild⟩
    exact ⟨(some (.dirty child), k), List.mem_zipIdx_iff_getElem?.mpr found, inChild⟩

/-- Below a node at offset `offset`, every index is at least `offset`. -/
theorem le_of_mem_values {height offset : Nat} {node : Node V C} {entry : Nat × V}
    (member : entry ∈ Node.values bitWidth height node offset) : offset ≤ entry.1 := by
  rw [Node.values_shift, List.mem_map] at member
  obtain ⟨original, -, rfl⟩ := member
  exact Nat.le_add_right _ _

end Shift

section Walk

variable {store : Store V C} {bitWidth : Nat}

/-- The walk through a leaf hands its values over in slot order, while no index wraps. -/
theorem visitVals_eq (f : Nat → V → Bool) (offset : Nat) {i : Nat} {vals : List (Option V)}
    (fits : ∀ entry ∈ leafValues offset i vals, entry.1 < 2 ^ 64) :
    Node.forEachWhile.visitVals f offset i vals =
      (takeThrough (Function.uncurry f) (leafValues offset i vals),
        (leafValues offset i vals).all (Function.uncurry f)) := by
  induction vals generalizing i with
  | nil => rfl
  | cons slot rest inductionHypothesis =>
    cases slot with
    | none => rw [Node.forEachWhile.visitVals.eq_2, inductionHypothesis fits]; rfl
    | some v =>
      have exact : Usize.wrappingAdd offset i = offset + i :=
        Usize.wrappingAdd_of_lt (fits _ List.mem_cons_self)
      have restFits : ∀ entry ∈ leafValues offset (i + 1) rest, entry.1 < 2 ^ 64 :=
        fun entry member => fits entry (List.mem_cons_of_mem _ member)
      rw [Node.forEachWhile.visitVals.eq_3, exact, inductionHypothesis restFits]
      by_cases passes : f (offset + i) v = true
      · simp [leafValues, takeThrough, Function.uncurry, passes]
      · simp [leafValues, takeThrough, Function.uncurry, passes]

/-- `Node::for_each_while` below a dense node hands over the values of `Node.values` up to
the first one the closure refuses, and says whether it passed them all, as long as no index
wraps: a slot whose offset would wrap has no values, so its walk is empty wherever it starts. -/
theorem Dense.forEachWhile_eq (f : Nat → V → Bool) {fuel height offset : Nat}
    {node : Node V C} (dense : Dense bitWidth height node) (deep : height < fuel)
    (fits : ∀ entry ∈ Node.values bitWidth height node offset, entry.1 < 2 ^ 64) :
    Node.forEachWhile store f fuel node height bitWidth offset =
      .ok (takeThrough (Function.uncurry f) (Node.values bitWidth height node offset),
        (Node.values bitWidth height node offset).all (Function.uncurry f)) := by
  induction fuel generalizing height node offset with
  | zero => omega
  | succ fuel inductionHypothesis =>
    cases dense with
    | leaf vals wide =>
      rw [Node.forEachWhile.eq_2]
      exact congrArg Except.ok (visitVals_eq f offset fits)
    | link links wide inWord dirtyOnly children =>
      rename_i below
      rw [Node.forEachWhile.eq_3, Node.values]
      refine foldl_walk (fun visited item => ?_) (fun item member visited => ?_) []
      · obtain ⟨slot, k⟩ := item
        cases slot <;> rfl
      · obtain ⟨slot, k⟩ := item
        have found := List.mem_zipIdx_iff_getElem?.mp member
        cases slot with
        | none => simp [slotValues]
        | some entry =>
          cases entry with
          | cid key cache => exact absurd (List.mem_of_getElem? found) (dirtyOnly key cache)
          | dirty child =>
            -- the walk of the child starts where `Node.values` puts it, unless it is empty
            have same : Node.values bitWidth below child (Usize.wrappingAdd offset
                (Usize.wrappingMul k (nodesForHeight bitWidth (below + 1)))) =
                Node.values bitWidth below child
                  (offset + k * nodesForHeight bitWidth (below + 1)) := by
              by_cases empty : Node.values bitWidth below child
                  (offset + k * nodesForHeight bitWidth (below + 1)) = []
              · rw [empty, Node.values_eq_nil_iff]
                exact Node.values_eq_nil_iff.mp empty
              · obtain ⟨entry, inChild⟩ := List.exists_mem_of_ne_nil _ empty
                have reach := le_of_mem_values inChild
                have small := fits entry (mem_values_link.mpr ⟨k, child, found, inChild⟩)
                rw [Usize.wrappingMul_of_lt (by omega), Usize.wrappingAdd_of_lt (by omega)]
            have childFits : ∀ entry ∈ Node.values bitWidth below child (Usize.wrappingAdd offset
                (Usize.wrappingMul k (nodesForHeight bitWidth (below + 1)))),
                entry.1 < 2 ^ 64 := by
              rw [same]
              exact fun entry inChild => fits entry (mem_values_link.mpr ⟨k, child, found, inChild⟩)
            dsimp only
            rw [wrappingSub_succ_one inWord,
              inductionHypothesis (children child (List.mem_of_getElem? found)) (by omega)
                childFits, same]
            rfl

end Walk

section Order

variable {bitWidth : Nat}

/-- Every index below a node lies within `MAX_INDEX`. -/
def Node.Bounded (bitWidth height : Nat) (node : Node V C) : Prop :=
  ∀ entry ∈ Node.values bitWidth height node 0, entry.1 ≤ maxIndex

/-- The child behind slot `k` sits at `k * nodes_for_height` below its parent, so its own
indices are within bounds too. -/
theorem Node.Bounded.child {height k : Nat} {links : List (Option (Link V C))}
    {child : Node V C} (bounded : Node.Bounded bitWidth (height + 1) (.link links))
    (found : links[k]? = some (some (.dirty child))) : Node.Bounded bitWidth height child := by
  intro entry member
  have moved : shiftBy (0 + k * nodesForHeight bitWidth (height + 1)) entry ∈
      Node.values bitWidth (height + 1) (.link links) 0 :=
    mem_values_link.mpr ⟨k, child, found, by
      rw [Node.values_shift]
      exact List.mem_map_of_mem member⟩
  have := bounded _ moved
  simp only [shiftBy] at this
  omega

/-- A value in slot `k` of a node at height `height + 1`, `c` into its child, lies below the
reach of the node: exactly so while `nodes_for_height` is a power of two, and because it is
within `MAX_INDEX` once it saturates. -/
theorem lt_nodesForHeight_succ {height k c : Nat} (narrow : bitWidth < 64)
    (low : height + 1 ≤ recursionBound) (slot : k < 2 ^ bitWidth)
    (inChild : c < nodesForHeight bitWidth (height + 1))
    (bounded : k * nodesForHeight bitWidth (height + 1) + c ≤ maxIndex) :
    k * nodesForHeight bitWidth (height + 1) + c < nodesForHeight bitWidth (height + 1 + 1) := by
  have noWrap : bitWidth * (height + 1 + 1) < 2 ^ 64 := narrow_of_le narrow.le low
  have exactHigh : Usize.wrappingMul bitWidth (height + 1 + 1) = bitWidth * (height + 1 + 1) :=
    Usize.wrappingMul_of_lt noWrap
  by_cases saturated : bitWidth * (height + 1 + 1) ≥ 64
  · -- the node above saturates at `usize::MAX`, past every index in range
    have reach : nodesForHeight bitWidth (height + 1 + 1) = Usize.max := by
      unfold nodesForHeight
      simp only [exactHigh]
      rw [if_pos saturated]
    rw [reach]
    unfold Usize.max
    unfold maxIndex at bounded
    omega
  · have lower : bitWidth * (height + 1) ≤ bitWidth * (height + 1 + 1) :=
      Nat.mul_le_mul_left _ (Nat.le_succ _)
    have exactLow : Usize.wrappingMul bitWidth (height + 1) = bitWidth * (height + 1) :=
      Usize.wrappingMul_of_lt (lt_of_le_of_lt lower noWrap)
    have lowExact : ¬ bitWidth * (height + 1) ≥ 64 := by omega
    have spanLow : nodesForHeight bitWidth (height + 1) = 2 ^ (bitWidth * (height + 1)) := by
      unfold nodesForHeight
      simp only [exactLow]
      rw [if_neg lowExact]
    have spanHigh : nodesForHeight bitWidth (height + 1 + 1) =
        2 ^ bitWidth * nodesForHeight bitWidth (height + 1) := by
      unfold nodesForHeight
      simp only [exactHigh, exactLow]
      rw [if_neg saturated, if_neg lowExact, ← Nat.pow_add, Nat.mul_succ, Nat.add_comm]
    rw [spanHigh]
    calc k * nodesForHeight bitWidth (height + 1) + c
        < k * nodesForHeight bitWidth (height + 1) + nodesForHeight bitWidth (height + 1) := by
          omega
      _ = (k + 1) * nodesForHeight bitWidth (height + 1) := (Nat.succ_mul _ _).symm
      _ ≤ 2 ^ bitWidth * nodesForHeight bitWidth (height + 1) := Nat.mul_le_mul_right _ slot

theorem slot_lt_of_dense {height k : Nat} {links : List (Option (Link V C))}
    {slot : Option (Link V C)} (dense : Dense bitWidth (height + 1) (.link links))
    (narrow : bitWidth < 64) (found : links[k]? = some slot) : k < 2 ^ bitWidth := by
  cases dense with
  | link _ wide =>
    rw [← oneShl_of_lt narrow, ← wide]
    exact (List.getElem?_eq_some_iff.mp found).1

/-- Below a dense node whose indices lie within `MAX_INDEX`, every index lies below the
reach `nodes_for_height(bit_width, height + 1)` of the node. -/
theorem Dense.values_lt {height : Nat} {node : Node V C} (dense : Dense bitWidth height node)
    (narrow : bitWidth < 64) (low : height ≤ recursionBound)
    (bounded : Node.Bounded bitWidth height node) :
    ∀ entry ∈ Node.values bitWidth height node 0,
      entry.1 < nodesForHeight bitWidth (height + 1) := by
  induction dense with
  | leaf vals wide =>
    intro entry member
    obtain ⟨r, found, placed⟩ := mem_leafValues.mp member
    have inLeaf := (List.getElem?_eq_some_iff.mp found).1
    rw [wide, oneShl_of_lt narrow] at inLeaf
    rw [nodesForHeight_one narrow, placed]
    omega
  | link links wide inWord dirtyOnly children inductionHypothesis =>
    rename_i below
    intro entry member
    obtain ⟨k, child, found, inChild⟩ := mem_values_link.mp member
    rw [Node.values_shift, List.mem_map] at inChild
    obtain ⟨original, inChild, rfl⟩ := inChild
    have reach := inductionHypothesis child (List.mem_of_getElem? found) (by omega)
      (bounded.child found) original inChild
    have slot := slot_lt_of_dense (Dense.link links wide inWord dirtyOnly children) narrow found
    simp only [shiftBy, Nat.zero_add] at member ⊢
    exact lt_nodesForHeight_succ narrow low slot reach (bounded _ member)

theorem leafValues_sorted (offset i : Nat) (vals : List (Option V)) :
    (leafValues offset i vals).Pairwise (fun a b => a.1 < b.1) := by
  induction vals generalizing i with
  | nil => exact .nil
  | cons slot rest inductionHypothesis =>
    cases slot with
    | none => exact inductionHypothesis (i + 1)
    | some v =>
      refine .cons (fun later member => ?_) (inductionHypothesis (i + 1))
      obtain ⟨r, -, placed⟩ := mem_leafValues.mp member
      omega

theorem pairwise_zipIdx_lt {α : Type} (items : List α) (start : Nat) :
    (items.zipIdx start).Pairwise (fun a b => a.2 < b.2) := by
  induction items generalizing start with
  | nil => exact .nil
  | cons item rest inductionHypothesis =>
    rw [List.zipIdx_cons]
    exact .cons (fun later member => by have := (List.mem_zipIdx member).1; omega)
      (inductionHypothesis (start + 1))

/-- The walk below a dense node whose indices lie within `MAX_INDEX` is strictly increasing
in the index: each child keeps to its own span, and the spans follow the slots. -/
theorem Dense.values_sorted {height : Nat} {node : Node V C} (dense : Dense bitWidth height node)
    (narrow : bitWidth < 64) (low : height ≤ recursionBound)
    (bounded : Node.Bounded bitWidth height node) :
    (Node.values bitWidth height node 0).Pairwise (fun a b => a.1 < b.1) := by
  induction dense with
  | leaf vals wide => exact leafValues_sorted 0 0 vals
  | link links wide inWord dirtyOnly children inductionHypothesis =>
    rename_i below
    rw [Node.values, List.pairwise_flatMap]
    constructor
    · -- inside one slot: the child's walk, moved to the slot
      rintro ⟨slot, k⟩ member
      have found := List.mem_zipIdx_iff_getElem?.mp member
      match slot, found with
      | some (.dirty child), found =>
        simp only [slotValues]
        rw [Node.values_shift]
        exact (inductionHypothesis child (List.mem_of_getElem? found) (by omega)
          (bounded.child found)).map _ fun a b less => by simp only [shiftBy]; omega
      | some (.cid _ _), _ => exact .nil
      | none, _ => exact .nil
    · -- across slots: a child ends before the span of the next slot begins
      refine (pairwise_zipIdx_lt links 0).imp_of_mem fun {first second} firstMember _ less => ?_
      obtain ⟨slot, k⟩ := first
      intro entry inFirst later inSecond
      have found := List.mem_zipIdx_iff_getElem?.mp firstMember
      match slot, found, inFirst with
      | some (.dirty child), found, inFirst =>
        obtain ⟨slot', k'⟩ := second
        match slot', inSecond with
        | some (.dirty child'), inSecond =>
          simp only [slotValues] at inFirst inSecond less
          have start := le_of_mem_values inSecond
          rw [Node.values_shift, List.mem_map] at inFirst
          obtain ⟨original, inChild, rfl⟩ := inFirst
          have reach := Dense.values_lt (children child (List.mem_of_getElem? found)) narrow
            (by omega) (bounded.child found) original inChild
          have ordered : (k + 1) * nodesForHeight bitWidth (below + 1) ≤
              k' * nodesForHeight bitWidth (below + 1) := Nat.mul_le_mul_right _ less
          rw [Nat.succ_mul] at ordered
          simp only [shiftBy]
          omega

end Order

section Reads

variable (store : Store V C) {bitWidth : Nat}

theorem getElem?_of_getD_eq_some {α : Type} {slots : List (Option α)} {k : Nat} {x : α}
    (found : slots.getD k none = some x) : slots[k]? = some (some x) := by
  rw [List.getD_eq_getElem?_getD] at found
  cases slot : slots[k]? with
  | none => simp [slot] at found
  | some y =>
    rw [slot, Option.getD_some] at found
    rw [found]

/-- Below a dense node whose indices lie within `MAX_INDEX`, the walk holds exactly the
values `Node::get` reads: a value `c` into the child of slot `k` is the read at
`k * nodes_for_height + c`, since `c` lies below the span of the slot. -/
theorem Dense.mem_values_iff {fuel height : Nat} {node : Node V C}
    (dense : Dense bitWidth height node) (narrow : bitWidth < 64) (low : height ≤ recursionBound)
    (bounded : Node.Bounded bitWidth height node) (deep : height < fuel) (j : Nat) (v : V) :
    (j, v) ∈ Node.values bitWidth height node 0 ↔
      Node.get store fuel node height bitWidth j = .ok (some v) := by
  induction fuel generalizing height node j with
  | zero => omega
  | succ fuel inductionHypothesis =>
    cases dense with
    | leaf vals wide =>
      rw [Node.get_leaf, Node.values, mem_leafValues, List.getD_eq_getElem?_getD]
      constructor
      · rintro ⟨r, found, placed⟩
        simp only [Nat.zero_add] at placed
        rw [placed, found, Option.getD_some]
      · intro read
        refine ⟨j, ?_, by simp⟩
        cases found : vals[j]? with
        | none => simp [found] at read
        | some slot =>
          rw [found, Option.getD_some, Except.ok.injEq] at read
          rw [read]
    | link links wide inWord dirtyOnly children =>
      rename_i below
      rw [Node.get_link, wrappingSub_succ_one inWord]
      constructor
      · intro member
        obtain ⟨k, child, found, inChild⟩ := mem_values_link.mp member
        rw [Node.values_shift, List.mem_map] at inChild
        obtain ⟨⟨c, value⟩, inChild, shifted⟩ := inChild
        simp only [shiftBy, Nat.zero_add, Prod.mk.injEq] at shifted
        obtain ⟨rfl, rfl⟩ := shifted
        have childDense := children child (List.mem_of_getElem? found)
        have reach := childDense.values_lt narrow (by omega) (bounded.child found) _ inChild
        -- the read at `k * span + c` goes to slot `k`, at `c` into the child
        have slotEq : (k * nodesForHeight bitWidth (below + 1) + c) /
            nodesForHeight bitWidth (below + 1) = k := by
          rw [Nat.add_comm, Nat.add_mul_div_right _ _ (nodesForHeight_pos _ _),
            Nat.div_eq_of_lt reach, Nat.zero_add]
        have offsetEq : (k * nodesForHeight bitWidth (below + 1) + c) %
            nodesForHeight bitWidth (below + 1) = c := by
          rw [Nat.add_comm, Nat.add_mul_mod_self_right, Nat.mod_eq_of_lt reach]
        rw [slotEq, offsetEq, getD_of_getElem? found]
        exact (inductionHypothesis childDense (by omega) (bounded.child found) (by omega) c).mp
          inChild
      · intro read
        cases slotEq : links.getD (j / nodesForHeight bitWidth (below + 1)) none with
        | none =>
          rw [slotEq] at read
          cases read
        | some entry =>
          rw [slotEq] at read
          have member := mem_of_getD_eq_some slotEq
          cases entry with
          | cid key cache => exact absurd member (dirtyOnly key cache)
          | dirty child =>
            have found := getElem?_of_getD_eq_some slotEq
            have inChild := (inductionHypothesis (children child member) (by omega)
              (bounded.child found) (by omega) _).mpr read
            have back : shiftBy (0 + j / nodesForHeight bitWidth (below + 1) *
                nodesForHeight bitWidth (below + 1)) (j % nodesForHeight bitWidth (below + 1), v) ∈
                Node.values bitWidth (below + 1) (.link links) 0 :=
              mem_values_link.mpr ⟨_, child, found, by
                rw [Node.values_shift]
                exact List.mem_map_of_mem inChild⟩
            simp only [shiftBy, Nat.zero_add, Nat.div_add_mod'] at back
            exact back

end Reads

section Keeps

variable {store : Store V C} {bitWidth : Nat}

theorem leafValues_of_all_isNone {offset i : Nat} {vals : List (Option V)}
    (empty : vals.all Option.isNone = true) : leafValues offset i vals = [] := by
  induction vals generalizing i with
  | nil => rfl
  | cons slot rest inductionHypothesis =>
    simp only [List.all_cons, Bool.and_eq_true] at empty
    cases slot with
    | none => exact inductionHypothesis empty.2
    | some v => simp at empty

/-- A node without values has an empty walk. -/
theorem Node.values_of_isEmpty {height offset : Nat} {node : Node V C}
    (empty : node.isEmpty = true) : Node.values bitWidth height node offset = [] := by
  cases height with
  | zero =>
    cases node with
    | leaf vals => exact leafValues_of_all_isNone empty
    | link links => rfl
  | succ height =>
    cases node with
    | leaf vals => rfl
    | link links =>
      refine List.eq_nil_iff_forall_not_mem.mpr fun entry member => ?_
      obtain ⟨k, child, found, -⟩ := mem_values_link.mp member
      have isNone := List.all_eq_true.mp empty _ (List.mem_of_getElem? found)
      simp at isNone

/-- `Node::set` that returns `Ok` below a dense node adds no value but the one at `i`. -/
theorem Dense.values_set {fuel height i : Nat} {val : V} {node node' : Node V C}
    {prev : Option V} (dense : Dense bitWidth height node)
    (ran : Node.set store fuel height bitWidth i val node = .ok prev node') :
    ∀ entry ∈ Node.values bitWidth height node' 0,
      entry ∈ Node.values bitWidth height node 0 ∨ entry.1 = i := by
  induction fuel generalizing height node i prev node' with
  | zero => cases ran
  | succ fuel inductionHypothesis =>
    rcases Node.set_ok_cases ran with ⟨-, vals, rfl, found, rfl⟩ |
      ⟨-, links, slot, child, child', rfl, found, loaded, descended, rfl⟩
    · cases dense with
      | leaf _ wide =>
        intro entry member
        obtain ⟨r, stored, placed⟩ := mem_leafValues.mp member
        by_cases same : r = i
        · exact .inr (by omega)
        · rw [List.getElem?_set_ne (Ne.symm same)] at stored
          exact .inl (mem_leafValues.mpr ⟨r, stored, placed⟩)
    · cases dense with
      | link _ wide inWord dirtyOnly children =>
        rename_i below
        rw [wrappingSub_succ_one inWord] at descended
        -- the node behind the slot is the dirty child there, or a fresh one without values
        have origin : slot = none ∧ Node.values bitWidth below child 0 = [] ∨
            slot = some (.dirty child) := by
          cases slot with
          | none =>
            refine .inl ⟨rfl, Node.values_of_isEmpty ?_⟩
            simp only [slotChild, Except.ok.injEq] at loaded
            subst loaded
            split
            · exact isEmpty_initSizedVec_leaf _
            · exact isEmpty_initSizedVec_link _
          | some entry =>
            cases entry with
            | cid key cache => exact absurd (List.mem_of_getElem? found) (dirtyOnly key cache)
            | dirty target =>
              simp only [slotChild, Link.load, Except.ok.injEq] at loaded
              exact .inr (loaded ▸ rfl)
        have childDense : Dense bitWidth below child := by
          rcases origin with ⟨rfl, -⟩ | rfl
          · exact dense_slotChild_none inWord loaded
          · exact children _ (List.mem_of_getElem? found)
        intro entry member
        obtain ⟨k, target, stored, inTarget⟩ := mem_values_link.mp member
        by_cases same : k = i / nodesForHeight bitWidth (below + 1)
        · -- the changed slot: a value of the changed child, moved to the slot
          subst same
          rw [List.getElem?_set_self (List.getElem?_eq_some_iff.mp found).1,
            Option.some.injEq, Option.some.injEq, Link.dirty.injEq] at stored
          subst stored
          rw [Node.values_shift, List.mem_map] at inTarget
          obtain ⟨original, inChild, rfl⟩ := inTarget
          rcases inductionHypothesis childDense descended original inChild with old | new
          · rcases origin with ⟨-, empty⟩ | rfl
            · rw [empty] at old
              cases old
            · refine .inl (mem_values_link.mpr ⟨_, child, found, ?_⟩)
              rw [Node.values_shift]
              exact List.mem_map_of_mem old
          · right
            simp only [shiftBy, Nat.zero_add, new]
            exact Nat.div_add_mod' i _
        · rw [List.getElem?_set_ne (Ne.symm same)] at stored
          exact .inl (mem_values_link.mpr ⟨k, target, stored, inTarget⟩)

/-- `Node::delete` that returns `Ok` below a dense node adds no value. -/
theorem Dense.values_delete {fuel height i : Nat} {node node' : Node V C}
    {deleted : Option V} (dense : Dense bitWidth height node)
    (ran : Node.delete store fuel height bitWidth i node = .ok deleted node') :
    ∀ entry ∈ Node.values bitWidth height node' 0, entry ∈ Node.values bitWidth height node 0 := by
  induction fuel generalizing height node i deleted node' with
  | zero => cases ran
  | succ fuel inductionHypothesis =>
    rcases Node.delete_ok_cases ran with ⟨vals, rfl, -, rfl⟩ | ⟨links, rfl, -, -, rfl⟩ |
      ⟨links, entry, child, child', slot', rfl, found, loaded, descended, rfl, cleared⟩
    · cases dense with
      | leaf _ wide =>
        intro entry member
        obtain ⟨r, stored, placed⟩ := mem_leafValues.mp member
        by_cases same : r = i
        · subst same
          simp [List.getElem?_set] at stored
        · rw [List.getElem?_set_ne (Ne.symm same)] at stored
          exact mem_leafValues.mpr ⟨r, stored, placed⟩
    · exact fun entry member => member
    · cases dense with
      | link _ wide inWord dirtyOnly children =>
        rename_i below
        rw [wrappingSub_succ_one inWord] at descended
        -- the slot held a dirty link to `child`
        cases entry with
        | cid key cache => exact absurd (List.mem_of_getElem? found) (dirtyOnly key cache)
        | dirty original =>
          simp only [Link.load, Except.ok.injEq] at loaded
          subst loaded
          intro entry member
          obtain ⟨k, target, stored, inTarget⟩ := mem_values_link.mp member
          by_cases same : k = i / nodesForHeight bitWidth (below + 1)
          · subst same
            rw [List.getElem?_set_self (List.getElem?_eq_some_iff.mp found).1,
              Option.some.injEq] at stored
            -- a slot left with a link holds the changed child
            rcases cleared with ⟨rfl, -⟩ | ⟨entry', rfl, reloaded⟩
            · cases stored
            · rw [Option.some.injEq] at stored
              subst stored
              simp only [Link.load, Except.ok.injEq] at reloaded
              subst reloaded
              rw [Node.values_shift, List.mem_map] at inTarget
              obtain ⟨original', inChild, rfl⟩ := inTarget
              refine mem_values_link.mpr ⟨_, _, found, ?_⟩
              rw [Node.values_shift]
              exact List.mem_map_of_mem (inductionHypothesis
                (children _ (List.mem_of_getElem? found)) descended original' inChild)
          · rw [List.getElem?_set_ne (Ne.symm same)] at stored
            exact mem_values_link.mpr ⟨k, target, stored, inTarget⟩

/-- Every index below the root lies within `MAX_INDEX`. -/
def Root.Bounded (root : Root V C) : Prop :=
  Node.Bounded root.bitWidth root.height root.node

/-- A round of the growth loop moves the root node into the first slot, at offset 0. -/
theorem Root.Bounded.grow {root : Root V C} (dense : root.Dense) (short : root.height < 63)
    (bounded : root.Bounded) : root.grow.Bounded := by
  unfold Root.Bounded Node.Bounded
  rw [Root.grow_bitWidth, (dense.grow short).2]
  intro entry member
  apply bounded
  unfold Root.grow at member
  split at member
  · obtain ⟨k, child, found, inChild⟩ := mem_values_link.mp member
    rw [List.getElem?_set] at found
    split_ifs at found with first
    · simp only [Option.some.injEq, Link.dirty.injEq] at found
      subst first found
      simpa using inChild
    · have empty : (initSizedVec root.bitWidth : List (Option (Link V C))).all Option.isNone =
          true := all_isNone_initSizedVec _
      have isNone := List.all_eq_true.mp empty _ (List.mem_of_getElem? found)
      simp at isNone
  · exact absurd member (by
      rw [Node.values_of_isEmpty (isEmpty_initSizedVec_link _)]
      exact List.not_mem_nil)

/-- The growth loop keeps a dense root dense and its indices within bounds. -/
theorem Root.Dense.growLoop_keeps {i fuel : Nat} {root grown : Root V C} (dense : root.Dense)
    (bounded : root.Bounded) (inRange : i ≤ maxIndex)
    (grew : Amt.growLoop i fuel root = .ok grown) : grown.Dense ∧ grown.Bounded := by
  induction fuel generalizing root with
  | zero =>
    rw [Amt.growLoop] at grew
    split at grew
    · cases grew
    · cases grew
      exact ⟨dense, bounded⟩
  | succ fuel inductionHypothesis =>
    rw [Amt.growLoop] at grew
    split at grew
    · rename_i beyond
      -- only a root below height 63 is grown
      have short : root.height < 63 := by
        by_contra high
        rw [dense.not_beyond (by omega) inRange] at beyond
        cases beyond
      exact inductionHypothesis (dense.grow short).1 (bounded.grow dense short) grew
    · cases grew
      exact ⟨dense, bounded⟩

theorem Amt.set_inRange {root root' : Root V C} {i : Nat} {val : V}
    (ran : Amt.set store i val root = .ok () root') : i ≤ maxIndex := by
  by_contra past
  unfold Amt.set at ran
  rw [if_pos (Nat.lt_of_not_le past)] at ran
  cases ran

theorem Amt.delete_inRange {root root' : Root V C} {i : Nat} {deleted : Option V}
    (ran : Amt.delete store i root = .ok deleted root') : i ≤ maxIndex := by
  by_contra past
  unfold Amt.delete at ran
  rw [if_pos (Nat.lt_of_not_le past)] at ran
  cases ran

/-- `Amt::set` that returns `Ok` on a dense root whose indices lie within `MAX_INDEX` keeps
both. -/
theorem Root.Dense.set_keeps {root root' : Root V C} {i : Nat} {val : V} (dense : root.Dense)
    (bounded : root.Bounded) (ran : Amt.set store i val root = .ok () root') :
    root'.Dense ∧ root'.Bounded := by
  have inRange := Amt.set_inRange ran
  have dense' : root'.Dense := by
    obtain ⟨result, stored, denseResult⟩ := dense.set_ok store inRange val
    rw [stored] at ran
    cases ran
    exact denseResult
  refine ⟨dense', ?_⟩
  unfold Amt.set at ran
  rw [if_neg (Nat.not_lt.mpr inRange)] at ran
  cases grew : Amt.growLoop i recursionBound root with
  | error e =>
    simp only [grew] at ran
    cases ran
  | ok grown =>
    simp only [grew] at ran
    obtain ⟨grownDense, grownBounded⟩ := dense.growLoop_keeps bounded inRange grew
    cases setRan : Node.set store recursionBound grown.height grown.bitWidth i val grown.node with
    | error e node' =>
      simp only [setRan] at ran
      cases ran
    | ok prev node' =>
      simp only [setRan] at ran
      cases ran
      intro entry member
      rcases grownDense.node.values_set setRan entry member with old | new
      · exact grownBounded entry old
      · omega

/-- The collapse loop on a dense root moves the node behind the only link up, whose indices
are those of the root node. -/
theorem Root.Dense.collapseLoop_keeps {fuel : Nat} {root root' : Root V C} (dense : root.Dense)
    (bounded : root.Bounded) (ran : Amt.collapseLoop store fuel root = .ok () root') :
    root'.Bounded := by
  induction fuel generalizing root with
  | zero =>
    rcases collapseLoop_ok_cases ran with ⟨-, rfl⟩ | ⟨lower, -, -, -, tooFew, -⟩
    · exact bounded
    · cases tooFew
  | succ fuel inductionHypothesis =>
    rcases collapseLoop_ok_cases ran with
      ⟨-, rfl⟩ | ⟨lower, links, entry, child, fuelEq, canCollapse, -, linked, first, loaded, rest⟩
    · exact bounded
    · cases fuelEq
      obtain ⟨below, links', child', heightEq, linked', first', denseChild⟩ :=
        dense.node.first_of_canCollapse canCollapse
      rw [linked', Node.link.injEq] at linked
      subst linked
      rw [first', Option.some.injEq, Option.some.injEq] at first
      subst first
      simp only [Link.load, Except.ok.injEq] at loaded
      subst loaded
      refine inductionHypothesis (dense.moveUp heightEq denseChild) ?_ rest
      -- the indices of the node moved up are those of the first slot of the root node
      intro entry member
      have moved : entry ∈ Node.values root.bitWidth root.height root.node 0 := by
        rw [linked', heightEq]
        refine mem_values_link.mpr ⟨0, child', ?_, ?_⟩
        · rw [← List.head?_eq_getElem?]
          exact first'
        · simpa [heightEq] using member
      exact bounded entry moved

/-- `Amt::delete` that returns `Ok` on a dense root whose indices lie within `MAX_INDEX` keeps
both. -/
theorem Root.Dense.delete_keeps {root root' : Root V C} {i : Nat} {deleted : Option V}
    (dense : root.Dense) (bounded : root.Bounded)
    (ran : Amt.delete store i root = .ok deleted root') : root'.Dense ∧ root'.Bounded := by
  have inRange := Amt.delete_inRange ran
  have dense' : root'.Dense := by
    obtain ⟨removed, result, done, denseResult⟩ := dense.delete_ok store inRange
    rw [done] at ran
    cases ran
    exact denseResult
  refine ⟨dense', ?_⟩
  unfold Amt.delete at ran
  rw [if_neg (Nat.not_lt.mpr inRange)] at ran
  by_cases beyond : Amt.beyondRoot root i = true
  · rw [if_pos beyond] at ran
    cases ran
    exact bounded
  rw [if_neg beyond] at ran
  cases delRan : Node.delete store recursionBound root.height root.bitWidth i root.node with
  | error e node' =>
    simp only [delRan] at ran
    cases ran
  | ok removed node' =>
    have kept := dense.node.values_delete delRan
    have low := dense.low
    have below : i < nodesForHeight root.bitWidth (root.height + 1) := by
      rw [beyondRoot_iff (by omega)] at beyond
      omega
    -- the node left behind is the dense one `Dense.delete_ok` finds
    have denseNode' : AMT.Dense root.bitWidth root.height node' := by
      have removes : ∃ removed' node'', Node.delete store recursionBound root.height
          root.bitWidth i root.node = .ok removed' node'' ∧
          AMT.Dense root.bitWidth root.height node'' :=
        dense.node.delete_ok dense.narrow (by rw [recursionBound_eq]; omega) below
          (by rw [recursionBound_eq]; omega)
      obtain ⟨removed', node'', done, denseNode''⟩ := removes
      rw [delRan] at done
      cases done
      exact denseNode''
    have countedBounded : ∀ count,
        Root.Bounded { root with node := node', count := count } :=
      fun _ entry member => bounded entry (kept entry member)
    cases removed with
    | none =>
      simp only [delRan] at ran
      cases ran
      exact countedBounded _
    | some value =>
      simp only [delRan] at ran
      split at ran
      · cases ran
        intro entry member
        rw [Node.values_of_isEmpty (isEmpty_initSizedVec_leaf _)] at member
        cases member
      · split at ran
        · rename_i collapsed collapsedRan
          cases ran
          have countedDense : Root.Dense
              { root with node := node', count := Usize.wrappingSub root.count 1 } :=
            ⟨dense.pos, dense.narrow, dense.low, denseNode'⟩
          exact countedDense.collapseLoop_keeps (countedBounded _) collapsedRan
        · cases ran

/-- Every call of a run keeps a dense root dense and its indices within bounds. -/
theorem Root.Dense.run_keeps {root final : Root V C} {ops : List (Op V)} (dense : root.Dense)
    (bounded : root.Bounded) (run : Run store root ops final) : final.Dense ∧ final.Bounded := by
  induction run with
  | nil root => exact ⟨dense, bounded⟩
  | set ran rest inductionHypothesis =>
    obtain ⟨denseMiddle, boundedMiddle⟩ := dense.set_keeps bounded ran
    exact inductionHypothesis denseMiddle boundedMiddle
  | delete ran rest inductionHypothesis =>
    obtain ⟨denseMiddle, boundedMiddle⟩ := dense.delete_keeps bounded ran
    exact inductionHypothesis denseMiddle boundedMiddle

end Keeps

section ForEach

variable (store : Store V C)

theorem Root.Bounded.new (bitWidth : Nat) : (Root.new bitWidth : Root V C).Bounded :=
  fun entry member => absurd member (by
    change entry ∉ Node.values bitWidth 0 (.leaf (initSizedVec bitWidth) : Node V C) 0
    rw [Node.values_of_isEmpty (isEmpty_initSizedVec_leaf _)]
    exact List.not_mem_nil)

/-- `Amt::for_each_while` on a dense root whose indices lie within `MAX_INDEX` hands over
the walk of the root node up to the first value the closure refuses. -/
theorem Root.Dense.forEachWhile_eq {root : Root V C} (dense : root.Dense)
    (bounded : root.Bounded) (f : Nat → V → Bool) :
    Amt.forEachWhile store f root =
      .ok (takeThrough (Function.uncurry f) (Node.values root.bitWidth root.height root.node 0)) := by
  have low := dense.low
  have fits : ∀ entry ∈ Node.values root.bitWidth root.height root.node 0, entry.1 < 2 ^ 64 := by
    intro entry member
    have := bounded entry member
    unfold maxIndex at this
    omega
  unfold Amt.forEachWhile
  rw [dense.node.forEachWhile_eq f (by rw [recursionBound_eq]; omega) fits]

/-- From `Amt::new_with_bit_width` with a bit width from 1 to 63, after a run of calls that
return `Ok`, `Amt::for_each_while` walks the values of the root node, a list in strictly
increasing index order that holds exactly the entries of the sparse array the run builds. -/
theorem Run.walk_spec {bitWidth : Nat} (pos : 0 < bitWidth) (narrow : bitWidth < 64)
    {ops : List (Op V)} {final : Root V C} (run : Run store (Root.new bitWidth) ops final)
    (f : Nat → V → Bool) :
    Amt.forEachWhile store f final = .ok (takeThrough (Function.uncurry f)
        (Node.values final.bitWidth final.height final.node 0)) ∧
      (Node.values final.bitWidth final.height final.node 0).Pairwise (fun a b => a.1 < b.1) ∧
      ∀ j v, (j, v) ∈ Node.values final.bitWidth final.height final.node 0 ↔
        (Op.replay ops).get j = some v := by
  obtain ⟨dense, bounded⟩ := (Root.Dense.new pos narrow).run_keeps (Root.Bounded.new bitWidth) run
  have rep : Represents store final (Op.replay ops) := (Represents.new narrow.le).run run
  have heightLow := dense.low
  have low : final.height ≤ recursionBound := by
    rw [recursionBound_eq]
    omega
  have deep : final.height < recursionBound := by
    rw [recursionBound_eq]
    omega
  refine ⟨dense.forEachWhile_eq store bounded f,
    dense.node.values_sorted dense.narrow low bounded, fun j v => ?_⟩
  have reads := dense.node.mem_values_iff store dense.narrow low bounded deep j v
  constructor
  · -- an index of the walk is in range and within the reach of the root
    intro member
    have inRange := bounded _ member
    have near := dense.node.values_lt dense.narrow low bounded _ member
    have read := rep.reads j inRange
    rw [Amt.get_of_le inRange, if_neg (by rw [beyondRoot_iff (by omega)]; omega),
      reads.mp member] at read
    exact (Except.ok.inj read).symm
  · intro stored
    have inRange : j ≤ maxIndex := by
      by_contra past
      rw [(Op.replay ops).none_of_gt j (by omega)] at stored
      cases stored
    have read := rep.reads j inRange
    rw [Amt.get_of_le inRange] at read
    split at read
    · rw [stored] at read
      cases read
    · exact reads.mpr (read.trans (congrArg Except.ok stored))

/-- From `Amt::new_with_bit_width` with a bit width from 1 to 63, after any run of `set` and
`delete` calls that return `Ok`, `Amt::for_each_while` hands its closure the entries of the
sparse array the same calls build, in strictly increasing index order, up to and including the
first entry the closure refuses; `for_each` hands over all of them. -/
theorem amt_for_each_while_visits_in_order {bitWidth : Nat} (pos : 0 < bitWidth)
    (narrow : bitWidth < 64) {ops : List (Op V)} {final : Root V C}
    (run : Run store (Root.new bitWidth) ops final) (f : Nat → V → Bool) :
    ∃ entries, Amt.forEachWhile store f final = .ok (takeThrough (Function.uncurry f) entries) ∧
      entries.Pairwise (fun a b => a.1 < b.1) ∧
      ∀ j v, (j, v) ∈ entries ↔ (Op.replay ops).get j = some v :=
  ⟨_, Run.walk_spec store pos narrow run f⟩

theorem amt_for_each_while_visits_in_order_after_growth :
    ∃ (final : Root Nat Nat) (entries : List (Nat × Nat)),
      Run (fun _ => none) (Root.new 3) [.set 9 1, .set 2 5] final ∧
      Amt.forEachWhile (fun _ => none) (fun index _ => index < 5) final =
        .ok (takeThrough (Function.uncurry fun index _ => index < 5) entries) ∧
      entries.Pairwise (fun a b => a.1 < b.1) ∧
      ∀ j v, (j, v) ∈ entries ↔ (Op.replay [.set 9 1, .set 2 5]).get j = some v :=
  have run : Run (fun _ => none) (Root.new 3) [.set 9 1, .set 2 5] _ :=
    .set rfl (.set rfl (.nil _))
  match amt_for_each_while_visits_in_order (fun _ => none) (by decide) (by decide) run
      fun index _ => index < 5 with
  | ⟨entries, visits⟩ => ⟨_, entries, run, visits⟩

end ForEach

/-! ## The sorted-map view

The actor states read an AMT as a `SortedMap` of its entries: `SortedMap.set` and
`SortedMap.delete` for `Amt::set` and `Amt::delete`, and a walk over the entries in key order
for `Amt::for_each`.  A sorted map `Lists` a sparse array when it finds what the array holds at
every index; every call of a run keeps that relation, so a run from `Amt::new_with_bit_width`
ends at a root that reads, counts and walks like the sorted map the same calls build. -/

section SortedView

variable {store : Store V C}

/-- A sorted map lists a sparse array when it finds at every index what the array holds. -/
def Lists (map : SortedMap Nat V) (array : SparseArray V maxIndex) : Prop :=
  ∀ j, map.get? j = array.get j

/-- What a call does to the sorted map. -/
def Op.applyMap : Op V → SortedMap Nat V → SortedMap Nat V
  | .set i val, map => map.set i val
  | .delete i, map => map.delete i

/-- The sorted map that a sequence of calls builds from the empty one. -/
def Op.replayMap (ops : List (Op V)) : SortedMap Nat V :=
  ops.foldl (fun map op => op.applyMap map) SortedMap.empty

theorem Lists.empty : Lists (SortedMap.empty : SortedMap Nat V) SparseArray.empty :=
  fun _ => rfl

section Step

variable {map : SortedMap Nat V} {array : SparseArray V maxIndex} (lists : Lists map array)
include lists

/-- Storing in range stores in both. -/
theorem Lists.set {i : Nat} (inRange : i ≤ maxIndex) (val : V) :
    Lists (map.set i val) (array.set i val) := by
  intro j
  rw [SortedMap.get?_set, SparseArray.get_set inRange, lists j]
  by_cases same : j = i
  · rw [if_pos same.symm, if_pos same]
  · rw [if_neg (Ne.symm same), if_neg same]

theorem Lists.erase (i : Nat) : Lists (map.delete i) (array.erase i) := by
  intro j
  rw [SortedMap.get?_delete, SparseArray.get_erase, lists j]

/-- The keys of a sorted map that lists an array are the array's indices: they lie in range,
and there are as many entries as the array counts. -/
theorem Lists.keys :
    (∀ entry ∈ map.entries, entry.1 ≤ maxIndex) ∧ map.entries.length = array.count := by
  have present : ∀ j, j ∈ map.entries.map Prod.fst ↔ (array.get j).isSome := by
    intro j
    rw [← lists j, List.mem_map, Option.isSome_iff_exists]
    constructor
    · rintro ⟨⟨key, value⟩, member, rfl⟩
      exact ⟨value, (SortedMap.mem_entries_iff map).mp member⟩
    · rintro ⟨value, found⟩
      exact ⟨(j, value), (SortedMap.mem_entries_iff map).mpr found, rfl⟩
  refine ⟨fun entry member => ?_, ?_⟩
  · by_contra past
    have held := (present entry.1).mp (List.mem_map_of_mem member)
    rw [array.none_of_gt _ (by omega)] at held
    cases held
  · have sameIndices : (map.entries.map Prod.fst).toFinset = array.indices := by
      ext j
      rw [List.mem_toFinset, present, SparseArray.mem_indices]
    rw [SparseArray.count, ← sameIndices, List.toFinset_card_of_nodup map.keys_nodup,
      List.length_map]

end Step

/-- Every call of a run keeps the listing: a `set` that returns `Ok` is in range. -/
theorem Lists.run {root final : Root V C} {map : SortedMap Nat V}
    {array : SparseArray V maxIndex} {ops : List (Op V)} (lists : Lists map array)
    (run : Run store root ops final) :
    Lists (ops.foldl (fun map op => op.applyMap map) map)
      (ops.foldl (fun array op => op.apply array) array) := by
  induction run generalizing map array with
  | nil root => exact lists
  | set ran rest inductionHypothesis =>
    exact inductionHypothesis (lists.set (Amt.set_inRange ran) _)
  | delete ran rest inductionHypothesis =>
    exact inductionHypothesis (lists.erase _)

/-- From `Amt::new_with_bit_width` with a bit width up to 64, a run of `set` and `delete` calls
that all return `Ok` ends at a root that reads like the sorted map the same calls build with
`SortedMap.set` and `SortedMap.delete`: `Amt::get` finds the map's values at every index in
range, the map's keys are indices in range, and `count()` is its number of entries.  With a bit
width from 1 to 63, `Amt::for_each_while` walks the map's entries in their order. -/
theorem amt_runs_read_as_sorted_map {bitWidth : Nat} (narrow : bitWidth ≤ 64) {ops : List (Op V)}
    {final : Root V C} (run : Run store (Root.new bitWidth) ops final) :
    (∀ j ≤ maxIndex, Amt.get store j final = .ok ((Op.replayMap ops).get? j)) ∧
      (∀ entry ∈ (Op.replayMap ops).entries, entry.1 ≤ maxIndex) ∧
      final.count = (Op.replayMap ops).entries.length ∧
      (0 < bitWidth → bitWidth < 64 → ∀ f : Nat → V → Bool,
        Amt.forEachWhile store f final =
          .ok (takeThrough (Function.uncurry f) (Op.replayMap ops).entries)) := by
  have rep : Represents store final (Op.replay ops) := (Represents.new narrow).run run
  have lists : Lists (Op.replayMap ops) (Op.replay ops) := Lists.empty.run run
  obtain ⟨inRange, counted⟩ := lists.keys
  refine ⟨fun j below => by rw [rep.reads j below, lists j], inRange,
    by rw [rep.counted, counted], fun pos short f => ?_⟩
  obtain ⟨walk, sorted, members⟩ := Run.walk_spec store pos short run f
  -- the walk is sorted with the map's entries as members, so it is the map's entry list
  have sameWalk : (⟨_, sorted⟩ : SortedMap Nat V) = Op.replayMap ops :=
    SortedMap.ext_get? fun j => Option.ext fun v => by
      rw [← SortedMap.mem_entries_iff, lists j]
      exact members j v
  rw [walk, ← sameWalk]

/-- `set(2, 7)`, `set(10, 8)` and `delete(2)` from a bit width of three build the sorted map
with the one entry `(10, 8)`, and the root they reach reads and walks like it. -/
theorem amt_runs_read_as_sorted_map_grow_and_shrink :
    (Op.replayMap [.set 2 7, .set 10 8, .delete 2] : SortedMap Nat Nat).entries = [(10, 8)] ∧
    ∃ final : Root Nat Nat,
      Run (fun _ => none) (Root.new 3) [.set 2 7, .set 10 8, .delete 2] final ∧
      (∀ j ≤ maxIndex, Amt.get (fun _ => none) j final =
        .ok ((Op.replayMap [.set 2 7, .set 10 8, .delete 2]).get? j)) ∧
      (∀ entry ∈ (Op.replayMap [.set 2 7, .set 10 8, .delete 2] : SortedMap Nat Nat).entries,
        entry.1 ≤ maxIndex) ∧
      final.count = (Op.replayMap [.set 2 7, .set 10 8, .delete 2] : SortedMap Nat Nat).entries.length ∧
      (0 < 3 → 3 < 64 → ∀ f : Nat → Nat → Bool,
        Amt.forEachWhile (fun _ => none) f final = .ok (takeThrough (Function.uncurry f)
          (Op.replayMap [.set 2 7, .set 10 8, .delete 2] : SortedMap Nat Nat).entries)) :=
  have run : Run (fun _ => none) (Root.new 3) [.set 2 7, .set 10 8, .delete 2] _ :=
    .set rfl (.set rfl (.delete rfl (.nil _)))
  ⟨rfl, _, run, amt_runs_read_as_sorted_map (by decide) run⟩

end SortedView

end Forest.AMT

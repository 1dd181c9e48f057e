import Mathlib.Data.List.Basic

/-!
# A max-heap by its contents

A binary max-heap promises one thing of its top: no element of the heap compares greater.
`peek` returns such an element, and `modifyTop` changes it in place (what a `PeekMut` guard
does before the heap restores its order on drop).  Here the heap is its contents as a list: the
top is the first element that no element exceeds.  Which of several equal greatest elements a
heap returns depends on its layout; where no two elements compare equal there is only one
(`peek_unique`), so the list says what any heap of those contents returns.

The comparison is any `Ordering`-valued function.  A heap of a total preorder that is not empty
has a top (`exists_isTop`, `peek_isSome`).
-/

namespace Heap

variable {α : Type} (cmp : α → α → Ordering)

/-- Whether no element of `contents` compares greater than `top`. -/
def IsTop (contents : List α) (top : α) : Bool :=
  contents.all fun other => cmp other top != .gt

/-- The position in `contents` of the element `peek` returns. -/
def topIndex? (contents : List α) : Option Nat :=
  contents.findIdx? (IsTop cmp contents)

/-- `BinaryHeap::peek`: a greatest element, or `None` for an empty heap. -/
def peek (contents : List α) : Option α :=
  match topIndex? cmp contents with
  | none => none
  | some index => contents[index]?

/-- `BinaryHeap::peek_mut` and a write through the guard: the top is replaced by `f` of it. -/
def modifyTop (f : α → α) (contents : List α) : List α :=
  match topIndex? cmp contents with
  | none => contents
  | some index => contents.modify index f

variable {cmp}

@[simp]
theorem isTop_iff {contents : List α} {top : α} :
    IsTop cmp contents top = true ↔ ∀ other ∈ contents, cmp other top ≠ .gt := by
  simp [IsTop, List.all_eq_true]

/-- A list with a first element has a greatest element under a total preorder. -/
theorem exists_isTop_cons [Std.TransCmp cmp] (first : α) (rest : List α) :
    ∃ top ∈ first :: rest, IsTop cmp (first :: rest) top = true := by
  induction rest generalizing first with
  | nil =>
    refine ⟨first, List.mem_singleton_self first, ?_⟩
    simp [Std.ReflCmp.compare_self]
  | cons second more inductionHypothesis =>
    obtain ⟨top, member, isTop⟩ := inductionHypothesis second
    rw [isTop_iff] at isTop
    by_cases firstAbove : cmp first top = .gt
    · -- `first` beats the greatest of the rest, and so every element of it
      refine ⟨first, List.mem_cons_self, isTop_iff.mpr ?_⟩
      have topBelow : cmp top first = .lt := Std.OrientedCmp.lt_of_gt firstAbove
      intro other otherMember
      rcases List.mem_cons.mp otherMember with rfl | later
      · simp [Std.ReflCmp.compare_self]
      · have otherBelow : (cmp other top).isLE = true :=
          Ordering.isLE_iff_ne_gt.mpr (isTop other later)
        rw [Std.TransCmp.lt_of_isLE_of_lt otherBelow topBelow]
        decide
    · refine ⟨top, List.mem_cons_of_mem first member, isTop_iff.mpr ?_⟩
      intro other otherMember
      rcases List.mem_cons.mp otherMember with rfl | later
      · exact firstAbove
      · exact isTop other later

theorem exists_isTop [Std.TransCmp cmp] {contents : List α} (nonempty : contents ≠ []) :
    ∃ top ∈ contents, IsTop cmp contents top = true := by
  obtain ⟨first, rest, rfl⟩ := List.exists_cons_of_ne_nil nonempty
  exact exists_isTop_cons first rest

/-- What `peek` returns is in the heap and no element exceeds it. -/
theorem peek_spec {contents : List α} {top : α} (peeked : peek cmp contents = some top) :
    top ∈ contents ∧ ∀ other ∈ contents, cmp other top ≠ .gt := by
  unfold peek at peeked
  split at peeked
  · cases peeked
  · rename_i index found
    obtain ⟨inRange, isTop, -⟩ := List.findIdx?_eq_some_iff_getElem.mp found
    rw [List.getElem?_eq_getElem inRange, Option.some.injEq] at peeked
    subst peeked
    exact ⟨List.getElem_mem inRange, isTop_iff.mp isTop⟩

/-- A heap of a total preorder that is not empty has a top. -/
theorem peek_isSome [Std.TransCmp cmp] {contents : List α} (nonempty : contents ≠ []) :
    ∃ top, peek cmp contents = some top := by
  obtain ⟨top, member, isTop⟩ : ∃ top ∈ contents, IsTop cmp contents top = true :=
    exists_isTop nonempty
  have found : (topIndex? cmp contents).isSome = true := by
    rw [topIndex?, List.findIdx?_isSome, List.any_eq_true]
    exact ⟨top, member, isTop⟩
  obtain ⟨index, indexIs⟩ := Option.isSome_iff_exists.mp found
  have inRange := (List.findIdx?_eq_some_iff_getElem.mp indexIs).1
  refine ⟨contents[index], ?_⟩
  simp only [peek, indexIs, List.getElem?_eq_getElem inRange]

/-- Where no two elements compare equal, the greatest element is the only one. -/
theorem peek_unique [Std.OrientedCmp cmp] {contents : List α} {top other : α}
    (peeked : peek cmp contents = some top) (member : other ∈ contents)
    (otherIsTop : ∀ element ∈ contents, cmp element other ≠ .gt)
    (distinct : ∀ first ∈ contents, ∀ second ∈ contents, cmp first second = .eq → first = second) :
    other = top := by
  obtain ⟨topMember, topIsTop⟩ := peek_spec peeked
  have notAbove : cmp other top ≠ .gt := topIsTop other member
  have notBelow : cmp other top ≠ .lt := by
    intro below
    exact otherIsTop top topMember (Std.OrientedCmp.gt_of_lt below)
  apply distinct other member top topMember
  cases compared : cmp other top <;> simp_all

/-- `modifyTop` changes the heap at the position of the element `peek` returns. -/
theorem modifyTop_of_peek {contents : List α} {top : α} (f : α → α)
    (peeked : peek cmp contents = some top) :
    ∃ index, contents[index]? = some top ∧ modifyTop cmp f contents = contents.modify index f := by
  unfold peek at peeked
  unfold modifyTop
  split at peeked
  · cases peeked
  · rename_i index found
    exact ⟨index, peeked, rfl⟩

/-! ## Changing one element of a list with distinct keys -/

/-- Changing the element at one position, of a list whose keys are distinct, is changing the
element with that key. -/
theorem modify_eq_map_of_key {β : Type} [DecidableEq β] {key : α → β} {contents : List α}
    {index : Nat} {top : α}
    (distinct : (contents.map key).Nodup) (at_ : contents[index]? = some top) (f : α → α) :
    contents.modify index f = contents.map fun element => if key element = key top then f element
      else element := by
  apply List.ext_getElem?
  intro position
  rw [List.getElem?_modify, List.getElem?_map]
  cases found : contents[position]? with
  | none => rfl
  | some element =>
    simp only [Option.map_some, Option.map_eq_map]
    by_cases samePosition : index = position
    · subst samePosition
      rw [at_] at found
      cases found
      simp
    · have otherKey : key element ≠ key top := by
        intro sameKey
        obtain ⟨inRange, elementIs⟩ := List.getElem?_eq_some_iff.mp found
        obtain ⟨topInRange, topIs⟩ := List.getElem?_eq_some_iff.mp at_
        have mappedInRange : position < (contents.map key).length := by simpa using inRange
        have topMappedInRange : index < (contents.map key).length := by simpa using topInRange
        have sameEntry : (contents.map key)[index] = (contents.map key)[position] := by
          simp [elementIs, topIs, sameKey]
        exact samePosition ((List.getElem_inj distinct).mp sameEntry)
      simp [samePosition, otherKey]

end Heap

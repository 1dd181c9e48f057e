import Mathlib

/-!
# Sparse arrays

A sparse array over the indices `0 ..= bound` holds a value or nothing at each index, and
nothing past the bound.  This is the abstract model of an array data structure that
stores only its present entries: `set` and `erase` change one index, and `count` is the
number of present entries, which can never pass `bound + 1`.
-/

/-- A sparse array over the indices `0 ..= bound`. -/
structure SparseArray (V : Type) (bound : Nat) where
  get : Nat → Option V
  none_of_gt : ∀ j, bound < j → get j = none

namespace SparseArray

variable {V : Type} {bound : Nat}

/-- The array with no entries. -/
def empty : SparseArray V bound :=
  ⟨fun _ => none, fun _ _ => rfl⟩

/-- Store `v` at `i`; an index past the bound leaves the array as it is. -/
def set (a : SparseArray V bound) (i : Nat) (v : V) : SparseArray V bound :=
  if inRange : i ≤ bound then
    ⟨Function.update a.get i (some v), fun j past => by
      have other : j ≠ i := by omega
      rw [Function.update_of_ne other]
      exact a.none_of_gt j past⟩
  else a

/-- Remove the entry at `i`, if any. -/
def erase (a : SparseArray V bound) (i : Nat) : SparseArray V bound :=
  ⟨Function.update a.get i none, fun j past => by
    by_cases same : j = i
    · rw [same, Function.update_self]
    · rw [Function.update_of_ne same]
      exact a.none_of_gt j past⟩

/-- The indices that hold a value. -/
def indices (a : SparseArray V bound) : Finset Nat :=
  (Finset.range (bound + 1)).filter fun j => (a.get j).isSome

/-- The number of present entries. -/
def count (a : SparseArray V bound) : Nat :=
  a.indices.card

@[simp]
theorem get_empty (j : Nat) : (empty : SparseArray V bound).get j = none :=
  rfl

theorem get_set {a : SparseArray V bound} {i : Nat} (inRange : i ≤ bound) (v : V) (j : Nat) :
    (a.set i v).get j = if j = i then some v else a.get j := by
  simp only [set, dif_pos inRange, Function.update_apply]

/-- Read at an index in range, storing anywhere changes that index only: an index past
the bound is never stored. -/
theorem get_set_of_le {a : SparseArray V bound} {j : Nat} (inRange : j ≤ bound) (i : Nat)
    (v : V) : (a.set i v).get j = if j = i then some v else a.get j := by
  by_cases storable : i ≤ bound
  · exact get_set storable v j
  · have other : j ≠ i := by omega
    rw [set, dif_neg storable, if_neg other]

@[simp]
theorem get_erase (a : SparseArray V bound) (i j : Nat) :
    (a.erase i).get j = if j = i then none else a.get j :=
  Function.update_apply _ _ _ _

theorem mem_indices {a : SparseArray V bound} {j : Nat} :
    j ∈ a.indices ↔ (a.get j).isSome := by
  simp only [indices, Finset.mem_filter, Finset.mem_range, and_iff_right_iff_imp]
  intro present
  by_contra past
  rw [a.none_of_gt j (by omega)] at present
  cases present

@[simp]
theorem count_empty : (empty : SparseArray V bound).count = 0 := by
  simp [count, indices]

theorem count_le (a : SparseArray V bound) : a.count ≤ bound + 1 := by
  calc a.count ≤ (Finset.range (bound + 1)).card := Finset.card_filter_le _ _
    _ = bound + 1 := Finset.card_range _

/-- An array with a free index in range is not full. -/
theorem count_lt_of_absent {a : SparseArray V bound} {i : Nat} (inRange : i ≤ bound)
    (absent : a.get i = none) : a.count < bound + 1 := by
  have missing : i ∉ a.indices := by
    simp [mem_indices, absent]
  have strict : a.indices ⊂ Finset.range (bound + 1) :=
    Finset.ssubset_iff_subset_ne.mpr
      ⟨Finset.filter_subset _ _, fun equal => missing (equal ▸ Finset.mem_range.mpr (by omega))⟩
  calc a.count < (Finset.range (bound + 1)).card := Finset.card_lt_card strict
    _ = bound + 1 := Finset.card_range _

theorem indices_set {a : SparseArray V bound} {i : Nat} (inRange : i ≤ bound) (v : V) :
    (a.set i v).indices = insert i a.indices := by
  ext j
  rw [mem_indices, Finset.mem_insert, mem_indices, get_set inRange]
  by_cases same : j = i <;> simp [same]

theorem indices_erase (a : SparseArray V bound) (i : Nat) :
    (a.erase i).indices = a.indices.erase i := by
  ext j
  rw [mem_indices, Finset.mem_erase, mem_indices, get_erase]
  by_cases same : j = i <;> simp [same]

/-- Storing at an index adds one entry exactly when the index was free. -/
theorem count_set {a : SparseArray V bound} {i : Nat} (inRange : i ≤ bound) (v : V) :
    (a.set i v).count = if (a.get i).isSome then a.count else a.count + 1 := by
  rw [count, indices_set inRange]
  by_cases present : (a.get i).isSome
  · rw [if_pos present, Finset.insert_eq_of_mem (mem_indices.mpr present)]
    rfl
  · rw [if_neg present, Finset.card_insert_of_notMem (fun mem => present (mem_indices.mp mem))]
    rfl

/-- Erasing an index removes one entry exactly when the index held one. -/
theorem count_erase (a : SparseArray V bound) (i : Nat) :
    (a.erase i).count = if (a.get i).isSome then a.count - 1 else a.count := by
  rw [count, indices_erase]
  by_cases present : (a.get i).isSome
  · rw [if_pos present, Finset.card_erase_of_mem (mem_indices.mpr present)]
    rfl
  · rw [if_neg present, Finset.erase_eq_of_notMem (fun mem => present (mem_indices.mp mem))]
    rfl

/-- An array whose present indices are exactly those below `n` has `n` entries. -/
theorem count_eq_of_get {a : SparseArray V bound} {n : Nat}
    (present : ∀ j, (a.get j).isSome ↔ j < n) : a.count = n := by
  have indicesEq : a.indices = Finset.range n := by
    ext j
    rw [mem_indices, present, Finset.mem_range]
  rw [count, indicesEq, Finset.card_range]

theorem count_pos_of_present {a : SparseArray V bound} {i : Nat} (present : (a.get i).isSome) :
    0 < a.count :=
  Finset.card_pos.mpr ⟨i, mem_indices.mpr present⟩

end SparseArray

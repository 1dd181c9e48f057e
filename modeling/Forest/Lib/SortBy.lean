import Mathlib.Data.List.Perm.Basic
import Mathlib.Data.List.Sort

/-!
# Stable insertion sort with a monadic comparison

`slice::sort_by` with a comparator that may fail or read state is modelled by a stable
insertion sort in any monad.  An element goes after every element before it that is not
greater, so equal elements keep their order.  When the comparison is a total order this
is the order every stable sort produces.

`slice::sort_by_cached_key` is a stable sort by a key; `sortByCachedKey` is Lean's merge
sort by the same key, which is stable too, so the two agree on every input.
-/

namespace List

variable {m : Type → Type} [Monad m] {α : Type}

/-- Insert `x` before the first element `y` of a sorted list with `¬ isLess y x`. -/
def orderedInsertM (isLess : α → α → m Bool) (x : α) : List α → m (List α)
  | [] => pure [x]
  | y :: ys => do
    if (← isLess y x) then
      return y :: (← orderedInsertM isLess x ys)
    else
      return x :: y :: ys

/-- Stable insertion sort by `isLess`. -/
def insertionSortM (isLess : α → α → m Bool) : List α → m (List α)
  | [] => pure []
  | x :: xs => do
    orderedInsertM isLess x (← insertionSortM isLess xs)

section CachedKey

variable {α β κ : Type} [LinearOrder κ]

/-- Stable sort by a key computed from each element. -/
def sortByCachedKey (key : α → κ) (xs : List α) : List α :=
  xs.mergeSort fun a b => decide (key a ≤ key b)

variable {key : α → κ}

theorem sortByCachedKey_perm (xs : List α) : sortByCachedKey key xs ~ xs :=
  mergeSort_perm _ _

@[simp] theorem length_sortByCachedKey (xs : List α) :
    (sortByCachedKey key xs).length = xs.length :=
  length_mergeSort _

theorem sortByCachedKey_sorted (xs : List α) :
    (sortByCachedKey key xs).Pairwise fun a b => key a ≤ key b := by
  have transitive : ∀ a b c : α, decide (key a ≤ key b) = true →
      decide (key b ≤ key c) = true → decide (key a ≤ key c) = true := by
    intro a b c below above
    simp only [decide_eq_true_eq] at below above ⊢
    exact le_trans below above
  have total : ∀ a b : α, (decide (key a ≤ key b) || decide (key b ≤ key a)) = true := by
    intro a b
    simpa using le_total (key a) (key b)
  simpa [sortByCachedKey] using pairwise_mergeSort transitive total xs

/-- When the key tells the elements apart, the sorted list depends only on the elements,
not on their order. -/
theorem sortByCachedKey_eq_of_perm {xs ys : List α}
    (injective : ∀ a ∈ xs, ∀ b ∈ xs, key a = key b → a = b) (perm : ys ~ xs) :
    sortByCachedKey key ys = sortByCachedKey key xs := by
  have samePerm : sortByCachedKey key ys ~ sortByCachedKey key xs :=
    (sortByCachedKey_perm ys).trans (perm.trans (sortByCachedKey_perm xs).symm)
  refine samePerm.eq_of_pairwise (fun a b inYs inXs below above => ?_)
    (sortByCachedKey_sorted ys) (sortByCachedKey_sorted xs)
  have aInXs : a ∈ xs := perm.subset ((sortByCachedKey_perm ys).subset inYs)
  have bInXs : b ∈ xs := (sortByCachedKey_perm xs).subset inXs
  exact injective a aInXs b bInXs (le_antisymm below above)

end CachedKey

section Threshold

variable {α : Type} {p : α → Bool}

/-- When every element before one that passes the test passes it too, the elements that pass
form a prefix: the ones `takeWhile` keeps. -/
theorem takeWhile_eq_filter_of_pairwise {l : List α}
    (closed : l.Pairwise fun earlier later => p later = true → p earlier = true) :
    l.takeWhile p = l.filter p := by
  induction l with
  | nil => rfl
  | cons head tail inductionHypothesis =>
    by_cases passes : p head = true
    · rw [takeWhile_cons_of_pos passes, filter_cons_of_pos passes,
        inductionHypothesis closed.of_cons]
    · rw [takeWhile_cons_of_neg passes, filter_cons_of_neg passes, eq_comm, filter_eq_nil_iff]
      exact fun later member laterPasses => passes (rel_of_pairwise_cons closed member laterPasses)

/-- Under the same condition the elements that fail the test are the ones `dropWhile` keeps. -/
theorem dropWhile_eq_filter_of_pairwise {l : List α}
    (closed : l.Pairwise fun earlier later => p later = true → p earlier = true) :
    l.dropWhile p = l.filter fun a => !p a := by
  induction l with
  | nil => rfl
  | cons head tail inductionHypothesis =>
    by_cases passes : p head = true
    · rw [dropWhile_cons_of_pos passes, filter_cons_of_neg (by simp [passes]),
        inductionHypothesis closed.of_cons]
    · rw [dropWhile_cons_of_neg passes, filter_cons_of_pos (by simpa using passes)]
      congr 1
      rw [eq_comm, filter_eq_self]
      intro later member
      have laterFails : p later = false := by
        by_contra laterPasses
        exact passes (rel_of_pairwise_cons closed member (by simpa using laterPasses))
      simp [laterFails]

end Threshold

end List

import Mathlib.Data.List.Basic

/-!
# Binary search by a comparator

`<[T]>::binary_search_by` halves a window `[left, right)` of the slice around a probe until
the comparator answers `Equal` at the probe (`Ok(mid)`) or the window is empty
(`Err(left)`).  The result is `Except Nat Nat`, with `Err` as `.error`.  The loop runs on
`fuel`: the window shrinks in every round, so one more round than the length is enough.
-/

namespace List

variable {α : Type}

/-- The loop of `binary_search_by` over the window `[left, right)` of size `size`. -/
def binarySearchByLoop (items : List α) (compare : α → Ordering) :
    Nat → Nat → Nat → Nat → Except Nat Nat
  | 0, left, _, _ => .error left
  | fuel + 1, left, right, size =>
    if left < right then
      let mid := left + size / 2
      match items[mid]? with
      | some item =>
        match compare item with
        | .lt => binarySearchByLoop items compare fuel (mid + 1) right (right - (mid + 1))
        | .gt => binarySearchByLoop items compare fuel left mid (mid - left)
        | .eq => .ok mid
      | none => .error left
    else
      .error left

/-- `<[T]>::binary_search_by`. -/
def binarySearchBy (items : List α) (compare : α → Ordering) : Except Nat Nat :=
  binarySearchByLoop items compare (items.length + 1) 0 items.length items.length

end List

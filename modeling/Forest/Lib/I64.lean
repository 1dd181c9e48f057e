import Mathlib

/-!
# Signed 64-bit integers as integers

An `i64` is an integer in `[-2 ^ 63, 2 ^ 63)`.  A release build wraps on overflow instead of
panicking: `wrap` brings any integer back into range modulo `2 ^ 64`, and `tryFrom` is
`i64::try_from` of a `BigInt`, which fails outside the range.  The casts `as usize` and
`as i64` between `i64` and a 64-bit `usize` keep the two's complement bits: `toUsize` and
`ofUsize` are inverse on the two ranges, and the negative numbers land above `2 ^ 63`.
-/

namespace I64

/-- The integers an `i64` can hold. -/
def InRange (x : Int) : Prop := -2 ^ 63 ≤ x ∧ x < 2 ^ 63

instance (x : Int) : Decidable (InRange x) := inferInstanceAs (Decidable (_ ∧ _))

/-- The two's complement wrap of an integer into the `i64` range. -/
def wrap (x : Int) : Int := (x + 2 ^ 63) % 2 ^ 64 - 2 ^ 63

/-- Wrapping addition `a + b` on `i64`: the `+=` of a release build. -/
def wrappingAdd (a b : Int) : Int := wrap (a + b)

/-- Wrapping subtraction `a - b` on `i64`. -/
def wrappingSub (a b : Int) : Int := wrap (a - b)

/-- Wrapping multiplication `a * b` on `i64`. -/
def wrappingMul (a b : Int) : Int := wrap (a * b)

/-- `a / b` on `i64`: rounds toward zero, and panics on a zero divisor and on `MIN / -1` in
every build. -/
def checkedDiv (a b : Int) : Except String Int :=
  if b = 0 then .error "attempt to divide by zero"
  else if a = -2 ^ 63 ∧ b = -1 then .error "attempt to divide with overflow"
  else .ok (a.tdiv b)

/-- `i64::try_from(x)` for a `BigInt` `x`. -/
def tryFrom (x : Int) : Option Int := if InRange x then some x else none

/-- `x as usize` for an `i64` `x`: its two's complement bits read as an unsigned word. -/
def toUsize (x : Int) : Nat := (x % 2 ^ 64).toNat

/-- `i as i64` for a `usize` `i`: a word from `2 ^ 63` on reads as a negative number. -/
def ofUsize (i : Nat) : Int := if i < 2 ^ 63 then i else (i : Int) - 2 ^ 64

theorem wrap_of_inRange {x : Int} (inRange : InRange x) : wrap x = x := by
  unfold wrap
  rw [Int.emod_eq_of_lt (by unfold InRange at inRange; omega) (by unfold InRange at inRange; omega)]
  omega

theorem inRange_wrap (x : Int) : InRange (wrap x) := by
  unfold InRange wrap
  have low := Int.emod_nonneg (x + 2 ^ 63) (by decide : (2 : Int) ^ 64 ≠ 0)
  have high := Int.emod_lt_of_pos (x + 2 ^ 63) (by decide : (0 : Int) < 2 ^ 64)
  omega

/-- Wrapping an intermediate result changes no later wrapped sum. -/
theorem wrap_wrap_add (a b : Int) : wrap (wrap a + b) = wrap (a + b) := by
  unfold wrap
  rw [show (a + 2 ^ 63) % 2 ^ 64 - 2 ^ 63 + b + 2 ^ 63 = (a + 2 ^ 63) % 2 ^ 64 + b by ring,
    Int.emod_add_emod, show a + 2 ^ 63 + b = a + b + 2 ^ 63 by ring]

theorem wrappingSub_of_inRange {a b : Int} (inRange : InRange (a - b)) :
    wrappingSub a b = a - b :=
  wrap_of_inRange inRange

/-- A number that is not negative, divided by a positive one, is floored. -/
theorem checkedDiv_of_pos {a b : Int} (nonneg : 0 ≤ a) (positive : 0 < b) :
    checkedDiv a b = .ok (a / b) := by
  have notZero : b ≠ 0 := by omega
  have notMin : ¬ (a = -2 ^ 63 ∧ b = -1) := by omega
  simp only [checkedDiv, notZero, notMin, if_false, Int.tdiv_eq_ediv_of_nonneg nonneg]

theorem tryFrom_of_inRange {x : Int} (inRange : InRange x) : tryFrom x = some x := by
  simp [tryFrom, inRange]

theorem toUsize_cast (x : Int) : (toUsize x : Int) = x % 2 ^ 64 :=
  Int.toNat_of_nonneg (Int.emod_nonneg x (by decide))

theorem ofUsize_toUsize {x : Int} (inRange : InRange x) : ofUsize (toUsize x) = x := by
  unfold InRange at inRange
  have cast := toUsize_cast x
  unfold ofUsize
  split <;> omega

theorem toUsize_ofUsize {i : Nat} (below : i < 2 ^ 64) : toUsize (ofUsize i) = i := by
  by_cases low : i < 2 ^ 63
  · have value : ofUsize i = i := if_pos low
    have cast := toUsize_cast i
    rw [value]
    omega
  · have value : ofUsize i = (i : Int) - 2 ^ 64 := if_neg low
    have cast := toUsize_cast ((i : Int) - 2 ^ 64)
    rw [value]
    omega

/-- The cast of a word to `i64` is one to one. -/
theorem ofUsize_injective {i j : Nat} (iBelow : i < 2 ^ 64) (jBelow : j < 2 ^ 64)
    (same : ofUsize i = ofUsize j) : i = j := by
  rw [← toUsize_ofUsize iBelow, ← toUsize_ofUsize jBelow, same]

/-- The cast to `usize` is one to one on the `i64` range. -/
theorem toUsize_injective {x y : Int} (xInRange : InRange x) (yInRange : InRange y)
    (same : toUsize x = toUsize y) : x = y := by
  rw [← ofUsize_toUsize xInRange, ← ofUsize_toUsize yInRange, same]

/-- A word reads as a non-negative `i64` exactly when it is below `2 ^ 63`. -/
theorem ofUsize_nonneg_iff {i : Nat} (below : i < 2 ^ 64) : 0 ≤ ofUsize i ↔ i < 2 ^ 63 := by
  unfold ofUsize
  split <;> omega

/-- A word below `2 ^ 63` reads as itself. -/
theorem ofUsize_of_lt {i : Nat} (below : i < 2 ^ 63) : ofUsize i = i :=
  if_pos below

/-- A non-negative `i64` casts to the word of the same value. -/
theorem toUsize_of_nonneg {x : Int} (nonneg : 0 ≤ x) (below : x < 2 ^ 64) :
    toUsize x = x.toNat := by
  have cast := toUsize_cast x
  rw [Int.emod_eq_of_lt nonneg below] at cast
  omega

/-- Below `2 ^ 63` the cast back to `i64` keeps the order of the words. -/
theorem ofUsize_le_ofUsize {i j : Nat} (le : i ≤ j) (below : j < 2 ^ 63) :
    ofUsize i ≤ ofUsize j := by
  rw [ofUsize_of_lt (show i < 2 ^ 63 by omega), ofUsize_of_lt below]
  omega

end I64

import Mathlib

/-!
# Rounding to a grid

The grid of step `unit` through `offset` is the set of integers congruent to `offset`
modulo `unit`.  `ceilTo` rounds an integer up to the grid and `floorTo` rounds it down, with
the floored remainder `%` of `Int`, so both are right for negative arguments as well.

Each is characterised by three laws: it lies on the right side of the argument, less than
one step away, and on the grid.  Two points of the grid less than one step apart are equal
(`eq_of_modEq_of_near`), so these laws determine the rounding (`ceilTo_eq_of`,
`floorTo_eq_of`); that is how a rounding written some other way, with truncating division
and sign tests, is shown to be this one.  Leastness, monotonicity and idempotence follow.
`tmod_bounds` gives the sign and size of the truncating remainder that such code uses.
-/

namespace Grid

/-- The least integer at or above `x` on the grid of step `unit` through `offset`. -/
def ceilTo (unit offset x : Int) : Int :=
  x + (offset - x) % unit

/-- The greatest integer at or below `x` on the grid of step `unit` through `offset`. -/
def floorTo (unit offset x : Int) : Int :=
  x - (x - offset) % unit

section Laws

variable {unit : Int}

/-- Two points of one grid less than one step apart are the same point. -/
theorem eq_of_modEq_of_near {a b : Int} (congruent : a ≡ b [ZMOD unit])
    (nearAbove : b - a < unit) (nearBelow : a - b < unit) : a = b := by
  have divides : unit ∣ b - a := Int.modEq_iff_dvd.mp congruent
  have zero : b - a = 0 :=
    Int.eq_zero_of_abs_lt_dvd divides (abs_lt.mpr ⟨by omega, nearAbove⟩)
  omega

theorem le_ceilTo (positive : 0 < unit) (offset x : Int) : x ≤ ceilTo unit offset x := by
  have remainder := Int.emod_nonneg (offset - x) (Int.ne_of_gt positive)
  unfold ceilTo
  omega

theorem ceilTo_sub_lt (positive : 0 < unit) (offset x : Int) : ceilTo unit offset x - x < unit := by
  have remainder := Int.emod_lt_of_pos (offset - x) positive
  unfold ceilTo
  omega

theorem ceilTo_modEq (offset x : Int) : ceilTo unit offset x ≡ offset [ZMOD unit] := by
  have shifted := (Int.mod_modEq (offset - x) unit).add_left x
  rwa [add_sub_cancel] at shifted

/-- The three laws determine the rounding up. -/
theorem ceilTo_eq_of (positive : 0 < unit) {offset x y : Int} (above : x ≤ y) (near : y - x < unit)
    (congruent : y ≡ offset [ZMOD unit]) : ceilTo unit offset x = y := by
  have atLeast := le_ceilTo positive offset x
  have within := ceilTo_sub_lt positive offset x
  exact eq_of_modEq_of_near ((ceilTo_modEq offset x).trans congruent.symm)
    (by omega) (by omega)

/-- Rounding up gives the least point of the grid at or above the argument. -/
theorem ceilTo_le (positive : 0 < unit) {offset x y : Int} (above : x ≤ y)
    (congruent : y ≡ offset [ZMOD unit]) : ceilTo unit offset x ≤ y := by
  by_contra beyond
  have within := ceilTo_sub_lt positive offset x
  have same := eq_of_modEq_of_near ((ceilTo_modEq offset x).trans congruent.symm)
    (by omega) (by omega)
  omega

theorem ceilTo_mono (positive : 0 < unit) (offset : Int) : Monotone (ceilTo unit offset) := by
  intro x y below
  exact ceilTo_le positive (below.trans (le_ceilTo positive offset y)) (ceilTo_modEq offset y)

theorem ceilTo_ceilTo (positive : 0 < unit) (offset x : Int) :
    ceilTo unit offset (ceilTo unit offset x) = ceilTo unit offset x :=
  ceilTo_eq_of positive le_rfl (by omega) (ceilTo_modEq offset x)

theorem floorTo_le (positive : 0 < unit) (offset x : Int) : floorTo unit offset x ≤ x := by
  have remainder := Int.emod_nonneg (x - offset) (Int.ne_of_gt positive)
  unfold floorTo
  omega

theorem sub_floorTo_lt (positive : 0 < unit) (offset x : Int) : x - floorTo unit offset x < unit := by
  have remainder := Int.emod_lt_of_pos (x - offset) positive
  unfold floorTo
  omega

theorem floorTo_modEq (offset x : Int) : floorTo unit offset x ≡ offset [ZMOD unit] := by
  have shifted := ((Int.mod_modEq (x - offset) unit).sub_left x)
  rwa [sub_sub_cancel] at shifted

/-- The three laws determine the rounding down. -/
theorem floorTo_eq_of (positive : 0 < unit) {offset x y : Int} (below : y ≤ x) (near : x - y < unit)
    (congruent : y ≡ offset [ZMOD unit]) : floorTo unit offset x = y := by
  have atMost := floorTo_le positive offset x
  have within := sub_floorTo_lt positive offset x
  exact eq_of_modEq_of_near ((floorTo_modEq offset x).trans congruent.symm)
    (by omega) (by omega)

/-- Rounding down gives the greatest point of the grid at or below the argument. -/
theorem le_floorTo (positive : 0 < unit) {offset x y : Int} (below : y ≤ x)
    (congruent : y ≡ offset [ZMOD unit]) : y ≤ floorTo unit offset x := by
  by_contra beyond
  have within := sub_floorTo_lt positive offset x
  have same := eq_of_modEq_of_near ((floorTo_modEq offset x).trans congruent.symm)
    (by omega) (by omega)
  omega

/-- The truncating remainder `Int.tmod` has the sign of the dividend and is less than one
step in size. -/
theorem tmod_bounds (positive : 0 < unit) (a : Int) :
    (0 ≤ a → 0 ≤ a.tmod unit) ∧ (a < 0 → a.tmod unit ≤ 0) ∧
      -unit < a.tmod unit ∧ a.tmod unit < unit := by
  -- a negative dividend is the negation of a positive one
  have negated := Int.neg_tmod a unit
  refine ⟨Int.tmod_nonneg unit, fun negative => ?_, ?_, Int.tmod_lt_of_pos a positive⟩
  · have flipped := Int.tmod_nonneg unit (show 0 ≤ -a by omega)
    omega
  · have flipped := Int.tmod_lt_of_pos (-a) positive
    omega

/-- Rounding down is rounding up, less one step unless the argument is on the grid. -/
theorem floorTo_eq_ceilTo (positive : 0 < unit) (offset x : Int) :
    floorTo unit offset x =
      if x = ceilTo unit offset x then ceilTo unit offset x else ceilTo unit offset x - unit := by
  have atLeast := le_ceilTo positive offset x
  have within := ceilTo_sub_lt positive offset x
  split
  · next onGrid =>
    exact floorTo_eq_of positive (by omega) (by omega) (ceilTo_modEq offset x)
  · next offGrid =>
    exact floorTo_eq_of positive (by omega) (by omega)
      (Int.sub_modulus_modEq_iff.mpr (ceilTo_modEq offset x))

end Laws

end Grid

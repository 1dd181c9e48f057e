import Mathlib

/-!
# Machine words as natural numbers

A 64-bit `usize` is a natural number below `2 ^ 64`.  The wrapping operations here follow a
release build, where arithmetic wraps instead of panicking and a shift by the word size
or more is taken modulo 64.  `checkedSub` is the subtraction of a build with overflow
checks, where an underflow panics: a model that uses it makes an underflow visible as an
error, so that a run that returns a value did not underflow.
-/

namespace Usize

/-- `usize::MAX`. -/
def max : Nat := 2 ^ 64 - 1

/-- Wrapping addition `a + b` on `usize`. -/
def wrappingAdd (a b : Nat) : Nat :=
  (a + b) % 2 ^ 64

/-- Wrapping subtraction `a - b` on `usize`. -/
def wrappingSub (a b : Nat) : Nat :=
  (a + 2 ^ 64 - b % 2 ^ 64) % 2 ^ 64

/-- `a - b` with overflow checks: an underflow panics. -/
def checkedSub (a b : Nat) : Except String Nat :=
  if b ≤ a then .ok (a - b) else .error "attempt to subtract with overflow"

/-- Wrapping multiplication `a * b` on `usize`. -/
def wrappingMul (a b : Nat) : Nat :=
  (a * b) % 2 ^ 64

/-- `1 << shift` on `usize`: the shift amount is taken modulo 64. -/
def oneShl (shift : Nat) : Nat :=
  2 ^ (shift % 64)

theorem wrappingAdd_of_lt {a b : Nat} (h : a + b < 2 ^ 64) : wrappingAdd a b = a + b :=
  Nat.mod_eq_of_lt h

theorem wrappingMul_of_lt {a b : Nat} (h : a * b < 2 ^ 64) : wrappingMul a b = a * b :=
  Nat.mod_eq_of_lt h

theorem wrappingSub_of_le {a b : Nat} (below : a < 2 ^ 64) (le : b ≤ a) :
    wrappingSub a b = a - b := by
  unfold wrappingSub
  have small : b % 2 ^ 64 = b := Nat.mod_eq_of_lt (by omega)
  rw [small]
  have : a + 2 ^ 64 - b = (a - b) + 2 ^ 64 := by omega
  rw [this, Nat.add_mod_right, Nat.mod_eq_of_lt (by omega)]

theorem checkedSub_of_le {a b : Nat} (le : b ≤ a) : checkedSub a b = .ok (a - b) :=
  if_pos le

theorem wrappingAdd_le_max (a b : Nat) : wrappingAdd a b ≤ max := by
  have below : (a + b) % 2 ^ 64 < 2 ^ 64 := Nat.mod_lt _ (by decide)
  unfold wrappingAdd max
  omega

end Usize

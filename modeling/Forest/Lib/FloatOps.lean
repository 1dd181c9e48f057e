import Mathlib.Data.Rat.Defs

/-!
# Floating-point arithmetic as a parameter

A program that computes with `f64` is modelled over an arbitrary carrier `F` with the
operations it uses.  Nothing is assumed of them, so a property proved over `FloatOps F`
holds for every rounding and every outcome of a comparison, IEEE 754 doubles included.
The rationals with their exact operations are one instance, on which a model runs.
-/

/-- The operations of a floating-point type: conversions, arithmetic, the magnitude, the
two comparisons (both false on a NaN), and the machine epsilon. -/
structure FloatOps (F : Type) where
  ofRat : ℚ → F
  ofInt : Int → F
  add : F → F → F
  sub : F → F → F
  mul : F → F → F
  div : F → F → F
  abs : F → F
  lt : F → F → Bool
  le : F → F → Bool
  epsilon : F

namespace FloatOps

variable {F : Type} (fl : FloatOps F)

/-- The literal `0.0`. -/
def zero : F :=
  fl.ofRat 0

/-- IEEE equality `==`: each operand at most the other. -/
def eq (a b : F) : Bool :=
  fl.le a b && fl.le b a

/-- Exact rational arithmetic, with epsilon `2^-52`. -/
def rat : FloatOps ℚ where
  ofRat q := q
  ofInt n := n
  add := (· + ·)
  sub := (· - ·)
  mul := (· * ·)
  div := (· / ·)
  abs q := if q < 0 then -q else q
  lt a b := decide (a < b)
  le a b := decide (a ≤ b)
  epsilon := 1 / 2 ^ 52

end FloatOps

import Mathlib.Data.List.Induction
import Mathlib.Tactic.Ring

/-!
# Fixed-width digits

A number written with a fixed count of digits in a base, most significant digit first, as
positional codecs write it: a byte string is its digits in base 256, a base32 text its digits in
base 32, a decimal numeral its digits in base 10.  `toFixed base width n` is the `width` digits of
`n` (of `n` modulo `base ^ width`), and `ofFixed base digits` is the number the digits spell, read
by the left fold a parser runs.

The two are inverse on their domains (`ofFixed_toFixed`, `toFixed_ofFixed`), and the number of a
concatenation is the number of its first part shifted past the second (`foldl_eq`,
`ofFixed_append`), which is how a parser's intermediate values are bounded.
-/

namespace Digits

/-- The `width` digits of `n` in `base`, most significant first. -/
def toFixed (base : Nat) : Nat → Nat → List Nat
  | 0, _ => []
  | width + 1, n => toFixed base width (n / base) ++ [n % base]

/-- One step of reading digits: shift what is read so far and add the next digit. -/
def step (base number digit : Nat) : Nat :=
  number * base + digit

/-- The number spelled by `digits` in `base`, most significant first. -/
def ofFixed (base : Nat) (digits : List Nat) : Nat :=
  digits.foldl (step base) 0

@[simp]
theorem toFixed_zero (base n : Nat) : toFixed base 0 n = [] := rfl

theorem toFixed_succ (base width n : Nat) :
    toFixed base (width + 1) n = toFixed base width (n / base) ++ [n % base] := rfl

theorem step_eq (base number digit : Nat) : step base number digit = number * base + digit := rfl

theorem ofFixed_eq_foldl (base : Nat) (digits : List Nat) :
    ofFixed base digits = digits.foldl (step base) 0 := rfl

@[simp]
theorem length_toFixed (base width n : Nat) : (toFixed base width n).length = width := by
  induction width generalizing n with
  | zero => rfl
  | succ width inductionHypothesis => simp [toFixed_succ, inductionHypothesis]

theorem lt_of_mem_toFixed {base width n digit : Nat} (positive : 0 < base)
    (member : digit ∈ toFixed base width n) : digit < base := by
  induction width generalizing n with
  | zero => simp at member
  | succ width inductionHypothesis =>
    rw [toFixed_succ, List.mem_append, List.mem_singleton] at member
    rcases member with earlier | rfl
    · exact inductionHypothesis earlier
    · exact Nat.mod_lt n positive

/-- Reading on from `start` is reading from zero with `start` shifted past the digits. -/
theorem foldl_eq (base : Nat) (digits : List Nat) (start : Nat) :
    digits.foldl (step base) start = start * base ^ digits.length + ofFixed base digits := by
  induction digits generalizing start with
  | nil => simp [ofFixed_eq_foldl]
  | cons digit rest inductionHypothesis =>
    have fromDigit : ofFixed base (digit :: rest) =
        step base 0 digit * base ^ rest.length + ofFixed base rest :=
      inductionHypothesis (step base 0 digit)
    rw [List.foldl_cons, inductionHypothesis, fromDigit, List.length_cons, step_eq, step_eq, Nat.pow_succ]
    ring

@[simp]
theorem ofFixed_nil (base : Nat) : ofFixed base [] = 0 := rfl

theorem ofFixed_append (base : Nat) (first second : List Nat) :
    ofFixed base (first ++ second) =
      ofFixed base first * base ^ second.length + ofFixed base second := by
  rw [ofFixed_eq_foldl, List.foldl_append, foldl_eq]
  rfl

theorem ofFixed_append_singleton (base : Nat) (digits : List Nat) (digit : Nat) :
    ofFixed base (digits ++ [digit]) = ofFixed base digits * base + digit := by
  rw [ofFixed_append]
  simp [ofFixed_eq_foldl, step_eq]

/-- Digits read back give the number modulo the base to the width. -/
theorem ofFixed_toFixed (base width n : Nat) :
    ofFixed base (toFixed base width n) = n % base ^ width := by
  induction width generalizing n with
  | zero => simp [Nat.mod_one]
  | succ width inductionHypothesis =>
    rw [toFixed_succ, ofFixed_append_singleton, inductionHypothesis, Nat.pow_succ', Nat.mod_mul]
    ring

/-- Digits below the base are the digits of the number they spell. -/
theorem toFixed_ofFixed {base : Nat} {digits : List Nat}
    (small : ∀ digit ∈ digits, digit < base) :
    toFixed base digits.length (ofFixed base digits) = digits := by
  induction digits using List.reverseRecOn with
  | nil => rfl
  | append_singleton digits digit inductionHypothesis =>
    have below : digit < base := small digit (by simp)
    have earlier : ∀ digit ∈ digits, digit < base :=
      fun earlier member => small earlier (by simp [member])
    have quotient : (ofFixed base digits * base + digit) / base = ofFixed base digits := by
      rw [Nat.add_comm, Nat.add_mul_div_right _ _ (by omega), Nat.div_eq_of_lt below, Nat.zero_add]
    have remainder : (ofFixed base digits * base + digit) % base = digit := by
      rw [Nat.add_comm, Nat.add_mul_mod_self_right, Nat.mod_eq_of_lt below]
    rw [List.length_append, List.length_singleton, toFixed_succ, ofFixed_append_singleton, quotient,
      remainder, inductionHypothesis earlier]

/-- A numeral of `digits.length` digits spells a number below `base ^ digits.length`. -/
theorem ofFixed_lt {base : Nat} {digits : List Nat} (positive : 0 < base)
    (small : ∀ digit ∈ digits, digit < base) : ofFixed base digits < base ^ digits.length := by
  have readBack := congrArg (ofFixed base) (toFixed_ofFixed small)
  rw [ofFixed_toFixed] at readBack
  rw [← readBack]
  exact Nat.mod_lt _ (Nat.pow_pos positive)

/-- A prefix of a numeral spells at most the whole. -/
theorem le_foldl (base : Nat) (positive : 0 < base) (digits : List Nat) (start : Nat) :
    start ≤ digits.foldl (step base) start := by
  rw [foldl_eq]
  have shifted : start ≤ start * base ^ digits.length :=
    Nat.le_mul_of_pos_right start (Nat.pow_pos positive)
  omega

end Digits

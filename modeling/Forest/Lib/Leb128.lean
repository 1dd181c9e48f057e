import Mathlib.Data.List.Basic
import Mathlib.Tactic.Ring

/-!
# Unsigned LEB128

An unsigned LEB128 varint stores a number seven bits to a byte, lowest group first; every
byte but the last has its high bit set.  `encodeWithin slots n` is the encoder that fills
a buffer of `slots` bytes, as the fixed-size encoders of a machine word do: a `u64`
needs at most ten.

The lemmas give the shape of an encoding (the groups, the continuation bits, its
length) and say when a buffer is large enough for a number.

`readUnsignedFrom` is the decoder of a `u64`, `read::unsigned` of the `leb128` crate: it adds
the groups in from the lowest until a last byte, and at shift 63, where only one bit is left,
takes no byte but 0 and 1.  It reads back every encoding of a `u64`
(`readUnsignedFrom_encodeWithin`).
-/

namespace Leb128

/-- The varint of `n` in a buffer of `slots` bytes; a number too large for the buffer
loses its high groups. -/
def encodeWithin : Nat → Nat → List UInt8
  | 0, _ => []
  | slots + 1, n =>
    if n / 128 = 0 then [UInt8.ofNat (n % 128)]
    else UInt8.ofNat (n % 128 + 128) :: encodeWithin slots (n / 128)

/-- The payload of a byte: its low seven bits. -/
def payload (byte : UInt8) : Nat :=
  byte.toNat % 128

/-- Whether a byte is the last of a varint: its high bit is clear. -/
def isLast (byte : UInt8) : Bool :=
  byte.toNat < 128

/-- `read::unsigned`, from `shift` with `result` read so far: the value and the bytes after it,
or `none` for the crate's errors (the input ends, or the value overflows a `u64`).  The groups
occupy disjoint bits, so the crate's `result |= low_bits << shift` adds them. -/
def readUnsignedFrom (shift result : Nat) : List UInt8 → Option (Nat × List UInt8)
  | [] => none
  | byte :: rest =>
    if shift = 63 ∧ byte ≠ 0 ∧ byte ≠ 1 then none
    else if isLast byte then some (result + payload byte * 2 ^ shift, rest)
    else readUnsignedFrom (shift + 7) (result + payload byte * 2 ^ shift) rest

theorem encodeWithin_last {slots n : Nat} (small : n < 128) :
    encodeWithin (slots + 1) n = [UInt8.ofNat n] := by
  have noMore : n / 128 = 0 := Nat.div_eq_of_lt small
  rw [encodeWithin, if_pos noMore, Nat.mod_eq_of_lt small]

theorem encodeWithin_more {slots n : Nat} (large : 128 ≤ n) :
    encodeWithin (slots + 1) n =
      UInt8.ofNat (n % 128 + 128) :: encodeWithin slots (n / 128) := by
  have more : n / 128 ≠ 0 := by omega
  rw [encodeWithin, if_neg more]

theorem toNat_ofNat_group (n : Nat) : (UInt8.ofNat (n % 128)).toNat = n % 128 := by
  rw [UInt8.toNat_ofNat', Nat.mod_eq_of_lt (by omega)]

theorem toNat_ofNat_continued (n : Nat) :
    (UInt8.ofNat (n % 128 + 128)).toNat = n % 128 + 128 := by
  rw [UInt8.toNat_ofNat', Nat.mod_eq_of_lt (by omega)]

@[simp]
theorem payload_ofNat_group (n : Nat) : payload (UInt8.ofNat (n % 128)) = n % 128 := by
  rw [payload, toNat_ofNat_group, Nat.mod_mod]

@[simp]
theorem payload_ofNat_continued (n : Nat) :
    payload (UInt8.ofNat (n % 128 + 128)) = n % 128 := by
  rw [payload, toNat_ofNat_continued]
  omega

@[simp]
theorem isLast_ofNat_group (n : Nat) : isLast (UInt8.ofNat (n % 128)) = true := by
  rw [isLast, toNat_ofNat_group]
  simpa using Nat.mod_lt n (by decide)

theorem isLast_ofNat_of_lt {n : Nat} (small : n < 128) : isLast (UInt8.ofNat n) = true := by
  simpa [Nat.mod_eq_of_lt small] using isLast_ofNat_group n

@[simp]
theorem isLast_ofNat_continued (n : Nat) : isLast (UInt8.ofNat (n % 128 + 128)) = false := by
  rw [isLast, toNat_ofNat_continued]
  simp

theorem pow_seven_succ (slots : Nat) : 2 ^ (7 * (slots + 1)) = 2 ^ (7 * slots) * 128 := by
  rw [Nat.mul_add, Nat.pow_add]

/-- The groups after the first of a number that fits in `slots + 1` bytes fit in `slots`. -/
theorem div_lt_of_lt {slots n : Nat} (fits : n < 2 ^ (7 * (slots + 1))) :
    n / 128 < 2 ^ (7 * slots) := by
  rw [Nat.div_lt_iff_lt_mul (by decide), ← pow_seven_succ]
  exact fits

/-- Slots beyond those a number needs do not change its encoding. -/
theorem encodeWithin_of_lt {slots n : Nat} (fits : n < 2 ^ (7 * (slots + 1))) (moreSlots : Nat)
    (enough : slots + 1 ≤ moreSlots) : encodeWithin moreSlots n = encodeWithin (slots + 1) n := by
  induction slots generalizing n moreSlots with
  | zero =>
    have small : n < 128 := by simpa using fits
    obtain ⟨fewer, rfl⟩ : ∃ fewer, moreSlots = fewer + 1 := ⟨moreSlots - 1, by omega⟩
    rw [encodeWithin_last small, encodeWithin_last small]
  | succ slots inductionHypothesis =>
    obtain ⟨fewer, rfl⟩ : ∃ fewer, moreSlots = fewer + 1 := ⟨moreSlots - 1, by omega⟩
    by_cases small : n < 128
    · rw [encodeWithin_last small, encodeWithin_last small]
    · rw [encodeWithin_more (by omega), encodeWithin_more (by omega),
        inductionHypothesis (div_lt_of_lt fits) fewer (by omega)]

/-- An encoder that writes the groups of every number below `bound` as LEB128 does writes
each such number as `encodeWithin` does with the slots the number needs. -/
theorem eq_encodeWithin {encode : Nat → List UInt8} {bound : Nat}
    (last : ∀ n < 128, encode n = [UInt8.ofNat n])
    (more : ∀ n, 128 ≤ n → n < bound → encode n = UInt8.ofNat (n % 128 + 128) :: encode (n / 128))
    {slots n : Nat} (below : n < bound) (fits : n < 2 ^ (7 * (slots + 1))) :
    encode n = encodeWithin (slots + 1) n := by
  induction slots generalizing n with
  | zero =>
    have small : n < 128 := by simpa using fits
    rw [last n small, encodeWithin_last small]
  | succ slots inductionHypothesis =>
    by_cases small : n < 128
    · rw [last n small, encodeWithin_last small]
    · have quotientBelow : n / 128 < bound := lt_of_le_of_lt (Nat.div_le_self n 128) below
      rw [more n (by omega) below, encodeWithin_more (by omega),
        inductionHypothesis quotientBelow (div_lt_of_lt fits)]

/-- A number below `2 ^ (7 * (slots + 1))` fits in `slots + 1` bytes: its encoding
ends with a last byte and has no last byte before it. -/
theorem encodeWithin_complete {slots n : Nat} (fits : n < 2 ^ (7 * (slots + 1))) :
    ∃ init last, encodeWithin (slots + 1) n = init ++ [last] ∧
      (∀ byte ∈ init, isLast byte = false) ∧ isLast last = true := by
  induction slots generalizing n with
  | zero =>
    have small : n < 128 := by simpa using fits
    exact ⟨[], UInt8.ofNat n, encodeWithin_last small, by simp, isLast_ofNat_of_lt small⟩
  | succ slots inductionHypothesis =>
    by_cases small : n < 128
    · exact ⟨[], UInt8.ofNat n, encodeWithin_last small, by simp, isLast_ofNat_of_lt small⟩
    · obtain ⟨init, last, shape, initMore, lastLast⟩ := inductionHypothesis (div_lt_of_lt fits)
      refine ⟨UInt8.ofNat (n % 128 + 128) :: init, last, ?_, ?_, lastLast⟩
      · rw [encodeWithin_more (by omega), shape, List.cons_append]
      · intro byte member
        rcases List.mem_cons.mp member with rfl | member
        · exact isLast_ofNat_continued n
        · exact initMore byte member

/-- A last byte ends the read; at shift 63 it is 0 or 1, since the number fits in the bit
that is left. -/
theorem readUnsignedFrom_last {n shift : Nat} (small : n < 128) (inWord : n * 2 ^ shift < 2 ^ 64)
    (result : Nat) (rest : List UInt8) :
    readUnsignedFrom shift result ([UInt8.ofNat n] ++ rest) = some (result + n * 2 ^ shift, rest) := by
  have fitsTop : shift = 63 → UInt8.ofNat n = 0 ∨ UInt8.ofNat n = 1 := by
    rintro rfl
    have : n < 2 := by
      rw [show 2 ^ 64 = 2 * 2 ^ 63 by rfl] at inWord
      exact Nat.lt_of_mul_lt_mul_right inWord
    rcases (show n = 0 ∨ n = 1 by omega) with rfl | rfl
    · exact .inl rfl
    · exact .inr rfl
  have notOverflow : ¬(shift = 63 ∧ UInt8.ofNat n ≠ 0 ∧ UInt8.ofNat n ≠ 1) := by
    rintro ⟨top, notZero, notOne⟩
    rcases fitsTop top with zero | one
    · exact notZero zero
    · exact notOne one
  have payloadIs : payload (UInt8.ofNat n) = n := by
    simpa [Nat.mod_eq_of_lt small] using payload_ofNat_group n
  rw [List.singleton_append, readUnsignedFrom, if_neg notOverflow, if_pos (isLast_ofNat_of_lt small),
    payloadIs]

/-- Reading an encoding back: a number whose bits from `shift` on fit in a `u64` is added to
the result, and the bytes after it are left. -/
theorem readUnsignedFrom_encodeWithin {slots n : Nat} (fits : n < 2 ^ (7 * (slots + 1)))
    {shift : Nat} (inWord : n * 2 ^ shift < 2 ^ 64) (result : Nat) (rest : List UInt8) :
    readUnsignedFrom shift result (encodeWithin (slots + 1) n ++ rest) =
      some (result + n * 2 ^ shift, rest) := by
  induction slots generalizing n shift result with
  | zero =>
    have small : n < 128 := by simpa using fits
    rw [encodeWithin_last small]
    exact readUnsignedFrom_last small inWord result rest
  | succ slots inductionHypothesis =>
    by_cases small : n < 128
    · rw [encodeWithin_last small]
      exact readUnsignedFrom_last small inWord result rest
    · -- a continued group: the shift is below 63, since the number has bits above its first group
      have notTop : shift ≠ 63 := by
        rintro rfl
        have : n < 2 := by
          rw [show 2 ^ 64 = 2 * 2 ^ 63 by rfl] at inWord
          exact Nat.lt_of_mul_lt_mul_right inWord
        omega
      have higher : n / 128 * 2 ^ (shift + 7) < 2 ^ 64 := by
        calc n / 128 * 2 ^ (shift + 7) = n / 128 * 128 * 2 ^ shift := by
              rw [Nat.pow_add, Nat.mul_comm (2 ^ shift), Nat.mul_assoc]
          _ ≤ n * 2 ^ shift := Nat.mul_le_mul_right _ (Nat.div_mul_le_self n 128)
          _ < 2 ^ 64 := inWord
      have sum : result + n % 128 * 2 ^ shift + n / 128 * 2 ^ (shift + 7) =
          result + n * 2 ^ shift := by
        conv => rhs; rw [← Nat.mod_add_div n 128]
        rw [Nat.pow_add]
        ring
      rw [encodeWithin_more (by omega), List.cons_append, readUnsignedFrom,
        if_neg (fun top => notTop top.1), isLast_ofNat_continued, if_neg Bool.false_ne_true,
        payload_ofNat_continued, inductionHypothesis (div_lt_of_lt fits) higher, sum]

end Leb128

import Mathlib.Data.List.Basic
import Mathlib.Data.Nat.Bitwise

/-!
# Bit strings read most significant bit first

A byte string is a string of bits, each byte contributing its eight bits from the most
significant down.  `value` is the number a list of bits spells when its first bit is the most
significant one, so the number formed by bits `c` to `c + i` of a byte string is
`value (((ofBytes bytes).drop c).take i)`.

The lemmas say how this reading meets the arithmetic of code that extracts bits with masks and
shifts: the bits of a number read back as the number modulo a power of two (`value_ofNat`), a
run of bits inside one byte is that byte shifted and masked (`value_slice_ofBytes`), and a run
splits into its first bits and the rest (`value_slice_add`).
-/

namespace MsbBits

/-- The number a list of bits spells, most significant bit first. -/
def value : List Bool → Nat
  | [] => 0
  | bit :: rest => bit.toNat * 2 ^ rest.length + value rest

/-- The low `width` bits of `n`, most significant first. -/
def ofNat : Nat → Nat → List Bool
  | 0, _ => []
  | width + 1, n => n.testBit width :: ofNat width n

/-- The bits of a string of bytes, each byte most significant bit first. -/
def ofBytes (bytes : List Nat) : List Bool :=
  bytes.flatMap (ofNat 8)

@[simp]
theorem value_nil : value [] = 0 := rfl

theorem value_cons (bit : Bool) (rest : List Bool) :
    value (bit :: rest) = bit.toNat * 2 ^ rest.length + value rest := rfl

@[simp]
theorem ofNat_zero (n : Nat) : ofNat 0 n = [] := rfl

theorem ofNat_succ (width n : Nat) : ofNat (width + 1) n = n.testBit width :: ofNat width n := rfl

theorem ofBytes_cons (byte : Nat) (rest : List Nat) :
    ofBytes (byte :: rest) = ofNat 8 byte ++ ofBytes rest := rfl

theorem value_append (front back : List Bool) :
    value (front ++ back) = value front * 2 ^ back.length + value back := by
  induction front with
  | nil => simp
  | cons bit rest inductionHypothesis =>
    simp only [List.cons_append, value_cons, List.length_append, inductionHypothesis, Nat.pow_add]
    rw [Nat.add_mul, Nat.mul_assoc, Nat.add_assoc]

theorem value_lt (bits : List Bool) : value bits < 2 ^ bits.length := by
  induction bits with
  | nil => simp
  | cons bit rest inductionHypothesis =>
    have bitAtMostOne : bit.toNat ≤ 1 := Bool.toNat_le bit
    have scaled : bit.toNat * 2 ^ rest.length ≤ 2 ^ rest.length :=
      (Nat.mul_le_mul_right _ bitAtMostOne).trans_eq (Nat.one_mul _)
    rw [value_cons, List.length_cons, Nat.pow_succ]
    omega

@[simp]
theorem length_ofNat (width n : Nat) : (ofNat width n).length = width := by
  induction width with
  | zero => rfl
  | succ width inductionHypothesis => simp [ofNat_succ, inductionHypothesis]

/-- The bits of a number read back as the number modulo a power of two. -/
theorem value_ofNat (width n : Nat) : value (ofNat width n) = n % 2 ^ width := by
  induction width with
  | zero => simp [Nat.mod_one]
  | succ width inductionHypothesis =>
    rw [ofNat_succ, value_cons, length_ofNat, inductionHypothesis, Nat.toNat_testBit, Nat.mod_pow_succ,
      Nat.mul_comm, Nat.add_comm]

/-- The high bits of a number are the bits of its shift. -/
theorem ofNat_add (high low n : Nat) :
    ofNat (high + low) n = ofNat high (n >>> low) ++ ofNat low n := by
  induction high with
  | zero => simp
  | succ high inductionHypothesis =>
    rw [Nat.add_right_comm, ofNat_succ, inductionHypothesis, ofNat_succ, Nat.testBit_shiftRight,
      Nat.add_comm low high, List.cons_append]

/-- A run of bits within one number: bits `skip` to `skip + count` of its `width` bits. -/
theorem slice_ofNat {width skip count : Nat} (within : skip + count ≤ width) (n : Nat) :
    ((ofNat width n).drop skip).take count = ofNat count (n >>> (width - skip - count)) := by
  have split : width = skip + (count + (width - skip - count)) := by omega
  have rest : skip + (count + (width - skip - count)) - skip - count = width - skip - count := by
    omega
  rw [split, ofNat_add, ofNat_add, List.drop_left' (by simp), List.take_left' (by simp), rest]

@[simp]
theorem length_ofBytes (bytes : List Nat) : (ofBytes bytes).length = 8 * bytes.length := by
  induction bytes with
  | nil => rfl
  | cons byte rest inductionHypothesis =>
    simp only [ofBytes_cons, List.length_append, length_ofNat] at inductionHypothesis ⊢
    rw [inductionHypothesis, List.length_cons]
    omega

/-- The bits from the `skip`-th of byte `index` on: the rest of that byte, then the bytes
after it. -/
theorem drop_ofBytes {bytes : List Nat} {index skip : Nat} (inRange : index < bytes.length)
    (within : skip ≤ 8) :
    (ofBytes bytes).drop (8 * index + skip) =
      (ofNat 8 bytes[index]).drop skip ++ ofBytes (bytes.drop (index + 1)) := by
  have split : bytes = bytes.take index ++ bytes[index] :: bytes.drop (index + 1) := by
    simp
  have before : (ofBytes (bytes.take index)).length = 8 * index := by
    rw [length_ofBytes, List.length_take_of_le (Nat.le_of_lt inRange)]
  conv_lhs => rw [split]
  rw [ofBytes, List.flatMap_append, List.flatMap_cons, ← ofBytes, ← ofBytes,
    List.drop_append, ← before, Nat.add_sub_cancel_left, List.drop_eq_nil_of_le (by omega),
    List.nil_append, List.drop_append_of_le_length (by simp [within])]

/-- A run of bits inside one byte of a byte string is that byte shifted and masked. -/
theorem slice_ofBytes {bytes : List Nat} {index skip count : Nat} (inRange : index < bytes.length)
    (within : skip + count ≤ 8) :
    ((ofBytes bytes).drop (8 * index + skip)).take count =
      ofNat count (bytes[index] >>> (8 - skip - count)) := by
  rw [drop_ofBytes inRange (by omega), List.take_append_of_le_length (by simp; omega),
    slice_ofNat within]

theorem value_slice_ofBytes {bytes : List Nat} {index skip count : Nat}
    (inRange : index < bytes.length) (within : skip + count ≤ 8) :
    value (((ofBytes bytes).drop (8 * index + skip)).take count) =
      (bytes[index] >>> (8 - skip - count)) % 2 ^ count := by
  rw [slice_ofBytes inRange within, value_ofNat]

/-- A run of bits is its first bits followed by the rest. -/
theorem value_slice_add {bits : List Bool} {start front back : Nat}
    (within : start + front + back ≤ bits.length) :
    value ((bits.drop start).take (front + back)) =
      value ((bits.drop start).take front) * 2 ^ back + value ((bits.drop (start + front)).take back) := by
  have backLength : ((bits.drop (start + front)).take back).length = back := by
    simp only [List.length_take, List.length_drop]
    omega
  rw [List.take_add, List.drop_drop, value_append, backLength]

end MsbBits

import Forest.Hamt.HashBits
import Forest.Lib.ByteOrder
import Forest.Lib.Usize
import Mathlib.Data.BitVec
import Mathlib.Data.List.Basic

namespace Forest.HAMT

/-!
# The occupancy bitfield of a HAMT node

`Bitfield([u64; 4])` in `bitfield.rs` stores one bit per slot of a node.  Word `ai`
holds bits `64 * ai` to `64 * ai + 63`, so the array is the little-endian limbs of a
single 256-bit value, and every operation of the source acts on that value bit by bit.
The model keeps the value as a `BitVec 256`.

Slot indices come from `HashBits::next` with at most eight bits, so they stay below 256
and the word index of the source is always in bounds.
-/

/-- `byteorder`'s `BigEndian::write_u64` and `BigEndian::read_u64`: a `u64` in eight bytes, and
the eight bytes read back as the `u64` written there. -/
structure BigEndianU64 where
  writeU64 : UInt64 → List UInt8
  readU64 : List UInt8 → UInt64
  length_writeU64 : ∀ n, (writeU64 n).length = 8
  readU64_writeU64 : ∀ n, readU64 (writeU64 n) = n

/-- The big-endian bytes of `Forest.Lib.ByteOrder`, which follow the laws. -/
def BigEndianU64.standard : BigEndianU64 where
  writeU64 n := BigEndian.write 8 n.toNat
  readU64 bytes := UInt64.ofNat (BigEndian.read bytes)
  length_writeU64 n := BigEndian.length_write 8 n.toNat
  readU64_writeU64 n := by
    rw [BigEndian.read_write, Nat.mod_eq_of_lt (lt_of_lt_of_eq n.toNat_lt (by norm_num)),
      UInt64.ofNat_toNat]

/-- `Bitfield`: bit `i` records whether slot `i` of a node holds a pointer. -/
structure Bitfield where
  bits : BitVec 256
  deriving DecidableEq, Repr

namespace Bitfield

/-- `Bitfield::zero`. -/
def zero : Bitfield := ⟨0⟩

/-- `Bitfield::test_bit`. -/
def testBit (bitfield : Bitfield) (idx : Nat) : Bool :=
  bitfield.bits.getLsbD idx

/-- `Bitfield::set_bit`: `self.0[ai] |= 1 << bi`. -/
def setBit (bitfield : Bitfield) (idx : Nat) : Bitfield :=
  ⟨bitfield.bits ||| BitVec.twoPow 256 idx⟩

/-- `Bitfield::clear_bit`: `self.0[ai] &= u64::MAX - (1 << bi)`. -/
def clearBit (bitfield : Bitfield) (idx : Nat) : Bitfield :=
  ⟨bitfield.bits &&& ~~~(BitVec.twoPow 256 idx)⟩

/-- `Bitfield::count_ones`: the number of set bits. -/
def countOnes (bitfield : Bitfield) : Nat :=
  ((List.range 256).filter bitfield.bits.getLsbD).length

/-- `Bitfield::and`. -/
def and (bitfield other : Bitfield) : Bitfield :=
  ⟨bitfield.bits &&& other.bits⟩

/-- `Bitfield::set_bits_leq`: every bit up to and including `bit` set.  The source sets
whole words below the word of `bit` and `(1u128 << (1 + bit)) - 1` within it. -/
def setBitsLeq (bitfield : Bitfield) (bit : Nat) : Bitfield :=
  ⟨bitfield.bits ||| BitVec.ofNat 256 (2 ^ (bit + 1) - 1)⟩

/-- `Bitfield::set_bits_le`: every bit strictly below `bit` set. -/
def setBitsLe (bitfield : Bitfield) (bit : Nat) : Bitfield :=
  if bit = 0 then bitfield else bitfield.setBitsLeq (bit - 1)

/-! ## A single occupied slot -/

@[simp]
theorem testBit_zero (idx : Nat) : zero.testBit idx = false := by
  simp [testBit, zero]

theorem testBit_setBit_self {idx : Nat} (slot : idx < 256) :
    (zero.setBit idx).testBit idx = true := by
  simp [testBit, setBit, zero, slot]

theorem countOnes_of_bits_zero {bitfield : Bitfield} (empty : bitfield.bits = 0) :
    bitfield.countOnes = 0 := by
  simp [countOnes, empty]

theorem bits_and_zero (bitfield : Bitfield) : (bitfield.and zero).bits = 0 := by
  simp [and, zero]

/-- No slot below `idx` is the slot `idx`. -/
theorem bits_setBitsLe_and_setBit (idx : Nat) :
    ((zero.setBitsLe idx).and (zero.setBit idx)).bits = 0 := by
  apply BitVec.eq_of_getLsbD_eq
  intro j below
  unfold setBitsLe
  split
  · simp [and, setBit, zero]
  · simp only [and, setBit, setBitsLeq, zero, BitVec.getLsbD_and, BitVec.getLsbD_or,
      BitVec.getLsbD_ofNat, Nat.testBit_two_pow_sub_one, BitVec.getLsbD_twoPow]
    by_cases same : idx = j
    · subst same
      simp
      omega
    · simp [same]

/-! ## Serialization

The bitfield is stored as a byte string: its four words written with `byteorder`'s
`BigEndian::write_u64`, the highest first, with the leading zero bytes dropped.  Reading one
back right-aligns it in 32 zero bytes, reads the four words with `BigEndian::read_u64`, and
panics on a string longer than 32 bytes.  The crate is not part of the repository:
`BigEndianU64` takes it as a parameter whose laws are that a word is eight bytes and reads back
as itself, and the round trip `deserialize_serialize` needs nothing else. -/

/-- Word `ai` of the source's `[u64; 4]`: bits `64 * ai` to `64 * ai + 63`. -/
def limb (bitfield : Bitfield) (ai : Nat) : UInt64 :=
  UInt64.ofNat (bitfield.bits.toNat / 2 ^ (64 * ai))

/-- `Serialize for Bitfield`: the four words big-endian, the highest first, from the first
byte that is not zero. -/
def serialize (byteOrder : BigEndianU64) (bitfield : Bitfield) : List UInt8 :=
  let v := byteOrder.writeU64 (bitfield.limb 3) ++ byteOrder.writeU64 (bitfield.limb 2) ++
    byteOrder.writeU64 (bitfield.limb 1) ++ byteOrder.writeU64 (bitfield.limb 0)
  v.dropWhile (· == 0)

/-- `Deserialize for Bitfield`: the bytes copied into the end of 32 zero bytes, read as four
big-endian words, the highest first.  For more than 32 bytes `32 - len` wraps and taking the
slice `arr[(32 - len)..]` panics. -/
def deserialize {C : Type} (byteOrder : BigEndianU64) (bytes : List UInt8) :
    Except (Failure C) Bitfield :=
  let len := bytes.length
  if 32 < len then
    let start := Usize.wrappingSub 32 len
    .error (.panic s!"range start index {start} out of range for slice of length 32")
  else
    let arr := List.replicate (32 - len) 0 ++ bytes
    let word (offset : Nat) := (byteOrder.readU64 ((arr.drop offset).take 8)).toNat
    .ok ⟨BitVec.ofNat 256 (word 24 + 2 ^ 64 * word 16 + 2 ^ 128 * word 8 + 2 ^ 192 * word 0)⟩

section Codec

variable {C : Type} (byteOrder : BigEndianU64)

/-- The four words spell the bitfield's value. -/
theorem toNat_limbs (bitfield : Bitfield) :
    (bitfield.limb 0).toNat + 2 ^ 64 * (bitfield.limb 1).toNat + 2 ^ 128 * (bitfield.limb 2).toNat +
      2 ^ 192 * (bitfield.limb 3).toNat = bitfield.bits.toNat := by
  have below := bitfield.bits.isLt
  simp only [limb]
  norm_num
  omega

/-- The 32 bytes of the four words, before the leading zeros are dropped. -/
theorem length_words (bitfield : Bitfield) :
    (byteOrder.writeU64 (bitfield.limb 3) ++ byteOrder.writeU64 (bitfield.limb 2) ++
      byteOrder.writeU64 (bitfield.limb 1) ++ byteOrder.writeU64 (bitfield.limb 0)).length = 32 := by
  simp [byteOrder.length_writeU64]

theorem length_serialize_le (bitfield : Bitfield) : (serialize byteOrder bitfield).length ≤ 32 := by
  rw [serialize, ← length_words byteOrder bitfield]
  exact (List.dropWhile_sublist _).length_le

/-- The serialized bytes never start with a zero byte. -/
theorem serialize_head_ne_zero (bitfield : Bitfield) :
    ∀ byte ∈ (serialize byteOrder bitfield).head?, byte ≠ 0 := by
  intro byte first
  simp only [serialize, Option.mem_def] at first
  -- the words themselves do not matter, only that the zero bytes were dropped from them
  generalize byteOrder.writeU64 (bitfield.limb 3) ++ byteOrder.writeU64 (bitfield.limb 2) ++
    byteOrder.writeU64 (bitfield.limb 1) ++ byteOrder.writeU64 (bitfield.limb 0) = words at first
  have notZero := List.head?_dropWhile_not (· == (0 : UInt8)) words
  rw [first] at notZero
  simpa using notZero

/-- Right-aligning the serialized bytes in 32 puts back the zero bytes `serialize` dropped. -/
theorem aligned_serialize (bitfield : Bitfield) :
    List.replicate (32 - (serialize byteOrder bitfield).length) 0 ++ serialize byteOrder bitfield =
      byteOrder.writeU64 (bitfield.limb 3) ++ (byteOrder.writeU64 (bitfield.limb 2) ++
        (byteOrder.writeU64 (bitfield.limb 1) ++ byteOrder.writeU64 (bitfield.limb 0))) := by
  rw [serialize, ← length_words byteOrder bitfield, BigEndian.replicate_append_dropWhile_zero,
    List.append_assoc, List.append_assoc]

/-- Words written one after another are read back at bytes 0, 8, 16 and 24. -/
theorem readU64_words {arr : List UInt8} {a b c d : UInt64}
    (shape : arr = byteOrder.writeU64 a ++
      (byteOrder.writeU64 b ++ (byteOrder.writeU64 c ++ byteOrder.writeU64 d))) :
    byteOrder.readU64 ((arr.drop 0).take 8) = a ∧ byteOrder.readU64 ((arr.drop 8).take 8) = b ∧
      byteOrder.readU64 ((arr.drop 16).take 8) = c ∧ byteOrder.readU64 ((arr.drop 24).take 8) = d := by
  have eight := byteOrder.length_writeU64
  subst shape
  refine ⟨?_, ?_, ?_, ?_⟩
  · rw [List.drop_zero, List.take_left' (eight a), byteOrder.readU64_writeU64]
  · rw [List.drop_left' (eight a), List.take_left' (eight b), byteOrder.readU64_writeU64]
  · rw [show 16 = 8 + 8 from rfl, ← List.drop_drop, List.drop_left' (eight a),
      List.drop_left' (eight b), List.take_left' (eight c), byteOrder.readU64_writeU64]
  · rw [show 24 = 8 + 8 + 8 from rfl, ← List.drop_drop, ← List.drop_drop, List.drop_left' (eight a),
      List.drop_left' (eight b), List.drop_left' (eight c), List.take_of_length_le (eight d).le,
      byteOrder.readU64_writeU64]

/-- Reading back what was written gives the bitfield. -/
theorem deserialize_serialize (bitfield : Bitfield) :
    (deserialize byteOrder (serialize byteOrder bitfield) : Except (Failure C) Bitfield) =
      .ok bitfield := by
  have notLong : ¬ 32 < (serialize byteOrder bitfield).length :=
    Nat.not_lt.mpr (length_serialize_le byteOrder bitfield)
  obtain ⟨third, second, first, zeroth⟩ :=
    readU64_words byteOrder (aligned_serialize byteOrder bitfield)
  simp only [deserialize, notLong, if_false, third, second, first, zeroth]
  rw [toNat_limbs, BitVec.ofNat_toNat, BitVec.setWidth_eq]

/-- A string of more than 32 bytes does not come back as an error: `32 - len` wraps, and the
slice starting there panics. -/
theorem deserialize_panics_of_long {bytes : List UInt8} (long : 32 < bytes.length) :
    (deserialize byteOrder bytes : Except (Failure C) Bitfield) =
      .error (.panic ("range start index " ++ toString (Usize.wrappingSub 32 bytes.length) ++
        " out of range for slice of length 32")) := by
  simp only [deserialize, long, if_true]
  rfl

/-- The failing input: 33 zero bytes. -/
theorem deserialize_panics_of_long_zeros :
    (deserialize BigEndianU64.standard (List.replicate 33 0) : Except (Failure Nat) Bitfield) =
      .error (.panic ("range start index " ++
        toString (Usize.wrappingSub 32 (List.replicate 33 (0 : UInt8)).length) ++
        " out of range for slice of length 32")) :=
  deserialize_panics_of_long BigEndianU64.standard (by decide)

end Codec

end Bitfield

end Forest.HAMT

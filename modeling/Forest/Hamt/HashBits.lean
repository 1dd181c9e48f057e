import Mathlib.Data.Vector.Basic
import Mathlib.Data.Nat.Bitwise
import Forest.Lib.MsbBits

namespace Forest.HAMT

/-!
# Hash bits of a HAMT key

A key is hashed once to 32 bytes; each level of the trie then consumes the next
`bit_width` bits of that digest, most significant bit first.  This module models
`HashBits` of `hash_bits.rs` together with the error type of the crate and the
ways a Rust call can fail: an `Err` value, a panic, or recursion without end.
-/

/-- `HashedKey`: the 32-byte digest of a key. -/
abbrev HashedKey := Vector UInt8 32

/-- The `Error` enum of `error.rs`, restricted to the variants the trie code raises.
`CidNotFound` carries the missing link rather than its rendering as a string. -/
inductive Error (C : Type) where
  | maxDepth
  | invalidHashBitLen
  | zeroPointers
  | cidNotFound (cid : C)
  deriving DecidableEq, Repr

/-- How a modelled Rust call ends when it does not return `Ok`.

`error` is a returned `Err`, `panic` an `unreachable!`, failed `expect` or an index out
of bounds, and `stackOverflow` a recursion that the source never ends. -/
inductive Failure (C : Type) where
  | error (e : Error C)
  | panic (message : String)
  | stackOverflow
  deriving DecidableEq, Repr

/-- Helper struct which indexes and returns bits from a hashed key.  The count of consumed
bits is the source's `u32`. -/
structure HashBits where
  b : HashedKey
  consumed : UInt32
  deriving DecidableEq, Repr

namespace HashBits

/-- `HashBits::new_at_index`. -/
def newAtIndex (hashBuffer : HashedKey) (consumed : UInt32) : HashBits where
  b := hashBuffer
  consumed := consumed

/-- `HashBits::new`. -/
def new (hashBuffer : HashedKey) : HashBits :=
  newAtIndex hashBuffer 0

/-- `mkmask`: the low `n` bits set, `((1u64 << n) - 1) as u32`. -/
def mkmask (n : Nat) : Nat :=
  (2 ^ n - 1) % 2 ^ 32

/--
`next_bits`: read `i` bits starting at `consumed`, returning the value and the new
`consumed`.

The `Greater` arm recurses after consuming the rest of the current byte, so each
recursive call reads fewer bits; `fuel` starts at `i` and bounds the recursion.
Reading the current byte panics when it lies past the digest.
-/
def nextBits (b : HashedKey) : Nat → Nat → Nat → Except (Failure C) (Nat × Nat)
  | fuel, consumed, i =>
    let curbi := consumed / 8
    let leftb := 8 - consumed % 8
    match b[curbi]? with
    | none => .error (.panic "index out of bounds")
    | some byte =>
      let curb := byte.toNat
      match compare i leftb, fuel with
      | .eq, _ =>
        .ok (mkmask i &&& curb, consumed + i)
      | .lt, _ =>
        let a := curb &&& mkmask leftb
        let b' := a &&& ((2 ^ 32 - 1) - mkmask (leftb - i))
        .ok (b' >>> (leftb - i), consumed + i)
      | .gt, fuel + 1 =>
        let out := (mkmask leftb &&& curb) <<< (i - leftb)
        match nextBits b fuel (consumed + leftb) (i - leftb) with
        | .ok (rest, consumed') => .ok ((out + rest) % 2 ^ 32, consumed')
        | .error e => .error e
      | .gt, 0 => .error .stackOverflow

/-- `HashBits::next`: the next `i` bits of the hash, or `InvalidHashBitLen` for more than
eight bits and `MaxDepth` once the digest is exhausted.  The depth check adds `i` to the
`u32` count of consumed bits, a sum that wraps in a release build. -/
def next (hashBits : HashBits) (i : Nat) : Except (Failure C) (Nat × HashBits) :=
  if i > 8 then
    .error (.error .invalidHashBitLen)
  else if (hashBits.consumed + UInt32.ofNat i).toNat > 32 * 8 then
    .error (.error .maxDepth)
  else
    match nextBits hashBits.b i hashBits.consumed.toNat i with
    | .ok (value, consumed) => .ok (value, { hashBits with consumed := UInt32.ofNat consumed })
    | .error e => .error e
variable {C : Type}

theorem mkmask_of_le {n : Nat} (narrow : n ≤ 8) : mkmask n = 2 ^ n - 1 := by
  have below : 2 ^ n ≤ 2 ^ 8 := Nat.pow_le_pow_right (by decide) narrow
  unfold mkmask
  exact Nat.mod_eq_of_lt (by omega)

/-! ## Which bits `next` reads

The digest is a string of 256 bits, each byte most significant bit first; `bitsAt b c i` is the
number formed by its bits `c` to `c + i`.  `next_bits` reads exactly these bits: within one byte
by masking and shifting it, across a byte boundary by reading the rest of the byte and then the
next bits from the following bytes. -/

/-- The bits of a digest, each byte most significant bit first. -/
def digestBits (b : HashedKey) : List Bool :=
  MsbBits.ofBytes (b.toList.map UInt8.toNat)

/-- The number formed by bits `c` to `c + i` of a digest, most significant bit first. -/
def bitsAt (b : HashedKey) (c i : Nat) : Nat :=
  MsbBits.value (((digestBits b).drop c).take i)

@[simp]
theorem length_digestBits (b : HashedKey) : (digestBits b).length = 256 := by
  simp [digestBits]

/-- A run of bits within the byte at `c / 8` is that byte shifted and masked. -/
theorem bitsAt_within_byte (b : HashedKey) {c i : Nat} (inDigest : c / 8 < 32)
    (within : c % 8 + i ≤ 8) :
    bitsAt b c i = (b[c / 8].toNat >>> (8 - c % 8 - i)) % 2 ^ i := by
  have inRange : c / 8 < (b.toList.map UInt8.toNat).length := by simpa using inDigest
  have byte : (b.toList.map UInt8.toNat)[c / 8] = b[c / 8].toNat := by simp
  have slice := MsbBits.value_slice_ofBytes inRange within
  rw [Nat.div_add_mod] at slice
  rw [bitsAt, digestBits, slice, byte]

/-- Clearing the low `k` bits of a word and shifting them out is shifting them out. -/
theorem clearLow_shiftRight {x k : Nat} (word : x < 2 ^ 32) (narrow : k ≤ 32) :
    (x &&& ((2 ^ 32 - 1) - (2 ^ k - 1))) >>> k = x >>> k := by
  have whole : 2 ^ (32 - k) * 2 ^ k = 2 ^ 32 := by rw [← Nat.pow_add, Nat.sub_add_cancel narrow]
  have positive := Nat.two_pow_pos k
  have highMask : (2 ^ 32 - 1) - (2 ^ k - 1) = (2 ^ (32 - k) - 1) <<< k := by
    rw [Nat.shiftLeft_eq, Nat.sub_mul, Nat.one_mul, whole]
    omega
  apply Nat.eq_of_testBit_eq
  intro j
  rw [Nat.testBit_shiftRight, Nat.testBit_shiftRight, Nat.testBit_and, highMask,
    Nat.testBit_shiftLeft, Nat.testBit_two_pow_sub_one]
  by_cases inWord : j < 32 - k
  · simp [inWord]
  · -- above the word the bits of `x` are clear anyway
    have clear : x.testBit (k + j) = false :=
      Nat.testBit_lt_two_pow (lt_of_lt_of_le word (Nat.pow_le_pow_right (by decide) (by omega)))
    simp [clear]

/-- The `Less` arm: the top `i` of the `leftb` bits left in the byte, shifted down. -/
theorem lessArm_eq {curb leftb i : Nat} (byte : curb < 2 ^ 8) (narrow : leftb ≤ 8)
    (fewer : i ≤ leftb) :
    (curb &&& mkmask leftb &&& ((2 ^ 32 - 1) - mkmask (leftb - i))) >>> (leftb - i) =
      (curb >>> (leftb - i)) % 2 ^ i := by
  have low : curb &&& mkmask leftb < 2 ^ 32 :=
    lt_of_le_of_lt Nat.and_le_left (lt_of_lt_of_le byte (by decide))
  have split : 2 ^ leftb = 2 ^ (leftb - i) * 2 ^ i := by
    rw [← Nat.pow_add, Nat.sub_add_cancel fewer]
  rw [mkmask_of_le (by omega : leftb - i ≤ 8), clearLow_shiftRight low (by omega),
    mkmask_of_le narrow, Nat.and_two_pow_sub_one_eq_mod, Nat.shiftRight_eq_div_pow,
    Nat.shiftRight_eq_div_pow, split, Nat.mod_mul_right_div_self]

theorem bitsAt_lt (b : HashedKey) (c i : Nat) : bitsAt b c i < 2 ^ i :=
  lt_of_lt_of_le (MsbBits.value_lt _)
    (Nat.pow_le_pow_right (by decide) (List.length_take_le i _))

/-- The bits left in the current byte, all of them: the byte under a mask. -/
theorem restOfByte_eq (b : HashedKey) {c : Nat} (inDigest : c / 8 < 32) :
    mkmask (8 - c % 8) &&& b[c / 8].toNat = bitsAt b c (8 - c % 8) := by
  have noShift : 8 - c % 8 - (8 - c % 8) = 0 := Nat.sub_self _
  rw [bitsAt_within_byte b inDigest (by omega), noShift, Nat.shiftRight_zero,
    mkmask_of_le (by omega), Nat.land_comm, Nat.and_two_pow_sub_one_eq_mod]

/-- Bits that all lie in the current byte are read from it alone: the `Equal` and `Less`
arms. -/
theorem nextBits_within_byte (b : HashedKey) (fuel : Nat) {consumed i : Nat}
    (fewer : i ≤ 8 - consumed % 8) (inDigest : consumed < 256) :
    nextBits (C := C) b fuel consumed i = .ok (bitsAt b consumed i, consumed + i) := by
  have index : consumed / 8 < 32 := by omega
  rw [nextBits]
  simp only [Vector.getElem?_eq_getElem index]
  cases order : compare i (8 - consumed % 8) with
  | eq =>
    have whole : i = 8 - consumed % 8 := Nat.compare_eq_eq.mp order
    subst whole
    rw [← restOfByte_eq b index]
  | lt =>
    rw [bitsAt_within_byte b index (by omega),
      ← lessArm_eq (UInt8.toNat_lt _) (by omega) fewer]
  | gt =>
    have more := Nat.compare_eq_gt.mp order
    omega

/-- `next_bits` reads bits `consumed` to `consumed + i` of the digest and moves on by `i`, for
any width up to eight within the digest, except zero bits at its very end, where reading the
current byte is out of bounds. -/
theorem nextBits_eq_bitsAt (b : HashedKey) : ∀ (fuel consumed i : Nat), i ≤ fuel + 1 →
    consumed + i ≤ 256 → i ≤ 8 → consumed < 256 →
    nextBits (C := C) b fuel consumed i = .ok (bitsAt b consumed i, consumed + i) := by
  intro fuel
  induction fuel with
  | zero =>
    intro consumed i enough within narrow inDigest
    exact nextBits_within_byte b 0 (by omega) inDigest
  | succ fuel inductionHypothesis =>
    intro consumed i enough within narrow inDigest
    by_cases fewer : i ≤ 8 - consumed % 8
    · exact nextBits_within_byte b (fuel + 1) fewer inDigest
    -- the `Greater` arm: the rest of this byte, then the next bits from the following ones
    have index : consumed / 8 < 32 := by omega
    have order : compare i (8 - consumed % 8) = .gt := Nat.compare_eq_gt.mpr (by omega)
    have rest := inductionHypothesis (consumed + (8 - consumed % 8)) (i - (8 - consumed % 8))
      (by omega) (by omega) (by omega) (by omega)
    have joined := @MsbBits.value_slice_add (digestBits b) consumed (8 - consumed % 8)
      (i - (8 - consumed % 8)) (by simp; omega)
    rw [Nat.add_sub_cancel' (by omega)] at joined
    change bitsAt b consumed i = bitsAt b consumed (8 - consumed % 8) * 2 ^ (i - (8 - consumed % 8)) +
      bitsAt b (consumed + (8 - consumed % 8)) (i - (8 - consumed % 8)) at joined
    have fitsWord : bitsAt b consumed i < 2 ^ 32 :=
      lt_of_lt_of_le (bitsAt_lt b consumed i) (Nat.pow_le_pow_right (by decide) (by omega))
    have fullRead : consumed + (8 - consumed % 8) + (i - (8 - consumed % 8)) = consumed + i := by
      omega
    rw [nextBits]
    simp only [Vector.getElem?_eq_getElem index, order, rest]
    rw [restOfByte_eq b index, Nat.shiftLeft_eq, fullRead, ← joined, Nat.mod_eq_of_lt fitsWord]

/-! ## What `next` returns

Within the digest, `next` hands out the next `i` bits as a value below `2 ^ i` and moves the
consumed count on by `i`; past it, it fails with `MaxDepth`, as long as the `u32` sum of the
count and `i` does not wrap.  When that sum wraps, the depth check passes and `next_bits` reads
a byte far past the digest.  A key's path through the trie is therefore a function of its
digest alone. -/

/-- The depth check's `u32` sum, when it does not wrap. -/
theorem toNat_consumed_add {consumed : UInt32} {i : Nat} (fits : consumed.toNat + i < 2 ^ 32) :
    (consumed + UInt32.ofNat i).toNat = consumed.toNat + i := by
  rw [UInt32.toNat_add, UInt32.toNat_ofNat', Nat.mod_eq_of_lt (show i < 2 ^ 32 by omega),
    Nat.mod_eq_of_lt fits]

/-- `next_bits` reads `i` bits of the digest, at least one and at most eight, as a value below
`2 ^ i`, as long as they lie within the digest. -/
theorem nextBits_spec (b : HashedKey) : ∀ (fuel consumed i : Nat), 0 < i → i ≤ fuel + 1 →
    consumed + i ≤ 256 → i ≤ 8 →
    ∃ value, value < 2 ^ i ∧ nextBits (C := C) b fuel consumed i = .ok (value, consumed + i) := by
  intro fuel consumed i positive enough within narrow
  exact ⟨bitsAt b consumed i, bitsAt_lt b consumed i,
    nextBits_eq_bitsAt b fuel consumed i enough within narrow (by omega)⟩

/-- Within the digest, `next` reads the bits from the consumed count on and moves the count on by
`i`.  Even no bits need a byte to read, so the count must lie inside the digest. -/
theorem next_eq_bitsAt {hashBits : HashBits} {i : Nat} (narrow : i ≤ 8)
    (within : hashBits.consumed.toNat + i ≤ 256) (inDigest : hashBits.consumed.toNat < 256) :
    hashBits.next (C := C) i = .ok (bitsAt hashBits.b hashBits.consumed.toNat i,
      { hashBits with consumed := hashBits.consumed + UInt32.ofNat i }) := by
  have notWide : ¬ i > 8 := by omega
  have notPast : ¬ (hashBits.consumed + UInt32.ofNat i).toNat > 32 * 8 := by
    rw [toNat_consumed_add (by omega)]
    omega
  have count : UInt32.ofNat (hashBits.consumed.toNat + i) = hashBits.consumed + UInt32.ofNat i := by
    rw [UInt32.ofNat_add, UInt32.ofNat_toNat]
  simp only [next, notWide, notPast, if_false,
    nextBits_eq_bitsAt hashBits.b i hashBits.consumed.toNat i (by omega) within narrow inDigest,
    count]

/-- Within the digest, `next` reads `i` bits, at least one and at most eight, as a value below
`2 ^ i` and moves the consumed count on by `i`. -/
theorem next_spec {hashBits : HashBits} {i : Nat} (positive : 0 < i) (narrow : i ≤ 8)
    (within : hashBits.consumed.toNat + i ≤ 256) :
    ∃ value, value < 2 ^ i ∧ hashBits.next (C := C) i =
      .ok (value, { hashBits with consumed := hashBits.consumed + UInt32.ofNat i }) :=
  ⟨_, bitsAt_lt _ _ _, next_eq_bitsAt narrow within (by omega)⟩

/-- Past the digest, `next` fails with `MaxDepth`, when the depth check's sum does not wrap. -/
theorem next_of_exhausted {hashBits : HashBits} {i : Nat} (narrow : i ≤ 8)
    (past : 256 < hashBits.consumed.toNat + i) (fits : hashBits.consumed.toNat + i < 2 ^ 32) :
    hashBits.next (C := C) i = .error (.error .maxDepth) := by
  have notWide : ¬ i > 8 := by omega
  have isPast : (hashBits.consumed + UInt32.ofNat i).toNat > 32 * 8 := by
    rw [toNat_consumed_add fits]
    omega
  simp only [next, notWide, isPast, if_false, if_true]

/-- When the depth check's `u32` sum wraps, the check passes and `next_bits` panics on the byte
at the consumed count, which lies far past the digest. -/
theorem next_of_wrapped {hashBits : HashBits} {i : Nat} (narrow : i ≤ 8)
    (wraps : 2 ^ 32 ≤ hashBits.consumed.toNat + i) :
    hashBits.next (C := C) i = .error (.panic "index out of bounds") := by
  have below := hashBits.consumed.toNat_lt
  have notWide : ¬ i > 8 := by omega
  have wrapped : (hashBits.consumed + UInt32.ofNat i).toNat = hashBits.consumed.toNat + i - 2 ^ 32 := by
    rw [UInt32.toNat_add, UInt32.toNat_ofNat', Nat.mod_eq_of_lt (show i < 2 ^ 32 by omega)]
    omega
  have notPast : ¬ (hashBits.consumed + UInt32.ofNat i).toNat > 32 * 8 := by
    rw [wrapped]
    omega
  have pastDigest : hashBits.b[hashBits.consumed.toNat / 8]? = none :=
    Vector.getElem?_eq_none (by omega)
  simp only [next, notWide, notPast, if_false]
  rw [nextBits, pastDigest]

/-- What a successful `next` of at least one bit says: the width was at most eight, the bits
were within the digest, and the value and the advanced cursor are the ones of `next_spec`. -/
theorem next_eq_ok {hashBits after : HashBits} {i value : Nat} (positive : 0 < i)
    (ran : hashBits.next (C := C) i = .ok (value, after)) :
    value < 2 ^ i ∧ i ≤ 8 ∧ hashBits.consumed.toNat + i ≤ 256 ∧
      after = { hashBits with consumed := hashBits.consumed + UInt32.ofNat i } := by
  have narrow : i ≤ 8 := by
    by_contra wide
    simp [next, show i > 8 by omega] at ran
  have within : hashBits.consumed.toNat + i ≤ 256 := by
    by_contra past
    by_cases fits : hashBits.consumed.toNat + i < 2 ^ 32
    · rw [next_of_exhausted narrow (by omega) fits] at ran
      cases ran
    · rw [next_of_wrapped narrow (by omega)] at ran
      cases ran
  rw [next_eq_bitsAt narrow within (by omega)] at ran
  cases ran
  exact ⟨bitsAt_lt _ _ _, narrow, within, rfl⟩

end HashBits

end Forest.HAMT

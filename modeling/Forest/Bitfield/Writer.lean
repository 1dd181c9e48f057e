import Forest.Bitfield.Format

namespace Forest.Bitfield

/-!
# The bit writer

`BitWriter` of `rleplus/writer.rs`: finished bytes, and a 16-bit buffer `bits` holding
the `num_bits` bits written since the last full byte.  `write` ors the new bits in above
the waiting ones and moves a byte out once eight are there; `finish` writes the rest and
drops trailing zero bytes.

`write_len` writes a long run with `unsigned_varint::encode::usize`.  The crate is not part of
the repository; `UsizeVarint` takes it as a parameter whose laws are the unsigned-varint format
on `usize` values, so that it writes every run of `usize` as the LEB128 of `Format` does
(`UsizeVarint.encode_eq`).

Seen from outside, a writer holds one number, `stream`, of `position` bits.  `write_spec`
says a write appends its chunk there; `writeLen_spec` says `write_len` appends the block
of `Format`; `finish_spec` says the bytes spell the stream and end in a non-zero byte.
-/

open BitPacking

/-- `unsigned_varint::encode::usize`: seven bits a byte from the lowest, every byte but the last
with its high bit set, for every `usize`. -/
structure UsizeVarint where
  encode : Nat → List UInt8
  encode_last : ∀ n < 128, encode n = [UInt8.ofNat n]
  encode_more : ∀ n, 128 ≤ n → n < 2 ^ 64 →
    encode n = UInt8.ofNat (n % 128 + 128) :: encode (n / 128)

namespace UsizeVarint

/-- The varint of every `usize` is its LEB128 in the `usize_buffer()` of ten bytes. -/
theorem encode_eq (varint : UsizeVarint) {n : Nat} (fits : n < 2 ^ 64) :
    varint.encode n = Leb128.encodeWithin usizeVarintBytes n := by
  show varint.encode n = Leb128.encodeWithin (9 + 1) n
  exact Leb128.eq_encodeWithin varint.encode_last varint.encode_more fits
    (lt_of_lt_of_le fits (by decide))

/-- The encoder of `Format`, which follows the laws. -/
def standard : UsizeVarint where
  encode := Leb128.encodeWithin usizeVarintBytes
  encode_last _ small := Leb128.encodeWithin_last small
  encode_more n large fits := by
    -- the groups after the first need nine bytes at most
    have quotientFits : n / 128 < 2 ^ (7 * (8 + 1)) := by omega
    show Leb128.encodeWithin (9 + 1) n = _ :: Leb128.encodeWithin (9 + 1) (n / 128)
    rw [Leb128.encodeWithin_more large, Leb128.encodeWithin_of_lt quotientFits (9 + 1) (by decide)]

end UsizeVarint

/-- `BitWriter`: the bytes written, and the bits of the byte being filled. -/
structure BitWriter where
  bytes : List UInt8
  bits : Nat
  numBits : Nat

namespace BitWriter

/-- `BitWriter::new`. -/
def new : BitWriter :=
  ⟨[], 0, 0⟩

/-- `BitWriter::write`: the low `numBits` bits of `byte`, after the bits written so far.
The shift is a `u16` shift. -/
def write (writer : BitWriter) (byte : UInt8) (numBits : Nat) : BitWriter :=
  let bits := writer.bits ||| (byte.toNat <<< writer.numBits) % 2 ^ 16
  let total := writer.numBits + numBits
  if total ≥ 8 then
    { bytes := writer.bytes ++ [UInt8.ofNat bits], bits := bits >>> 8, numBits := total - 8 }
  else
    { writer with bits := bits, numBits := total }

/-- The loop of `write_len` over the bytes of a varint. -/
def writeBytes (writer : BitWriter) (bytes : List UInt8) : BitWriter :=
  bytes.foldl (fun writer byte => writer.write byte 8) writer

/-- `BitWriter::write_len`: a block `1`, `01` with four bits, or `00` with a varint. -/
def writeLen (varint : UsizeVarint) (writer : BitWriter) (len : Nat) : BitWriter :=
  if len = 1 then writer.write 1 1
  else if len < 16 then (writer.write 2 2).write (UInt8.ofNat len) 4
  else (writer.write 0 2).writeBytes (varint.encode len)

/-- `BitWriter::finish`: the waiting bits as a last byte if any is set, then trailing zero
bytes dropped. -/
def finish (writer : BitWriter) : List UInt8 :=
  let bytes := if writer.bits > 0 then writer.bytes ++ [UInt8.ofNat writer.bits] else writer.bytes
  bytes.rdropWhile (· == 0)

/-- The bits written so far, as one number. -/
def stream (writer : BitWriter) : Nat :=
  littleEndian writer.bytes + 2 ^ (8 * writer.bytes.length) * writer.bits

/-- The number of bits written so far. -/
def position (writer : BitWriter) : Nat :=
  8 * writer.bytes.length + writer.numBits

/-- Fewer than eight bits wait, and `bits` holds nothing above them. -/
structure Inv (writer : BitWriter) : Prop where
  numBits_lt : writer.numBits < 8
  bits_lt : writer.bits < 2 ^ writer.numBits

theorem new_inv : new.Inv :=
  ⟨by decide, by decide⟩

@[simp]
theorem stream_new : new.stream = 0 := rfl

@[simp]
theorem position_new : new.position = 0 := rfl

/-- The bits of a write land above the waiting ones, inside the 16-bit buffer. -/
theorem write_bits {writer : BitWriter} (inv : writer.Inv) {byte : UInt8} {numBits : Nat}
    (fits : byte.toNat < 2 ^ numBits) (atMostByte : numBits ≤ 8) :
    writer.bits ||| (byte.toNat <<< writer.numBits) % 2 ^ 16 =
      writer.bits + 2 ^ writer.numBits * byte.toNat := by
  have shiftedFits : byte.toNat * 2 ^ writer.numBits < 2 ^ 16 := by
    calc byte.toNat * 2 ^ writer.numBits
        < 2 ^ numBits * 2 ^ writer.numBits :=
          Nat.mul_lt_mul_of_pos_right fits (Nat.two_pow_pos _)
      _ = 2 ^ (numBits + writer.numBits) := (Nat.pow_add _ _ _).symm
      _ ≤ 2 ^ 16 := Nat.pow_le_pow_right (by decide) (by have := inv.numBits_lt; omega)
  rw [Nat.shiftLeft_eq, Nat.mod_eq_of_lt shiftedFits, Nat.mul_comm, or_two_pow_mul inv.bits_lt]

/-- `after` is `before` with `chunks` written after its bits. -/
def Appends (before after : BitWriter) (chunks : List Chunk) : Prop :=
  after.Inv ∧ after.stream = before.stream + 2 ^ before.position * pack chunks ∧
    after.position = before.position + width chunks

theorem Appends.refl {writer : BitWriter} (inv : writer.Inv) : Appends writer writer [] :=
  ⟨inv, by simp, by simp⟩

/-- Writing one piece after another writes both. -/
theorem Appends.trans {first second third : BitWriter} {earlier later : List Chunk}
    (firstPart : Appends first second earlier) (secondPart : Appends second third later) :
    Appends first third (earlier ++ later) := by
  obtain ⟨_, secondStream, secondPosition⟩ := firstPart
  obtain ⟨thirdInv, thirdStream, thirdPosition⟩ := secondPart
  refine ⟨thirdInv, ?_, ?_⟩
  · rw [thirdStream, secondStream, secondPosition, pack_append, Nat.pow_add]
    ring
  · rw [thirdPosition, secondPosition, width_append, Nat.add_assoc]

/-- `write` appends the chunk `(byte, numBits)` to the stream. -/
theorem write_spec {writer : BitWriter} (inv : writer.Inv) {byte : UInt8} {numBits : Nat}
    (fits : byte.toNat < 2 ^ numBits) (atMostByte : numBits ≤ 8) :
    Appends writer (writer.write byte numBits) [(byte.toNat, numBits)] := by
  have merged := write_bits inv fits atMostByte
  have mergedBelow : writer.bits + 2 ^ writer.numBits * byte.toNat <
      2 ^ (writer.numBits + numBits) :=
    add_two_pow_mul_lt inv.bits_lt fits
  have streamShape : writer.stream + 2 ^ writer.position * pack [(byte.toNat, numBits)] =
      littleEndian writer.bytes +
        2 ^ (8 * writer.bytes.length) * (writer.bits + 2 ^ writer.numBits * byte.toNat) := by
    simp only [stream, position, pack_cons, pack_nil, Nat.mul_zero, Nat.add_zero, Nat.pow_add]
    ring
  unfold Appends write
  dsimp only
  rw [merged, streamShape, width_cons, width_nil, Nat.add_zero]
  split
  · next full =>
    set bits := writer.bits + 2 ^ writer.numBits * byte.toNat
    have highBelow : bits >>> 8 < 2 ^ (writer.numBits + numBits - 8) := by
      rw [Nat.shiftRight_eq_div_pow, Nat.div_lt_iff_lt_mul (Nat.two_pow_pos 8), ← Nat.pow_add,
        Nat.sub_add_cancel full]
      exact mergedBelow
    have byteValue : (UInt8.ofNat bits).toNat = bits % 2 ^ 8 := by
      rw [UInt8.toNat_ofNat']
    have regroup := Nat.mod_add_div bits (2 ^ 8)
    have power : 2 ^ (8 * (writer.bytes.length + 1)) = 2 ^ (8 * writer.bytes.length) * 2 ^ 8 := by
      rw [Nat.mul_add, Nat.mul_one, Nat.pow_add]
    refine ⟨⟨by dsimp only; have := inv.numBits_lt; omega, highBelow⟩, ?_, ?_⟩
    · simp only [stream, littleEndian_append, littleEndian_cons, littleEndian_nil, byteValue,
        List.length_append, List.length_singleton, Nat.shiftRight_eq_div_pow, power]
      calc _ = littleEndian writer.bytes +
              2 ^ (8 * writer.bytes.length) * (bits % 2 ^ 8 + 2 ^ 8 * (bits / 2 ^ 8)) := by ring
        _ = littleEndian writer.bytes + 2 ^ (8 * writer.bytes.length) * bits := by rw [regroup]
    · simp only [position, List.length_append, List.length_singleton]
      omega
  · next notFull =>
    exact ⟨⟨by dsimp only; omega, mergedBelow⟩, rfl, by simp only [position]; omega⟩

/-- Writing bytes appends them to the stream. -/
theorem writeBytes_spec {writer : BitWriter} (inv : writer.Inv) (bytes : List UInt8) :
    Appends writer (writer.writeBytes bytes) (ofBytes bytes) := by
  induction bytes generalizing writer with
  | nil => exact Appends.refl inv
  | cons byte rest inductionHypothesis =>
    have written := write_spec inv (show byte.toNat < 2 ^ 8 from byte.toNat_lt) le_rfl
    have restWritten := inductionHypothesis written.1
    rw [writeBytes, List.foldl_cons, ← writeBytes]
    exact written.trans restWritten

/-- `write_len` appends the block of its run to the stream. -/
theorem writeLen_spec (varint : UsizeVarint) {writer : BitWriter} (inv : writer.Inv) {len : Nat}
    (fits : len < 2 ^ 64) : Appends writer (writer.writeLen varint len) (blockChunks len) := by
  unfold writeLen blockChunks
  rw [varint.encode_eq fits]
  split
  · exact write_spec inv (show (1 : UInt8).toNat < 2 ^ 1 by decide) (by decide)
  · split
    · next short =>
      have lenValue : (UInt8.ofNat len).toNat = len := by
        rw [UInt8.toNat_ofNat', Nat.mod_eq_of_lt (by omega)]
      have prefixWritten := write_spec inv (show (2 : UInt8).toNat < 2 ^ 2 by decide) (by decide)
      have lenWritten := write_spec prefixWritten.1
        (show (UInt8.ofNat len).toNat < 2 ^ 4 by rw [lenValue]; omega) (by decide)
      rw [lenValue] at lenWritten
      exact prefixWritten.trans lenWritten
    · have prefixWritten := write_spec inv (show (0 : UInt8).toNat < 2 ^ 2 by decide) (by decide)
      exact prefixWritten.trans (writeBytes_spec prefixWritten.1 _)

/-- Within `usize` the laws of the varint fix what `write_len` writes: the block of the
standard encoder. -/
theorem writeLen_eq_standard (varint : UsizeVarint) (writer : BitWriter) {len : Nat}
    (fits : len < 2 ^ 64) : writer.writeLen varint len = writer.writeLen .standard len := by
  unfold writeLen
  rw [varint.encode_eq fits]
  rfl

/-- The bytes `finish` returns spell the stream, and end in a non-zero byte. -/
theorem finish_spec {writer : BitWriter} (inv : writer.Inv) :
    littleEndian writer.finish = writer.stream ∧
      ∀ nonempty : writer.finish ≠ [], writer.finish.getLast nonempty ≠ 0 := by
  have waitingByte : (UInt8.ofNat writer.bits).toNat = writer.bits := by
    have below : writer.bits < 2 ^ 8 :=
      lt_of_lt_of_le inv.bits_lt (Nat.pow_le_pow_right (by decide) (le_of_lt inv.numBits_lt))
    rw [UInt8.toNat_ofNat', Nat.mod_eq_of_lt below]
  refine ⟨?_, fun nonempty => ?_⟩
  · rw [finish, littleEndian_rdropWhile_zero, stream]
    split
    · rw [littleEndian_append, littleEndian_cons, littleEndian_nil, waitingByte]
      simp
    · next noBits =>
      have : writer.bits = 0 := by omega
      simp [this]
  · have notZero := List.rdropWhile_last_not (· == 0) _ nonempty
    intro isZero
    exact notZero (beq_iff_eq.mpr isZero)

end BitWriter

end Forest.Bitfield

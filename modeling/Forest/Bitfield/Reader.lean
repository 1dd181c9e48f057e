import Forest.Bitfield.Format

namespace Forest.Bitfield

/-!
# The bit reader

`BitReader` of `rleplus/reader.rs`.  The reader keeps the bytes not yet touched, the
next byte, and a 16-bit buffer `bits` whose low `num_bits` bits (eight to fifteen) are the
next bits of the stream; above them the buffer holds either nothing or a copy of the
low bits of `next_byte`, which `read` ors in once more before it is needed.  Past the
end of the bytes every read returns zeros.

Seen from outside, a reader holds the rest of the stream as one number, `stream`: a read
of `n` bits returns `stream % 2 ^ n` and leaves `stream / 2 ^ n` (`read_spec`).  On top of
that `readLen` reads back every block of `Format` (`readLen_blockChunks`) and reads the
end of the stream as the end of the runs (`readLen_zero`).
-/

open BitPacking

/-- `VARINT_MAX_BYTES`: the reader accepts varints of at most nine bytes. -/
def varintMaxBytes : Nat := 9

/-- `BitReader`.  `read` returns a `u8`, a number below 256 here. -/
structure BitReader where
  bytes : List UInt8
  nextByte : UInt8
  bits : Nat
  numBits : Nat

namespace BitReader

/-- `BitReader::new`: the first byte in the buffer, the second as the next byte. -/
def new (bytes : List UInt8) : BitReader where
  bytes := if bytes.length > 2 then bytes.drop 2 else []
  nextByte := bytes.getD 1 0
  bits := (bytes.getD 0 0).toNat
  numBits := 8

/-- `BitReader::read`: the next `numBits` bits (at most eight). -/
def read (reader : BitReader) (numBits : Nat) : Nat × BitReader :=
  let mask := (1 <<< numBits) - 1
  let res := (reader.bits &&& mask) % 256
  let bits := reader.bits >>> numBits
  let remaining := reader.numBits - numBits
  let bits := bits ||| (reader.nextByte.toNat <<< remaining) % 2 ^ 16
  if remaining < 8 then
    let refilled : BitReader :=
      { bytes := reader.bytes.tail
        nextByte := reader.bytes.headD 0
        bits := bits
        numBits := remaining + 8 }
    (res, refilled)
  else
    (res, { reader with bits := bits, numBits := remaining })

/-- The loop of `BitReader::read_varint` from byte `i` on, with `remaining` bytes left
and the value `len` so far. -/
def readVarintLoop : Nat → Nat → Nat → BitReader → Except String (Nat × BitReader)
  | 0, _, _, _ => .error "Invalid varint"
  | remaining + 1, i, len, reader =>
    let (byte, reader) := reader.read 8
    let len := len ||| (byte &&& 0x7f) <<< (i * 7)
    if byte &&& 0x80 = 0 then .ok (len, reader)
    else readVarintLoop remaining (i + 1) len reader

/-- `BitReader::read_varint`. -/
def readVarint (reader : BitReader) : Except String (Nat × BitReader) :=
  readVarintLoop varintMaxBytes 0 0 reader

/-- `BitReader::read_len`: a block, or `None` for a length of zero. -/
def readLen (reader : BitReader) : Except String (Option Nat × BitReader) :=
  let (prefix0, reader) := reader.read 1
  let block : Except String (Nat × BitReader) :=
    if prefix0 = 1 then .ok (1, reader)
    else
      let (prefix1, reader) := reader.read 1
      if prefix1 = 1 then .ok (reader.read 4) else reader.readVarint
  block.map fun (len, reader) => (if len > 0 then some len else none, reader)

/-- The rest of the stream: the valid bits of the buffer, then the next byte, then the
bytes after it. -/
def stream (reader : BitReader) : Nat :=
  reader.bits % 2 ^ reader.numBits +
    2 ^ reader.numBits * (reader.nextByte.toNat + 256 * littleEndian reader.bytes)

/-- The buffer holds eight to fifteen valid bits, and above them nothing or the low bits
of the next byte. -/
structure Inv (reader : BitReader) : Prop where
  atLeastByte : 8 ≤ reader.numBits
  atMost : reader.numBits ≤ 15
  bits_lt : reader.bits < 2 ^ 16
  high : reader.bits / 2 ^ reader.numBits = 0 ∨
    reader.bits / 2 ^ reader.numBits = reader.nextByte.toNat % 2 ^ (16 - reader.numBits)

theorem headD_add_littleEndian_tail (bytes : List UInt8) :
    (bytes.headD 0).toNat + 256 * littleEndian bytes.tail = littleEndian bytes := by
  cases bytes <;> simp

/-- A reader over a byte string starts at the whole string. -/
theorem new_spec (bytes : List UInt8) : (new bytes).Inv ∧ (new bytes).stream = littleEndian bytes := by
  have byteBelow : (bytes.getD 0 0).toNat < 2 ^ 8 := (bytes.getD 0 0).toNat_lt
  refine ⟨⟨le_rfl, by simp [new], lt_trans byteBelow (by decide), .inl ?_⟩, ?_⟩
  · exact Nat.div_eq_of_lt byteBelow
  · match bytes with
    | [] => rfl
    | [first] => simp [new, stream, Nat.mod_eq_of_lt first.toNat_lt]
    | [first, second] => simp [new, stream, Nat.mod_eq_of_lt first.toNat_lt]
    | first :: second :: third :: rest =>
      simp only [new, stream, List.length_cons, List.getD_cons_zero, List.getD_cons_succ,
        Nat.mod_eq_of_lt first.toNat_lt, littleEndian_cons, List.drop_succ_cons, List.drop_zero]
      simp

/-- Dropping the first `numBits` of `numBits + remaining` low bits. -/
theorem div_two_pow_of_split {low high numBits remaining : Nat} :
    (low + 2 ^ (numBits + remaining) * high) / 2 ^ numBits =
      low / 2 ^ numBits + 2 ^ remaining * high := by
  rw [Nat.pow_add, Nat.mul_assoc, Nat.add_mul_div_left _ _ (Nat.two_pow_pos numBits)]

/-- `read` returns the next bits of the stream and leaves the rest. -/
theorem read_spec {reader : BitReader} (inv : reader.Inv) {numBits : Nat} (atMostByte : numBits ≤ 8) :
    (reader.read numBits).1 = reader.stream % 2 ^ numBits ∧ (reader.read numBits).2.Inv ∧
      (reader.read numBits).2.stream = reader.stream / 2 ^ numBits := by
  obtain ⟨atLeastByte, atMost, bitsBelow, high⟩ := inv
  obtain ⟨remaining, held⟩ : ∃ remaining, reader.numBits = numBits + remaining :=
    ⟨reader.numBits - numBits, by omega⟩
  have remainingEq : reader.numBits - numBits = remaining := by omega
  set low := reader.bits % 2 ^ reader.numBits with lowDef
  set top := reader.bits / 2 ^ reader.numBits
  have lowBelow : low < 2 ^ (numBits + remaining) := by
    rw [← held]
    exact Nat.mod_lt _ (Nat.two_pow_pos _)
  have restBelow : low / 2 ^ numBits < 2 ^ remaining := by
    rw [Nat.div_lt_iff_lt_mul (Nat.two_pow_pos _), ← Nat.pow_add, Nat.add_comm]
    exact lowBelow
  have bitsSplit : reader.bits = low + 2 ^ (numBits + remaining) * top := by
    rw [← held]
    exact (Nat.mod_add_div _ _).symm
  have streamSplit : reader.stream = low + 2 ^ (numBits + remaining) *
      (reader.nextByte.toNat + 256 * littleEndian reader.bytes) := by
    rw [stream, ← held]
  have result : (reader.bits &&& ((1 <<< numBits) - 1)) % 256 = reader.stream % 2 ^ numBits := by
    have lowPart : reader.bits % 2 ^ numBits < 256 :=
      lt_of_lt_of_le (Nat.mod_lt _ (Nat.two_pow_pos _))
        (Nat.pow_le_pow_right (by decide) atMostByte)
    rw [Nat.one_shiftLeft, Nat.and_two_pow_sub_one_eq_mod, Nat.mod_eq_of_lt lowPart, streamSplit,
      Nat.pow_add, Nat.mul_assoc, Nat.add_mul_mod_self_left, lowDef,
      Nat.mod_mod_of_dvd _ (Nat.pow_dvd_pow 2 (by omega))]
  have streamRest : reader.stream / 2 ^ numBits = low / 2 ^ numBits +
      2 ^ remaining * (reader.nextByte.toNat + 256 * littleEndian reader.bytes) := by
    rw [streamSplit]
    exact div_two_pow_of_split
  have topPart : top ||| reader.nextByte.toNat % 2 ^ (16 - remaining) =
      reader.nextByte.toNat % 2 ^ (16 - remaining) := by
    rcases high with empty | copy
    · rw [empty, Nat.zero_or]
    · rw [copy]
      exact mod_two_pow_or_mod_two_pow (by omega) _
  have merged : reader.bits >>> numBits ||| (reader.nextByte.toNat <<< remaining) % 2 ^ 16 =
      low / 2 ^ numBits + 2 ^ remaining * (reader.nextByte.toNat % 2 ^ (16 - remaining)) := by
    rw [Nat.shiftRight_eq_div_pow, bitsSplit, div_two_pow_of_split, Nat.shiftLeft_eq,
      mul_two_pow_mod (by omega), add_two_pow_mul_or restBelow, topPart]
  unfold read
  dsimp only
  rw [remainingEq, merged, result]
  split
  · next shortOfByte =>
    have wholeByte : reader.nextByte.toNat % 2 ^ (16 - remaining) = reader.nextByte.toNat :=
      Nat.mod_eq_of_lt (lt_of_lt_of_le reader.nextByte.toNat_lt
        (Nat.pow_le_pow_right (by decide) (by omega)))
    rw [wholeByte]
    have bufferBelow : low / 2 ^ numBits + 2 ^ remaining * reader.nextByte.toNat <
        2 ^ (remaining + 8) :=
      add_two_pow_mul_lt restBelow reader.nextByte.toNat_lt
    refine ⟨rfl, ⟨by dsimp only; omega, by dsimp only; omega, ?_, .inl ?_⟩, ?_⟩
    · exact lt_of_lt_of_le bufferBelow (Nat.pow_le_pow_right (by decide) (by omega))
    · exact Nat.div_eq_of_lt bufferBelow
    · rw [streamRest]
      simp only [stream, Nat.mod_eq_of_lt bufferBelow]
      rw [← headD_add_littleEndian_tail reader.bytes, Nat.pow_add]
      ring
  · next fullByte =>
    have copyBelow : reader.nextByte.toNat % 2 ^ (16 - remaining) < 2 ^ (16 - remaining) :=
      Nat.mod_lt _ (Nat.two_pow_pos _)
    have bufferBelow := add_two_pow_mul_lt restBelow copyBelow
    have wordSize : remaining + (16 - remaining) = 16 := by omega
    rw [wordSize] at bufferBelow
    refine ⟨rfl, ⟨by dsimp only; omega, by dsimp only; omega, bufferBelow, .inr ?_⟩, ?_⟩
    · exact add_two_pow_mul_div restBelow _
    · rw [streamRest]
      simp only [stream, add_two_pow_mul_mod restBelow]

/-! ## Varints -/

theorem and_low_seven (byte : Nat) : byte &&& 0x7f = byte % 128 :=
  Nat.and_two_pow_sub_one_eq_mod byte 7

theorem and_high_bit_eq_zero {byte : Nat} (isByte : byte < 256) : byte &&& 0x80 = 0 ↔ byte < 128 := by
  have table : ∀ value : Fin 256, (value.val &&& 0x80 = 0 ↔ value.val < 128) := by decide +kernel
  exact table ⟨byte, isByte⟩

/-- Or-ing the payload of byte `i` in, above the `7 * i` bits read before. -/
theorem or_payload {len i payload : Nat} (lenBelow : len < 2 ^ (7 * i)) :
    len ||| payload <<< (i * 7) = len + 2 ^ (7 * i) * payload := by
  rw [Nat.shiftLeft_eq, Nat.mul_comm i 7, Nat.mul_comm payload, or_two_pow_mul lenBelow]

/-- Reading a chunk off the front of the stream. -/
theorem read_chunk {reader : BitReader} (inv : reader.Inv) {value bits rest : Nat}
    (fits : value < 2 ^ bits) (atMostByte : bits ≤ 8)
    (streamShape : reader.stream = value + 2 ^ bits * rest) :
    ∃ after, reader.read bits = (value, after) ∧ after.Inv ∧ after.stream = rest := by
  obtain ⟨valueEq, afterInv, afterStream⟩ := read_spec inv atMostByte
  refine ⟨(reader.read bits).2, Prod.ext ?_ rfl, afterInv, ?_⟩
  · rw [valueEq, streamShape, add_two_pow_mul_mod fits]
  · rw [afterStream, streamShape, add_two_pow_mul_div fits]

/-- Reading a byte off the front of a stream that starts with `byte`. -/
theorem read_byte {reader : BitReader} (inv : reader.Inv) {byte : UInt8} {rest : List UInt8}
    {tail : Nat}
    (streamShape : reader.stream = littleEndian (byte :: rest) + 2 ^ (8 * (byte :: rest).length) * tail) :
    ∃ after, reader.read 8 = (byte.toNat, after) ∧ after.Inv ∧
      after.stream = littleEndian rest + 2 ^ (8 * rest.length) * tail := by
  have regroup : reader.stream =
      byte.toNat + 2 ^ 8 * (littleEndian rest + 2 ^ (8 * rest.length) * tail) := by
    rw [streamShape, littleEndian_cons, List.length_cons, Nat.mul_add, Nat.mul_one, Nat.pow_add]
    ring
  exact read_chunk inv byte.toNat_lt le_rfl regroup

/-- The last byte of a varint ends the loop with the value put together. -/
theorem readVarintLoop_last (remaining i len : Nat) {n tail : Nat} {reader : BitReader}
    (inv : reader.Inv)
    (small : n < 128) (lenBelow : len < 2 ^ (7 * i))
    (streamShape : reader.stream = littleEndian [UInt8.ofNat n] + 2 ^ (8 * [UInt8.ofNat n].length) * tail) :
    ∃ after, readVarintLoop (remaining + 1) i len reader = .ok (len + 2 ^ (7 * i) * n, after) ∧
      after.Inv ∧ after.stream = tail := by
  obtain ⟨after, readEq, afterInv, afterStream⟩ := read_byte inv streamShape
  have byteValue : (UInt8.ofNat n).toNat = n := by
    simpa [Nat.mod_eq_of_lt small] using Leb128.toNat_ofNat_group n
  have lastByte : n &&& 0x80 = 0 := (and_high_bit_eq_zero (by omega)).mpr small
  refine ⟨after, ?_, afterInv, by simpa using afterStream⟩
  simp only [readVarintLoop, readEq, byteValue, lastByte, if_true, and_low_seven,
    Nat.mod_eq_of_lt small, or_payload lenBelow]

/-- A byte with the high bit set adds its payload and goes on with the next byte. -/
theorem readVarintLoop_more {remaining i len : Nat} {reader after : BitReader} {byte : UInt8}
    (readEq : reader.read 8 = (byte.toNat, after)) (more : 128 ≤ byte.toNat)
    (lenBelow : len < 2 ^ (7 * i)) :
    readVarintLoop (remaining + 1) i len reader =
      readVarintLoop remaining (i + 1) (len + 2 ^ (7 * i) * (byte.toNat % 128)) after := by
  have notLast : byte.toNat &&& 0x80 ≠ 0 := fun isLast =>
    absurd ((and_high_bit_eq_zero byte.toNat_lt).mp isLast) (by omega)
  simp only [readVarintLoop, readEq, notLast, if_false, and_low_seven, or_payload lenBelow]

/-- `read_varint` from byte `i` reads back the varint of `n` when the loop has the bytes
left for it. -/
theorem readVarintLoop_encodeWithin (slots : Nat) :
    ∀ (remaining i len n tail : Nat) (reader : BitReader), reader.Inv →
      n < 2 ^ (7 * (slots + 1)) → slots + 1 ≤ remaining → len < 2 ^ (7 * i) →
      reader.stream = littleEndian (Leb128.encodeWithin (slots + 1) n) +
        2 ^ (8 * (Leb128.encodeWithin (slots + 1) n).length) * tail →
      ∃ after, readVarintLoop remaining i len reader = .ok (len + 2 ^ (7 * i) * n, after) ∧
        after.Inv ∧ after.stream = tail := by
  induction slots with
  | zero =>
    intro remaining i len n tail reader inv fits enough lenBelow streamShape
    obtain ⟨remaining, rfl⟩ : ∃ fewer, remaining = fewer + 1 := ⟨remaining - 1, by omega⟩
    have small : n < 128 := by simpa using fits
    rw [Leb128.encodeWithin_last small] at streamShape
    exact readVarintLoop_last _ _ _ inv small lenBelow streamShape
  | succ slots inductionHypothesis =>
    intro remaining i len n tail reader inv fits enough lenBelow streamShape
    obtain ⟨remaining, rfl⟩ : ∃ fewer, remaining = fewer + 1 := ⟨remaining - 1, by omega⟩
    by_cases small : n < 128
    · rw [Leb128.encodeWithin_last small] at streamShape
      exact readVarintLoop_last _ _ _ inv small lenBelow streamShape
    · rw [Leb128.encodeWithin_more (by omega)] at streamShape
      obtain ⟨after, readEq, afterInv, afterStream⟩ := read_byte inv streamShape
      have byteValue := Leb128.toNat_ofNat_continued n
      have payloadBelow : len + 2 ^ (7 * i) * (n % 128) < 2 ^ (7 * (i + 1)) := by
        have below := add_two_pow_mul_lt lenBelow (show n % 128 < 2 ^ 7 from Nat.mod_lt n (by decide))
        rwa [Nat.mul_add, Nat.mul_one]
      obtain ⟨final, loopEq, finalInv, finalStream⟩ :=
        inductionHypothesis remaining (i + 1) _ (n / 128) tail after afterInv (Leb128.div_lt_of_lt fits)
          (by omega) payloadBelow afterStream
      refine ⟨final, ?_, finalInv, finalStream⟩
      rw [readVarintLoop_more readEq (by rw [byteValue]; omega) lenBelow, byteValue, Nat.add_mod_right,
        Nat.mod_mod, loopEq]
      have regroup : n = n % 128 + 128 * (n / 128) := (Nat.mod_add_div n 128).symm
      congr 2
      conv_rhs => rw [regroup]
      rw [Leb128.pow_seven_succ]
      ring

/-- `read_varint` reads back the varint `write_len` writes for every length below `2 ^ 63`,
the lengths that fit in nine bytes. -/
theorem readVarint_encodeWithin {reader : BitReader} (inv : reader.Inv) {len tail : Nat}
    (fits : len < 2 ^ 63)
    (streamShape : reader.stream = littleEndian (Leb128.encodeWithin usizeVarintBytes len) +
      2 ^ (8 * (Leb128.encodeWithin usizeVarintBytes len).length) * tail) :
    ∃ after, reader.readVarint = .ok (len, after) ∧ after.Inv ∧ after.stream = tail := by
  have fitsNine : len < 2 ^ (7 * (8 + 1)) := fits
  rw [Leb128.encodeWithin_of_lt fitsNine usizeVarintBytes (by decide)] at streamShape
  obtain ⟨after, loopEq, afterInv, afterStream⟩ :=
    readVarintLoop_encodeWithin 8 varintMaxBytes 0 0 len tail reader inv fitsNine (by decide)
      (by decide) streamShape
  refine ⟨after, ?_, afterInv, afterStream⟩
  rw [readVarint, loopEq, Nat.mul_zero, Nat.pow_zero, Nat.one_mul, Nat.zero_add]

/-! ## Lengths -/

/-- `read_len` reads back the block of every run below `2 ^ 63`. -/
theorem readLen_blockChunks {reader : BitReader} (inv : reader.Inv) {len tail : Nat}
    (positive : 0 < len) (fits : len < 2 ^ 63)
    (streamShape : reader.stream = pack (blockChunks len) + 2 ^ width (blockChunks len) * tail) :
    ∃ after, reader.readLen = .ok (some len, after) ∧ after.Inv ∧ after.stream = tail := by
  unfold blockChunks at streamShape
  split at streamShape
  · next single =>
    subst single
    have shape : reader.stream = 1 + 2 ^ 1 * tail := by
      rw [streamShape]
      simp
    obtain ⟨after, readEq, afterInv, afterStream⟩ := read_chunk inv (by decide) (by decide) shape
    exact ⟨after, by simp [readLen, readEq, Except.map], afterInv, afterStream⟩
  · split at streamShape
    · next notSingle short =>
      have shape : reader.stream = 0 + 2 ^ 1 * (1 + 2 ^ 1 * (len + 2 ^ 4 * tail)) := by
        rw [streamShape]
        simp only [pack_cons, pack_nil, width_cons, width_nil]
        ring
      obtain ⟨first, firstEq, firstInv, firstStream⟩ := read_chunk inv (by decide) (by decide) shape
      obtain ⟨second, secondEq, secondInv, secondStream⟩ :=
        read_chunk firstInv (by decide) (by decide) firstStream
      obtain ⟨after, readEq, afterInv, afterStream⟩ :=
        read_chunk secondInv (by simpa using short) (by decide) secondStream
      refine ⟨after, ?_, afterInv, afterStream⟩
      simp [readLen, firstEq, secondEq, readEq, Except.map, positive]
    · next notSingle long =>
      have shape : reader.stream = 0 + 2 ^ 1 * (0 + 2 ^ 1 *
          (littleEndian (Leb128.encodeWithin usizeVarintBytes len) +
            2 ^ (8 * (Leb128.encodeWithin usizeVarintBytes len).length) * tail)) := by
        rw [streamShape]
        simp only [pack_cons, width_cons, width_ofBytes, littleEndian]
        rw [Nat.pow_add]
        ring
      obtain ⟨first, firstEq, firstInv, firstStream⟩ := read_chunk inv (by decide) (by decide) shape
      obtain ⟨second, secondEq, secondInv, secondStream⟩ :=
        read_chunk firstInv (by decide) (by decide) firstStream
      obtain ⟨after, varintEq, afterInv, afterStream⟩ :=
        readVarint_encodeWithin secondInv fits secondStream
      refine ⟨after, ?_, afterInv, afterStream⟩
      simp [readLen, firstEq, secondEq, varintEq, Except.map, positive]

/-- Past the last block the stream is zero, and `read_len` reads a length of zero: the end
of the runs. -/
theorem readLen_zero {reader : BitReader} (inv : reader.Inv) (empty : reader.stream = 0) :
    ∃ after, reader.readLen = .ok (none, after) ∧ after.Inv ∧ after.stream = 0 := by
  have shape : reader.stream = 0 + 2 ^ 1 * (0 + 2 ^ 1 * 0) := by
    simp [empty]
  obtain ⟨first, firstEq, firstInv, firstStream⟩ := read_chunk inv (by decide) (by decide) shape
  obtain ⟨second, secondEq, secondInv, secondStream⟩ :=
    read_chunk firstInv (by decide) (by decide) firstStream
  have lastShape : second.stream = littleEndian [UInt8.ofNat 0] + 2 ^ (8 * [UInt8.ofNat 0].length) * 0 := by
    rw [secondStream]
    rfl
  obtain ⟨after, loopEq, afterInv, afterStream⟩ :=
    readVarintLoop_last 8 0 0 secondInv (by decide) (by decide) lastShape
  refine ⟨after, ?_, afterInv, afterStream⟩
  simp [readLen, firstEq, secondEq, readVarint, varintMaxBytes, loopEq, Except.map]

/-! ## Every read consumes the stream -/

theorem read_consumes {reader : BitReader} (inv : reader.Inv) (numBits : Nat) (atMostByte : numBits ≤ 8) :
    (reader.read numBits).2.Inv ∧ (reader.read numBits).2.stream ≤ reader.stream / 2 ^ numBits := by
  obtain ⟨_, afterInv, afterStream⟩ := read_spec inv atMostByte
  exact ⟨afterInv, afterStream.le⟩

theorem readVarintLoop_consumes {reader after : BitReader} (inv : reader.Inv) :
    ∀ {remaining i len value : Nat}, readVarintLoop remaining i len reader = .ok (value, after) →
      after.Inv ∧ after.stream ≤ reader.stream := by
  intro remaining
  induction remaining generalizing reader with
  | zero =>
    intro i len value loopEq
    simp [readVarintLoop] at loopEq
  | succ remaining inductionHypothesis =>
    intro i len value loopEq
    obtain ⟨readInv, readStream⟩ := read_consumes inv 8 (by decide)
    have readLe : (reader.read 8).2.stream ≤ reader.stream :=
      le_trans readStream (Nat.div_le_self _ _)
    simp only [readVarintLoop] at loopEq
    split at loopEq
    · simp only [Except.ok.injEq, Prod.mk.injEq] at loopEq
      rw [← loopEq.2]
      exact ⟨readInv, readLe⟩
    · obtain ⟨afterInv, afterLe⟩ := inductionHypothesis readInv loopEq
      exact ⟨afterInv, le_trans afterLe readLe⟩

/-- Whatever `read_len` returns, it has read at least one bit. -/
theorem readLen_consumes {reader after : BitReader} (inv : reader.Inv) {result : Option Nat}
    (readEq : reader.readLen = .ok (result, after)) :
    after.Inv ∧ after.stream ≤ reader.stream / 2 := by
  obtain ⟨firstInv, firstStream⟩ := read_consumes inv 1 (by decide)
  obtain ⟨secondInv, secondStream⟩ := read_consumes firstInv 1 (by decide)
  obtain ⟨shortInv, shortStream⟩ := read_consumes secondInv 4 (by decide)
  have secondLe := le_trans secondStream (Nat.div_le_self _ _)
  have shortLe := le_trans shortStream (Nat.div_le_self _ _)
  simp only [readLen] at readEq
  split at readEq
  · simp only [Except.map, Except.ok.injEq, Prod.mk.injEq] at readEq
    rw [← readEq.2]
    exact ⟨firstInv, firstStream⟩
  · split at readEq
    · simp only [Except.map, Except.ok.injEq, Prod.mk.injEq] at readEq
      rw [← readEq.2]
      exact ⟨shortInv, le_trans shortLe (le_trans secondLe firstStream)⟩
    · cases varintEq : (reader.read 1).2.read 1 |>.2.readVarint with
      | error message => simp [varintEq, Except.map] at readEq
      | ok pair =>
        obtain ⟨len, varintAfter⟩ := pair
        simp only [varintEq, Except.map, Except.ok.injEq, Prod.mk.injEq] at readEq
        rw [← readEq.2]
        obtain ⟨afterInv, afterLe⟩ := readVarintLoop_consumes secondInv varintEq
        exact ⟨afterInv, le_trans afterLe (le_trans secondLe firstStream)⟩

/-- A length comes only out of a stream with a bit set. -/
theorem readLen_some_pos {reader after : BitReader} (inv : reader.Inv) {len : Nat}
    (readEq : reader.readLen = .ok (some len, after)) : 0 < reader.stream := by
  rcases Nat.eq_zero_or_pos reader.stream with empty | positive
  · obtain ⟨other, zeroEq, _, _⟩ := readLen_zero inv empty
    rw [zeroEq] at readEq
    simp at readEq
  · exact positive

end BitReader

end Forest.Bitfield

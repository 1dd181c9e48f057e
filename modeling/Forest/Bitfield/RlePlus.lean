import Forest.Bitfield.BitField
import Forest.Bitfield.Reader
import Forest.Bitfield.Writer

namespace Forest.Bitfield

/-!
# RLE+ encoding of a bit field

`BitField::from_bytes` and `BitField::to_bytes` of `rleplus/mod.rs`.  `to_bytes` writes
the version, the first bit and the runs of `ranges()` with `BitWriter`; `from_bytes`
reads the version, the first bit, and then lengths with `BitReader` until a length of
zero, keeping every second run as a range.

The decoding loop always ends (`fromBytes_ne_diverges`): every length read takes at
least one bit off a stream that lies below `2 ^ (8 * bytes.length)`.  Decoding an
encoding gives back the ranges (`fromBytes_toBytes_of_runs_lt`) as long as every run is
below `2 ^ 63`, the runs whose varints fit in the nine bytes `read_varint` accepts;
a larger run is written in ten bytes and refused.
-/

open BitPacking

/-- How decoding fails: with the source's error text, or by running out of rounds, which
`fromBytes_ne_diverges` shows never happens. -/
inductive Failure where
  | error (message : String)
  | diverges
  deriving DecidableEq, Repr

namespace BitField

/-- The loop of `BitField::from_bytes`: lengths until a length of zero, every second run
kept as a range; `index += len` wraps.  The rest of the stream lies below `2 ^ fuel`. -/
def fromBytesLoop : Nat → BitReader → Bool → Nat → List Range → Except Failure (List Range)
  | fuel, reader, nextValue, index, ranges =>
    match reader.readLen with
    | .error message => .error (.error message)
    | .ok (none, _) => .ok ranges
    | .ok (some len, reader) =>
      match fuel with
      | 0 => .error .diverges
      | fuel + 1 =>
        let start := index
        let index := Usize.wrappingAdd index len
        fromBytesLoop fuel reader (!nextValue) index
          (if nextValue then ranges ++ [⟨start, index⟩] else ranges)

/-- `BitField::from_bytes`. -/
def fromBytes (bytes : List UInt8) : Except Failure BitField :=
  let (version, reader) := (BitReader.new bytes).read 2
  if version ≠ 0 then .error (.error "incorrect version")
  else
    let (first, reader) := reader.read 1
    match fromBytesLoop (8 * bytes.length) reader (first == 1) 0 [] with
    | .ok ranges => .ok (fromRanges ranges)
    | .error failure => .error failure

/-- The loop of `BitField::to_bytes` over the ranges after the first: the zeros up to a
range, then its ones.  `range.start - index` is a `usize` subtraction. -/
def toBytesLoop (varint : UsizeVarint) (writer : BitWriter) (index : Nat) : List Range → BitWriter
  | [] => writer
  | range :: rest =>
    toBytesLoop varint
      ((writer.writeLen varint (Usize.wrappingSub range.start index)).writeLen varint range.len)
      range.stop rest

/-- `BitField::to_bytes`. -/
def toBytes (varint : UsizeVarint) (bitfield : BitField) : List UInt8 :=
  match bitfield.ranges with
  | [] => []
  | first :: rest =>
    let writer := BitWriter.new.write 0 2
    let writer :=
      if first.start = 0 then writer.write 1 1 else (writer.write 0 1).writeLen varint first.start
    let writer := writer.writeLen varint first.len
    (toBytesLoop varint writer first.stop rest).finish

/-- `to_bytes` looks at `ranges()` only. -/
theorem toBytes_eq_of_ranges (varint : UsizeVarint) {bitfield other : BitField}
    (same : bitfield.ranges = other.ranges) : bitfield.toBytes varint = other.toBytes varint := by
  simp only [toBytes, same]

/-! ## Decoding ends -/

/-- The decoding loop stops within its rounds on every stream below `2 ^ fuel`. -/
theorem fromBytesLoop_ne_diverges (fuel : Nat) :
    ∀ (reader : BitReader) (nextValue : Bool) (index : Nat) (ranges : List Range),
      reader.Inv → reader.stream < 2 ^ fuel →
      fromBytesLoop fuel reader nextValue index ranges ≠ .error .diverges := by
  induction fuel with
  | zero =>
    intro reader nextValue index ranges inv below
    rw [fromBytesLoop]
    split
    · simp
    · simp
    · next len after readEq =>
      have := BitReader.readLen_some_pos inv readEq
      omega
  | succ fuel inductionHypothesis =>
    intro reader nextValue index ranges inv below
    rw [fromBytesLoop]
    split
    · simp
    · simp
    · next len after readEq =>
      obtain ⟨afterInv, afterLe⟩ := BitReader.readLen_consumes inv readEq
      apply inductionHypothesis after _ _ _ afterInv
      rw [Nat.pow_succ] at below
      omega

/-- `from_bytes` never runs out of rounds: every decoding ends with a bit field or with
one of the source's errors. -/
theorem fromBytes_ne_diverges (bytes : List UInt8) : fromBytes bytes ≠ .error .diverges := by
  obtain ⟨newInv, newStream⟩ := BitReader.new_spec bytes
  obtain ⟨versionInv, versionLe⟩ := BitReader.read_consumes newInv 2 (by decide)
  obtain ⟨firstInv, firstLe⟩ := BitReader.read_consumes versionInv 1 (by decide)
  have below : ((BitReader.new bytes).read 2).2.read 1 |>.2.stream < 2 ^ (8 * bytes.length) := by
    have whole := littleEndian_lt bytes
    rw [← newStream] at whole
    calc _ ≤ ((BitReader.new bytes).read 2).2.stream / 2 ^ 1 := firstLe
      _ ≤ ((BitReader.new bytes).read 2).2.stream := Nat.div_le_self _ _
      _ ≤ (BitReader.new bytes).stream / 2 ^ 2 := versionLe
      _ ≤ (BitReader.new bytes).stream := Nat.div_le_self _ _
      _ < 2 ^ (8 * bytes.length) := whole
  have loopEnds := fromBytesLoop_ne_diverges (8 * bytes.length) _
    ((((BitReader.new bytes).read 2).2.read 1).1 == 1) 0 [] firstInv below
  simp only [fromBytes]
  split
  · simp
  · split
    · simp
    · next failure loopEq =>
      rw [loopEq] at loopEnds
      simpa using loopEnds

/-! ## Decoding an encoding -/

/-- The decoding loop reads back runs below `2 ^ 63` that are written one after the other,
as long as the positions they reach stay within `usize`. -/
theorem fromBytesLoop_runs {runs : List Nat} (positive : ∀ run ∈ runs, 0 < run)
    (small : ∀ run ∈ runs, run < 2 ^ 63) :
    ∀ (fuel : Nat) (reader : BitReader) (nextValue : Bool) (index : Nat) (ranges : List Range),
      reader.Inv → reader.stream = pack (runs.flatMap blockChunks) → reader.stream < 2 ^ fuel →
      index + runs.sum ≤ Usize.max →
      fromBytesLoop fuel reader nextValue index ranges =
        .ok (ranges ++ rangesOfRuns nextValue index runs) := by
  induction runs with
  | nil =>
    intro fuel reader nextValue index ranges inv streamShape _ _
    obtain ⟨after, readEq, _, _⟩ := BitReader.readLen_zero inv (by simpa using streamShape)
    rw [fromBytesLoop, readEq]
    simp [rangesOfRuns]
  | cons run rest inductionHypothesis =>
    intro fuel reader nextValue index ranges inv streamShape below withinUsize
    have runPositive : 0 < run := positive run (by simp)
    have blockShape : reader.stream = pack (blockChunks run) +
        2 ^ width (blockChunks run) * pack (rest.flatMap blockChunks) := by
      rw [streamShape, List.flatMap_cons, pack_append]
    obtain ⟨after, readEq, afterInv, afterStream⟩ :=
      BitReader.readLen_blockChunks inv runPositive (small run (by simp)) blockShape
    have readPositive := BitReader.readLen_some_pos inv readEq
    obtain ⟨_, afterLe⟩ := BitReader.readLen_consumes inv readEq
    obtain ⟨fuel, rfl⟩ : ∃ fewer, fuel = fewer + 1 := by
      rcases fuel with _ | fewer
      · simp at below
        omega
      · exact ⟨fewer, rfl⟩
    have noWrap : Usize.wrappingAdd index run = index + run := by
      apply Usize.wrappingAdd_of_lt
      simp only [List.sum_cons] at withinUsize
      unfold Usize.max at withinUsize
      omega
    rw [fromBytesLoop, readEq]
    simp only [noWrap]
    rw [inductionHypothesis (fun later member => positive later (by simp [member]))
      (fun later member => small later (by simp [member])) fuel after (!nextValue) (index + run)
      _ afterInv afterStream (by rw [Nat.pow_succ] at below; omega)
      (by simp only [List.sum_cons] at withinUsize; omega)]
    cases nextValue <;> simp [rangesOfRuns]

/-- Decoding the bytes of an encoding: the version, the first bit, and the runs. -/
theorem fromBytes_of_encoding {ranges : List Range} (valid : Valid ranges)
    (bounded : ∀ range ∈ ranges, range.stop ≤ Usize.max)
    (small : ∀ run ∈ runs ranges, run < 2 ^ 63) {bytes : List UInt8}
    (spelled : littleEndian bytes = pack (encodingChunks ranges)) :
    fromBytes bytes = .ok (fromRanges ranges) := by
  obtain ⟨newInv, newStream⟩ := BitReader.new_spec bytes
  have whole := littleEndian_lt bytes
  set firstBit : Nat := if ranges.head?.any (fun first => first.start = 0) then 1 else 0
  have firstBitFits : firstBit < 2 ^ 1 := by
    simp only [firstBit]
    split <;> decide
  have firstValue : (firstBit == 1) = ranges.head?.any (fun first => first.start = 0) := by
    simp only [firstBit]
    split <;> simp_all
  have headerShape : (BitReader.new bytes).stream =
      0 + 2 ^ 2 * (firstBit + 2 ^ 1 * pack ((runs ranges).flatMap blockChunks)) := by
    rw [newStream, spelled]
    cases ranges with
    | nil => simp [encodingChunks, runs, firstBit]
    | cons first rest =>
      simp only [encodingChunks, pack_cons, firstBit, List.head?_cons, Option.any_some]
      split <;> simp_all
  obtain ⟨versionReader, versionEq, versionInv, versionStream⟩ :=
    BitReader.read_chunk newInv (by decide) (by decide) headerShape
  obtain ⟨firstReader, firstEq, firstInv, firstStream⟩ :=
    BitReader.read_chunk versionInv firstBitFits (by decide) versionStream
  have below : firstReader.stream < 2 ^ (8 * bytes.length) := by
    rw [firstStream]
    omega
  have loopEq := fromBytesLoop_runs (runs_pos valid) small (8 * bytes.length) firstReader
    (firstBit == 1) 0 [] firstInv firstStream below
    (by simpa [Usize.max] using runs_sum_le valid bounded)
  rw [firstValue, rangesOfRuns_runs valid, List.nil_append] at loopEq
  simp only [fromBytes, versionEq, firstEq, ne_eq, not_true_eq_false, if_false]
  rw [firstValue, loopEq]

/-! ## Decoding any runs -/

/-- The ranges `from_bytes` builds from runs read from `index` on, the first run being a run
of ones when `ones` holds.  `index += len` is a `usize` addition and wraps. -/
def decodedRanges (ones : Bool) (index : Nat) : List Nat → List Range
  | [] => []
  | len :: rest =>
    let next := Usize.wrappingAdd index len
    (if ones then [⟨index, next⟩] else []) ++ decodedRanges (!ones) next rest

/-- The decoding loop reads back any positive runs below `2 ^ 63` written one after the other,
wherever their positions end up. -/
theorem fromBytesLoop_decodedRanges {runs : List Nat} (positive : ∀ run ∈ runs, 0 < run)
    (small : ∀ run ∈ runs, run < 2 ^ 63) :
    ∀ (fuel : Nat) (reader : BitReader) (nextValue : Bool) (index : Nat) (ranges : List Range),
      reader.Inv → reader.stream = pack (runs.flatMap blockChunks) → reader.stream < 2 ^ fuel →
      fromBytesLoop fuel reader nextValue index ranges =
        .ok (ranges ++ decodedRanges nextValue index runs) := by
  induction runs with
  | nil =>
    intro fuel reader nextValue index ranges inv streamShape _
    obtain ⟨after, readEq, _, _⟩ := BitReader.readLen_zero inv (by simpa using streamShape)
    rw [fromBytesLoop, readEq]
    simp [decodedRanges]
  | cons run rest inductionHypothesis =>
    intro fuel reader nextValue index ranges inv streamShape below
    have runPositive : 0 < run := positive run (by simp)
    have blockShape : reader.stream = pack (blockChunks run) +
        2 ^ width (blockChunks run) * pack (rest.flatMap blockChunks) := by
      rw [streamShape, List.flatMap_cons, pack_append]
    obtain ⟨after, readEq, afterInv, afterStream⟩ :=
      BitReader.readLen_blockChunks inv runPositive (small run (by simp)) blockShape
    have readPositive := BitReader.readLen_some_pos inv readEq
    obtain ⟨_, afterLe⟩ := BitReader.readLen_consumes inv readEq
    -- a length was read, so the stream was not zero and there is a round left
    obtain ⟨fuel, rfl⟩ : ∃ fewer, fuel = fewer + 1 := by
      rcases fuel with _ | fewer
      · simp at below
        omega
      · exact ⟨fewer, rfl⟩
    rw [fromBytesLoop, readEq]
    simp only
    rw [inductionHypothesis (fun later member => positive later (by simp [member]))
      (fun later member => small later (by simp [member])) fuel after (!nextValue)
      (Usize.wrappingAdd index run) _ afterInv afterStream
      (by rw [Nat.pow_succ] at below; omega)]
    cases nextValue <;> simp [decodedRanges]

/-- Decoding the version, a first bit and the blocks of positive runs below `2 ^ 63`: the
ranges of the runs of ones, at positions added up modulo `2 ^ 64`. -/
theorem fromBytes_of_runs {ones : Bool} {runs : List Nat} (positive : ∀ run ∈ runs, 0 < run)
    (small : ∀ run ∈ runs, run < 2 ^ 63) {bytes : List UInt8}
    (spelled : littleEndian bytes =
      pack ((0, 2) :: (if ones then 1 else 0, 1) :: runs.flatMap blockChunks)) :
    fromBytes bytes = .ok (fromRanges (decodedRanges ones 0 runs)) := by
  obtain ⟨newInv, newStream⟩ := BitReader.new_spec bytes
  have whole := littleEndian_lt bytes
  have firstBitFits : (if ones then 1 else 0) < 2 ^ 1 := by
    split <;> decide
  have firstValue : ((if ones then 1 else 0) == 1) = ones := by
    cases ones <;> rfl
  have headerShape : (BitReader.new bytes).stream =
      0 + 2 ^ 2 * ((if ones then 1 else 0) + 2 ^ 1 * pack (runs.flatMap blockChunks)) := by
    rw [newStream, spelled, pack_cons, pack_cons]
  obtain ⟨versionReader, versionEq, versionInv, versionStream⟩ :=
    BitReader.read_chunk newInv (by decide) (by decide) headerShape
  obtain ⟨firstReader, firstEq, firstInv, firstStream⟩ :=
    BitReader.read_chunk versionInv firstBitFits (by decide) versionStream
  have below : firstReader.stream < 2 ^ (8 * bytes.length) := by
    rw [firstStream]
    omega
  have loopEq := fromBytesLoop_decodedRanges positive small (8 * bytes.length) firstReader
    ((if ones then 1 else 0) == 1) 0 [] firstInv firstStream below
  rw [firstValue, List.nil_append] at loopEq
  simp only [fromBytes, versionEq, firstEq, ne_eq, not_true_eq_false, if_false]
  rw [firstValue, loopEq]

/-- Runs of ones, zeros and ones whose positions pass `usize::MAX` within the third run: the
index wraps, and `from_bytes` returns `Ok` with a second range that ends before it starts. -/
theorem fromBytes_wraps_index {first gap second : Nat}
    (positive : 0 < first ∧ 0 < gap ∧ 0 < second)
    (small : first < 2 ^ 63 ∧ gap < 2 ^ 63 ∧ second < 2 ^ 63)
    (fits : first + gap ≤ Usize.max) (overflows : Usize.max < first + gap + second)
    {bytes : List UInt8}
    (spelled : littleEndian bytes = pack ((0, 2) :: (1, 1) :: [first, gap, second].flatMap blockChunks)) :
    fromBytes bytes = .ok (fromRanges [⟨0, first⟩, ⟨first + gap, first + gap + second - 2 ^ 64⟩]) ∧
      first + gap + second - 2 ^ 64 < first + gap := by
  obtain ⟨firstPositive, gapPositive, secondPositive⟩ := positive
  obtain ⟨firstSmall, gapSmall, secondSmall⟩ := small
  unfold Usize.max at fits overflows
  have decoded : fromBytes bytes =
      .ok (fromRanges (decodedRanges true 0 [first, gap, second])) := by
    refine fromBytes_of_runs ?_ ?_ spelled
    · intro run member
      simp only [List.mem_cons, List.not_mem_nil, or_false] at member
      rcases member with rfl | rfl | rfl <;> assumption
    · intro run member
      simp only [List.mem_cons, List.not_mem_nil, or_false] at member
      rcases member with rfl | rfl | rfl <;> assumption
  have firstEnd : Usize.wrappingAdd 0 first = first := by
    rw [Usize.wrappingAdd_of_lt (show 0 + first < 2 ^ 64 by omega), Nat.zero_add]
  have gapEnd : Usize.wrappingAdd first gap = first + gap := Usize.wrappingAdd_of_lt (by omega)
  -- the third run carries the index past `2 ^ 64`, once
  have secondEnd : Usize.wrappingAdd (first + gap) second = first + gap + second - 2 ^ 64 := by
    unfold Usize.wrappingAdd
    rw [Nat.mod_eq_sub_mod (show 2 ^ 64 ≤ first + gap + second by omega),
      Nat.mod_eq_of_lt (show first + gap + second - 2 ^ 64 < 2 ^ 64 by omega)]
  refine ⟨?_, by omega⟩
  rw [decoded]
  simp [decodedRanges, firstEnd, gapEnd, secondEnd]

/-- The failing input: 28 bytes, version `00`, a first run of ones, and three long blocks
of `2 ^ 63 - 1` bits each. -/
theorem fromBytes_wraps_index_three_long_runs :
    fromBytes [228, 255, 255, 255, 255, 255, 255, 255, 255, 143, 255, 255, 255, 255, 255, 255,
        255, 255, 63, 254, 255, 255, 255, 255, 255, 255, 255, 255] =
      .ok (fromRanges [⟨0, 2 ^ 63 - 1⟩, ⟨(2 ^ 63 - 1) + (2 ^ 63 - 1),
        (2 ^ 63 - 1) + (2 ^ 63 - 1) + (2 ^ 63 - 1) - 2 ^ 64⟩]) ∧
      (2 ^ 63 - 1) + (2 ^ 63 - 1) + (2 ^ 63 - 1) - 2 ^ 64 < (2 ^ 63 - 1) + (2 ^ 63 - 1) :=
  fromBytes_wraps_index ⟨by decide, by decide, by decide⟩ ⟨by decide, by decide, by decide⟩
    (by decide) (by decide) (by decide)

section Writing

variable (varint : UsizeVarint)

/-- A range within `usize` has its start and its length within `usize`. -/
theorem start_lt_of_stop_le {range : Range} (bounded : range.stop ≤ Usize.max)
    (nonempty : range.start < range.stop) : range.start < 2 ^ 64 := by
  unfold Usize.max at bounded
  omega

theorem len_lt_of_stop_le {range : Range} (bounded : range.stop ≤ Usize.max) : range.len < 2 ^ 64 := by
  unfold Range.len Usize.max at *
  omega

/-- The loop of `to_bytes` writes the blocks of the gaps and lengths after `index`. -/
theorem toBytesLoop_spec {writer : BitWriter} (inv : writer.Inv) {index : Nat}
    {ranges : List Range} (valid : Valid ranges) (before : ∀ first ∈ ranges.head?, index < first.start)
    (bounded : ∀ range ∈ ranges, range.stop ≤ Usize.max) :
    writer.Appends (toBytesLoop varint writer index ranges)
      ((gapsAndLens index ranges).flatMap blockChunks) := by
  induction ranges generalizing writer index with
  | nil => exact BitWriter.Appends.refl inv
  | cons range rest inductionHypothesis =>
    obtain ⟨nonempty, beforeNext, validRest⟩ := valid_cons.mp valid
    have gapStart : index < range.start := before range rfl
    have startFits := start_lt_of_stop_le (bounded range List.mem_cons_self) nonempty
    have gap : Usize.wrappingSub range.start index = range.start - index :=
      Usize.wrappingSub_of_le startFits (le_of_lt gapStart)
    have gapWritten := BitWriter.writeLen_spec varint inv (show range.start - index < 2 ^ 64 by omega)
    have lenWritten := BitWriter.writeLen_spec varint gapWritten.1
      (len_lt_of_stop_le (bounded range List.mem_cons_self))
    have restWritten := inductionHypothesis lenWritten.1 validRest beforeNext
      (fun later member => bounded later (by simp [member]))
    rw [toBytesLoop, gap, gapsAndLens, List.flatMap_cons, List.flatMap_cons, ← List.append_assoc]
    exact (gapWritten.trans lenWritten).trans restWritten

/-- The version, the first bit and the leading zeros of `to_bytes`. -/
theorem toBytes_header {first : Range} (fits : first.start < 2 ^ 64) :
    BitWriter.new.Appends
      (if first.start = 0 then (BitWriter.new.write 0 2).write 1 1
        else ((BitWriter.new.write 0 2).write 0 1).writeLen varint first.start)
      ((0, 2) :: (if first.start = 0 then 1 else 0, 1) ::
        (if first.start = 0 then [] else [first.start]).flatMap blockChunks) := by
  have versionWritten := BitWriter.write_spec BitWriter.new_inv
    (show (0 : UInt8).toNat < 2 ^ 2 by decide) (by decide)
  by_cases startsAtZero : first.start = 0
  · have oneWritten := BitWriter.write_spec versionWritten.1
      (show (1 : UInt8).toNat < 2 ^ 1 by decide) (by decide)
    simp only [startsAtZero, if_true]
    exact versionWritten.trans oneWritten
  · have zeroWritten := BitWriter.write_spec versionWritten.1
      (show (0 : UInt8).toNat < 2 ^ 1 by decide) (by decide)
    have leadingWritten := BitWriter.writeLen_spec varint zeroWritten.1 fits
    simp only [startsAtZero, if_false, List.flatMap_singleton]
    exact (versionWritten.trans zeroWritten).trans leadingWritten

/-- The bytes of `to_bytes` spell the header and the blocks of the runs of `ranges()`. -/
theorem toBytes_spec (bitfield : BitField) (valid : Valid bitfield.ranges)
    (bounded : ∀ range ∈ bitfield.ranges, range.stop ≤ Usize.max) :
    littleEndian (bitfield.toBytes varint) = pack (encodingChunks bitfield.ranges) := by
  unfold toBytes
  split
  · next empty => rw [empty]; rfl
  · next first rest shape =>
    rw [shape] at valid bounded
    rw [shape]
    obtain ⟨nonempty, beforeNext, validRest⟩ := valid_cons.mp valid
    have firstBounded := bounded first List.mem_cons_self
    have headerWritten := toBytes_header varint (start_lt_of_stop_le firstBounded nonempty)
    have lenWritten := BitWriter.writeLen_spec varint headerWritten.1 (len_lt_of_stop_le firstBounded)
    have restWritten := toBytesLoop_spec varint lenWritten.1 validRest beforeNext
      (fun later member => bounded later (by simp [member]))
    have whole := (headerWritten.trans lenWritten).trans restWritten
    obtain ⟨finishStream, _⟩ := BitWriter.finish_spec whole.1
    dsimp only
    rw [finishStream, whole.2.1]
    simp [encodingChunks, runs, List.flatMap_append]

/-- Within `usize` the laws of the varint fix every varint `to_bytes` writes, so its bytes are
those of the standard encoder. -/
theorem toBytesLoop_eq_standard (writer : BitWriter) (index : Nat) {ranges : List Range}
    (bounded : ∀ range ∈ ranges, range.stop ≤ Usize.max) :
    toBytesLoop varint writer index ranges = toBytesLoop .standard writer index ranges := by
  induction ranges generalizing writer index with
  | nil => rfl
  | cons range rest inductionHypothesis =>
    have gapFits : Usize.wrappingSub range.start index < 2 ^ 64 := Nat.mod_lt _ (by decide)
    have lenFits := len_lt_of_stop_le (bounded range List.mem_cons_self)
    rw [toBytesLoop, toBytesLoop, BitWriter.writeLen_eq_standard varint _ gapFits,
      BitWriter.writeLen_eq_standard varint _ lenFits,
      inductionHypothesis _ _ (fun later member => bounded later (List.mem_cons_of_mem _ member))]

theorem toBytes_eq_standard {bitfield : BitField} (valid : Valid bitfield.ranges)
    (bounded : ∀ range ∈ bitfield.ranges, range.stop ≤ Usize.max) :
    bitfield.toBytes varint = bitfield.toBytes .standard := by
  unfold toBytes
  split
  · rfl
  · next first rest shape =>
    rw [shape] at valid bounded
    have firstBounded := bounded first List.mem_cons_self
    have startFits := start_lt_of_stop_le firstBounded (valid_cons.mp valid).1
    dsimp only
    rw [BitWriter.writeLen_eq_standard varint _ startFits,
      BitWriter.writeLen_eq_standard varint _ (len_lt_of_stop_le firstBounded),
      toBytesLoop_eq_standard varint _ _ (fun later member => bounded later (List.mem_cons_of_mem _ member))]

end Writing

/-! ## The round trip -/

/-- Decoding what `to_bytes` wrote gives back a bit field with the same `ranges()`, which
encodes to the same bytes again, as long as the stored ranges keep the `RangeIterator`
order within `usize` and every run is below `2 ^ 63`. -/
theorem fromBytes_toBytes_of_runs_lt (varint : UsizeVarint) (bitfield : BitField)
    (sorted : StartsSorted bitfield.storedRanges)
    (bounded : ∀ range ∈ bitfield.storedRanges, range.stop ≤ Usize.max)
    (small : ∀ run ∈ runs bitfield.ranges, run < 2 ^ 63) :
    ∃ decoded, fromBytes (bitfield.toBytes varint) = .ok decoded ∧
      decoded.ranges = bitfield.ranges ∧ decoded.toBytes varint = bitfield.toBytes varint := by
  have valid := ranges_valid bitfield sorted
  have rangesBounded := ranges_stop_le bitfield bounded
  have decodedRanges := ranges_fromRanges valid
  refine ⟨fromRanges bitfield.ranges, ?_, decodedRanges, toBytes_eq_of_ranges varint decodedRanges⟩
  exact fromBytes_of_encoding valid rangesBounded small
    (toBytes_spec varint bitfield valid rangesBounded)

theorem fromBytes_toBytes_of_runs_lt_two_ranges :
    ∃ decoded, fromBytes ((fromRanges [⟨0, 3⟩, ⟨5, 300⟩]).toBytes .standard) = .ok decoded ∧
      decoded.ranges = (fromRanges [⟨0, 3⟩, ⟨5, 300⟩]).ranges ∧
      decoded.toBytes .standard = (fromRanges [⟨0, 3⟩, ⟨5, 300⟩]).toBytes .standard :=
  fromBytes_toBytes_of_runs_lt .standard _ (by decide) (by decide)
    (by rw [ranges_fromRanges (by decide)]; decide)

/-- Two bit fields the round trip misses, whichever encoder stands for the crate.  A run of
`2 ^ 63` bits is written as a varint of ten bytes, which `read_varint` refuses after nine.  The
byte `28` is version `00`, a run of one bit of ones and a run of one bit of zeros, in minimal
blocks and with no trailing zero byte; the trailing run of zeros is lost, and the range `0..1`
encodes as `12`. -/
theorem fromBytes_toBytes_misses (varint : UsizeVarint) :
    fromBytes ((fromRanges [⟨2 ^ 63, 2 ^ 63 + 1⟩]).toBytes varint) =
        .error (.error "Invalid varint") ∧
      fromBytes [28] = .ok (fromRanges [⟨0, 1⟩]) ∧ (fromRanges [⟨0, 1⟩]).toBytes varint = [12] := by
  have bigRanges : (fromRanges [⟨2 ^ 63, 2 ^ 63 + 1⟩]).ranges = [⟨2 ^ 63, 2 ^ 63 + 1⟩] :=
    ranges_fromRanges (by decide)
  have oneRanges : (fromRanges [⟨0, 1⟩]).ranges = [⟨0, 1⟩] := ranges_fromRanges (by decide)
  refine ⟨?_, rfl, ?_⟩
  · rw [toBytes_eq_standard varint (by rw [bigRanges]; decide) (by rw [bigRanges]; decide),
      toBytes, bigRanges]
    rfl
  · rw [toBytes_eq_standard varint (by rw [oneRanges]; decide) (by rw [oneRanges]; decide),
      toBytes, oneRanges]
    rfl

theorem fromBytes_toBytes_counterexample :
    fromBytes ((fromRanges [⟨2 ^ 63, 2 ^ 63 + 1⟩]).toBytes .standard) =
        .error (.error "Invalid varint") ∧
      fromBytes [28] = .ok (fromRanges [⟨0, 1⟩]) ∧ (fromRanges [⟨0, 1⟩]).toBytes .standard = [12] :=
  fromBytes_toBytes_misses .standard

end BitField

end Forest.Bitfield

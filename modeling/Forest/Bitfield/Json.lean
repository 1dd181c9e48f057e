import Forest.Bitfield.Semantics

namespace Forest.Bitfield

/-!
# The JSON form of a bit field

`json::serialize` of `lib.rs` writes a bit field as an array of numbers: for each range of
`ranges()`, the gap since the end of the previous range and the range's length, so that
the array alternates runs of zeros and runs of ones, starting with zeros.  Each number is
cast `as u8` before it is written.  `json::deserialize` reads the runs back, adding them up
from zero, and makes a bit field of the runs of ones.  The numbers are modelled after the
JSON text has been parsed, as the list of numbers it holds.

The cast keeps each run modulo 256.  `deserializeRanges_serializeRuns` shows that the round
trip gives back the ranges when every gap and every length is below 256, and
`deserializeRanges_stop_lt` that otherwise every range it gives back ends before the last
range of the bit field does.  So for a bit field made from a valid list of ranges the round
trip is exact exactly when every run fits a byte (`json_roundTrip_iff_runsFit`).
-/

namespace BitField

/-- `BitField::is_empty`: no bit set on top, and every bit of the stored ranges unset. -/
def isEmpty (bitfield : BitField) : Bool :=
  decide (bitfield.setBits = ∅) && bitfield.storedRanges.all fun range =>
    (List.range' range.start range.len).all (· ∈ bitfield.unsetBits)

/-- A bit field made from valid ranges is empty exactly when there are none. -/
theorem isEmpty_fromRanges {ranges : List Range} (valid : Valid ranges) :
    (fromRanges ranges).isEmpty = ranges.isEmpty := by
  cases ranges with
  | nil => rfl
  | cons range rest =>
    -- the first range holds its first bit, which is not unset
    have nonempty : range.start < range.stop := (valid_cons.mp valid).1
    simp only [isEmpty, fromRanges, List.isEmpty_cons, Bool.and_eq_false_iff, List.all_eq_false]
    refine .inr ⟨range, List.mem_cons_self, fun allUnset => ?_⟩
    have startUnset := List.all_eq_true.mp allUnset range.start
      (List.mem_range'.mpr ⟨0, by simp [Range.len]; omega, by simp⟩)
    simp at startUnset

end BitField

namespace Json

/-- The fold of `json::serialize` over the ranges: the gap before each range and its length,
each cast `as u8`. -/
def serializeRuns (lastIndex : Nat) : List Range → List Nat
  | [] => []
  | range :: rest =>
    (range.start - lastIndex) % 256 :: (range.stop - range.start) % 256 ::
      serializeRuns range.stop rest

/-- `json::serialize`: the numbers of the JSON array; an empty bit field is `[0]`. -/
def serialize (bitfield : BitField) : List Nat :=
  if !bitfield.isEmpty then serializeRuns 0 bitfield.ranges else [0]

/-- The fold of `json::deserialize`: the numbers are the lengths of runs of zeros and ones
in turn, starting with zeros, and each run of ones is a range.  `index + last_index`
wraps. -/
def deserializeRanges (shouldSet : Bool) (lastIndex : Nat) : List Nat → List Range
  | [] => []
  | index :: rest =>
    let endingIndex := Usize.wrappingAdd index lastIndex
    (if shouldSet then [⟨lastIndex, endingIndex⟩] else []) ++
      deserializeRanges (!shouldSet) endingIndex rest

/-- `json::deserialize`. -/
def deserialize (bitfieldBytes : List Nat) : BitField :=
  BitField.fromRanges (deserializeRanges false 0 bitfieldBytes)

/-- Every gap before a range and every length of a range is below 256, so that it fits a
`u8`. -/
def runsFit (lastIndex : Nat) : List Range → Bool
  | [] => true
  | range :: rest =>
    decide (range.start - lastIndex < 256) && decide (range.stop - range.start < 256) &&
      runsFit range.stop rest

/-- One range read back: the gap and the length, each modulo 256, from where the reading
stands, as long as nothing wraps. -/
theorem deserializeRanges_serializeRuns_cons (range : Range) (rest : List Range)
    {lastIndex readIndex : Nat}
    (noWrap : readIndex + (range.start - lastIndex) % 256 + (range.stop - range.start) % 256 ≤
      Usize.max) :
    deserializeRanges false readIndex (serializeRuns lastIndex (range :: rest)) =
      ⟨readIndex + (range.start - lastIndex) % 256,
        readIndex + (range.start - lastIndex) % 256 + (range.stop - range.start) % 256⟩ ::
      deserializeRanges false
        (readIndex + (range.start - lastIndex) % 256 + (range.stop - range.start) % 256)
        (serializeRuns range.stop rest) := by
  have gapEnds : Usize.wrappingAdd ((range.start - lastIndex) % 256) readIndex =
      readIndex + (range.start - lastIndex) % 256 := by
    unfold Usize.wrappingAdd
    rw [Nat.mod_eq_of_lt (by unfold Usize.max at noWrap; omega)]
    omega
  have runEnds : Usize.wrappingAdd ((range.stop - range.start) % 256)
      (readIndex + (range.start - lastIndex) % 256) =
      readIndex + (range.start - lastIndex) % 256 + (range.stop - range.start) % 256 := by
    unfold Usize.wrappingAdd
    rw [Nat.mod_eq_of_lt (by unfold Usize.max at noWrap; omega)]
    omega
  simp only [serializeRuns, deserializeRanges, gapEnds, runEnds, Bool.not_false, Bool.not_true,
    Bool.false_eq_true, if_true, if_false, List.nil_append, List.singleton_append]

/-- When every gap and length fits a byte, the round trip from a position before a valid
list of ranges gives the ranges back. -/
theorem deserializeRanges_serializeRuns {ranges : List Range} (valid : Valid ranges)
    (bounded : ∀ range ∈ ranges, range.stop ≤ Usize.max) :
    ∀ {lastIndex : Nat}, (∀ range ∈ ranges, lastIndex ≤ range.start) →
      runsFit lastIndex ranges = true →
      deserializeRanges false lastIndex (serializeRuns lastIndex ranges) = ranges := by
  induction ranges with
  | nil =>
    intro _ _ _
    rfl
  | cons range rest inductionHypothesis =>
    intro lastIndex after fits
    simp only [runsFit, Bool.and_eq_true, decide_eq_true_eq] at fits
    obtain ⟨⟨gapFits, lengthFits⟩, restFits⟩ := fits
    have nonempty : range.start < range.stop := (valid_cons.mp valid).1
    have startAfter : lastIndex ≤ range.start := after range (by simp)
    have withinUsize : range.stop ≤ Usize.max := bounded range (by simp)
    -- the gap and the length come back whole, so the read position is the range's end
    have readEnd : lastIndex + (range.start - lastIndex) % 256 + (range.stop - range.start) % 256 =
        range.stop := by
      rw [Nat.mod_eq_of_lt gapFits, Nat.mod_eq_of_lt lengthFits]
      omega
    rw [deserializeRanges_serializeRuns_cons range rest (by omega), readEnd,
      inductionHypothesis valid.tail (fun later member => bounded later (by simp [member]))
        (fun later member => Nat.le_of_lt (valid.stop_lt_start later member)) restFits]
    congr 2
    rw [Nat.mod_eq_of_lt gapFits]
    omega

/-- Reading back from a position no later than the writer's, every range read back ends no
later than the ranges do, shifted by the head start; and strictly earlier once some gap or
length does not fit a byte. -/
theorem deserializeRanges_stop_lt {ranges : List Range} (valid : Valid ranges) {top : Nat}
    (belowTop : ∀ range ∈ ranges, range.stop ≤ top) (topWithin : top ≤ Usize.max) :
    ∀ {lastIndex readIndex : Nat}, (∀ range ∈ ranges, lastIndex ≤ range.start) →
      readIndex ≤ lastIndex → lastIndex ≤ top →
      ∀ read ∈ deserializeRanges false readIndex (serializeRuns lastIndex ranges),
        read.stop + lastIndex ≤ readIndex + top ∧
          (runsFit lastIndex ranges = false → read.stop + lastIndex < readIndex + top) := by
  induction ranges with
  | nil =>
    intro _ _ _ _ _ read member
    simp [serializeRuns, deserializeRanges] at member
  | cons range rest inductionHypothesis =>
    intro lastIndex readIndex after behind lastBelow read member
    have nonempty : range.start < range.stop := (valid_cons.mp valid).1
    have startAfter : lastIndex ≤ range.start := after range (by simp)
    have stopBelow : range.stop ≤ top := belowTop range (by simp)
    have gapAtMost := Nat.mod_le (range.start - lastIndex) 256
    have lengthAtMost := Nat.mod_le (range.stop - range.start) 256
    rw [deserializeRanges_serializeRuns_cons range rest (by omega)] at member
    -- a later range that does not fit forces room above this range's end
    have restRoom : runsFit range.stop rest = false → range.stop < top := by
      intro restLoses
      cases rest with
      | nil => simp [runsFit] at restLoses
      | cons next later =>
        have nextAfter := valid.stop_lt_start next (by simp)
        have nextNonempty : next.start < next.stop := (valid_cons.mp valid.tail).1
        have nextBelow := belowTop next (by simp)
        omega
    -- a run that does not fit a byte loses at least 256 bits
    have shrinks : runsFit lastIndex (range :: rest) = false →
        runsFit range.stop rest = false ∨
          (range.start - lastIndex) % 256 + (range.stop - range.start) % 256 <
            (range.start - lastIndex) + (range.stop - range.start) := by
      intro loses
      simp only [runsFit, Bool.and_eq_false_iff, decide_eq_false_iff_not, Nat.not_lt] at loses
      rcases loses with (gapLong | lengthLong) | restLoses
      · right
        have := Nat.mod_lt (range.start - lastIndex) (show 256 > 0 by omega)
        omega
      · right
        have := Nat.mod_lt (range.stop - range.start) (show 256 > 0 by omega)
        omega
      · exact .inl restLoses
    rcases List.mem_cons.mp member with rfl | laterMember
    · refine ⟨by dsimp only; omega, fun loses => ?_⟩
      rcases shrinks loses with restLoses | lost
      · have := restRoom restLoses
        dsimp only
        omega
      · dsimp only
        omega
    · obtain ⟨bound, strict⟩ := inductionHypothesis valid.tail
        (fun later member => belowTop later (by simp [member]))
        (fun later member => Nat.le_of_lt (valid.stop_lt_start later member)) (by omega)
        stopBelow read laterMember
      refine ⟨by omega, fun loses => ?_⟩
      rcases shrinks loses with restLoses | lost
      · have := strict restLoses
        omega
      · omega

/-- In a valid list the last range ends last. -/
theorem stop_le_last {first : List Range} {final : Range} (valid : Valid (first ++ [final])) :
    ∀ range ∈ first ++ [final], range.stop ≤ final.stop := by
  induction first with
  | nil => simp
  | cons range rest inductionHypothesis =>
    intro member inMember
    have finalAfter := valid.stop_lt_start final (by simp)
    have finalNonempty : final.start < final.stop := valid.2 final (by simp)
    rcases List.mem_cons.mp inMember with rfl | restMember
    · omega
    · exact inductionHypothesis valid.tail member restMember

/-- A bit field made from ranges that end by a limit has its ranges end by it. -/
theorem fromRanges_stop_le {stored : List Range} {limit : Nat}
    (below : ∀ range ∈ stored, range.stop ≤ limit) :
    ∀ range ∈ (BitField.fromRanges stored).ranges, range.stop ≤ limit := by
  have noBits : BitField.bitRanges ∅ = [] := by
    rw [BitField.bitRanges, Finset.sort_empty]
    rfl
  have unionBelow : ∀ range ∈ RangeIterator.union stored (BitField.bitRanges ∅),
      range.stop ≤ limit :=
    combine_stop_le (union_keepsBelow limit) below (by simp [noBits])
  exact combine_stop_le (difference_keepsBelow limit) unionBelow
    (by simp [noBits, BitField.fromRanges])

/-- The JSON round trip of a bit field made from a valid list of ranges within `usize` gives
an equal bit field exactly when every gap and every run of ones is shorter than 256 bits;
otherwise the last bit is lost. -/
theorem json_roundTrip_iff_runsFit {ranges : List Range} (valid : Valid ranges)
    (bounded : ∀ range ∈ ranges, range.stop ≤ Usize.max) :
    (deserialize (serialize (BitField.fromRanges ranges))).beq (BitField.fromRanges ranges) =
      true ↔ runsFit 0 ranges = true := by
  have own : (BitField.fromRanges ranges).ranges = ranges := ranges_fromRanges valid
  rcases List.eq_nil_or_concat ranges with rfl | ⟨first, final, rfl⟩
  · -- the empty bit field is written `[0]` and read back empty
    have emptyBack : deserialize [0] = BitField.fromRanges [] := rfl
    simp [serialize, BitField.isEmpty_fromRanges valid, emptyBack, BitField.beq, own, runsFit]
  · rw [List.concat_eq_append] at valid bounded own ⊢
    have notEmpty : (BitField.fromRanges (first ++ [final])).isEmpty = false := by
      rw [BitField.isEmpty_fromRanges valid]
      simp
    have written : serialize (BitField.fromRanges (first ++ [final])) =
        serializeRuns 0 (first ++ [final]) := by
      rw [serialize, notEmpty, own]
      rfl
    rw [written, deserialize, BitField.beq, own, beq_iff_eq]
    constructor
    · -- if a run does not fit, everything read back ends before the last range does
      intro same
      by_contra loses
      have finalBelow : final.stop ≤ Usize.max := bounded final (by simp)
      have readEarly : ∀ read ∈ deserializeRanges false 0 (serializeRuns 0 (first ++ [final])),
          read.stop ≤ final.stop - 1 := by
        intro read member
        have strict := (deserializeRanges_stop_lt valid (stop_le_last valid) finalBelow
          (fun _ _ => Nat.zero_le _) le_rfl (Nat.zero_le _) read member).2
          (by simpa using loses)
        omega
      have finalNonempty : final.start < final.stop := valid.2 final (by simp)
      have finalEarly := fromRanges_stop_le readEarly final (by rw [same]; simp)
      omega
    · intro fits
      rw [deserializeRanges_serializeRuns valid bounded (fun _ _ => Nat.zero_le _) fits, own]

/-- A run of 256 ones, bits `0..256`, is written `[0, 0]` and read back as an empty range, so
the round trip does not give the bit field back. -/
theorem json_roundTrip_loses_byte_run :
    Valid [⟨0, 256⟩] ∧ (∀ range ∈ [(⟨0, 256⟩ : Range)], range.stop ≤ Usize.max) ∧
      serializeRuns 0 [⟨0, 256⟩] = [0, 0] ∧ deserializeRanges false 0 [0, 0] = [⟨0, 0⟩] ∧
      (deserialize (serialize (BitField.fromRanges [⟨0, 256⟩]))).beq
        (BitField.fromRanges [⟨0, 256⟩]) = false := by
  have valid : Valid [⟨0, 256⟩] := by decide
  have bounded : ∀ range ∈ [(⟨0, 256⟩ : Range)], range.stop ≤ Usize.max := by decide
  have tooLong : runsFit 0 [⟨0, 256⟩] = false := by decide
  refine ⟨valid, bounded, by decide, by decide, Bool.eq_false_iff.mpr fun same => ?_⟩
  have fits := (json_roundTrip_iff_runsFit valid bounded).mp same
  rw [tooLong] at fits
  exact Bool.false_ne_true fits

end Json

end Forest.Bitfield

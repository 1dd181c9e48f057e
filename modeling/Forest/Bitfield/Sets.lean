import Forest.Bitfield.Cut

namespace Forest.Bitfield

/-!
# The bits of a bit field

A bit field stands for the set of bits its `ranges()` hold (`BitField.toFinset`).
`FromIterator<usize>` builds one from bits: it sorts them and gathers them into runs with
`ranges_from_bits` (`BitField.fromIter`).  Within `usize` the runs are a valid range list that
holds exactly the bits (`bitRanges_spec`, one induction over the sorted bits for both).

`cutSet` is what a cut means on sets: the bits outside the cut, each moved down past the cut
bits below it.  `toFinset_cut_fromIter` says that `BitField::cut` of the bit fields of two sets
holds the `cutSet` of the sets; it reads the covering theorem of `Cut` at the runs of the sets.
-/

namespace BitField

/-- `FromIterator<usize> for BitField`: the bits sorted and gathered into runs. -/
def fromIter (bits : Finset Nat) : BitField :=
  fromRanges (bitRanges bits)

/-- The bits of `ranges()`, the values `iter()` visits. -/
def toFinset (bitfield : BitField) : Finset Nat :=
  (bitfield.ranges.flatMap fun range => List.range' range.start range.len).toFinset

theorem mem_toFinset (bitfield : BitField) (bit : Nat) :
    bit ∈ bitfield.toFinset ↔ covers bitfield.ranges bit = true := by
  simp only [toFinset, List.mem_toFinset, List.mem_flatMap, List.mem_range'_1, Range.len, covers,
    List.any_eq_true, contains_eq_decide, decide_eq_true_eq]
  constructor
  · rintro ⟨range, member, low, high⟩
    exact ⟨range, member, low, by omega⟩
  · rintro ⟨range, member, low, high⟩
    exact ⟨range, member, low, by omega⟩

end BitField

/-- A cut on sets: the bits of `bits` outside `toCut`, each moved down by the number of bits of
`toCut` below it. -/
def cutSet (bits toCut : Finset Nat) : Finset Nat :=
  (bits \ toCut).image fun bit => bit - (toCut.filter (· < bit)).card

theorem mem_cutSet {bits toCut : Finset Nat} {bit : Nat} :
    bit ∈ cutSet bits toCut ↔
      ∃ kept ∈ bits, kept ∉ toCut ∧ kept - (toCut.filter (· < kept)).card = bit := by
  simp [cutSet, and_assoc]

/-- Cutting nothing leaves the bits as they are. -/
@[simp]
theorem cutSet_empty (bits : Finset Nat) : cutSet bits ∅ = bits := by
  ext bit
  simp [cutSet]

/-! ## The runs of a set of bits -/

/-- The runs `ranges_from_bits` gathers from a run `start..stop` and strictly ascending bits
after it, within `usize`, are a valid range list that holds the run and the bits. -/
theorem rangesFromBitsFrom_spec {start stop : Nat} {bits : List Nat} (nonempty : start < stop)
    (above : ∀ bit ∈ bits, stop ≤ bit) (ascending : bits.Pairwise (· < ·))
    (bounded : ∀ bit ∈ bits, bit < Usize.max) :
    Valid (rangesFromBitsFrom start stop bits) ∧
      ∀ x, covers (rangesFromBitsFrom start stop bits) x = true ↔
        (start ≤ x ∧ x < stop) ∨ x ∈ bits := by
  induction bits generalizing start stop with
  | nil =>
    refine ⟨?_, fun x => ?_⟩
    · simp [rangesFromBitsFrom, valid_cons, nonempty]
    · simp [rangesFromBitsFrom]
  | cons bit rest inductionHypothesis =>
    have bitBelow : bit < Usize.max := bounded bit List.mem_cons_self
    have next : Usize.wrappingAdd bit 1 = bit + 1 :=
      Usize.wrappingAdd_of_lt (by unfold Usize.max at bitBelow; omega)
    have restAbove : ∀ later ∈ rest, bit + 1 ≤ later :=
      fun later member => (List.pairwise_cons.mp ascending).1 later member
    have restBounded : ∀ later ∈ rest, later < Usize.max :=
      fun later member => bounded later (List.mem_cons_of_mem bit member)
    rw [rangesFromBitsFrom]
    split
    · next extending =>
      -- the bit extends the run by one
      subst extending
      rw [next]
      obtain ⟨valid, covered⟩ :=
        inductionHypothesis (show start < bit + 1 by omega) restAbove ascending.of_cons restBounded
      refine ⟨valid, fun x => ?_⟩
      have grown : (start ≤ x ∧ x < bit + 1) ↔ (start ≤ x ∧ x < bit) ∨ x = bit := by omega
      rw [covered x, grown, List.mem_cons, or_assoc]
    · next separate =>
      -- the bit starts the next run, past a gap
      have gap : stop < bit := lt_of_le_of_ne (above bit List.mem_cons_self) (Ne.symm separate)
      obtain ⟨valid, covered⟩ :=
        inductionHypothesis (show bit < bit + 1 by omega) restAbove ascending.of_cons restBounded
      rw [next]
      refine ⟨valid_cons.mpr ⟨nonempty, fun first isHead => ?_, valid⟩, fun x => ?_⟩
      · have startsAbove := (rangesFromBitsFrom_sorted bit (bit + 1) rest
          (fun later member => by have := restAbove later member; omega)
          (ascending.of_cons.imp le_of_lt)).2 first (List.mem_of_mem_head? isHead)
        show stop < first.start
        omega
      · have single : (bit ≤ x ∧ x < bit + 1) ↔ x = bit := by omega
        rw [covers_cons, Bool.or_eq_true, contains_iff, covered x, single, List.mem_cons]

/-- Within `usize`, the runs of a set of bits are a valid range list that holds exactly the
bits. -/
theorem bitRanges_spec {bits : Finset Nat} (bounded : ∀ bit ∈ bits, bit < Usize.max) :
    Valid (BitField.bitRanges bits) ∧
      ∀ x, covers (BitField.bitRanges bits) x = true ↔ x ∈ bits := by
  have ascending : (bits.sort (· ≤ ·)).Pairwise (· < ·) :=
    ((Finset.pairwise_sort bits (· ≤ ·)).and (Finset.sort_nodup bits (· ≤ ·))).imp
      fun ordered => lt_of_le_of_ne ordered.1 ordered.2
  have sortedMembers : ∀ x, x ∈ bits.sort (· ≤ ·) ↔ x ∈ bits := fun _ => Finset.mem_sort _
  unfold BitField.bitRanges
  cases sorted : bits.sort (· ≤ ·) with
  | nil =>
    rw [sorted] at sortedMembers
    refine ⟨valid_nil, fun x => ?_⟩
    simpa [rangesFromBits] using sortedMembers x
  | cons first rest =>
    rw [sorted] at ascending sortedMembers
    have firstBelow : first < Usize.max := bounded first ((sortedMembers first).mp List.mem_cons_self)
    have next : Usize.wrappingAdd first 1 = first + 1 :=
      Usize.wrappingAdd_of_lt (by unfold Usize.max at firstBelow; omega)
    obtain ⟨valid, covered⟩ := rangesFromBitsFrom_spec (show first < first + 1 by omega)
      (fun later member => (List.pairwise_cons.mp ascending).1 later member) ascending.of_cons
      (fun later member => bounded later ((sortedMembers later).mp (List.mem_cons_of_mem first member)))
    rw [rangesFromBits, next]
    refine ⟨valid, fun x => ?_⟩
    have single : (first ≤ x ∧ x < first + 1) ↔ x = first := by omega
    rw [covered x, single, ← sortedMembers x, List.mem_cons]

/-- Below a bit, a range list that holds exactly the bits of a set holds as many bits as the
set. -/
theorem countBelow_eq_card {ranges : List Range} {bits : Finset Nat}
    (holds : ∀ x, covers ranges x = true ↔ x ∈ bits) (bit : Nat) :
    countBelow ranges bit = (bits.filter (· < bit)).card := by
  have sameFilter : (List.range bit).filter (covers ranges) = (List.range bit).filter (· ∈ bits) :=
    List.filter_congr fun x _ => by
      rw [Bool.eq_iff_iff, decide_eq_true_iff]
      exact holds x
  have sameSet : (Finset.range bit).filter (· ∈ bits) = bits.filter (· < bit) := by
    ext x
    simp [and_comm]
  calc countBelow ranges bit = ((List.range bit).filter (· ∈ bits)).length := by
        rw [countBelow, sameFilter]
    _ = ((Finset.range bit).filter (· ∈ bits)).card := rfl
    _ = (bits.filter (· < bit)).card := by rw [sameSet]

/-! ## `cut` on sets -/

/-- The bit field of a set of bits within `usize` has the runs of the set as its ranges. -/
theorem ranges_fromIter {bits : Finset Nat} (bounded : ∀ bit ∈ bits, bit < Usize.max) :
    (BitField.fromIter bits).ranges = BitField.bitRanges bits :=
  ranges_fromRanges (bitRanges_spec bounded).1

/-- `BitField::cut` of the bit fields of two sets of bits within `usize` holds the bits of the
first outside the second, each moved down by the bits of the second below it. -/
theorem toFinset_cut_fromIter {bits toCut : Finset Nat} (bounded : ∀ bit ∈ bits, bit < Usize.max)
    (cutBounded : ∀ bit ∈ toCut, bit < Usize.max) :
    ((BitField.fromIter bits).cut (BitField.fromIter toCut)).toFinset = cutSet bits toCut := by
  obtain ⟨valid, holds⟩ := bitRanges_spec bounded
  obtain ⟨cutValid, cutHolds⟩ := bitRanges_spec cutBounded
  have lhsBelow := rangesFromBits_stop_le (bits.sort (· ≤ ·))
  have rhsBelow := rangesFromBits_stop_le (toCut.sort (· ≤ ·))
  ext bit
  rw [BitField.mem_toFinset, BitField.cut, ranges_fromIter bounded, ranges_fromIter cutBounded,
    ranges_fromRanges (cut_valid valid cutValid lhsBelow rhsBelow),
    covers_cut_iff valid cutValid lhsBelow rhsBelow, mem_cutSet]
  constructor
  · rintro ⟨x, inBits, notCut, rfl⟩
    refine ⟨x, (holds x).mp inBits, fun member => ?_, by rw [countBelow_eq_card cutHolds]⟩
    rw [(cutHolds x).mpr member] at notCut
    cases notCut
  · rintro ⟨kept, inBits, notCut, rfl⟩
    refine ⟨kept, (holds kept).mpr inBits, ?_, by rw [countBelow_eq_card cutHolds]⟩
    cases covered : covers (BitField.bitRanges toCut) kept
    · rfl
    · exact absurd ((cutHolds kept).mp covered) notCut

end Forest.Bitfield

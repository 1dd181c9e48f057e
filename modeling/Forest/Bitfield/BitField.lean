import Mathlib
import Forest.Bitfield.Iter
import Forest.Lib.BinarySearch

namespace Forest.Bitfield

/-!
# The bit field

`BitField` of `lib.rs`: a vector of ranges together with two hash sets of single bits
set and unset on top of them.  `ranges()` is what the bit field means: the stored ranges,
united with the runs of the set bits, with the runs of the unset bits taken away.  Every
operation that combines bit fields goes through it.

`ranges_valid` is the invariant the encoder relies on: whatever bits were set and unset,
`ranges()` meets the `RangeIterator` requirements as soon as the stored ranges have
ascending lower bounds, and it ends below `2 ^ 64` when the stored ranges do.
-/

/-- `BitField`.  The fields `ranges`, `set` and `unset` of the source are `storedRanges`,
`setBits` and `unsetBits` here, since the methods of the same names come first. -/
structure BitField where
  storedRanges : List Range
  setBits : Finset Nat
  unsetBits : Finset Nat

namespace BitField

/-- `BitField::new`. -/
def new : BitField :=
  ⟨[], ∅, ∅⟩

/-- `BitField::from_ranges`. -/
def fromRanges (ranges : List Range) : BitField :=
  ⟨ranges, ∅, ∅⟩

/-- `BitField::set`. -/
def set (bitfield : BitField) (bit : Nat) : BitField :=
  { bitfield with unsetBits := bitfield.unsetBits.erase bit, setBits := insert bit bitfield.setBits }

/-- `BitField::unset`. -/
def unset (bitfield : BitField) (bit : Nat) : BitField :=
  { bitfield with setBits := bitfield.setBits.erase bit, unsetBits := insert bit bitfield.unsetBits }

/-- `BitField::get`: the set and unset bits first, then a binary search of the stored ranges
for one that holds the bit. -/
def get (bitfield : BitField) (index : Nat) : Bool :=
  if index ∈ bitfield.setBits then
    true
  else if index ∈ bitfield.unsetBits then
    false
  else
    (bitfield.storedRanges.binarySearchBy fun range =>
      if index < range.start then .gt else if index ≥ range.stop then .lt else .eq).isOk

/-- The closure `ranges` inside `BitField::ranges`: the bits of a set in ascending order,
gathered into runs. -/
def bitRanges (bits : Finset Nat) : List Range :=
  rangesFromBits (bits.sort (· ≤ ·))

/-- `BitField::ranges`. -/
def ranges (bitfield : BitField) : List Range :=
  RangeIterator.difference (RangeIterator.union bitfield.storedRanges (bitRanges bitfield.setBits))
    (bitRanges bitfield.unsetBits)

/-- `BitField::len`: the number of bits. -/
def len (bitfield : BitField) : Nat :=
  (bitfield.ranges.map Range.len).sum

/-- `PartialEq for BitField`: equal ranges. -/
def beq (bitfield other : BitField) : Bool :=
  bitfield.ranges == other.ranges

/-- `BitOr`. -/
def bitor (bitfield other : BitField) : BitField :=
  fromRanges (RangeIterator.union bitfield.ranges other.ranges)

/-- `BitAnd`. -/
def bitand (bitfield other : BitField) : BitField :=
  fromRanges (RangeIterator.intersection bitfield.ranges other.ranges)

/-- `Sub`. -/
def sub (bitfield other : BitField) : BitField :=
  fromRanges (RangeIterator.difference bitfield.ranges other.ranges)

/-- `BitXor`. -/
def bitxor (bitfield other : BitField) : BitField :=
  fromRanges (RangeIterator.symmetricDifference bitfield.ranges other.ranges)

/-- `BitField::cut`. -/
def cut (bitfield other : BitField) : BitField :=
  fromRanges (RangeIterator.cut bitfield.ranges other.ranges)

/-- `BitField::union`: the union of many bit fields. -/
def union (bitfields : List BitField) : BitField :=
  bitfields.foldl bitor new

/-- `BitField::contains_any`. -/
def containsAny (bitfield other : BitField) : Bool :=
  !(RangeIterator.intersection bitfield.ranges other.ranges).isEmpty

/-- `BitField::contains_all`. -/
def containsAll (bitfield other : BitField) : Bool :=
  (RangeIterator.difference other.ranges bitfield.ranges).isEmpty

end BitField

/-! ## The runs of a set of bits -/

theorem rangesFromBitsFrom_sorted (start stop : Nat) (bits : List Nat)
    (above : ∀ bit ∈ bits, start ≤ bit) (sorted : bits.Pairwise (· ≤ ·)) :
    StartsSorted (rangesFromBitsFrom start stop bits) ∧
      ∀ range ∈ rangesFromBitsFrom start stop bits, start ≤ range.start := by
  induction bits generalizing start stop with
  | nil => simp [rangesFromBitsFrom, StartsSorted]
  | cons bit rest inductionHypothesis =>
    have bitFirst : ∀ later ∈ rest, bit ≤ later := (List.pairwise_cons.mp sorted).1
    have restAbove : ∀ later ∈ rest, start ≤ later := fun later member =>
      above later (List.mem_cons_of_mem _ member)
    have startBelowBit : start ≤ bit := above bit List.mem_cons_self
    rw [rangesFromBitsFrom]
    split
    · exact inductionHypothesis start _ restAbove sorted.of_cons
    · obtain ⟨restSorted, restAboveBit⟩ := inductionHypothesis bit (Usize.wrappingAdd bit 1)
        bitFirst sorted.of_cons
      exact startsSorted_cons_of_above
        ⟨restSorted, fun later member => le_trans startBelowBit (restAboveBit later member)⟩ le_rfl

theorem rangesFromBits_sorted {bits : List Nat} (sorted : bits.Pairwise (· ≤ ·)) :
    StartsSorted (rangesFromBits bits) := by
  cases bits with
  | nil => exact List.Pairwise.nil
  | cons bit rest =>
    exact (rangesFromBitsFrom_sorted bit _ rest (List.pairwise_cons.mp sorted).1 sorted.of_cons).1

theorem rangesFromBitsFrom_stop_le (start stop : Nat) (bits : List Nat) (below : stop ≤ Usize.max) :
    ∀ range ∈ rangesFromBitsFrom start stop bits, range.stop ≤ Usize.max := by
  induction bits generalizing start stop with
  | nil => simpa [rangesFromBitsFrom] using below
  | cons bit rest inductionHypothesis =>
    rw [rangesFromBitsFrom]
    split
    · exact inductionHypothesis start _ (Usize.wrappingAdd_le_max _ _)
    · intro range member
      rcases List.mem_cons.mp member with rfl | member
      · exact below
      · exact inductionHypothesis bit _ (Usize.wrappingAdd_le_max _ _) range member

theorem rangesFromBits_stop_le (bits : List Nat) :
    ∀ range ∈ rangesFromBits bits, range.stop ≤ Usize.max := by
  cases bits with
  | nil => simp [rangesFromBits]
  | cons bit rest => exact rangesFromBitsFrom_stop_le bit _ rest (Usize.wrappingAdd_le_max _ _)

theorem bitRanges_sorted (bits : Finset Nat) : StartsSorted (BitField.bitRanges bits) :=
  rangesFromBits_sorted (Finset.pairwise_sort bits (· ≤ ·))

/-! ## The ranges of a bit field -/

/-- The non-empty outputs of a combinator with ascending lower bounds merge into a valid
list. -/
theorem combine_valid {σ : Type} {c : Combinator σ} {lhs rhs : List Range}
    (sorted : StartsSorted (c.nextRanges (lhs.length + rhs.length) c.init lhs rhs)) :
    Valid (combine c lhs rhs) := by
  apply merge_valid
  · intro range member
    simpa using (List.mem_filter.mp member).2
  · exact sorted.filter _

theorem union_valid {lhs rhs : List Range} (lhsSorted : StartsSorted lhs)
    (rhsSorted : StartsSorted rhs) : Valid (RangeIterator.union lhs rhs) :=
  combine_valid (union_nextRanges_sorted _ lhs rhs 0 lhsSorted rhsSorted
    (fun _ _ => Nat.zero_le _) (fun _ _ => Nat.zero_le _)).1

theorem difference_valid {lhs rhs : List Range} (lhsValid : Valid lhs) :
    Valid (RangeIterator.difference lhs rhs) :=
  combine_valid (difference_nextRanges_sorted _ lhs rhs 0 lhsValid (fun _ _ => Nat.zero_le _)).1

/-- A combination ends by the limit its inputs end by. -/
theorem combine_stop_le {σ : Type} {c : Combinator σ} {limit : Nat} (keeps : c.KeepsBelow limit)
    {lhs rhs : List Range} (lhsBelow : ∀ range ∈ lhs, range.stop ≤ limit)
    (rhsBelow : ∀ range ∈ rhs, range.stop ≤ limit) :
    ∀ range ∈ combine c lhs rhs, range.stop ≤ limit := by
  intro range member
  obtain ⟨input, inputMember, stopEq⟩ := merge_stop_mem _ range member
  rw [← stopEq]
  exact nextRanges_stop_le keeps _ _ lhs rhs lhsBelow rhsBelow input
    (List.mem_filter.mp inputMember).1

/-- `ranges()` meets the `RangeIterator` requirements whenever the stored ranges have
ascending lower bounds, whatever bits were set and unset. -/
theorem ranges_valid (bitfield : BitField) (sorted : StartsSorted bitfield.storedRanges) :
    Valid bitfield.ranges :=
  difference_valid (union_valid sorted (bitRanges_sorted _))

/-- `ranges()` ends within `usize` when the stored ranges do. -/
theorem ranges_stop_le (bitfield : BitField)
    (bounded : ∀ range ∈ bitfield.storedRanges, range.stop ≤ Usize.max) :
    ∀ range ∈ bitfield.ranges, range.stop ≤ Usize.max := by
  have unionBelow : ∀ range ∈ RangeIterator.union bitfield.storedRanges
      (BitField.bitRanges bitfield.setBits), range.stop ≤ Usize.max :=
    combine_stop_le (union_keepsBelow Usize.max) bounded (rangesFromBits_stop_le _)
  exact combine_stop_le (difference_keepsBelow Usize.max) unionBelow (rangesFromBits_stop_le _)

/-- A bit field made from a valid list of ranges, with nothing set or unset on top, has
those ranges. -/
theorem ranges_fromRanges {ranges : List Range} (valid : Valid ranges) :
    (BitField.fromRanges ranges).ranges = ranges := by
  have noBits : BitField.bitRanges ∅ = [] := by
    rw [BitField.bitRanges, Finset.sort_empty]
    rfl
  simp only [BitField.ranges, BitField.fromRanges, noBits, union_nil_right valid,
    difference_nil_right valid]

end Forest.Bitfield

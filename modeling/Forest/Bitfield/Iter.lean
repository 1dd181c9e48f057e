import Forest.Lib.Usize
import Mathlib.Data.List.Chain

namespace Forest.Bitfield

/-!
# Range iterators

`iter/mod.rs` and `iter/combine.rs` of the bitfield crate: a set of bits is a list of
`Range<usize>`, and the `RangeIterator` trait asks that the ranges be non-empty, in
ascending order, and that no two overlap or touch (`Valid`).  Iterators are finite
here and become lists.

Two range lists are combined by `Combine`: it looks at the front range of each side,
asks a `Combinator` for an output range, drops the front range that ends first, and
goes on; the outputs that are not empty are then glued by `Merge` where they overlap or
touch.  The five combinators of the source are `union`, `intersection`, `difference`,
`symmetricDifference` and `cut`.

The results: `Merge` turns a list of non-empty ranges with ascending lower bounds into a
valid list; `union` and `difference` produce ascending lower bounds, so their
combinations are valid; and combining a valid list with nothing returns it.
-/

/-- `Range<usize>`: the bits `start..end`, written `start..stop` here. -/
structure Range where
  start : Nat
  stop : Nat
  deriving DecidableEq, Repr

namespace Range

/-- `Range::len`: the number of bits, zero when `end <= start`. -/
def len (range : Range) : Nat :=
  range.stop - range.start

end Range

/-- The requirements of `RangeIterator`: every range is non-empty, and each one ends
before the next one starts, with at least one bit between them. -/
def Valid (ranges : List Range) : Prop :=
  ranges.IsChain (fun earlier later => earlier.stop < later.start) ∧
    ∀ range ∈ ranges, range.start < range.stop

instance (ranges : List Range) : Decidable (Valid ranges) :=
  inferInstanceAs (Decidable (_ ∧ _))

/-- The lower bounds of a list of ranges do not decrease. -/
def StartsSorted (ranges : List Range) : Prop :=
  ranges.Pairwise (fun earlier later => earlier.start ≤ later.start)

instance (ranges : List Range) : Decidable (StartsSorted ranges) :=
  inferInstanceAs (Decidable (List.Pairwise _ _))

/-- How two range iterators are combined (`trait Combinator`).  `advanceLhs` is asked
when the left front range ends first and may change the right one; `advanceRhs` the
other way round; the tail functions see one side after the other has run out, and a
`None` from them ends the combination. -/
structure Combinator (σ : Type) where
  init : σ
  advanceLhs : σ → Range → Range → Range × Range × σ
  advanceRhs : σ → Range → Range → Range × Range × σ
  advanceLhsTail : σ → Range → Option Range × σ
  advanceRhsTail : σ → Range → Option Range × σ

namespace Combinator

/-- `Union`. -/
def union : Combinator Unit where
  init := ()
  advanceLhs _ lhs rhs := (⟨min lhs.start rhs.start, lhs.stop⟩, rhs, ())
  advanceRhs _ lhs rhs := (⟨min lhs.start rhs.start, rhs.stop⟩, lhs, ())
  advanceLhsTail _ lhs := (some lhs, ())
  advanceRhsTail _ rhs := (some rhs, ())

/-- `Intersection`. -/
def intersection : Combinator Unit where
  init := ()
  advanceLhs _ lhs rhs := (⟨max lhs.start rhs.start, lhs.stop⟩, rhs, ())
  advanceRhs _ lhs rhs := (⟨max lhs.start rhs.start, rhs.stop⟩, lhs, ())
  advanceLhsTail _ _ := (none, ())
  advanceRhsTail _ _ := (none, ())

/-- `Difference`: the part of the left range before the right one; when the right range
ends first, the left one is cut down to what lies after it. -/
def difference : Combinator Unit where
  init := ()
  advanceLhs _ lhs rhs := (⟨lhs.start, min lhs.stop rhs.start⟩, rhs, ())
  advanceRhs _ lhs rhs :=
    (⟨lhs.start, min lhs.stop rhs.start⟩, { lhs with start := max lhs.start rhs.stop }, ())
  advanceLhsTail _ lhs := (some lhs, ())
  advanceRhsTail _ _ := (none, ())

/-- `SymmetricDifference::advance`: the part of `left` or `right` that comes first, and
what remains of `right`. -/
def symmetricAdvance (left right : Range) : Range × Range :=
  if left.start ≤ right.start then
    (⟨left.start, min left.stop right.start⟩, { right with start := max right.start left.stop })
  else
    (⟨right.start, left.start⟩, { right with start := left.stop })

/-- `SymmetricDifference`. -/
def symmetricDifference : Combinator Unit where
  init := ()
  advanceLhs _ lhs rhs :=
    let (range, rhs) := symmetricAdvance lhs rhs
    (range, rhs, ())
  advanceRhs _ lhs rhs :=
    let (range, lhs) := symmetricAdvance rhs lhs
    (range, lhs, ())
  advanceLhsTail _ lhs := (some lhs, ())
  advanceRhsTail _ rhs := (some rhs, ())

/-- `Cut::offset`: a range moved down by the bits cut so far. -/
def cutOffset (offset : Nat) (range : Range) : Range :=
  ⟨Usize.wrappingSub range.start offset, Usize.wrappingSub range.stop offset⟩

/-- `Cut`: the left ranges with the right ones removed and the bits after each removed
range moved down; the state is the number of bits removed so far. -/
def cut : Combinator Nat where
  init := 0
  advanceLhs offset lhs rhs := (cutOffset offset ⟨lhs.start, min lhs.stop rhs.start⟩, rhs, offset)
  advanceRhs offset lhs rhs :=
    (cutOffset offset ⟨lhs.start, min lhs.stop rhs.start⟩,
      { lhs with start := max lhs.start rhs.stop }, Usize.wrappingAdd offset rhs.len)
  advanceLhsTail offset lhs := (some (cutOffset offset lhs), offset)
  advanceRhsTail offset _ := (none, offset)

variable {σ : Type}

/-- The ranges `_Combine::next_range` returns, in order, up to the first `None`.  Each
round drops one front range, so `fuel` counts the ranges left on both sides. -/
def nextRanges (c : Combinator σ) : Nat → σ → List Range → List Range → List Range
  | 0, _, _, _ => []
  | _ + 1, _, [], [] => []
  | fuel + 1, state, lhs :: lhsRest, [] =>
    match c.advanceLhsTail state lhs with
    | (some range, state) => range :: c.nextRanges fuel state lhsRest []
    | (none, _) => []
  | fuel + 1, state, [], rhs :: rhsRest =>
    match c.advanceRhsTail state rhs with
    | (some range, state) => range :: c.nextRanges fuel state [] rhsRest
    | (none, _) => []
  | fuel + 1, state, lhs :: lhsRest, rhs :: rhsRest =>
    if lhs.stop ≤ rhs.stop then
      let (range, rhs, state) := c.advanceLhs state lhs rhs
      range :: c.nextRanges fuel state lhsRest (rhs :: rhsRest)
    else
      let (range, lhs, state) := c.advanceRhs state lhs rhs
      range :: c.nextRanges fuel state (lhs :: lhsRest) rhsRest

end Combinator

/-- `Merge::next`, repeated: take a range and extend it over every following range that
starts no later than it ends. -/
def mergeFrom (range : Range) : List Range → List Range
  | [] => [range]
  | next :: rest =>
    if next.start > range.stop then range :: mergeFrom next rest
    else mergeFrom { range with stop := max range.stop next.stop } rest

/-- `Merge`: the ranges of an iterator with overlapping and touching ranges glued. -/
def merge : List Range → List Range
  | [] => []
  | range :: rest => mergeFrom range rest

/-- `Combine`: the non-empty outputs of the combinator (`_Combine::next` skips the empty
ones), merged. -/
def combine {σ : Type} (c : Combinator σ) (lhs rhs : List Range) : List Range :=
  merge ((c.nextRanges (lhs.length + rhs.length) c.init lhs rhs).filter
    fun range => range.start < range.stop)

namespace RangeIterator

/-- `RangeIterator::union`. -/
def union (lhs rhs : List Range) : List Range :=
  combine Combinator.union lhs rhs

/-- `RangeIterator::intersection`. -/
def intersection (lhs rhs : List Range) : List Range :=
  combine Combinator.intersection lhs rhs

/-- `RangeIterator::difference`. -/
def difference (lhs rhs : List Range) : List Range :=
  combine Combinator.difference lhs rhs

/-- `RangeIterator::symmetric_difference`. -/
def symmetricDifference (lhs rhs : List Range) : List Range :=
  combine Combinator.symmetricDifference lhs rhs

/-- `RangeIterator::cut`. -/
def cut (lhs rhs : List Range) : List Range :=
  combine Combinator.cut lhs rhs

end RangeIterator

/-- The loop of `ranges_from_bits` from the range `start..stop`: extend it while the next
bit is `stop`, then start a new range.  `end += 1` wraps. -/
def rangesFromBitsFrom (start stop : Nat) : List Nat → List Range
  | [] => [⟨start, stop⟩]
  | bit :: rest =>
    if bit = stop then rangesFromBitsFrom start (Usize.wrappingAdd stop 1) rest
    else ⟨start, stop⟩ :: rangesFromBitsFrom bit (Usize.wrappingAdd bit 1) rest

/-- `ranges_from_bits`: the runs of consecutive bits of an ascending list of bits. -/
def rangesFromBits : List Nat → List Range
  | [] => []
  | bit :: rest => rangesFromBitsFrom bit (Usize.wrappingAdd bit 1) rest

/-! ## Valid range lists -/

@[simp]
theorem valid_nil : Valid [] := by
  simp [Valid]

theorem valid_cons {range : Range} {rest : List Range} :
    Valid (range :: rest) ↔
      range.start < range.stop ∧ (∀ next ∈ rest.head?, range.stop < next.start) ∧ Valid rest := by
  simp only [Valid, List.isChain_cons, List.mem_cons, forall_eq_or_imp]
  tauto

theorem Valid.tail {range : Range} {rest : List Range} (valid : Valid (range :: rest)) :
    Valid rest :=
  (valid_cons.mp valid).2.2

/-- In a valid list, every range starts after the end of each range before it. -/
theorem Valid.stop_lt_start {range : Range} {rest : List Range} (valid : Valid (range :: rest)) :
    ∀ later ∈ rest, range.stop < later.start := by
  induction rest generalizing range with
  | nil => simp
  | cons next rest inductionHypothesis =>
    obtain ⟨_, beforeNext, validRest⟩ := valid_cons.mp valid
    have stopBeforeNext : range.stop < next.start := beforeNext next rfl
    have nextNonempty : next.start < next.stop := (valid_cons.mp validRest).1
    intro later member
    rcases List.mem_cons.mp member with rfl | member
    · exact stopBeforeNext
    · have := inductionHypothesis validRest later member
      omega

theorem Valid.startsSorted {ranges : List Range} (valid : Valid ranges) : StartsSorted ranges := by
  induction ranges with
  | nil => exact List.Pairwise.nil
  | cons range rest inductionHypothesis =>
    have nonempty : range.start < range.stop := (valid_cons.mp valid).1
    refine List.Pairwise.cons (fun later member => ?_) (inductionHypothesis valid.tail)
    have := valid.stop_lt_start later member
    omega

/-! ## Merge -/

/-- `mergeFrom` starts with its first range, possibly extended. -/
theorem mergeFrom_eq_cons (range : Range) (rest : List Range) :
    ∃ stop tail, mergeFrom range rest = { range with stop := stop } :: tail ∧ range.stop ≤ stop := by
  induction rest generalizing range with
  | nil => exact ⟨range.stop, [], rfl, le_rfl⟩
  | cons next rest inductionHypothesis =>
    rw [mergeFrom]
    split
    · exact ⟨range.stop, mergeFrom next rest, rfl, le_rfl⟩
    · obtain ⟨stop, tail, shape, extended⟩ :=
        inductionHypothesis { range with stop := max range.stop next.stop }
      exact ⟨stop, tail, shape, le_trans (le_max_left _ _) extended⟩

/-- `Merge` makes a valid list out of non-empty ranges whose lower bounds ascend. -/
theorem mergeFrom_valid (range : Range) (rest : List Range) (nonempty : range.start < range.stop)
    (restNonempty : ∀ later ∈ rest, later.start < later.stop)
    (above : ∀ later ∈ rest, range.start ≤ later.start) (sorted : StartsSorted rest) :
    Valid (mergeFrom range rest) := by
  induction rest generalizing range with
  | nil => simpa [mergeFrom, valid_cons] using nonempty
  | cons next rest inductionHypothesis =>
    have nextNonempty : next.start < next.stop := restNonempty next (by simp)
    have nextFirst : ∀ later ∈ rest, next.start ≤ later.start := (List.pairwise_cons.mp sorted).1
    rw [mergeFrom]
    split
    · next separated =>
      have validRest := inductionHypothesis next nextNonempty
        (fun later member => restNonempty later (by simp [member])) nextFirst sorted.of_cons
      obtain ⟨stop, tail, shape, _⟩ := mergeFrom_eq_cons next rest
      rw [valid_cons]
      refine ⟨nonempty, ?_, validRest⟩
      rw [shape]
      simpa using separated
    · apply inductionHypothesis
      · exact lt_of_lt_of_le nonempty (le_max_left _ _)
      · exact fun later member => restNonempty later (by simp [member])
      · exact fun later member => above later (by simp [member])
      · exact sorted.of_cons

theorem merge_valid {ranges : List Range} (nonempty : ∀ range ∈ ranges, range.start < range.stop)
    (sorted : StartsSorted ranges) : Valid (merge ranges) := by
  cases ranges with
  | nil => simp [merge]
  | cons range rest =>
    exact mergeFrom_valid range rest (nonempty range (by simp))
      (fun later member => nonempty later (by simp [member]))
      (List.pairwise_cons.mp sorted).1 sorted.of_cons

/-- Every range `Merge` puts out ends where one of its input ranges ends. -/
theorem mergeFrom_stop_mem (range : Range) (rest : List Range) :
    ∀ merged ∈ mergeFrom range rest, ∃ input ∈ range :: rest, input.stop = merged.stop := by
  induction rest generalizing range with
  | nil => simp [mergeFrom]
  | cons next rest inductionHypothesis =>
    intro merged member
    rw [mergeFrom] at member
    split at member
    · rcases List.mem_cons.mp member with rfl | member
      · exact ⟨merged, by simp, rfl⟩
      · obtain ⟨input, inputMember, stopEq⟩ := inductionHypothesis next merged member
        exact ⟨input, List.mem_cons_of_mem _ inputMember, stopEq⟩
    · obtain ⟨input, inputMember, stopEq⟩ := inductionHypothesis _ merged member
      rcases List.mem_cons.mp inputMember with rfl | inputMember
      · by_cases nextLonger : range.stop ≤ next.stop
        · exact ⟨next, by simp, by simpa [Nat.max_eq_right nextLonger] using stopEq⟩
        · exact ⟨range, by simp, by simpa [Nat.max_eq_left (Nat.le_of_not_le nextLonger)] using stopEq⟩
      · exact ⟨input, by simp [inputMember], stopEq⟩

theorem merge_stop_mem (ranges : List Range) :
    ∀ merged ∈ merge ranges, ∃ input ∈ ranges, input.stop = merged.stop := by
  cases ranges with
  | nil => simp [merge]
  | cons range rest => exact mergeFrom_stop_mem range rest

/-- A valid list is left as it is by `Merge`. -/
theorem mergeFrom_of_valid {range : Range} {rest : List Range} (valid : Valid (range :: rest)) :
    mergeFrom range rest = range :: rest := by
  induction rest generalizing range with
  | nil => rfl
  | cons next rest inductionHypothesis =>
    have separated : range.stop < next.start := (valid_cons.mp valid).2.1 next rfl
    rw [mergeFrom, if_pos separated, inductionHypothesis valid.tail]

theorem merge_of_valid {ranges : List Range} (valid : Valid ranges) : merge ranges = ranges := by
  cases ranges with
  | nil => rfl
  | cons range rest => exact mergeFrom_of_valid valid

/-! ## Lower bounds of `Union` and `Difference`

The contract of `Combinator` is that the lower bounds of its outputs never decrease.  Each
proof follows `nextRanges` round by round, with a bound below every range still to come.
-/

/-- A range in front of outputs that start no lower than it keeps the outputs ascending. -/
theorem startsSorted_cons_of_above {range : Range} {rest : List Range} {bound : Nat}
    (rest_spec : StartsSorted rest ∧ ∀ later ∈ rest, range.start ≤ later.start)
    (rangeAbove : bound ≤ range.start) :
    StartsSorted (range :: rest) ∧ ∀ later ∈ range :: rest, bound ≤ later.start := by
  obtain ⟨sorted, above⟩ := rest_spec
  refine ⟨List.Pairwise.cons above sorted, ?_⟩
  intro later member
  rcases List.mem_cons.mp member with rfl | member
  · exact rangeAbove
  · exact le_trans rangeAbove (above later member)

/-- The outputs of `Union` ascend when the lower bounds of both inputs do. -/
theorem union_nextRanges_sorted (fuel : Nat) (lhs rhs : List Range) (bound : Nat)
    (lhsSorted : StartsSorted lhs) (rhsSorted : StartsSorted rhs)
    (lhsAbove : ∀ range ∈ lhs, bound ≤ range.start) (rhsAbove : ∀ range ∈ rhs, bound ≤ range.start) :
    StartsSorted (Combinator.union.nextRanges fuel () lhs rhs) ∧
      ∀ range ∈ Combinator.union.nextRanges fuel () lhs rhs, bound ≤ range.start := by
  induction fuel generalizing lhs rhs bound with
  | zero => simp [Combinator.nextRanges, StartsSorted]
  | succ fuel inductionHypothesis =>
    rcases lhs with _ | ⟨left, lhsRest⟩ <;> rcases rhs with _ | ⟨right, rhsRest⟩
    · simp [Combinator.nextRanges, StartsSorted]
    · simp only [Combinator.nextRanges, Combinator.union]
      exact startsSorted_cons_of_above
        (inductionHypothesis [] rhsRest right.start List.Pairwise.nil rhsSorted.of_cons (by simp)
          (List.pairwise_cons.mp rhsSorted).1)
        (rhsAbove right (by simp))
    · simp only [Combinator.nextRanges, Combinator.union]
      exact startsSorted_cons_of_above
        (inductionHypothesis lhsRest [] left.start lhsSorted.of_cons List.Pairwise.nil
          (List.pairwise_cons.mp lhsSorted).1 (by simp))
        (lhsAbove left (by simp))
    · have leftFirst := (List.pairwise_cons.mp lhsSorted).1
      have rightFirst := (List.pairwise_cons.mp rhsSorted).1
      have lowAbove : bound ≤ min left.start right.start :=
        le_min (lhsAbove left (by simp)) (rhsAbove right (by simp))
      simp only [Combinator.nextRanges, Combinator.union]
      split
      · apply startsSorted_cons_of_above _ lowAbove
        apply inductionHypothesis lhsRest (right :: rhsRest) _ lhsSorted.of_cons rhsSorted
        · exact fun later member => le_trans (min_le_left _ _) (leftFirst later member)
        · intro later member
          rcases List.mem_cons.mp member with rfl | member
          · exact min_le_right _ _
          · exact le_trans (min_le_right _ _) (rightFirst later member)
      · apply startsSorted_cons_of_above _ lowAbove
        apply inductionHypothesis (left :: lhsRest) rhsRest _ lhsSorted rhsSorted.of_cons
        · intro later member
          rcases List.mem_cons.mp member with rfl | member
          · exact min_le_left _ _
          · exact le_trans (min_le_left _ _) (leftFirst later member)
        · exact fun later member => le_trans (min_le_right _ _) (rightFirst later member)

/-- A valid list whose first range is cut down from the front stays valid. -/
theorem valid_cons_of_start_le {range : Range} {rest : List Range} (valid : Valid (range :: rest))
    {start : Nat} (stillNonempty : start < range.stop) :
    Valid ({ range with start := start } :: rest) := by
  obtain ⟨_, beforeNext, validRest⟩ := valid_cons.mp valid
  exact valid_cons.mpr ⟨stillNonempty, beforeNext, validRest⟩

/-- The outputs of `Difference` ascend when its left input is valid: each output starts
at the current left range, which only moves forward. -/
theorem difference_nextRanges_sorted (fuel : Nat) (lhs rhs : List Range) (bound : Nat)
    (lhsValid : Valid lhs) (lhsAbove : ∀ range ∈ lhs, bound ≤ range.start) :
    StartsSorted (Combinator.difference.nextRanges fuel () lhs rhs) ∧
      ∀ range ∈ Combinator.difference.nextRanges fuel () lhs rhs, bound ≤ range.start := by
  induction fuel generalizing lhs rhs bound with
  | zero => simp [Combinator.nextRanges, StartsSorted]
  | succ fuel inductionHypothesis =>
    rcases lhs with _ | ⟨left, lhsRest⟩
    · rcases rhs with _ | ⟨right, rhsRest⟩ <;>
        simp [Combinator.nextRanges, Combinator.difference, StartsSorted]
    · have leftAbove : bound ≤ left.start := lhsAbove left (by simp)
      have restAfter : ∀ later ∈ lhsRest, left.start ≤ later.start := fun later member =>
        le_of_lt (lt_trans (valid_cons.mp lhsValid).1 (lhsValid.stop_lt_start later member))
      rcases rhs with _ | ⟨right, rhsRest⟩
      · simp only [Combinator.nextRanges, Combinator.difference]
        exact startsSorted_cons_of_above
          (inductionHypothesis lhsRest [] left.start lhsValid.tail restAfter) leftAbove
      · simp only [Combinator.nextRanges, Combinator.difference]
        split
        · exact startsSorted_cons_of_above
            (inductionHypothesis lhsRest (right :: rhsRest) left.start lhsValid.tail restAfter)
            leftAbove
        · next rightFirst =>
          refine startsSorted_cons_of_above ?_ leftAbove
          apply inductionHypothesis _ rhsRest left.start
          · exact valid_cons_of_start_le lhsValid
              (max_lt (valid_cons.mp lhsValid).1 (Nat.lt_of_not_le rightFirst))
          · intro later member
            rcases List.mem_cons.mp member with rfl | member
            · exact le_max_left _ _
            · exact restAfter later member

/-! ## Upper bounds -/

section Bounds

variable {σ : Type}

/-- A combinator puts out and leaves behind only ranges ending by `limit` when its inputs
end by `limit`. -/
def Combinator.KeepsBelow (c : Combinator σ) (limit : Nat) : Prop :=
  (∀ state lhs rhs, lhs.stop ≤ limit → rhs.stop ≤ limit →
      (c.advanceLhs state lhs rhs).1.stop ≤ limit ∧ (c.advanceLhs state lhs rhs).2.1.stop ≤ limit) ∧
    (∀ state lhs rhs, lhs.stop ≤ limit → rhs.stop ≤ limit →
      (c.advanceRhs state lhs rhs).1.stop ≤ limit ∧ (c.advanceRhs state lhs rhs).2.1.stop ≤ limit) ∧
    (∀ state lhs, lhs.stop ≤ limit → ∀ range ∈ (c.advanceLhsTail state lhs).1, range.stop ≤ limit) ∧
    (∀ state rhs, rhs.stop ≤ limit → ∀ range ∈ (c.advanceRhsTail state rhs).1, range.stop ≤ limit)

theorem nextRanges_stop_le {c : Combinator σ} {limit : Nat} (keeps : c.KeepsBelow limit)
    (fuel : Nat) (state : σ) (lhs rhs : List Range)
    (lhsBelow : ∀ range ∈ lhs, range.stop ≤ limit) (rhsBelow : ∀ range ∈ rhs, range.stop ≤ limit) :
    ∀ range ∈ c.nextRanges fuel state lhs rhs, range.stop ≤ limit := by
  obtain ⟨advanceLhsBelow, advanceRhsBelow, lhsTailBelow, rhsTailBelow⟩ := keeps
  induction fuel generalizing state lhs rhs with
  | zero => simp [Combinator.nextRanges]
  | succ fuel inductionHypothesis =>
    rcases lhs with _ | ⟨left, lhsRest⟩ <;> rcases rhs with _ | ⟨right, rhsRest⟩
    · simp [Combinator.nextRanges]
    · have rightBelow := rhsBelow right (by simp)
      simp only [Combinator.nextRanges]
      split
      · next range nextState tail =>
        intro output member
        rcases List.mem_cons.mp member with rfl | member
        · exact rhsTailBelow state right rightBelow output (by simp [tail])
        · exact inductionHypothesis _ [] rhsRest (by simp)
            (fun later member => rhsBelow later (by simp [member])) output member
      · simp
    · have leftBelow := lhsBelow left (by simp)
      simp only [Combinator.nextRanges]
      split
      · next range nextState tail =>
        intro output member
        rcases List.mem_cons.mp member with rfl | member
        · exact lhsTailBelow state left leftBelow output (by simp [tail])
        · exact inductionHypothesis _ lhsRest []
            (fun later member => lhsBelow later (by simp [member])) (by simp) output member
      · simp
    · have leftBelow := lhsBelow left (by simp)
      have rightBelow := rhsBelow right (by simp)
      simp only [Combinator.nextRanges]
      split
      · obtain ⟨outputBelow, keptBelow⟩ := advanceLhsBelow state left right leftBelow rightBelow
        intro output member
        rcases List.mem_cons.mp member with rfl | member
        · exact outputBelow
        · refine inductionHypothesis _ lhsRest _
            (fun later member => lhsBelow later (by simp [member])) ?_ output member
          intro later member
          rcases List.mem_cons.mp member with rfl | member
          · exact keptBelow
          · exact rhsBelow later (by simp [member])
      · obtain ⟨outputBelow, keptBelow⟩ := advanceRhsBelow state left right leftBelow rightBelow
        intro output member
        rcases List.mem_cons.mp member with rfl | member
        · exact outputBelow
        · refine inductionHypothesis _ _ rhsRest ?_
            (fun later member => rhsBelow later (by simp [member])) output member
          intro later member
          rcases List.mem_cons.mp member with rfl | member
          · exact keptBelow
          · exact lhsBelow later (by simp [member])

end Bounds

/-- The union only moves lower bounds down and hands ranges on whole. -/
theorem union_keepsBelow (limit : Nat) : Combinator.union.KeepsBelow limit := by
  refine ⟨?_, ?_, ?_, ?_⟩
  · intro _ lhs rhs lhsBelow rhsBelow
    exact ⟨lhsBelow, rhsBelow⟩
  · intro _ lhs rhs lhsBelow rhsBelow
    exact ⟨rhsBelow, lhsBelow⟩
  · intro _ lhs lhsBelow range handedOn
    obtain rfl : lhs = range := Option.mem_some_iff.mp handedOn
    exact lhsBelow
  · intro _ rhs rhsBelow range handedOn
    obtain rfl : rhs = range := Option.mem_some_iff.mp handedOn
    exact rhsBelow

/-- The difference only cuts the left ranges short and hands on no right range. -/
theorem difference_keepsBelow (limit : Nat) : Combinator.difference.KeepsBelow limit := by
  refine ⟨?_, ?_, ?_, ?_⟩
  · intro _ lhs rhs lhsBelow rhsBelow
    exact ⟨le_trans (min_le_left _ _) lhsBelow, rhsBelow⟩
  · intro _ lhs rhs lhsBelow _
    exact ⟨le_trans (min_le_left _ _) lhsBelow, lhsBelow⟩
  · intro _ lhs lhsBelow range handedOn
    obtain rfl : lhs = range := Option.mem_some_iff.mp handedOn
    exact lhsBelow
  · intro _ rhs _ range handedOn
    exact absurd handedOn (Option.not_mem_none range)

/-! ## Combining with nothing -/

/-- A combinator that hands on a left range unchanged once the right side is empty puts
out the left input as it is. -/
theorem nextRanges_nil_right {σ : Type} {c : Combinator σ}
    (handsOn : ∀ state lhs, c.advanceLhsTail state lhs = (some lhs, state)) (fuel : Nat)
    (state : σ) (ranges : List Range) (enough : ranges.length ≤ fuel) :
    c.nextRanges fuel state ranges [] = ranges := by
  induction ranges generalizing fuel with
  | nil => cases fuel <;> rfl
  | cons range rest inductionHypothesis =>
    obtain ⟨fuel, rfl⟩ : ∃ smaller, fuel = smaller + 1 :=
      ⟨fuel - 1, by simp at enough; omega⟩
    simp only [Combinator.nextRanges, handsOn]
    rw [inductionHypothesis fuel (by simpa using enough)]

theorem combine_nil_right {σ : Type} {c : Combinator σ}
    (handsOn : ∀ state lhs, c.advanceLhsTail state lhs = (some lhs, state))
    {ranges : List Range} (valid : Valid ranges) : combine c ranges [] = ranges := by
  have allNonempty : ranges.filter (fun range => range.start < range.stop) = ranges :=
    List.filter_eq_self.mpr fun range member => by simpa using valid.2 range member
  rw [combine, nextRanges_nil_right handsOn _ _ _ (by simp), allNonempty, merge_of_valid valid]

theorem union_nil_right {ranges : List Range} (valid : Valid ranges) :
    RangeIterator.union ranges [] = ranges :=
  combine_nil_right (fun _ _ => rfl) valid

theorem difference_nil_right {ranges : List Range} (valid : Valid ranges) :
    RangeIterator.difference ranges [] = ranges :=
  combine_nil_right (fun _ _ => rfl) valid

end Forest.Bitfield

import Forest.Bitfield.Semantics

namespace Forest.Bitfield

/-!
# The cut combinator

`a.cut(b)` removes the bits of `b` from `a` and closes the gaps: every remaining bit moves
down by the number of bits of `b` below it.  `Cut` runs the rounds of `Difference` and moves
each output down by an offset, the number of bits of the right ranges passed so far, with a
plain `usize` subtraction.

`cutShifts` lists the calls of `Cut::offset` a run makes, and `cut_nextRanges_eq_map` ties
them to the model.  `CutInvariant` is what holds of a running cut: every range still to come
starts at or above the offset.  From it follow that no shift underflows, that the outputs
stand for the shifted difference (`cut_nextRanges_covers`, one lemma per round), and that the
non-empty outputs ascend, which `Merge` needs (`cut_nextRanges_sorted`).
-/

/-- The number of bits of a range list below `bit`, `|{ y ∈ B : y < bit }|`. -/
def countBelow (ranges : List Range) (bit : Nat) : Nat :=
  ((List.range bit).filter (covers ranges)).length

@[simp] theorem countBelow_zero (ranges : List Range) : countBelow ranges 0 = 0 := rfl

theorem countBelow_succ (ranges : List Range) (bit : Nat) :
    countBelow ranges (bit + 1) = countBelow ranges bit + if covers ranges bit then 1 else 0 := by
  simp only [countBelow, List.range_succ, List.filter_append, List.length_append]
  cases covered : covers ranges bit <;> simp [covered]

@[simp] theorem countBelow_nil (bit : Nat) : countBelow [] bit = 0 := by
  simp [countBelow]

/-- No bit of the ranges lies below a bit at or under all their starts. -/
theorem countBelow_of_le_starts {ranges : List Range} {bit : Nat}
    (below : ∀ range ∈ ranges, bit ≤ range.start) : countBelow ranges bit = 0 := by
  induction bit with
  | zero => rfl
  | succ bit inductionHypothesis =>
    have outside : covers ranges bit = false := by
      rw [covers, List.any_eq_false]
      intro range member
      have := below range member
      simp
      omega
    rw [countBelow_succ, inductionHypothesis (fun range member => by
      have := below range member
      omega), outside]
    rfl

/-- A range in front of ranges that start after it ends counts its own bits below `bit`
first. -/
theorem countBelow_cons {range : Range} {rest : List Range}
    (after : ∀ later ∈ rest, range.stop ≤ later.start) (bit : Nat) :
    countBelow (range :: rest) bit = (min range.stop bit - range.start) + countBelow rest bit := by
  induction bit with
  | zero => simp
  | succ bit inductionHypothesis =>
    have restAfter : covers rest bit = true → range.stop ≤ bit := by
      intro covered
      obtain ⟨later, member, holds⟩ := List.any_eq_true.mp covered
      have := after later member
      have := (contains_iff later bit).mp holds
      omega
    rw [countBelow_succ, countBelow_succ, inductionHypothesis, covers_cons]
    revert restAfter
    by_cases inRange : range.start ≤ bit ∧ bit < range.stop <;>
      cases covers rest bit <;> intro restAfter <;> simp [inRange] at restAfter ⊢ <;> omega

/-! ## The shifts of `Cut` -/

namespace Combinator

@[simp] theorem cut_init : cut.init = 0 := rfl

@[simp] theorem cut_advanceLhs (offset : Nat) (lhs rhs : Range) :
    cut.advanceLhs offset lhs rhs = (cutOffset offset ⟨lhs.start, min lhs.stop rhs.start⟩, rhs, offset) :=
  rfl

@[simp] theorem cut_advanceRhs (offset : Nat) (lhs rhs : Range) :
    cut.advanceRhs offset lhs rhs =
      (cutOffset offset ⟨lhs.start, min lhs.stop rhs.start⟩,
        { lhs with start := max lhs.start rhs.stop }, Usize.wrappingAdd offset rhs.len) :=
  rfl

@[simp] theorem cut_advanceLhsTail (offset : Nat) (lhs : Range) :
    cut.advanceLhsTail offset lhs = (some (cutOffset offset lhs), offset) :=
  rfl

@[simp] theorem cut_advanceRhsTail (offset : Nat) (rhs : Range) :
    cut.advanceRhsTail offset rhs = (none, offset) :=
  rfl

end Combinator

/-- The calls `Cut::offset` makes while `cut` runs, in order: the offset, and the range it
moves down by it.  The rounds follow `nextRanges` for `Combinator.cut`. -/
def cutShifts : Nat → Nat → List Range → List Range → List (Nat × Range)
  | 0, _, _, _ => []
  | _ + 1, _, [], _ => []
  | fuel + 1, offset, lhs :: lhsRest, [] => (offset, lhs) :: cutShifts fuel offset lhsRest []
  | fuel + 1, offset, lhs :: lhsRest, rhs :: rhsRest =>
    if lhs.stop ≤ rhs.stop then
      (offset, ⟨lhs.start, min lhs.stop rhs.start⟩) ::
        cutShifts fuel offset lhsRest (rhs :: rhsRest)
    else
      (offset, ⟨lhs.start, min lhs.stop rhs.start⟩) ::
        cutShifts fuel (Usize.wrappingAdd offset rhs.len)
          ({ lhs with start := max lhs.start rhs.stop } :: lhsRest) rhsRest

/-- The ranges `cut` puts out are the shifts it makes. -/
theorem cut_nextRanges_eq_map (fuel offset : Nat) (lhs rhs : List Range) :
    Combinator.cut.nextRanges fuel offset lhs rhs =
      (cutShifts fuel offset lhs rhs).map fun shift => Combinator.cutOffset shift.1 shift.2 := by
  induction fuel generalizing offset lhs rhs with
  | zero => rfl
  | succ fuel inductionHypothesis =>
    rcases lhs with _ | ⟨left, lhsRest⟩ <;> rcases rhs with _ | ⟨right, rhsRest⟩
    · rfl
    · rfl
    · simp [Combinator.nextRanges, cutShifts, inductionHypothesis]
    · simp only [Combinator.nextRanges, cutShifts]
      split <;> simp [inductionHypothesis]

/-! ## The invariant of a running cut -/

/-- The state of a running `cut`: both sides ordered and within `usize`, and every range
still to come on either side starting at or above the offset, which counts the bits of the
right ranges already passed. -/
structure CutInvariant (offset : Nat) (lhs rhs : List Range) : Prop where
  lhsOrdered : Ordered lhs
  rhsOrdered : Ordered rhs
  lhsAbove : ∀ range ∈ lhs, offset ≤ range.start
  rhsAbove : ∀ range ∈ rhs, offset ≤ range.start
  lhsBelow : ∀ range ∈ lhs, range.stop ≤ Usize.max
  rhsBelow : ∀ range ∈ rhs, range.stop ≤ Usize.max

namespace CutInvariant

variable {offset : Nat} {left right : Range} {lhsRest rhsRest : List Range}

theorem start (invariant : CutInvariant offset (left :: lhsRest) rhsRest) :
    offset ≤ left.start ∧ left.start ≤ left.stop ∧ left.stop ≤ Usize.max :=
  ⟨invariant.lhsAbove left (by simp), invariant.lhsOrdered.1, invariant.lhsBelow left (by simp)⟩

/-- Dropping the left front range keeps the invariant. -/
theorem dropLhs {rhs : List Range} (invariant : CutInvariant offset (left :: lhsRest) rhs) :
    CutInvariant offset lhsRest rhs where
  lhsOrdered := invariant.lhsOrdered.tail
  rhsOrdered := invariant.rhsOrdered
  lhsAbove := fun range member => invariant.lhsAbove range (by simp [member])
  rhsAbove := invariant.rhsAbove
  lhsBelow := fun range member => invariant.lhsBelow range (by simp [member])
  rhsBelow := invariant.rhsBelow

/-- Passing a right range that ends first adds its length to the offset, which stays
below `usize::MAX`. -/
theorem wrappingAdd_len (invariant : CutInvariant offset lhsRest (right :: rhsRest)) :
    Usize.wrappingAdd offset right.len = offset + right.len := by
  have above : offset ≤ right.start := invariant.rhsAbove right (by simp)
  have below : right.stop ≤ Usize.max := invariant.rhsBelow right (by simp)
  have nonneg : right.start ≤ right.stop := invariant.rhsOrdered.1
  apply Usize.wrappingAdd_of_lt
  simp only [Range.len, Usize.max] at below ⊢
  omega

/-- Passing a right range that ends first moves the left front past it and the offset up
by its length, and keeps the invariant. -/
theorem passRhs (invariant : CutInvariant offset (left :: lhsRest) (right :: rhsRest))
    (rightFirst : right.stop < left.stop) :
    CutInvariant (offset + right.len) ({ left with start := max left.start right.stop } :: lhsRest)
      rhsRest := by
  have rightAbove : offset ≤ right.start := invariant.rhsAbove right (by simp)
  have rightNonneg : right.start ≤ right.stop := invariant.rhsOrdered.1
  have leftNonneg : left.start ≤ left.stop := invariant.lhsOrdered.1
  have shifted : offset + right.len ≤ right.stop := by
    simp only [Range.len]
    omega
  refine ⟨invariant.lhsOrdered.cons_start (max_le leftNonneg rightFirst.le),
    invariant.rhsOrdered.tail, ?_, ?_, ?_, ?_⟩
  · intro range member
    rcases List.mem_cons.mp member with rfl | member
    · exact le_trans shifted (le_max_right _ _)
    · have := invariant.lhsOrdered.stop_lt_start range member
      omega
  · intro range member
    have := invariant.rhsOrdered.stop_lt_start range member
    omega
  · intro range member
    rcases List.mem_cons.mp member with rfl | member
    · exact invariant.lhsBelow left (by simp)
    · exact invariant.lhsBelow range (by simp [member])
  · exact fun range member => invariant.rhsBelow range (by simp [member])

end CutInvariant

/-- No subtraction in `Cut::offset` underflows: every range `cut` moves down starts and ends
at or above the offset it is moved by. -/
theorem cutShifts_within (fuel : Nat) :
    ∀ offset lhs rhs, CutInvariant offset lhs rhs →
      ∀ shift ∈ cutShifts fuel offset lhs rhs, shift.1 ≤ shift.2.start ∧ shift.1 ≤ shift.2.stop := by
  induction fuel with
  | zero => simp [cutShifts]
  | succ fuel inductionHypothesis =>
    intro offset lhs rhs invariant
    rcases lhs with _ | ⟨left, lhsRest⟩
    · simp [cutShifts]
    · obtain ⟨leftAbove, leftNonneg, -⟩ := invariant.start
      rcases rhs with _ | ⟨right, rhsRest⟩
      · intro shift member
        rcases List.mem_cons.mp member with rfl | member
        · exact ⟨leftAbove, le_trans leftAbove leftNonneg⟩
        · exact inductionHypothesis offset lhsRest [] invariant.dropLhs shift member
      · have rightAbove : offset ≤ right.start := invariant.rhsAbove right (by simp)
        have shiftWithin : offset ≤ left.start ∧ offset ≤ min left.stop right.start :=
          ⟨leftAbove, le_min (le_trans leftAbove leftNonneg) rightAbove⟩
        simp only [cutShifts]
        split
        · intro shift member
          rcases List.mem_cons.mp member with rfl | member
          · exact shiftWithin
          · exact inductionHypothesis offset lhsRest _ invariant.dropLhs shift member
        · next rightFirst =>
          intro shift member
          rcases List.mem_cons.mp member with rfl | member
          · exact shiftWithin
          · rw [invariant.wrappingAdd_len] at member
            exact inductionHypothesis _ _ rhsRest
              (invariant.passRhs (Nat.lt_of_not_le rightFirst)) shift member

/-! ## What `cut` puts out -/

/-- Moving a range within `usize` down by an offset at or below both of its ends does not
wrap. -/
theorem cutOffset_exact {offset : Nat} {range : Range} (startAbove : offset ≤ range.start)
    (stopAbove : offset ≤ range.stop) (startBelow : range.start ≤ Usize.max)
    (stopBelow : range.stop ≤ Usize.max) :
    Combinator.cutOffset offset range = ⟨range.start - offset, range.stop - offset⟩ := by
  simp only [Usize.max] at startBelow stopBelow
  simp only [Combinator.cutOffset, Usize.wrappingSub_of_le (by omega : range.start < 2 ^ 64) startAbove,
    Usize.wrappingSub_of_le (by omega : range.stop < 2 ^ 64) stopAbove]

/-- A range moved down by an offset at or below both of its ends holds the bits it held,
moved down. -/
theorem contains_cutOffset {offset : Nat} {range : Range} (startAbove : offset ≤ range.start)
    (stopAbove : offset ≤ range.stop) (startBelow : range.start ≤ Usize.max)
    (stopBelow : range.stop ≤ Usize.max) (bit : Nat) :
    (Combinator.cutOffset offset range).contains bit = range.contains (bit + offset) := by
  rw [cutOffset_exact startAbove stopAbove startBelow stopBelow]
  simp only [contains_eq_decide, decide_eq_decide]
  omega

/-- The bits a running cut has still to put out: each bit of the left side outside the right
one, moved down by the offset and by the right bits below it. -/
def CutLeft (offset : Nat) (lhs rhs : List Range) (bit : Nat) : Prop :=
  ∃ x, covers lhs x = true ∧ covers rhs x = false ∧ bit = x - (offset + countBelow rhs x)

/-- A bit outside a range list and below the end of its front range lies before it. -/
theorem before_of_not_covers {right : Range} {rhsRest : List Range} {x : Nat}
    (outside : covers (right :: rhsRest) x = false) (below : x < right.stop) :
    x < right.start := by
  simp only [covers_cons, Bool.or_eq_false_iff, contains_eq_decide, decide_eq_false_iff_not] at outside
  omega

namespace CutInvariant

variable {offset : Nat} {left right : Range} {lhsRest rhsRest : List Range}

/-- A left bit before the right front range has no right bit below it. -/
theorem countBelow_before (invariant : CutInvariant offset lhsRest (right :: rhsRest)) {x : Nat}
    (before : x ≤ right.start) : countBelow (right :: rhsRest) x = 0 := by
  apply countBelow_of_le_starts
  intro range member
  rcases List.mem_cons.mp member with rfl | member
  · exact before
  · have := invariant.rhsOrdered.stop_lt_start range member
    have := invariant.rhsOrdered.1
    omega

/-- A bit before the right front range lies outside the right side. -/
theorem not_covers_of_before (invariant : CutInvariant offset lhsRest (right :: rhsRest))
    {x : Nat} (before : x < right.start) : covers (right :: rhsRest) x = false := by
  cases restCovers : covers rhsRest x
  · simp [restCovers]
    omega
  · have := invariant.rhsOrdered.stop_lt_of_covers restCovers
    have := invariant.rhsOrdered.1
    omega

/-- The round in which the left front range ends first puts out its bits before the right
front range, moved down by the offset. -/
theorem cutLeft_lhsFirst (invariant : CutInvariant offset (left :: lhsRest) (right :: rhsRest))
    (leftFirst : left.stop ≤ right.stop) (bit : Nat) :
    CutLeft offset (left :: lhsRest) (right :: rhsRest) bit ↔
      (Combinator.cutOffset offset ⟨left.start, min left.stop right.start⟩).contains bit = true ∨
        CutLeft offset lhsRest (right :: rhsRest) bit := by
  obtain ⟨leftAbove, leftNonneg, leftBelow⟩ := invariant.start
  have rightAbove : offset ≤ right.start := invariant.rhsAbove right (by simp)
  have shift : (Combinator.cutOffset offset ⟨left.start, min left.stop right.start⟩).contains bit =
      (⟨left.start, min left.stop right.start⟩ : Range).contains (bit + offset) :=
    @contains_cutOffset offset ⟨left.start, min left.stop right.start⟩ leftAbove
      (le_min (le_trans leftAbove leftNonneg) rightAbove) (le_trans leftNonneg leftBelow)
      (le_trans (min_le_left _ _) leftBelow) bit
  rw [shift, contains_iff]
  constructor
  · rintro ⟨x, inLhs, outRhs, rfl⟩
    rcases Bool.or_eq_true_iff.mp inLhs with inLeft | inRest
    · left
      have holds := (contains_iff left x).mp inLeft
      have before := before_of_not_covers outRhs (by omega)
      rw [invariant.countBelow_before before.le]
      simp only [Nat.add_zero]
      omega
    · exact .inr ⟨x, inRest, outRhs, rfl⟩
  · rintro (⟨low, high⟩ | ⟨x, inRest, outRhs, rfl⟩)
    · have before : bit + offset < right.start := lt_of_lt_of_le high (min_le_right _ _)
      refine ⟨bit + offset, ?_, invariant.not_covers_of_before before, ?_⟩
      · simp only [covers_cons, Bool.or_eq_true, contains_iff]
        exact .inl ⟨low, lt_of_lt_of_le high (min_le_left _ _)⟩
      · rw [invariant.countBelow_before before.le]
        omega
    · exact ⟨x, by simp [inRest], outRhs, rfl⟩

/-- A bit past the right front range counts all of its bits. -/
theorem countBelow_after (invariant : CutInvariant offset lhsRest (right :: rhsRest)) {x : Nat}
    (after : right.stop ≤ x) :
    countBelow (right :: rhsRest) x = right.len + countBelow rhsRest x := by
  rw [countBelow_cons (fun later member => (invariant.rhsOrdered.stop_lt_start later member).le),
    Nat.min_eq_left after]
  rfl

/-- The round in which the right front range ends first puts out the left bits before it,
and moves the rest of the left front range past it. -/
theorem cutLeft_rhsFirst (invariant : CutInvariant offset (left :: lhsRest) (right :: rhsRest))
    (rightFirst : right.stop < left.stop) (bit : Nat) :
    CutLeft offset (left :: lhsRest) (right :: rhsRest) bit ↔
      (Combinator.cutOffset offset ⟨left.start, min left.stop right.start⟩).contains bit = true ∨
        CutLeft (offset + right.len) ({ left with start := max left.start right.stop } :: lhsRest)
          rhsRest bit := by
  obtain ⟨leftAbove, leftNonneg, leftBelow⟩ := invariant.start
  have rightAbove : offset ≤ right.start := invariant.rhsAbove right (by simp)
  have rightNonneg : right.start ≤ right.stop := invariant.rhsOrdered.1
  have shift : (Combinator.cutOffset offset ⟨left.start, min left.stop right.start⟩).contains bit =
      (⟨left.start, min left.stop right.start⟩ : Range).contains (bit + offset) :=
    @contains_cutOffset offset ⟨left.start, min left.stop right.start⟩ leftAbove
      (le_min (le_trans leftAbove leftNonneg) rightAbove) (le_trans leftNonneg leftBelow)
      (le_trans (min_le_left _ _) leftBelow) bit
  have leftRestAfter : ∀ x, covers lhsRest x = true → left.stop < x := fun _ covered =>
    invariant.lhsOrdered.stop_lt_of_covers covered
  rw [shift, contains_iff]
  constructor
  · rintro ⟨x, inLhs, outRhs, rfl⟩
    by_cases before : x < right.start
    · -- a bit before the right front range can only be in the left front range
      left
      have inLeft : left.start ≤ x ∧ x < left.stop := by
        rcases Bool.or_eq_true_iff.mp inLhs with inLeft | inRest
        · exact (contains_iff left x).mp inLeft
        · have := leftRestAfter x inRest
          omega
      rw [invariant.countBelow_before before.le]
      simp only [Nat.add_zero]
      omega
    · have after : right.stop ≤ x := by
        simp only [covers_cons, Bool.or_eq_false_iff, contains_eq_decide,
          decide_eq_false_iff_not] at outRhs
        omega
      right
      refine ⟨x, ?_, ?_, ?_⟩
      · rcases Bool.or_eq_true_iff.mp inLhs with inLeft | inRest
        · have := (contains_iff left x).mp inLeft
          simp only [covers_cons, Bool.or_eq_true, contains_iff]
          exact .inl ⟨max_le this.1 after, this.2⟩
        · simp only [covers_cons, Bool.or_eq_true]
          exact .inr inRest
      · simp only [covers_cons, Bool.or_eq_false_iff] at outRhs
        exact outRhs.2
      · rw [invariant.countBelow_after after, Nat.add_assoc]
  · rintro (⟨low, high⟩ | ⟨x, inLhs, outRest, rfl⟩)
    · have before : bit + offset < right.start := lt_of_lt_of_le high (min_le_right _ _)
      refine ⟨bit + offset, ?_, invariant.not_covers_of_before before, ?_⟩
      · simp only [covers_cons, Bool.or_eq_true, contains_iff]
        exact .inl ⟨low, lt_of_lt_of_le high (min_le_left _ _)⟩
      · rw [invariant.countBelow_before before.le]
        omega
    · have after : right.stop ≤ x := by
        rcases Bool.or_eq_true_iff.mp inLhs with inFront | inRest
        · have := (contains_iff _ x).mp inFront
          simp only at this
          omega
        · have := leftRestAfter x inRest
          omega
      refine ⟨x, ?_, ?_, ?_⟩
      · rcases Bool.or_eq_true_iff.mp inLhs with inFront | inRest
        · have := (contains_iff _ x).mp inFront
          simp only at this
          simp only [covers_cons, Bool.or_eq_true, contains_iff]
          exact .inl ⟨by omega, this.2⟩
        · simp only [covers_cons, Bool.or_eq_true]
          exact .inr inRest
      · simp only [covers_cons, outRest, Bool.or_false, contains_eq_decide, decide_eq_false_iff_not]
        omega
      · rw [invariant.countBelow_after after, Nat.add_assoc]

/-- Once the right side has run out, the left front range is put out moved down. -/
theorem cutLeft_lhsTail (invariant : CutInvariant offset (left :: lhsRest) []) (bit : Nat) :
    CutLeft offset (left :: lhsRest) [] bit ↔
      (Combinator.cutOffset offset left).contains bit = true ∨ CutLeft offset lhsRest [] bit := by
  obtain ⟨leftAbove, leftNonneg, leftBelow⟩ := invariant.start
  rw [contains_cutOffset leftAbove (le_trans leftAbove leftNonneg) (le_trans leftNonneg leftBelow)
    leftBelow, contains_iff]
  constructor
  · rintro ⟨x, inLhs, -, rfl⟩
    rcases Bool.or_eq_true_iff.mp inLhs with inLeft | inRest
    · have := (contains_iff left x).mp inLeft
      left
      simp only [countBelow_nil, Nat.add_zero]
      omega
    · exact .inr ⟨x, inRest, rfl, rfl⟩
  · rintro (⟨low, high⟩ | ⟨x, inRest, -, rfl⟩)
    · refine ⟨bit + offset, ?_, rfl, by simp⟩
      simp only [covers_cons, Bool.or_eq_true, contains_iff]
      exact .inl ⟨low, high⟩
    · exact ⟨x, by simp only [covers_cons, Bool.or_eq_true]; exact .inr inRest, rfl, rfl⟩

end CutInvariant

@[simp] theorem cutLeft_nil (offset : Nat) (rhs : List Range) (bit : Nat) :
    CutLeft offset [] rhs bit ↔ False := by
  simp [CutLeft]

/-- The ranges `cut` puts out hold exactly the bits it has to put out.  The induction is on
the fuel, with one round lemma for each way `next_range` can go. -/
theorem cut_nextRanges_covers (fuel : Nat) :
    ∀ offset lhs rhs, lhs.length + rhs.length ≤ fuel → CutInvariant offset lhs rhs → ∀ bit,
      covers (Combinator.cut.nextRanges fuel offset lhs rhs) bit = true ↔ CutLeft offset lhs rhs bit := by
  induction fuel with
  | zero =>
    intro offset lhs rhs enough _ bit
    obtain rfl : lhs = [] := List.eq_nil_of_length_eq_zero (by omega)
    simp [Combinator.nextRanges]
  | succ fuel inductionHypothesis =>
    intro offset lhs rhs enough invariant bit
    rcases lhs with _ | ⟨left, lhsRest⟩
    · rcases rhs with _ | ⟨right, rhsRest⟩ <;> simp [Combinator.nextRanges]
    · rcases rhs with _ | ⟨right, rhsRest⟩
      · simp only [Combinator.nextRanges, Combinator.cut_advanceLhsTail, covers_cons,
          Bool.or_eq_true]
        rw [invariant.cutLeft_lhsTail, inductionHypothesis offset lhsRest []
          (by simp at enough ⊢; omega) invariant.dropLhs]
      · simp only [Combinator.nextRanges]
        split
        · next leftFirst =>
          simp only [Combinator.cut_advanceLhs, covers_cons, Bool.or_eq_true]
          rw [invariant.cutLeft_lhsFirst leftFirst, inductionHypothesis offset lhsRest _
            (by simp at enough ⊢; omega) invariant.dropLhs]
        · next rightFirst =>
          simp only [Combinator.cut_advanceRhs, covers_cons, Bool.or_eq_true]
          rw [invariant.cutLeft_rhsFirst (Nat.lt_of_not_le rightFirst), invariant.wrappingAdd_len,
            inductionHypothesis _ _ rhsRest (by simp at enough ⊢; omega)
              (invariant.passRhs (Nat.lt_of_not_le rightFirst))]

/-! ## The outputs of `cut` ascend -/

/-- A range in front of ranges that start at or past its end, or an empty range, keeps the
non-empty ranges ascending and above a bound it is above. -/
theorem filter_cons_sorted {out : Range} {rest : List Range} {bound : Nat}
    (outAbove : out.start < out.stop → bound ≤ out.start)
    (ifKept : out.start < out.stop →
      StartsSorted (rest.filter fun range => range.start < range.stop) ∧
        ∀ later ∈ rest.filter (fun range => range.start < range.stop), out.stop ≤ later.start)
    (ifDropped : ¬ out.start < out.stop →
      StartsSorted (rest.filter fun range => range.start < range.stop) ∧
        ∀ later ∈ rest.filter (fun range => range.start < range.stop), bound ≤ later.start) :
    StartsSorted ((out :: rest).filter fun range => range.start < range.stop) ∧
      ∀ later ∈ (out :: rest).filter (fun range => range.start < range.stop), bound ≤ later.start := by
  by_cases kept : out.start < out.stop
  · rw [List.filter_cons_of_pos (by simpa using kept)]
    obtain ⟨sorted, above⟩ := ifKept kept
    exact startsSorted_cons_of_above
      ⟨sorted, fun later member => le_trans kept.le (above later member)⟩ (outAbove kept)
  · rw [List.filter_cons_of_neg (by simpa using kept)]
    exact ifDropped kept

/-- The non-empty outputs of `cut` ascend, above a bound that lies the offset below every
range still to come.  The induction is on the fuel; a non-empty output raises the bound to
its end. -/
theorem cut_nextRanges_sorted (fuel : Nat) :
    ∀ offset lhs rhs bound, CutInvariant offset lhs rhs →
      (∀ range ∈ lhs, bound + offset ≤ range.start) → (∀ range ∈ rhs, bound + offset ≤ range.start) →
      StartsSorted ((Combinator.cut.nextRanges fuel offset lhs rhs).filter
          fun range => range.start < range.stop) ∧
        ∀ later ∈ (Combinator.cut.nextRanges fuel offset lhs rhs).filter
          (fun range => range.start < range.stop), bound ≤ later.start := by
  induction fuel with
  | zero => simp [Combinator.nextRanges, StartsSorted]
  | succ fuel inductionHypothesis =>
    intro offset lhs rhs bound invariant lhsAbove rhsAbove
    rcases lhs with _ | ⟨left, lhsRest⟩
    · rcases rhs with _ | ⟨right, rhsRest⟩ <;> simp [Combinator.nextRanges, StartsSorted]
    · obtain ⟨leftAbove, leftNonneg, leftBelow⟩ := invariant.start
      have leftBound : bound + offset ≤ left.start := lhsAbove left (by simp)
      have leftRestAfter : ∀ later ∈ lhsRest, left.stop < later.start :=
        invariant.lhsOrdered.stop_lt_start
      rcases rhs with _ | ⟨right, rhsRest⟩
      · -- the rest of the left side starts after the end of its front range
        have next : ∀ lower, lower + offset ≤ left.stop →
            StartsSorted ((Combinator.cut.nextRanges fuel offset lhsRest []).filter
                fun range => range.start < range.stop) ∧
              ∀ later ∈ (Combinator.cut.nextRanges fuel offset lhsRest []).filter
                (fun range => range.start < range.stop), lower ≤ later.start := by
          intro lower low
          apply inductionHypothesis offset lhsRest [] lower invariant.dropLhs _ (by simp)
          intro later member
          have := leftRestAfter later member
          omega
        simp only [Combinator.nextRanges, Combinator.cut_advanceLhsTail]
        rw [cutOffset_exact leftAbove (le_trans leftAbove leftNonneg) (le_trans leftNonneg leftBelow)
          leftBelow]
        exact filter_cons_sorted (fun _ => by simp only; omega)
          (fun _ => next _ (by simp only; omega)) (fun _ => next bound (by omega))
      · have rightAbove : offset ≤ right.start := invariant.rhsAbove right (by simp)
        have rightBound : bound + offset ≤ right.start := rhsAbove right (by simp)
        have rightNonneg : right.start ≤ right.stop := invariant.rhsOrdered.1
        have rightRestAfter : ∀ later ∈ rhsRest, right.stop < later.start :=
          invariant.rhsOrdered.stop_lt_start
        have exact : Combinator.cutOffset offset ⟨left.start, min left.stop right.start⟩ =
            ⟨left.start - offset, min left.stop right.start - offset⟩ :=
          @cutOffset_exact offset ⟨left.start, min left.stop right.start⟩ leftAbove
            (le_min (le_trans leftAbove leftNonneg) rightAbove) (le_trans leftNonneg leftBelow)
            (le_trans (min_le_left _ _) leftBelow)
        simp only [Combinator.nextRanges]
        split
        · next leftFirst =>
          -- everything still to come starts at or past the end of the output
          have next : ∀ lower, lower + offset ≤ min left.stop right.start →
              StartsSorted ((Combinator.cut.nextRanges fuel offset lhsRest (right :: rhsRest)).filter
                  fun range => range.start < range.stop) ∧
                ∀ later ∈ (Combinator.cut.nextRanges fuel offset lhsRest (right :: rhsRest)).filter
                  (fun range => range.start < range.stop), lower ≤ later.start := by
            intro lower low
            apply inductionHypothesis offset lhsRest _ lower invariant.dropLhs
            · intro later member
              have := leftRestAfter later member
              omega
            · intro later member
              rcases List.mem_cons.mp member with rfl | member
              · omega
              · have := rightRestAfter later member
                omega
          simp only [Combinator.cut_advanceLhs, exact]
          exact filter_cons_sorted (fun _ => by simp only; omega)
            (fun _ => next _ (by simp only; omega)) (fun _ => next bound (by omega))
        · next rightFirst =>
          -- past the right front range the offset has grown by its length
          have next : ∀ lower, lower + offset ≤ right.start →
              StartsSorted ((Combinator.cut.nextRanges fuel (offset + right.len)
                  ({ left with start := max left.start right.stop } :: lhsRest) rhsRest).filter
                  fun range => range.start < range.stop) ∧
                ∀ later ∈ (Combinator.cut.nextRanges fuel (offset + right.len)
                  ({ left with start := max left.start right.stop } :: lhsRest) rhsRest).filter
                  (fun range => range.start < range.stop), lower ≤ later.start := by
            intro lower low
            apply inductionHypothesis _ _ rhsRest lower
              (invariant.passRhs (Nat.lt_of_not_le rightFirst))
            · intro later member
              rcases List.mem_cons.mp member with rfl | member
              · simp only [Range.len]
                omega
              · have := leftRestAfter later member
                simp only [Range.len]
                omega
            · intro later member
              have := rightRestAfter later member
              simp only [Range.len]
              omega
          simp only [Combinator.cut_advanceRhs, exact, invariant.wrappingAdd_len]
          exact filter_cons_sorted (fun _ => by simp only; omega)
            (fun _ => next _ (by simp only; omega)) (fun _ => next bound rightBound)

/-! ## `cut` -/

/-- Two valid range lists within `usize` are where a cut starts. -/
theorem cutInvariant_start {lhs rhs : List Range} (lhsValid : Valid lhs) (rhsValid : Valid rhs)
    (lhsBelow : ∀ range ∈ lhs, range.stop ≤ Usize.max)
    (rhsBelow : ∀ range ∈ rhs, range.stop ≤ Usize.max) : CutInvariant 0 lhs rhs where
  lhsOrdered := lhsValid.ordered
  rhsOrdered := rhsValid.ordered
  lhsAbove := fun _ _ => Nat.zero_le _
  rhsAbove := fun _ _ => Nat.zero_le _
  lhsBelow := lhsBelow
  rhsBelow := rhsBelow

section Cut

variable {lhs rhs : List Range} (lhsValid : Valid lhs) (rhsValid : Valid rhs)
  (lhsBelow : ∀ range ∈ lhs, range.stop ≤ Usize.max) (rhsBelow : ∀ range ∈ rhs, range.stop ≤ Usize.max)
include lhsValid rhsValid lhsBelow rhsBelow

/-- The outputs of a cut of two valid range lists within `usize` ascend once the empty ones
are dropped. -/
theorem cut_nextRanges_startsSorted :
    StartsSorted ((Combinator.cut.nextRanges (lhs.length + rhs.length) 0 lhs rhs).filter
      fun range => range.start < range.stop) :=
  (cut_nextRanges_sorted (lhs.length + rhs.length) 0 lhs rhs 0
    (cutInvariant_start lhsValid rhsValid lhsBelow rhsBelow)
    (fun _ _ => Nat.zero_le _) (fun _ _ => Nat.zero_le _)).1

/-- `a.cut(b)` of two valid range lists within `usize` is valid. -/
theorem cut_valid : Valid (RangeIterator.cut lhs rhs) := by
  apply merge_valid _ (cut_nextRanges_startsSorted lhsValid rhsValid lhsBelow rhsBelow)
  intro range member
  simpa using (List.mem_filter.mp member).2

/-- A bit of `a.cut(b)` is a bit of `a` outside `b`, moved down by the bits of `b` below it. -/
theorem covers_cut_iff (bit : Nat) :
    covers (RangeIterator.cut lhs rhs) bit = true ↔
      ∃ x, covers lhs x = true ∧ covers rhs x = false ∧ bit = x - countBelow rhs x := by
  rw [RangeIterator.cut, covers_combine (cut_nextRanges_startsSorted lhsValid rhsValid lhsBelow rhsBelow),
    Combinator.cut_init, cut_nextRanges_covers _ 0 lhs rhs le_rfl
      (cutInvariant_start lhsValid rhsValid lhsBelow rhsBelow) bit, CutLeft]
  simp only [Nat.zero_add]

/-- `a.cut(b)` of two valid range iterators is a valid range iterator of the bits of `a` not
in `b`, each moved down by the number of bits of `b` below it, and no subtraction in
`Cut::offset` underflows. -/
theorem cut_shifts_difference :
    Valid (RangeIterator.cut lhs rhs) ∧
      (∀ bit, covers (RangeIterator.cut lhs rhs) bit = true ↔
        ∃ x, covers lhs x = true ∧ covers rhs x = false ∧ bit = x - countBelow rhs x) ∧
      Combinator.cut.nextRanges (lhs.length + rhs.length) 0 lhs rhs =
        (cutShifts (lhs.length + rhs.length) 0 lhs rhs).map
          (fun shift => Combinator.cutOffset shift.1 shift.2) ∧
      ∀ shift ∈ cutShifts (lhs.length + rhs.length) 0 lhs rhs,
        shift.1 ≤ shift.2.start ∧ shift.1 ≤ shift.2.stop :=
  ⟨cut_valid lhsValid rhsValid lhsBelow rhsBelow, covers_cut_iff lhsValid rhsValid lhsBelow rhsBelow,
    cut_nextRanges_eq_map _ 0 lhs rhs,
    cutShifts_within _ 0 lhs rhs (cutInvariant_start lhsValid rhsValid lhsBelow rhsBelow)⟩

end Cut

theorem cut_shifts_difference_middle :
    Valid [⟨0, 10⟩] ∧ Valid [⟨3, 5⟩] ∧ (∀ range ∈ [(⟨0, 10⟩ : Range)], range.stop ≤ Usize.max) ∧
      (∀ range ∈ [(⟨3, 5⟩ : Range)], range.stop ≤ Usize.max) ∧
      Valid (RangeIterator.cut [⟨0, 10⟩] [⟨3, 5⟩]) ∧
      (∀ bit, covers (RangeIterator.cut [⟨0, 10⟩] [⟨3, 5⟩]) bit = true ↔
        ∃ x, covers [⟨0, 10⟩] x = true ∧ covers [⟨3, 5⟩] x = false ∧
          bit = x - countBelow [⟨3, 5⟩] x) ∧
      Combinator.cut.nextRanges ([(⟨0, 10⟩ : Range)].length + [(⟨3, 5⟩ : Range)].length) 0
          [⟨0, 10⟩] [⟨3, 5⟩] =
        (cutShifts ([(⟨0, 10⟩ : Range)].length + [(⟨3, 5⟩ : Range)].length) 0 [⟨0, 10⟩]
          [⟨3, 5⟩]).map (fun shift => Combinator.cutOffset shift.1 shift.2) ∧
      ∀ shift ∈ cutShifts ([(⟨0, 10⟩ : Range)].length + [(⟨3, 5⟩ : Range)].length) 0 [⟨0, 10⟩]
        [⟨3, 5⟩], shift.1 ≤ shift.2.start ∧ shift.1 ≤ shift.2.stop :=
  have lhsValid : Valid [⟨0, 10⟩] := by decide
  have rhsValid : Valid [⟨3, 5⟩] := by decide
  have lhsBelow : ∀ range ∈ [(⟨0, 10⟩ : Range)], range.stop ≤ Usize.max := by
    simp [Usize.max]
  have rhsBelow : ∀ range ∈ [(⟨3, 5⟩ : Range)], range.stop ≤ Usize.max := by
    simp [Usize.max]
  ⟨lhsValid, rhsValid, lhsBelow, rhsBelow,
    cut_shifts_difference lhsValid rhsValid lhsBelow rhsBelow⟩

end Forest.Bitfield

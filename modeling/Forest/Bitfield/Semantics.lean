import Forest.Bitfield.BitField

namespace Forest.Bitfield

/-!
# What the range combinators compute

A range list stands for the set of bits its ranges hold (`covers`).  `Merge` keeps that set
when its input ascends, and a stateless combinator computes a pointwise set operation when
every round satisfies `Combinator.Computes`: the range it puts out, together with what is
left of the two sides, stands for the operation of the two sides.  A side is `Ordered`
while the combination runs, a valid list whose front range a combinator may have cut down
to nothing.

`Union`, `Intersection`, `Difference` and `SymmetricDifference` each satisfy
`Computes` for `||`, `&&`, `a && !b` and `^^`, and their outputs ascend, so
`combinators_are_set_operations` gives for each a valid result that stands for the set
operation of the two inputs.  The last section shows where the bit field leaves its set:
a bit set at `usize::MAX` is reported by `get` but held by no range of `ranges()`.
-/

/-- Whether a range holds a bit (`Range::contains`). -/
def Range.contains (range : Range) (bit : Nat) : Bool :=
  decide (range.start ≤ bit) && decide (bit < range.stop)

/-- Whether one of the ranges holds a bit: the set of bits a range list stands for. -/
def covers (ranges : List Range) (bit : Nat) : Bool :=
  ranges.any (·.contains bit)

@[simp] theorem covers_nil (bit : Nat) : covers [] bit = false := rfl

@[simp] theorem covers_cons (range : Range) (rest : List Range) (bit : Nat) :
    covers (range :: rest) bit = (range.contains bit || covers rest bit) := rfl

@[simp] theorem contains_eq_decide (range : Range) (bit : Nat) :
    range.contains bit = decide (range.start ≤ bit ∧ bit < range.stop) := by
  simp [Range.contains]

theorem contains_iff (range : Range) (bit : Nat) :
    range.contains bit = true ↔ range.start ≤ bit ∧ bit < range.stop := by
  simp

/-- Ranges that hold nothing add nothing. -/
theorem covers_filter_nonempty (ranges : List Range) (bit : Nat) :
    covers (ranges.filter fun range => range.start < range.stop) bit = covers ranges bit := by
  induction ranges with
  | nil => rfl
  | cons range rest inductionHypothesis =>
    by_cases nonempty : range.start < range.stop
    · simp [nonempty, inductionHypothesis]
    · have empty : ¬ (range.start ≤ bit ∧ bit < range.stop) := by omega
      simp [nonempty, inductionHypothesis, empty]

/-- Gluing a range onto one that starts no later and reaches it holds the bits of both. -/
theorem contains_glue {range next : Range} (above : range.start ≤ next.start)
    (reaches : next.start ≤ range.stop) (bit : Nat) :
    ({ range with stop := max range.stop next.stop } : Range).contains bit =
      (range.contains bit || next.contains bit) := by
  simp only [Range.contains]
  by_cases low : range.start ≤ bit <;> by_cases high : bit < range.stop <;>
    by_cases nextHigh : bit < next.stop <;> simp [low, high, nextHigh] <;> omega

/-- `Merge` keeps the bits of its input when the lower bounds ascend. -/
theorem covers_mergeFrom (range : Range) (rest : List Range) (bit : Nat)
    (above : ∀ later ∈ rest, range.start ≤ later.start) (sorted : StartsSorted rest) :
    covers (mergeFrom range rest) bit = covers (range :: rest) bit := by
  induction rest generalizing range with
  | nil => rfl
  | cons next rest inductionHypothesis =>
    have nextFirst : ∀ later ∈ rest, next.start ≤ later.start := (List.pairwise_cons.mp sorted).1
    rw [mergeFrom]
    split
    · rw [covers_cons, inductionHypothesis next nextFirst sorted.of_cons]
      rfl
    · next reaches =>
      have nextAbove : range.start ≤ next.start := above next (by simp)
      rw [inductionHypothesis { range with stop := max range.stop next.stop }
          (fun later member => above later (by simp [member])) sorted.of_cons,
        covers_cons, contains_glue nextAbove (Nat.le_of_not_lt reaches)]
      simp [Bool.or_assoc]

theorem covers_merge {ranges : List Range} (sorted : StartsSorted ranges) (bit : Nat) :
    covers (merge ranges) bit = covers ranges bit := by
  cases ranges with
  | nil => rfl
  | cons range rest =>
    exact covers_mergeFrom range rest bit (List.pairwise_cons.mp sorted).1 sorted.of_cons

/-- A combination stands for what the rounds of its combinator put out, as long as their
non-empty outputs come in ascending order. -/
theorem covers_combine {σ : Type} {c : Combinator σ} {lhs rhs : List Range}
    (sorted : StartsSorted ((c.nextRanges (lhs.length + rhs.length) c.init lhs rhs).filter
      fun range => range.start < range.stop)) (bit : Nat) :
    covers (combine c lhs rhs) bit =
      covers (c.nextRanges (lhs.length + rhs.length) c.init lhs rhs) bit := by
  rw [combine, covers_merge sorted, covers_filter_nonempty]

/-! ## The sides of a running combination -/

/-- A range list as one side of `Combine` holds it while it runs: valid, except that the
front range may have been cut down to nothing, since a combinator moves a start up to at most
its end. -/
def Ordered : List Range → Prop
  | [] => True
  | range :: rest =>
    range.start ≤ range.stop ∧ (∀ next ∈ rest.head?, range.stop < next.start) ∧ Valid rest

@[simp] theorem ordered_nil : Ordered [] := trivial

theorem Valid.ordered {ranges : List Range} (valid : Valid ranges) : Ordered ranges := by
  cases ranges with
  | nil => trivial
  | cons range rest =>
    obtain ⟨nonempty, beforeNext, validRest⟩ := valid_cons.mp valid
    exact ⟨nonempty.le, beforeNext, validRest⟩

theorem Ordered.tail {range : Range} {rest : List Range} (ordered : Ordered (range :: rest)) :
    Ordered rest :=
  ordered.2.2.ordered

/-- The front range of a side ends before every later range starts. -/
theorem Ordered.stop_lt_start {range : Range} {rest : List Range}
    (ordered : Ordered (range :: rest)) : ∀ later ∈ rest, range.stop < later.start := by
  obtain ⟨_, beforeNext, validRest⟩ := ordered
  cases rest with
  | nil => simp
  | cons next rest =>
    have nextFirst : range.stop < next.start := beforeNext next rfl
    have nextNonempty : next.start < next.stop := (valid_cons.mp validRest).1
    intro later member
    rcases List.mem_cons.mp member with rfl | member
    · exact nextFirst
    · have := validRest.stop_lt_start later member
      omega

/-- A bit of the later ranges of a side lies past the front range. -/
theorem Ordered.stop_lt_of_covers {range : Range} {rest : List Range}
    (ordered : Ordered (range :: rest)) {bit : Nat} (covered : covers rest bit = true) :
    range.stop < bit := by
  obtain ⟨later, member, holds⟩ := List.any_eq_true.mp covered
  have := ordered.stop_lt_start later member
  have := (contains_iff later bit).mp holds
  omega

/-- The lower bounds of a side ascend. -/
theorem Ordered.start_le {range : Range} {rest : List Range} (ordered : Ordered (range :: rest)) :
    ∀ later ∈ rest, range.start ≤ later.start := fun later member =>
  (Nat.le_trans ordered.1 (ordered.stop_lt_start later member).le)

/-- Moving the start of the front range up to at most its end keeps a side ordered. -/
theorem Ordered.cons_start {range : Range} {rest : List Range}
    (ordered : Ordered (range :: rest)) {start : Nat} (reaches : start ≤ range.stop) :
    Ordered ({ range with start := start } :: rest) :=
  ⟨reaches, ordered.2.1, ordered.2.2⟩

/-! ## Combinators that compute a set operation -/

/-- What one round of a stateless combinator must do for `Combine` to compute the pointwise
operation `op`: whichever front range ends first, the range put out together with the sides
left behind stands for `op` of the two sides, and the side that was kept is still ordered;
once a side has run out, the other is handed on whole where `op` keeps it and dropped where
`op` clears it. -/
structure Combinator.Computes (c : Combinator Unit) (op : Bool → Bool → Bool) : Prop where
  empty : op false false = false
  advanceLhs : ∀ lhs rhs lhsRest rhsRest, Ordered (lhs :: lhsRest) → Ordered (rhs :: rhsRest) →
    lhs.stop ≤ rhs.stop →
      Ordered ((c.advanceLhs () lhs rhs).2.1 :: rhsRest) ∧ ∀ bit,
        op (covers (lhs :: lhsRest) bit) (covers (rhs :: rhsRest) bit) =
          ((c.advanceLhs () lhs rhs).1.contains bit ||
            op (covers lhsRest bit) (covers ((c.advanceLhs () lhs rhs).2.1 :: rhsRest) bit))
  advanceRhs : ∀ lhs rhs lhsRest rhsRest, Ordered (lhs :: lhsRest) → Ordered (rhs :: rhsRest) →
    rhs.stop < lhs.stop →
      Ordered ((c.advanceRhs () lhs rhs).2.1 :: lhsRest) ∧ ∀ bit,
        op (covers (lhs :: lhsRest) bit) (covers (rhs :: rhsRest) bit) =
          ((c.advanceRhs () lhs rhs).1.contains bit ||
            op (covers ((c.advanceRhs () lhs rhs).2.1 :: lhsRest) bit) (covers rhsRest bit))
  advanceLhsTail : (∀ lhs, c.advanceLhsTail () lhs = (some lhs, ()) ∧ ∀ a, op a false = a) ∨
    (∀ lhs, c.advanceLhsTail () lhs = (none, ()) ∧ ∀ a, op a false = false)
  advanceRhsTail : (∀ rhs, c.advanceRhsTail () rhs = (some rhs, ()) ∧ ∀ b, op false b = b) ∨
    (∀ rhs, c.advanceRhsTail () rhs = (none, ()) ∧ ∀ b, op false b = false)

/-- The rounds of a combinator that computes `op` put out, between them, the bits of `op` of
its two sides.  The induction is on the fuel, which covers the ranges left on both sides. -/
theorem Combinator.Computes.nextRanges_covers {c : Combinator Unit} {op : Bool → Bool → Bool}
    (computes : c.Computes op) (fuel : Nat) :
    ∀ lhs rhs, lhs.length + rhs.length ≤ fuel → Ordered lhs → Ordered rhs → ∀ bit,
      covers (c.nextRanges fuel () lhs rhs) bit = op (covers lhs bit) (covers rhs bit) := by
  induction fuel with
  | zero =>
    intro lhs rhs enough _ _ bit
    obtain ⟨rfl, rfl⟩ : lhs = [] ∧ rhs = [] := by
      constructor <;> apply List.eq_nil_of_length_eq_zero <;> omega
    simp [Combinator.nextRanges, computes.empty]
  | succ fuel inductionHypothesis =>
    intro lhs rhs enough lhsOrdered rhsOrdered bit
    rcases lhs with _ | ⟨left, lhsRest⟩ <;> rcases rhs with _ | ⟨right, rhsRest⟩
    · simp [Combinator.nextRanges, computes.empty]
    · rcases computes.advanceRhsTail with handsOn | drops
      · obtain ⟨tail, keeps⟩ := handsOn right
        have rest := inductionHypothesis [] rhsRest (by simp at enough ⊢; omega) trivial
          rhsOrdered.tail bit
        simp only [Combinator.nextRanges, tail, covers_cons, rest, covers_nil, keeps]
      · obtain ⟨tail, clears⟩ := drops right
        simp [Combinator.nextRanges, tail, clears]
    · rcases computes.advanceLhsTail with handsOn | drops
      · obtain ⟨tail, keeps⟩ := handsOn left
        have rest := inductionHypothesis lhsRest [] (by simp at enough ⊢; omega)
          lhsOrdered.tail trivial bit
        simp only [Combinator.nextRanges, tail, covers_cons, rest, covers_nil, keeps]
      · obtain ⟨tail, clears⟩ := drops left
        simp [Combinator.nextRanges, tail, clears]
    · simp only [Combinator.nextRanges]
      split
      · next leftFirst =>
        obtain ⟨keptOrdered, step⟩ :=
          computes.advanceLhs left right lhsRest rhsRest lhsOrdered rhsOrdered leftFirst
        rw [step bit, ← inductionHypothesis lhsRest _ (by simp at enough ⊢; omega)
          lhsOrdered.tail keptOrdered bit]
        rfl
      · next rightFirst =>
        obtain ⟨keptOrdered, step⟩ := computes.advanceRhs left right lhsRest rhsRest lhsOrdered
          rhsOrdered (Nat.lt_of_not_le rightFirst)
        rw [step bit, ← inductionHypothesis _ rhsRest (by simp at enough ⊢; omega)
          keptOrdered rhsOrdered.tail bit]
        rfl

theorem union_computes : Combinator.union.Computes (· || ·) where
  empty := rfl
  advanceLhs := by
    intro lhs rhs lhsRest rhsRest lhsOrdered rhsOrdered leftFirst
    refine ⟨rhsOrdered, fun bit => ?_⟩
    have lhsNonneg : lhs.start ≤ lhs.stop := lhsOrdered.1
    simp only [covers_cons]
    cases covers lhsRest bit <;> cases covers rhsRest bit <;> rw [Bool.eq_iff_iff] <;>
      simp [Combinator.union]
    all_goals omega
  advanceRhs := by
    intro lhs rhs lhsRest rhsRest lhsOrdered rhsOrdered rightFirst
    refine ⟨lhsOrdered, fun bit => ?_⟩
    have rhsNonneg : rhs.start ≤ rhs.stop := rhsOrdered.1
    simp only [covers_cons]
    cases covers lhsRest bit <;> cases covers rhsRest bit <;> rw [Bool.eq_iff_iff] <;>
      simp [Combinator.union]
    all_goals omega
  advanceLhsTail := .inl fun _ => ⟨rfl, Bool.or_false⟩
  advanceRhsTail := .inl fun _ => ⟨rfl, Bool.false_or⟩

theorem intersection_computes : Combinator.intersection.Computes (· && ·) where
  empty := rfl
  advanceLhs := by
    intro lhs rhs lhsRest rhsRest lhsOrdered rhsOrdered leftFirst
    refine ⟨rhsOrdered, fun bit => ?_⟩
    have lhsAfter : covers lhsRest bit = true → lhs.stop < bit := lhsOrdered.stop_lt_of_covers
    have rhsAfter : covers rhsRest bit = true → rhs.stop < bit := rhsOrdered.stop_lt_of_covers
    simp only [covers_cons]
    revert lhsAfter rhsAfter
    cases covers lhsRest bit <;> cases covers rhsRest bit <;> intro lhsAfter rhsAfter <;>
      rw [Bool.eq_iff_iff] <;> simp [Combinator.intersection] at lhsAfter rhsAfter ⊢ <;>
      omega
  advanceRhs := by
    intro lhs rhs lhsRest rhsRest lhsOrdered rhsOrdered rightFirst
    refine ⟨lhsOrdered, fun bit => ?_⟩
    have lhsAfter : covers lhsRest bit = true → lhs.stop < bit := lhsOrdered.stop_lt_of_covers
    have rhsAfter : covers rhsRest bit = true → rhs.stop < bit := rhsOrdered.stop_lt_of_covers
    simp only [covers_cons]
    revert lhsAfter rhsAfter
    cases covers lhsRest bit <;> cases covers rhsRest bit <;> intro lhsAfter rhsAfter <;>
      rw [Bool.eq_iff_iff] <;> simp [Combinator.intersection] at lhsAfter rhsAfter ⊢ <;>
      omega
  advanceLhsTail := .inr fun _ => ⟨rfl, Bool.and_false⟩
  advanceRhsTail := .inr fun _ => ⟨rfl, Bool.false_and⟩

theorem difference_computes : Combinator.difference.Computes (fun a b => a && !b) where
  empty := rfl
  advanceLhs := by
    intro lhs rhs lhsRest rhsRest lhsOrdered rhsOrdered leftFirst
    refine ⟨rhsOrdered, fun bit => ?_⟩
    have lhsNonneg : lhs.start ≤ lhs.stop := lhsOrdered.1
    have rhsNonneg : rhs.start ≤ rhs.stop := rhsOrdered.1
    have lhsAfter : covers lhsRest bit = true → lhs.stop < bit := lhsOrdered.stop_lt_of_covers
    have rhsAfter : covers rhsRest bit = true → rhs.stop < bit := rhsOrdered.stop_lt_of_covers
    simp only [covers_cons]
    revert lhsAfter rhsAfter
    cases covers lhsRest bit <;> cases covers rhsRest bit <;> intro lhsAfter rhsAfter <;>
      rw [Bool.eq_iff_iff] <;> simp [Combinator.difference] at lhsAfter rhsAfter ⊢ <;> omega
  advanceRhs := by
    intro lhs rhs lhsRest rhsRest lhsOrdered rhsOrdered rightFirst
    have lhsNonneg : lhs.start ≤ lhs.stop := lhsOrdered.1
    have rhsNonneg : rhs.start ≤ rhs.stop := rhsOrdered.1
    refine ⟨lhsOrdered.cons_start (max_le lhsNonneg rightFirst.le), fun bit => ?_⟩
    have lhsAfter : covers lhsRest bit = true → lhs.stop < bit := lhsOrdered.stop_lt_of_covers
    have rhsAfter : covers rhsRest bit = true → rhs.stop < bit := rhsOrdered.stop_lt_of_covers
    simp only [covers_cons]
    revert lhsAfter rhsAfter
    cases covers lhsRest bit <;> cases covers rhsRest bit <;> intro lhsAfter rhsAfter <;>
      rw [Bool.eq_iff_iff] <;> simp [Combinator.difference] at lhsAfter rhsAfter ⊢ <;> omega
  advanceLhsTail := .inl fun _ => ⟨rfl, by simp⟩
  advanceRhsTail := .inr fun _ => ⟨rfl, by simp⟩

/-- One round of `SymmetricDifference`, from the side whose front range ends first. -/
theorem symmetricAdvance_round {left right : Range} {leftRest rightRest : List Range}
    (leftOrdered : Ordered (left :: leftRest)) (rightOrdered : Ordered (right :: rightRest))
    (leftFirst : left.stop ≤ right.stop) :
    Ordered ((Combinator.symmetricAdvance left right).2 :: rightRest) ∧ ∀ bit,
      (covers (left :: leftRest) bit ^^ covers (right :: rightRest) bit) =
        ((Combinator.symmetricAdvance left right).1.contains bit ||
          (covers leftRest bit ^^ covers ((Combinator.symmetricAdvance left right).2 :: rightRest) bit)) := by
  have leftNonneg : left.start ≤ left.stop := leftOrdered.1
  have rightNonneg : right.start ≤ right.stop := rightOrdered.1
  constructor
  · by_cases order : left.start ≤ right.start
    · simpa [Combinator.symmetricAdvance, order] using
        rightOrdered.cons_start (max_le rightNonneg leftFirst)
    · simpa [Combinator.symmetricAdvance, order] using rightOrdered.cons_start leftFirst
  · intro bit
    have leftAfter : covers leftRest bit = true → left.stop < bit := leftOrdered.stop_lt_of_covers
    have rightAfter : covers rightRest bit = true → right.stop < bit :=
      rightOrdered.stop_lt_of_covers
    simp only [covers_cons]
    revert leftAfter rightAfter
    by_cases order : left.start ≤ right.start <;>
      cases covers leftRest bit <;> cases covers rightRest bit <;> intro leftAfter rightAfter <;>
      rw [Bool.eq_iff_iff] <;>
      simp [Combinator.symmetricAdvance, order, -Bool.decide_and, decide_eq_decide] at leftAfter rightAfter ⊢ <;>
      omega

theorem symmetricDifference_computes : Combinator.symmetricDifference.Computes (· ^^ ·) where
  empty := rfl
  advanceLhs := by
    intro lhs rhs lhsRest rhsRest lhsOrdered rhsOrdered leftFirst
    exact symmetricAdvance_round lhsOrdered rhsOrdered leftFirst
  advanceRhs := by
    intro lhs rhs lhsRest rhsRest lhsOrdered rhsOrdered rightFirst
    obtain ⟨keptOrdered, round⟩ := symmetricAdvance_round rhsOrdered lhsOrdered rightFirst.le
    refine ⟨keptOrdered, fun bit => ?_⟩
    rw [Bool.xor_comm, round bit, Bool.xor_comm (covers rhsRest bit)]
    rfl
  advanceLhsTail := .inl fun _ => ⟨rfl, Bool.xor_false⟩
  advanceRhsTail := .inl fun _ => ⟨rfl, Bool.false_xor⟩

/-! ## Ascending outputs

`Merge` needs the outputs of the combinator to ascend.  `Intersection` puts out ranges from
the later of the two front starts, `SymmetricDifference` from the earlier, and neither front
start ever moves down.
-/

theorem intersection_nextRanges_sorted (fuel : Nat) (lhs rhs : List Range) (bound : Nat)
    (lhsSorted : StartsSorted lhs) (rhsSorted : StartsSorted rhs)
    (above : ∀ left ∈ lhs, ∀ right ∈ rhs, bound ≤ max left.start right.start) :
    StartsSorted (Combinator.intersection.nextRanges fuel () lhs rhs) ∧
      ∀ range ∈ Combinator.intersection.nextRanges fuel () lhs rhs, bound ≤ range.start := by
  induction fuel generalizing lhs rhs bound with
  | zero => simp [Combinator.nextRanges, StartsSorted]
  | succ fuel inductionHypothesis =>
    rcases lhs with _ | ⟨left, lhsRest⟩ <;> rcases rhs with _ | ⟨right, rhsRest⟩
    · simp [Combinator.nextRanges, StartsSorted]
    · simp [Combinator.nextRanges, Combinator.intersection, StartsSorted]
    · simp [Combinator.nextRanges, Combinator.intersection, StartsSorted]
    · have leftFirst := (List.pairwise_cons.mp lhsSorted).1
      have rightFirst := (List.pairwise_cons.mp rhsSorted).1
      have highAbove : bound ≤ max left.start right.start := above left (by simp) right (by simp)
      simp only [Combinator.nextRanges, Combinator.intersection]
      split
      · apply startsSorted_cons_of_above _ highAbove
        apply inductionHypothesis lhsRest (right :: rhsRest) (max left.start right.start)
          lhsSorted.of_cons rhsSorted
        intro later laterMember other otherMember
        have laterAbove := leftFirst later laterMember
        rcases List.mem_cons.mp otherMember with rfl | otherMember
        · omega
        · have := rightFirst other otherMember
          omega
      · apply startsSorted_cons_of_above _ highAbove
        apply inductionHypothesis (left :: lhsRest) rhsRest (max left.start right.start)
          lhsSorted rhsSorted.of_cons
        intro later laterMember other otherMember
        have otherAbove := rightFirst other otherMember
        rcases List.mem_cons.mp laterMember with rfl | laterMember
        · omega
        · have := leftFirst later laterMember
          omega

/-- `SymmetricDifference::advance` puts out a range from the earlier of the two starts and
moves the start of the other range up. -/
theorem symmetricAdvance_starts {left : Range} (leftNonneg : left.start ≤ left.stop)
    (right : Range) :
    (Combinator.symmetricAdvance left right).1.start = min left.start right.start ∧
      right.start ≤ (Combinator.symmetricAdvance left right).2.start := by
  by_cases order : left.start ≤ right.start
  · simp [Combinator.symmetricAdvance, order]
  · simp only [Combinator.symmetricAdvance, order, if_false]
    omega

theorem symmetricDifference_nextRanges_sorted (fuel : Nat) (lhs rhs : List Range) (bound : Nat)
    (lhsOrdered : Ordered lhs) (rhsOrdered : Ordered rhs)
    (lhsAbove : ∀ range ∈ lhs, bound ≤ range.start) (rhsAbove : ∀ range ∈ rhs, bound ≤ range.start) :
    StartsSorted (Combinator.symmetricDifference.nextRanges fuel () lhs rhs) ∧
      ∀ range ∈ Combinator.symmetricDifference.nextRanges fuel () lhs rhs, bound ≤ range.start := by
  induction fuel generalizing lhs rhs bound with
  | zero => simp [Combinator.nextRanges, StartsSorted]
  | succ fuel inductionHypothesis =>
    rcases lhs with _ | ⟨left, lhsRest⟩ <;> rcases rhs with _ | ⟨right, rhsRest⟩
    · simp [Combinator.nextRanges, StartsSorted]
    · simp only [Combinator.nextRanges, Combinator.symmetricDifference]
      exact startsSorted_cons_of_above
        (inductionHypothesis [] rhsRest right.start trivial rhsOrdered.tail (by simp)
          rhsOrdered.start_le)
        (rhsAbove right (by simp))
    · simp only [Combinator.nextRanges, Combinator.symmetricDifference]
      exact startsSorted_cons_of_above
        (inductionHypothesis lhsRest [] left.start lhsOrdered.tail trivial lhsOrdered.start_le
          (by simp))
        (lhsAbove left (by simp))
    · have lowAbove : bound ≤ min left.start right.start :=
        le_min (lhsAbove left (by simp)) (rhsAbove right (by simp))
      simp only [Combinator.nextRanges]
      split
      · next leftFirst =>
        obtain ⟨outStart, keptStart⟩ := symmetricAdvance_starts lhsOrdered.1 right
        obtain ⟨keptOrdered, -⟩ := symmetricDifference_computes.advanceLhs left right lhsRest
          rhsRest lhsOrdered rhsOrdered leftFirst
        refine startsSorted_cons_of_above ?_ (outStart ▸ lowAbove)
        apply inductionHypothesis lhsRest _ _ lhsOrdered.tail keptOrdered
        · intro later member
          have := lhsOrdered.start_le later member
          simp only [Combinator.symmetricDifference] at outStart ⊢
          omega
        · intro later member
          rcases List.mem_cons.mp member with rfl | member
          · simp only [Combinator.symmetricDifference] at outStart keptStart ⊢
            omega
          · have := rhsOrdered.start_le later member
            simp only [Combinator.symmetricDifference] at outStart ⊢
            omega
      · next rightFirst =>
        obtain ⟨outStart, keptStart⟩ := symmetricAdvance_starts rhsOrdered.1 left
        obtain ⟨keptOrdered, -⟩ := symmetricDifference_computes.advanceRhs left right lhsRest
          rhsRest lhsOrdered rhsOrdered (Nat.lt_of_not_le rightFirst)
        refine startsSorted_cons_of_above ?_ (by
          simp only [Combinator.symmetricDifference] at outStart ⊢
          omega)
        apply inductionHypothesis _ rhsRest _ keptOrdered rhsOrdered.tail
        · intro later member
          rcases List.mem_cons.mp member with rfl | member
          · simp only [Combinator.symmetricDifference] at outStart keptStart ⊢
            omega
          · have := lhsOrdered.start_le later member
            simp only [Combinator.symmetricDifference] at outStart ⊢
            omega
        · intro later member
          have := rhsOrdered.start_le later member
          simp only [Combinator.symmetricDifference] at outStart ⊢
          omega

/-! ## The four set operations -/

section SetOperations

variable {lhs rhs : List Range}

/-- A combination by a combinator that computes `op` stands for `op` of its two sides, as
long as the combinator's outputs ascend. -/
theorem Combinator.Computes.covers_combine {c : Combinator Unit} {op : Bool → Bool → Bool}
    (computes : c.Computes op) (lhsValid : Valid lhs) (rhsValid : Valid rhs)
    (sorted : StartsSorted (c.nextRanges (lhs.length + rhs.length) () lhs rhs)) (bit : Nat) :
    covers (combine c lhs rhs) bit = op (covers lhs bit) (covers rhs bit) := by
  rw [Forest.Bitfield.covers_combine (sorted.filter _)]
  exact computes.nextRanges_covers _ lhs rhs le_rfl lhsValid.ordered rhsValid.ordered bit

theorem union_sorted (lhsValid : Valid lhs) (rhsValid : Valid rhs) :
    StartsSorted (Combinator.union.nextRanges (lhs.length + rhs.length) () lhs rhs) :=
  (union_nextRanges_sorted _ lhs rhs 0 lhsValid.startsSorted rhsValid.startsSorted
    (fun _ _ => Nat.zero_le _) (fun _ _ => Nat.zero_le _)).1

theorem intersection_sorted (lhsValid : Valid lhs) (rhsValid : Valid rhs) :
    StartsSorted (Combinator.intersection.nextRanges (lhs.length + rhs.length) () lhs rhs) :=
  (intersection_nextRanges_sorted _ lhs rhs 0 lhsValid.startsSorted rhsValid.startsSorted
    (fun _ _ _ _ => Nat.zero_le _)).1

theorem difference_sorted (lhsValid : Valid lhs) :
    StartsSorted (Combinator.difference.nextRanges (lhs.length + rhs.length) () lhs rhs) :=
  (difference_nextRanges_sorted _ lhs rhs 0 lhsValid (fun _ _ => Nat.zero_le _)).1

theorem symmetricDifference_sorted (lhsValid : Valid lhs) (rhsValid : Valid rhs) :
    StartsSorted
      (Combinator.symmetricDifference.nextRanges (lhs.length + rhs.length) () lhs rhs) :=
  (symmetricDifference_nextRanges_sorted _ lhs rhs 0 lhsValid.ordered rhsValid.ordered
    (fun _ _ => Nat.zero_le _) (fun _ _ => Nat.zero_le _)).1

/-- `union`, `intersection`, `difference` and `symmetric_difference` of two valid range
iterators are valid range iterators of the union, intersection, difference and symmetric
difference of the bits they stand for. -/
theorem combinators_are_set_operations (lhsValid : Valid lhs) (rhsValid : Valid rhs) :
    (Valid (RangeIterator.union lhs rhs) ∧ ∀ bit,
      covers (RangeIterator.union lhs rhs) bit = (covers lhs bit || covers rhs bit)) ∧
    (Valid (RangeIterator.intersection lhs rhs) ∧ ∀ bit,
      covers (RangeIterator.intersection lhs rhs) bit = (covers lhs bit && covers rhs bit)) ∧
    (Valid (RangeIterator.difference lhs rhs) ∧ ∀ bit,
      covers (RangeIterator.difference lhs rhs) bit = (covers lhs bit && !covers rhs bit)) ∧
    (Valid (RangeIterator.symmetricDifference lhs rhs) ∧ ∀ bit,
      covers (RangeIterator.symmetricDifference lhs rhs) bit = (covers lhs bit ^^ covers rhs bit)) := by
  refine ⟨⟨?_, ?_⟩, ⟨?_, ?_⟩, ⟨?_, ?_⟩, ⟨?_, ?_⟩⟩
  · exact combine_valid (union_sorted lhsValid rhsValid)
  · exact union_computes.covers_combine lhsValid rhsValid (union_sorted lhsValid rhsValid)
  · exact combine_valid (intersection_sorted lhsValid rhsValid)
  · exact intersection_computes.covers_combine lhsValid rhsValid
      (intersection_sorted lhsValid rhsValid)
  · exact combine_valid (difference_sorted lhsValid)
  · exact difference_computes.covers_combine lhsValid rhsValid (difference_sorted lhsValid)
  · exact combine_valid (symmetricDifference_sorted lhsValid rhsValid)
  · exact symmetricDifference_computes.covers_combine lhsValid rhsValid
      (symmetricDifference_sorted lhsValid rhsValid)

theorem combinators_are_set_operations_touching :
    Valid [⟨0, 3⟩, ⟨5, 8⟩] ∧ Valid [⟨2, 6⟩, ⟨8, 9⟩] ∧
    (Valid (RangeIterator.union [⟨0, 3⟩, ⟨5, 8⟩] [⟨2, 6⟩, ⟨8, 9⟩]) ∧ ∀ bit,
      covers (RangeIterator.union [⟨0, 3⟩, ⟨5, 8⟩] [⟨2, 6⟩, ⟨8, 9⟩]) bit =
        (covers [⟨0, 3⟩, ⟨5, 8⟩] bit || covers [⟨2, 6⟩, ⟨8, 9⟩] bit)) ∧
    (Valid (RangeIterator.intersection [⟨0, 3⟩, ⟨5, 8⟩] [⟨2, 6⟩, ⟨8, 9⟩]) ∧ ∀ bit,
      covers (RangeIterator.intersection [⟨0, 3⟩, ⟨5, 8⟩] [⟨2, 6⟩, ⟨8, 9⟩]) bit =
        (covers [⟨0, 3⟩, ⟨5, 8⟩] bit && covers [⟨2, 6⟩, ⟨8, 9⟩] bit)) ∧
    (Valid (RangeIterator.difference [⟨0, 3⟩, ⟨5, 8⟩] [⟨2, 6⟩, ⟨8, 9⟩]) ∧ ∀ bit,
      covers (RangeIterator.difference [⟨0, 3⟩, ⟨5, 8⟩] [⟨2, 6⟩, ⟨8, 9⟩]) bit =
        (covers [⟨0, 3⟩, ⟨5, 8⟩] bit && !covers [⟨2, 6⟩, ⟨8, 9⟩] bit)) ∧
    (Valid (RangeIterator.symmetricDifference [⟨0, 3⟩, ⟨5, 8⟩] [⟨2, 6⟩, ⟨8, 9⟩]) ∧ ∀ bit,
      covers (RangeIterator.symmetricDifference [⟨0, 3⟩, ⟨5, 8⟩] [⟨2, 6⟩, ⟨8, 9⟩]) bit =
        (covers [⟨0, 3⟩, ⟨5, 8⟩] bit ^^ covers [⟨2, 6⟩, ⟨8, 9⟩] bit)) :=
  have lhsValid : Valid [⟨0, 3⟩, ⟨5, 8⟩] := by decide
  have rhsValid : Valid [⟨2, 6⟩, ⟨8, 9⟩] := by decide
  ⟨lhsValid, rhsValid, combinators_are_set_operations lhsValid rhsValid⟩

end SetOperations

/-! ## The bit field at `usize::MAX`

`ranges_from_bits` turns a set bit `b` into the range `b..b + 1`.  For `b = usize::MAX` the
end wraps to `0` in a release build (and panics in a debug build), so the range holds
nothing: `get` still finds the bit among the set bits, but no range of `ranges()` holds
it, and every count or iteration built on `ranges()` leaves it out.
-/

@[simp] theorem BitField.get_set_self (bitfield : BitField) (bit : Nat) :
    (bitfield.set bit).get bit = true := by
  simp [BitField.get, BitField.set]

/-- A range list that ends within `usize` holds no bit at `usize::MAX`. -/
theorem covers_max_eq_false {ranges : List Range}
    (bounded : ∀ range ∈ ranges, range.stop ≤ Usize.max) : covers ranges Usize.max = false := by
  rw [covers, List.any_eq_false]
  intro range member
  have := bounded range member
  simp
  omega

/-- After `set(usize::MAX)`, `get` reports the bit while `ranges()` leaves it out. -/
theorem set_max_missing_from_ranges (bitfield : BitField)
    (bounded : ∀ range ∈ bitfield.storedRanges, range.stop ≤ Usize.max) :
    (bitfield.set Usize.max).get Usize.max = true ∧
      covers (bitfield.set Usize.max).ranges Usize.max = false :=
  ⟨BitField.get_set_self _ _, covers_max_eq_false (ranges_stop_le (bitfield.set Usize.max) bounded)⟩

theorem set_max_missing_from_ranges_new :
    (∀ range ∈ BitField.new.storedRanges, range.stop ≤ Usize.max) ∧
      (BitField.new.set Usize.max).get Usize.max = true ∧
      covers (BitField.new.set Usize.max).ranges Usize.max = false :=
  have bounded : ∀ range ∈ BitField.new.storedRanges, range.stop ≤ Usize.max := by
    simp [BitField.new]
  ⟨bounded, set_max_missing_from_ranges BitField.new bounded⟩

example : (BitField.new.set Usize.max).len = 0 := by decide +kernel

end Forest.Bitfield

/-!
# Draining pending work by repeated calls

A call does part of some pending work: it returns a result, whether work is left, and the
state after.  `drain` makes the calls until one says that no work is left, at most `fuel`
times, and collects the results in order.

Two facts about one call give the two facts about the drain.  If every call from a valid
state succeeds, keeps the state valid, and, when it says that work is left, lowers a measure
that stays positive, then `max 1 (measure state)` calls finish (`drain_finishes`).  If every
call removes from the pending items exactly those its result reports, and no two pending
items carry one key, then the results of a drain report every removed key and no key twice
(`drain_exact`).
-/

namespace Drain

variable {σ ρ ε π κ : Type}

/-- Call `call` until it says that no work is left, at most `fuel` times: the results in
order, whether work is left after the last call, and the final state. -/
def drain (call : σ → Except ε ((ρ × Bool) × σ)) : Nat → σ → Except ε (List ρ × Bool × σ)
  | 0, state => .ok ([], true, state)
  | fuel + 1, state =>
    match call state with
    | .error failure => .error failure
    | .ok ((result, more), state') =>
      if more then
        match drain call fuel state' with
        | .error failure => .error failure
        | .ok (results, left, final) => .ok (result :: results, left, final)
      else .ok ([result], false, state')

section Finishing

variable (call : σ → Except ε ((ρ × Bool) × σ)) (Valid : σ → Prop) (measure : σ → Nat)

/-- What one call does that bounds the drain: from a valid state it succeeds and keeps the
state valid, and when it says that work is left the measure has dropped and is positive. -/
structure Progress : Prop where
  succeeds : ∀ state, Valid state → ∃ out, call state = .ok out
  valid : ∀ state result more state', Valid state → call state = .ok ((result, more), state') →
    Valid state'
  decreases : ∀ state result state', Valid state → call state = .ok ((result, true), state') →
    measure state' < measure state ∧ 0 < measure state'

variable {call Valid measure}

/-- A drain with fuel at least `max 1 (measure state)` from a valid state finishes: its last
call says that no work is left. -/
theorem drain_finishes (progress : Progress call Valid measure) :
    ∀ (fuel : Nat) (state : σ), Valid state → max 1 (measure state) ≤ fuel →
      ∃ results final, drain call fuel state = .ok (results, false, final) ∧ Valid final := by
  intro fuel
  induction fuel with
  | zero =>
    intro state _ enough
    omega
  | succ fuel inductionHypothesis =>
    intro state valid enough
    obtain ⟨⟨⟨result, more⟩, state'⟩, called⟩ := progress.succeeds state valid
    have valid' := progress.valid state result more state' valid called
    cases more with
    | false => exact ⟨[result], state', by simp only [drain, called, Bool.false_eq_true, if_false],
        valid'⟩
    | true =>
      obtain ⟨lower, positive⟩ := progress.decreases state result state' valid called
      obtain ⟨results, final, ran, validFinal⟩ :=
        inductionHypothesis state' valid' (by omega)
      exact ⟨result :: results, final, by simp only [drain, called, if_true, ran], validFinal⟩

/-- A drain that finished ends in a state that the last call left saying that no work is
left. -/
theorem drain_done {Done : σ → Prop}
    (keeps : ∀ state result more state', Valid state → call state = .ok ((result, more), state') →
      Valid state')
    (done : ∀ state result state', Valid state → call state = .ok ((result, false), state') →
      Done state') :
    ∀ (fuel : Nat) (state : σ) (results : List ρ) (final : σ), Valid state →
      drain call fuel state = .ok (results, false, final) → Done final := by
  intro fuel
  induction fuel with
  | zero =>
    intro state results final _ ran
    simp [drain] at ran
  | succ fuel inductionHypothesis =>
    intro state results final valid ran
    simp only [drain] at ran
    split at ran
    · cases ran
    · next result more state' called =>
      cases more with
      | false =>
        simp only [Bool.false_eq_true, if_false, Except.ok.injEq, Prod.mk.injEq] at ran
        obtain ⟨-, -, rfl⟩ := ran
        exact done state result state' valid called
      | true =>
        simp only [if_true] at ran
        split at ran
        · cases ran
        · next later left' final' drained =>
          simp only [Except.ok.injEq, Prod.mk.injEq] at ran
          obtain ⟨-, rfl, rfl⟩ := ran
          exact inductionHypothesis state' later final'
            (keeps state result true state' valid called) drained

end Finishing

section Exactness

variable {call : σ → Except ε ((ρ × Bool) × σ)} {Valid : σ → Prop}
  {Has : σ → π → Prop} {Reports : ρ → κ → Prop} {key : π → κ}

/-- A call removes pending items and adds none, and its result reports the keys of exactly
the items it removed. -/
def Exact (call : σ → Except ε ((ρ × Bool) × σ)) (Valid : σ → Prop) (Has : σ → π → Prop)
    (Reports : ρ → κ → Prop) (key : π → κ) : Prop :=
  ∀ state result more state', Valid state → call state = .ok ((result, more), state') →
    Valid state' ∧ (∀ item, Has state' item → Has state item) ∧
      ∀ k, Reports result k ↔ ∃ item, key item = k ∧ Has state item ∧ ¬ Has state' item

/-- No two pending items of a state carry one key. -/
def Separated (Has : σ → π → Prop) (key : π → κ) (state : σ) : Prop :=
  ∀ first second, Has state first → Has state second → key first = key second → first = second

theorem Separated.of_subset {state state' : σ} (separated : Separated Has key state)
    (subset : ∀ item, Has state' item → Has state item) : Separated Has key state' :=
  fun first second hasFirst hasSecond sameKey =>
    separated first second (subset first hasFirst) (subset second hasSecond) sameKey

/-- The results of a drain by exact calls from a valid state with separated items: the items
left were pending at the start, the results report the keys of exactly the items removed,
and no key is reported by two results. -/
theorem drain_exact (exact : Exact call Valid Has Reports key) :
    ∀ (fuel : Nat) (state : σ) (results : List ρ) (left : Bool) (final : σ),
      Valid state → Separated Has key state →
      drain call fuel state = .ok (results, left, final) →
      (∀ item, Has final item → Has state item) ∧
      (∀ k, (∃ result ∈ results, Reports result k) ↔
        ∃ item, key item = k ∧ Has state item ∧ ¬ Has final item) ∧
      results.Pairwise fun earlier later => ∀ k, Reports earlier k → ¬ Reports later k := by
  intro fuel
  induction fuel with
  | zero =>
    intro state results left final _ _ ran
    simp only [drain, Except.ok.injEq, Prod.mk.injEq] at ran
    obtain ⟨rfl, -, rfl⟩ := ran
    exact ⟨fun _ has => has, by simp, List.Pairwise.nil⟩
  | succ fuel inductionHypothesis =>
    intro state results left final valid separated ran
    simp only [drain] at ran
    split at ran
    · cases ran
    · next result more state' called =>
      obtain ⟨valid', shrinks, reports⟩ := exact state result more state' valid called
      cases more with
      | false =>
        simp only [Bool.false_eq_true, if_false, Except.ok.injEq, Prod.mk.injEq] at ran
        obtain ⟨rfl, -, rfl⟩ := ran
        exact ⟨shrinks, by simpa using reports, List.pairwise_singleton _ _⟩
      | true =>
        simp only [if_true] at ran
        split at ran
        · cases ran
        · next later left' final' drained =>
          simp only [Except.ok.injEq, Prod.mk.injEq] at ran
          obtain ⟨rfl, -, rfl⟩ := ran
          obtain ⟨shrinksLater, reportsLater, distinctLater⟩ := inductionHypothesis state' later
            left' final' valid' (separated.of_subset shrinks) drained
          -- an item the first call removed is gone for good, and by separation it is the only
          -- item with its key, so no later result reports that key again
          have firstOnly : ∀ k, Reports result k → ∀ other ∈ later, ¬ Reports other k := by
            intro k reported other otherIn reportedLater
            obtain ⟨item, itemKey, had, gone⟩ := (reports k).mp reported
            obtain ⟨item', itemKey', had', -⟩ := (reportsLater k).mp ⟨other, otherIn, reportedLater⟩
            have same : item' = item :=
              separated item' item (shrinks item' had') had (itemKey'.trans itemKey.symm)
            exact gone (same ▸ had')
          refine ⟨fun item has => shrinks item (shrinksLater item has), ?_, ?_⟩
          · intro k
            constructor
            · rintro ⟨reporter, reporterIn, reported⟩
              rcases List.mem_cons.mp reporterIn with rfl | laterIn
              · obtain ⟨item, itemKey, had, gone⟩ := (reports k).mp reported
                exact ⟨item, itemKey, had, fun has => gone (shrinksLater item has)⟩
              · obtain ⟨item, itemKey, had, gone⟩ := (reportsLater k).mp ⟨reporter, laterIn, reported⟩
                exact ⟨item, itemKey, shrinks item had, gone⟩
            · rintro ⟨item, itemKey, had, gone⟩
              by_cases stillThere : Has state' item
              · obtain ⟨reporter, reporterIn, reported⟩ :=
                  (reportsLater k).mpr ⟨item, itemKey, stillThere, gone⟩
                exact ⟨reporter, List.mem_cons_of_mem _ reporterIn, reported⟩
              · exact ⟨result, List.mem_cons_self, (reports k).mpr ⟨item, itemKey, had, stillThere⟩⟩
          · exact List.pairwise_cons.mpr ⟨fun other otherIn k reported =>
              firstOnly k reported other otherIn, distinctLater⟩

end Exactness

end Drain

import Mathlib.Data.List.Nodup
import Mathlib.Logic.Function.Iterate
import Mathlib.Data.Nat.Find

/-!
# Loops that can stop early

`forWhile` runs a fallible body over the items of a list with a state, and stops after a
body that says stop: a `for` loop whose body may `continue`, `break` or fail with `?`.

`forWhile_of_invariant` is the one rule for such loops.  A property of the items seen and the
state that the body keeps while the loop goes on, and that turns into a property of its own
when the body says stop, gives a run that succeeds and ends in one of two ways: every item
was seen with the first property, or the loop stopped with the second.

`findSuccessor` is the search of `Iterator::find` over `std::iter::successors`, an iterator
without end, with a bound on the number of values looked at.  The search is found to end
exactly when some iterate satisfies the test: with more fuel than the index of the first
such iterate it returns that iterate (`findSuccessor_of_first`, and `findSuccessor_of_exists` when only some
passing iterate is known), and when there is none it returns nothing for every fuel
(`findSuccessor_of_never`).
-/

namespace Loop

variable {α σ ε : Type}

/-- Run `visit` on the items in order with a state until a visit says stop; the visit that
says stop is the last. -/
def forWhile (visit : α → σ → Except ε (Bool × σ)) : List α → σ → Except ε σ
  | [], state => .ok state
  | item :: rest, state =>
    match visit item state with
    | .error failure => .error failure
    | .ok (keepGoing, state) => if keepGoing then forWhile visit rest state else .ok state

/-- A visit that succeeds from every state where `Holds` holds of the items seen, and leaves
`Holds` when it goes on and `Final` when it stops, makes the loop succeed: either it saw
every item and `Holds`, or it stopped after a prefix with `Final`. -/
theorem forWhile_of_invariant {visit : α → σ → Except ε (Bool × σ)} (items : List α)
    (Holds Final : List α → σ → Prop)
    (step : ∀ seen state item, seen ++ [item] <+: items → Holds seen state →
      ∃ keepGoing state', visit item state = .ok (keepGoing, state') ∧
        if keepGoing then Holds (seen ++ [item]) state' else Final (seen ++ [item]) state')
    {state : σ} (start : Holds [] state) :
    ∃ visited rest state', items = visited ++ rest ∧ forWhile visit items state = .ok state' ∧
      (rest = [] ∧ Holds visited state' ∨ Final visited state') := by
  -- the loop over what is left, after the items `seen`
  have general : ∀ (rest seen : List α) (state : σ), seen ++ rest = items → Holds seen state →
      ∃ visited more state', rest = visited ++ more ∧ forWhile visit rest state = .ok state' ∧
        (more = [] ∧ Holds (seen ++ visited) state' ∨ Final (seen ++ visited) state') := by
    intro rest
    induction rest with
    | nil =>
      intro seen state _ holds
      exact ⟨[], [], state, rfl, rfl, .inl ⟨rfl, by simpa using holds⟩⟩
    | cons item rest inductionHypothesis =>
      intro seen state whole holds
      have isPrefix : seen ++ [item] <+: items := ⟨rest, by rw [← whole]; simp⟩
      obtain ⟨keepGoing, afterVisit, visitEq, visited⟩ := step seen state item isPrefix holds
      cases keepGoing with
      | false =>
        exact ⟨[item], rest, afterVisit, rfl,
          by simp only [forWhile, visitEq, Bool.false_eq_true, if_false], .inr visited⟩
      | true =>
        obtain ⟨later, more, final, restShape, run, outcome⟩ :=
          inductionHypothesis (seen ++ [item]) afterVisit (by rw [← whole]; simp) visited
        refine ⟨item :: later, more, final, by rw [restShape]; rfl,
          by simp only [forWhile, visitEq, if_true, run], ?_⟩
        simpa using outcome
  obtain ⟨visited, rest, state', shape, run, outcome⟩ := general items [] state rfl start
  exact ⟨visited, rest, state', shape, run, by simpa using outcome⟩

/-- A loop over a list without duplicates meets each item once: the item visited is not
among those seen before it. -/
theorem not_mem_seen {items seen : List α} {item : α} (distinct : items.Nodup)
    (isPrefix : seen ++ [item] <+: items) : item ∉ seen := by
  obtain ⟨after, whole⟩ := isPrefix
  rw [← whole] at distinct
  exact fun inSeen => List.disjoint_of_nodup_append distinct.of_append_left inSeen
    (List.mem_singleton_self item)

/-- The item visited is one of the list's. -/
theorem mem_of_prefix {items seen : List α} {item : α} (isPrefix : seen ++ [item] <+: items) :
    item ∈ items :=
  isPrefix.subset (by simp)

/-- The first of `start`, `step start`, `step (step start)`, … that satisfies `found`, among
the first `fuel` of them. -/
def findSuccessor (step : α → α) (found : α → Bool) : Nat → α → Option α
  | 0, _ => none
  | fuel + 1, current =>
    if found current then some current else findSuccessor step found fuel (step current)

/-- With more fuel than the index of the first iterate that satisfies the test, the search
returns that iterate. -/
theorem findSuccessor_of_first {step : α → α} {found : α → Bool} (index : Nat) :
    ∀ (start : α), found (step^[index] start) = true →
      (∀ earlier < index, found (step^[earlier] start) = false) →
      ∀ fuel, index < fuel → findSuccessor step found fuel start = some (step^[index] start) := by
  induction index with
  | zero =>
    intro start isFound _ fuel enough
    obtain ⟨fuel, rfl⟩ := Nat.exists_eq_add_of_lt enough
    simp only [Function.iterate_zero, id] at isFound
    simp [findSuccessor, isFound]
  | succ index inductionHypothesis =>
    intro start isFound notBefore fuel enough
    obtain ⟨fuel, rfl⟩ := Nat.exists_eq_add_of_lt enough
    -- the start is not found, and the search goes on from its successor
    have notStart : found start = false := notBefore 0 (Nat.succ_pos index)
    have later := inductionHypothesis (step start) isFound
      (fun earlier below => notBefore (earlier + 1) (by omega)) (index + fuel + 1) (by omega)
    rw [show index + 1 + fuel + 1 = (index + fuel + 1) + 1 by omega, findSuccessor, notStart]
    simp only [Bool.false_eq_true, if_false, later, Function.iterate_succ_apply]

/-- When some iterate satisfies the test, the search ends at the first one that does, given
more fuel than its index, and that index is at most the one known. -/
theorem findSuccessor_of_exists {step : α → α} {found : α → Bool} {start : α} {known : Nat}
    (passes : found (step^[known] start) = true) :
    ∃ index ≤ known, found (step^[index] start) = true ∧
      (∀ earlier < index, found (step^[earlier] start) = false) ∧
      ∀ fuel, index < fuel → findSuccessor step found fuel start = some (step^[index] start) := by
  have somePasses : ∃ index, found (step^[index] start) = true := ⟨known, passes⟩
  refine ⟨Nat.find somePasses, Nat.find_min' somePasses passes, Nat.find_spec somePasses, ?_, ?_⟩
  · intro earlier below
    simpa using Nat.find_min somePasses below
  · intro fuel enough
    exact findSuccessor_of_first _ start (Nat.find_spec somePasses)
      (fun earlier below => by simpa using Nat.find_min somePasses below) fuel enough

/-- What the search returns is an iterate within the fuel that satisfies the test, the first
one that does. -/
theorem findSuccessor_eq_some {step : α → α} {found : α → Bool} (fuel : Nat) :
    ∀ {start result : α}, findSuccessor step found fuel start = some result →
      ∃ index < fuel, result = step^[index] start ∧ found result = true ∧
        ∀ earlier < index, found (step^[earlier] start) = false := by
  induction fuel with
  | zero => intro start result searched; cases searched
  | succ fuel inductionHypothesis =>
    intro start result searched
    by_cases isFound : found start = true
    · simp only [findSuccessor, isFound, if_true, Option.some.injEq] at searched
      subst searched
      exact ⟨0, Nat.succ_pos fuel, rfl, isFound, fun earlier below => absurd below (by omega)⟩
    · rw [findSuccessor, if_neg isFound] at searched
      obtain ⟨index, below, rfl, passes, notBefore⟩ := inductionHypothesis searched
      refine ⟨index + 1, by omega, rfl, passes, ?_⟩
      intro earlier earlierBelow
      cases earlier with
      | zero => simpa using isFound
      | succ earlier => exact notBefore earlier (by omega)

/-- When no iterate satisfies the test, the search returns nothing for every fuel. -/
theorem findSuccessor_of_never {step : α → α} {found : α → Bool}
    (fuel : Nat) : ∀ (start : α), (∀ index, found (step^[index] start) = false) →
      findSuccessor step found fuel start = none := by
  induction fuel with
  | zero => intro start _; rfl
  | succ fuel inductionHypothesis =>
    intro start never
    have notStart : found start = false := never 0
    simp only [findSuccessor, notStart, Bool.false_eq_true, if_false]
    exact inductionHypothesis (step start) fun index => never (index + 1)

/-! ### Walks that stop early

A walk hands the items to a test in order and stops after the first item the test refuses,
which is still handed over.  `takeThrough` is the list of items handed over.  A walk through
several parts, one after the other while the walk goes on, hands over `takeThrough` of all
the parts together (`foldl_walk`).
-/

/-- The items a walk hands over: every item up to and including the first on which `keep`
answers `false`. -/
def takeThrough (keep : α → Bool) : List α → List α
  | [] => []
  | item :: rest => if keep item then item :: takeThrough keep rest else [item]

@[simp]
theorem takeThrough_nil (keep : α → Bool) : takeThrough keep [] = [] :=
  rfl

theorem takeThrough_of_all {keep : α → Bool} {items : List α} (passes : items.all keep = true) :
    takeThrough keep items = items := by
  induction items with
  | nil => rfl
  | cons item rest inductionHypothesis =>
    simp only [List.all_cons, Bool.and_eq_true] at passes
    rw [takeThrough, if_pos passes.1, inductionHypothesis passes.2]

theorem takeThrough_append (keep : α → Bool) (front back : List α) :
    takeThrough keep (front ++ back) =
      if front.all keep then front ++ takeThrough keep back else takeThrough keep front := by
  induction front with
  | nil => simp
  | cons item rest inductionHypothesis =>
    by_cases kept : keep item = true
    · rw [List.cons_append, takeThrough, if_pos kept, inductionHypothesis, takeThrough,
        if_pos kept, List.all_cons, kept, Bool.true_and]
      split <;> rfl
    · rw [List.cons_append, takeThrough, if_neg kept, takeThrough, if_neg kept, List.all_cons,
        Bool.eq_false_iff.mpr kept, Bool.false_and]
      rfl

/-- A fold that walks the part of each item while the walk goes on, and changes nothing once
it stopped, hands over `takeThrough` of all the parts and says whether every item passed. -/
theorem foldl_walk {β : Type} {keep : β → Bool} {parts : α → List β}
    {step : Except ε (List β × Bool) → α → Except ε (List β × Bool)}
    (stopped : ∀ visited item, step (.ok (visited, false)) item = .ok (visited, false))
    {items : List α}
    (walks : ∀ item ∈ items, ∀ visited, step (.ok (visited, true)) item =
      .ok (visited ++ takeThrough keep (parts item), (parts item).all keep))
    (visited : List β) :
    items.foldl step (.ok (visited, true)) =
      .ok (visited ++ takeThrough keep (items.flatMap parts), (items.flatMap parts).all keep) := by
  have stays : ∀ (items : List α) visited,
      items.foldl step (.ok (visited, false)) = .ok (visited, false) := by
    intro items
    induction items with
    | nil => intro visited; rfl
    | cons item items inductionHypothesis =>
      intro visited
      rw [List.foldl_cons, stopped, inductionHypothesis]
  induction items generalizing visited with
  | nil => simp
  | cons item items inductionHypothesis =>
    rw [List.foldl_cons, walks item List.mem_cons_self visited, List.flatMap_cons,
      takeThrough_append, List.all_append]
    by_cases passes : (parts item).all keep = true
    · -- the walk goes on into the parts of the other items
      rw [passes, if_pos rfl, takeThrough_of_all passes, Bool.true_and,
        inductionHypothesis (fun other member => walks other (List.mem_cons_of_mem _ member)),
        List.append_assoc]
    · rw [Bool.eq_false_iff.mpr passes, Bool.false_and, stays]
      rfl

end Loop

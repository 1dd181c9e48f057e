import Forest.Lib.Result
import Mathlib.Data.List.Forall2

/-!
# Mapping a fallible function over a list

A `mapM` in `Option` or `Except` that succeeds relates each element to its result, in order;
one that meets a failing element fails.  A search with `findSome?` whose only hits are one value
finds it.
-/

namespace List

variable {α β ε : Type}

/-- A lookup that fails on one element fails the whole `mapM`. -/
theorem mapM_option_eq_none {look : α → Option β} {items : List α} {item : α}
    (listed : item ∈ items) (fails : look item = none) : items.mapM look = none := by
  induction items with
  | nil => cases listed
  | cons head tail inductionHypothesis =>
    rw [List.mapM_cons]
    rcases List.mem_cons.mp listed with same | inTail
    · subst same
      simp [fails]
    · cases look head with
      | none => rfl
      | some value => simp [inductionHypothesis inTail]

/-- A `mapM` of lookups that succeeds found each element's result. -/
theorem forall₂_of_mapM_option {look : α → Option β} :
    ∀ {items : List α} {results : List β}, items.mapM look = some results →
      Forall₂ (fun item result => look item = some result) items results
  | [], results, found => by
    rw [List.mapM_nil] at found
    cases found
    exact .nil
  | item :: rest, results, found => by
    rw [List.mapM_cons] at found
    simp only [bind, Option.bind_eq_some_iff, pure] at found
    obtain ⟨result, first, others, restFound, same⟩ := found
    cases same
    exact .cons first (forall₂_of_mapM_option restFound)

/-- A search whose only hits are one value, and which has a hit, finds that value. -/
theorem findSome?_eq_of_hits {look : α → Option β} {value : β} :
    ∀ {items : List α}, (∀ item ∈ items, look item = none ∨ look item = some value) →
      (∃ item ∈ items, look item = some value) → items.findSome? look = some value
  | [], _, ⟨_, listed, _⟩ => absurd listed List.not_mem_nil
  | item :: rest, hits, ⟨hit, listed, found⟩ => by
    rw [List.findSome?_cons]
    rcases hits item List.mem_cons_self with missed | foundHere
    · rw [missed]
      rcases List.mem_cons.mp listed with same | inRest
      · subst same
        rw [found] at missed
        cases missed
      · exact findSome?_eq_of_hits (fun other member => hits other (List.mem_cons_of_mem _ member))
          ⟨hit, inRest, found⟩
    · rw [foundHere]

/-- A `mapM` of runs that succeeds ran each element to its result. -/
theorem forall₂_of_mapM_except {run : α → Except ε β} :
    ∀ {items : List α} {results : List β}, items.mapM run = .ok results →
      Forall₂ (fun item result => run item = .ok result) items results
  | [], results, ran => by
    rw [List.mapM_nil] at ran
    cases ran
    exact .nil
  | item :: rest, results, ran => by
    rw [List.mapM_cons] at ran
    obtain ⟨result, first, rest⟩ := Except.bind_eq_ok.mp ran
    obtain ⟨others, restRan, returned⟩ := Except.bind_eq_ok.mp rest
    cases returned
    exact .cons first (forall₂_of_mapM_except restRan)

/-- A `mapM` in `Except` succeeds exactly when every element runs to its result. -/
theorem mapM_except_eq_ok_iff {run : α → Except ε β} :
    ∀ {items : List α} {results : List β},
      items.mapM run = .ok results ↔ items.map run = results.map .ok
  | [], results => by
    cases results <;> simp [List.mapM_nil, pure, Except.pure]
  | item :: rest, results => by
    rw [List.mapM_cons]
    cases ran : run item with
    | error failure =>
      cases results <;> simp [ran, bind, Except.bind]
    | ok result =>
      cases restRan : rest.mapM run with
      | error failure =>
        have notAll : ∀ others : List β, rest.map run ≠ others.map .ok := fun others same =>
          absurd (mapM_except_eq_ok_iff.mpr same) (by rw [restRan]; simp)
        cases results with
        | nil => simp [ran, bind, Except.bind]
        | cons first others =>
          simp [ran, bind, Except.bind, notAll others]
      | ok others =>
        have each := mapM_except_eq_ok_iff.mp restRan
        cases results with
        | nil => simp [ran, bind, Except.bind, pure, Except.pure]
        | cons first rest' =>
          simp only [ran, bind, Except.bind, pure, Except.pure, Except.ok.injEq,
            List.cons.injEq, List.map_cons, each]
          constructor
          · rintro ⟨rfl, rfl⟩
            exact ⟨rfl, rfl⟩
          · rintro ⟨rfl, same⟩
            exact ⟨rfl, List.map_injective_iff.mpr (fun _ _ ok => Except.ok.inj ok) same⟩

/-- A `mapM` that failed failed on one of the elements, with that element's error. -/
theorem exists_of_mapM_eq_error {run : α → Except ε β} :
    ∀ {items : List α} {failure : ε}, items.mapM run = .error failure →
      ∃ item ∈ items, run item = .error failure
  | [], failure, failed => by
    simp [List.mapM_nil, pure, Except.pure] at failed
  | item :: rest, failure, failed => by
    rw [List.mapM_cons] at failed
    cases ran : run item with
    | error first =>
      simp only [ran, bind, Except.bind, Except.error.injEq] at failed
      exact ⟨item, List.mem_cons_self, failed ▸ ran⟩
    | ok result =>
      cases restRan : rest.mapM run with
      | error later =>
        simp only [ran, restRan, bind, Except.bind, Except.error.injEq] at failed
        obtain ⟨other, member, otherFailed⟩ := exists_of_mapM_eq_error restRan
        exact ⟨other, List.mem_cons_of_mem _ member, failed ▸ otherFailed⟩
      | ok others =>
        simp [ran, restRan, bind, Except.bind, pure, Except.pure] at failed

/-- A `mapM` with a failing element does not succeed. -/
theorem mapM_ne_ok_of_error {run : α → Except ε β} {items : List α} {item : α} {failure : ε}
    (member : item ∈ items) (failed : run item = .error failure) (results : List β) :
    items.mapM run ≠ .ok results := by
  intro ran
  have listed : run item ∈ results.map .ok :=
    mapM_except_eq_ok_iff.mp ran ▸ List.mem_map_of_mem member
  obtain ⟨result, -, same⟩ := List.mem_map.mp listed
  rw [failed] at same
  cases same

/-- Positions that pick items out of a list pick, out of the results of a `mapM` over that list,
the results of those items. -/
theorem map_getElem?_of_mapM {run : α → Except ε β} {combined items : List α}
    {values results : List β} {numbers : List Nat}
    (picks : numbers.map (combined[·]?) = items.map some)
    (ranAll : combined.mapM run = .ok values) (ran : items.mapM run = .ok results) :
    numbers.map (values[·]?) = results.map some := by
  have resolved := mapM_except_eq_ok_iff.mp ranAll
  have each := mapM_except_eq_ok_iff.mp ran
  -- a position of the results holds the result of the item at that position
  have positions : ∀ n : Nat, (values[n]?).map Except.ok = (combined[n]?).map run := by
    intro n
    rw [← List.getElem?_map, ← resolved, List.getElem?_map]
  apply List.map_injective_iff.mpr (Option.map_injective fun _ _ same => Except.ok.inj same)
  calc (numbers.map (values[·]?)).map (Option.map Except.ok)
      = (numbers.map (combined[·]?)).map (Option.map run) := by
        simp only [List.map_map, Function.comp_def, positions]
    _ = (items.map run).map some := by
        rw [picks, List.map_map, List.map_map]
        rfl
    _ = (results.map some).map (Option.map Except.ok) := by
        rw [each, List.map_map, List.map_map]
        rfl

/-- Two pairs of maps agree on the same lists when they agree pointwise. -/
theorem map_eq_map_congr {γ δ : Type} {f : α → γ} {g : β → γ} {f' : α → δ} {g' : β → δ}
    (pointwise : ∀ a b, f a = g b ↔ f' a = g' b) :
    ∀ {items : List α} {others : List β},
      items.map f = others.map g ↔ items.map f' = others.map g'
  | [], [] => by simp
  | [], _ :: _ => by simp
  | _ :: _, [] => by simp
  | item :: rest, other :: others => by
    simp only [List.map_cons, List.cons.injEq, pointwise item other, map_eq_map_congr pointwise]

/-- A `mapM` whose every element runs to a result succeeds. -/
theorem exists_mapM_eq_ok {run : α → Except ε β} :
    ∀ {items : List α}, (∀ item ∈ items, ∃ result, run item = .ok result) →
      ∃ results, items.mapM run = .ok results
  | [], _ => ⟨[], rfl⟩
  | item :: rest, each => by
    obtain ⟨result, ran⟩ := each item List.mem_cons_self
    obtain ⟨others, restRan⟩ :=
      exists_mapM_eq_ok fun other member => each other (List.mem_cons_of_mem _ member)
    refine ⟨result :: others, ?_⟩
    rw [List.mapM_cons, ran, restRan]
    rfl

/-- Each element of a `mapM` that succeeded ran to a result. -/
theorem exists_of_mapM_eq_ok {run : α → Except ε β} {items : List α} {results : List β}
    (ran : items.mapM run = .ok results) {item : α} (member : item ∈ items) :
    ∃ result, run item = .ok result := by
  have listed : run item ∈ results.map .ok :=
    mapM_except_eq_ok_iff.mp ran ▸ List.mem_map_of_mem member
  obtain ⟨result, -, same⟩ := List.mem_map.mp listed
  exact ⟨result, same.symm⟩

/-- An element of the left list is related to the element at its position in the right list. -/
theorem Forall₂.exists_getElem?_right {R : α → β → Prop} :
    ∀ {left : List α} {right : List β} {i : Nat} {a : α}, Forall₂ R left right →
      left[i]? = some a → ∃ b, right[i]? = some b ∧ R a b
  | [], _, _, _, _, found => by simp at found
  | _ :: _, _ :: _, 0, _, .cons related _, found => by
    simp only [List.getElem?_cons_zero, Option.some.injEq] at found
    exact ⟨_, rfl, found ▸ related⟩
  | _ :: _, _ :: _, _ + 1, _, .cons _ rest, found => by
    simp only [List.getElem?_cons_succ] at found ⊢
    exact Forall₂.exists_getElem?_right rest found

/-- An element of the right list is related to the element at its position in the left list. -/
theorem Forall₂.exists_getElem?_left {R : α → β → Prop} :
    ∀ {left : List α} {right : List β} {i : Nat} {b : β}, Forall₂ R left right →
      right[i]? = some b → ∃ a, left[i]? = some a ∧ R a b
  | _, [], _, _, _, found => by simp at found
  | _ :: _, _ :: _, 0, _, .cons related _, found => by
    simp only [List.getElem?_cons_zero, Option.some.injEq] at found
    exact ⟨_, rfl, found ▸ related⟩
  | _ :: _, _ :: _, _ + 1, _, .cons _ rest, found => by
    simp only [List.getElem?_cons_succ] at found ⊢
    exact Forall₂.exists_getElem?_left rest found

/-- A `mapM` in which every element runs to its related result returns those results. -/
theorem mapM_eq_ok_of_forall₂ {run : α → Except ε β} :
    ∀ {items : List α} {results : List β},
      Forall₂ (fun item result => run item = .ok result) items results →
      items.mapM run = .ok results
  | [], [], .nil => rfl
  | _ :: _, _ :: _, .cons ran rest => by
    rw [List.mapM_cons, ran, mapM_eq_ok_of_forall₂ rest]
    rfl

end List

import Mathlib

/-!
# Outcomes of state-passing programs

An `EStateM` run ends in a value or an error, each with a final state.  These
projections let a statement about one run name only the part it is about.
-/

namespace EStateM.Result

variable {ε σ α : Type}

/-- The value a run returned, if it returned one. -/
def value? : EStateM.Result ε σ α → Option α
  | .ok value _ => some value
  | .error _ _ => none

/-- The error a run ended with, if it ended with one. -/
def failure? : EStateM.Result ε σ α → Option ε
  | .ok _ _ => none
  | .error e _ => some e

end EStateM.Result

namespace EStateM

variable {ε σ α β : Type}

/-- A bind that succeeds ran its first computation to a value and a state, and then the rest
from there. -/
theorem bind_eq_ok {first : EStateM ε σ α} {rest : α → EStateM ε σ β} {state state' : σ}
    {result : β} :
    (first >>= rest) state = .ok result state' ↔
      ∃ value middle, first state = .ok value middle ∧ rest value middle = .ok result state' := by
  show (match first state with
    | .ok value middle => rest value middle
    | .error failure middle => .error failure middle) = _ ↔ _
  cases first state with
  | ok value middle =>
    constructor
    · intro ran
      exact ⟨value, middle, rfl, ran⟩
    · rintro ⟨_, _, ⟨⟩, ran⟩
      exact ran
  | error failure middle => simp

/-- A bind whose first computation returned runs the rest from where it stopped. -/
theorem bind_apply_of_ok {first : EStateM ε σ α} {rest : α → EStateM ε σ β} {state middle : σ}
    {value : α} (ran : first state = .ok value middle) :
    (first >>= rest) state = rest value middle := by
  show (match first state with
    | .ok value middle => rest value middle
    | .error failure middle => .error failure middle) = _
  rw [ran]

/-- A bind whose first computation failed fails with its error and state. -/
theorem bind_apply_of_error {first : EStateM ε σ α} {rest : α → EStateM ε σ β} {state middle : σ}
    {failure : ε} (failed : first state = .error failure middle) :
    (first >>= rest) state = .error failure middle := by
  show (match first state with
    | .ok value middle => rest value middle
    | .error failure middle => .error failure middle) = _
  rw [failed]

/-- Renaming the errors of a run that returned changes nothing. -/
theorem adaptExcept_apply_of_ok {ε' : Type} {run : EStateM ε σ α} {rename : ε → ε'}
    {state state' : σ} {value : α} (ran : run state = .ok value state') :
    run.adaptExcept rename state = .ok value state' := by
  simp only [EStateM.adaptExcept, ran]

/-- Renaming the errors of a run that failed renames its error and keeps its state. -/
theorem adaptExcept_apply_of_error {ε' : Type} {run : EStateM ε σ α} {rename : ε → ε'}
    {state state' : σ} {failure : ε} (failed : run state = .error failure state') :
    run.adaptExcept rename state = .error (rename failure) state' := by
  simp only [EStateM.adaptExcept, failed]

/-- Renaming the errors of a run changes nothing about whether and how it returns. -/
theorem adaptExcept_eq_ok {ε' : Type} {run : EStateM ε σ α} {rename : ε → ε'} {state state' : σ}
    {value : α} : run.adaptExcept rename state = .ok value state' ↔ run state = .ok value state' := by
  cases ran : run state with
  | ok value' state'' => simp [adaptExcept_apply_of_ok ran]
  | error failure state'' => simp [adaptExcept_apply_of_error ran]

/-- Mapping over a run that returned maps its value. -/
theorem map_apply_of_ok {change : α → β} {run : EStateM ε σ α} {state state' : σ} {value : α}
    (ran : run state = .ok value state') : (change <$> run) state = .ok (change value) state' := by
  show (match run state with
    | .ok value state' => Result.ok (change value) state'
    | .error failure state' => Result.error failure state') = _
  rw [ran]

@[simp] theorem throw_apply (failure : ε) (state : σ) :
    (throw failure : EStateM ε σ α) state = .error failure state := rfl

@[simp] theorem throw_bind (failure : ε) (rest : α → EStateM ε σ β) (state : σ) :
    (throw failure >>= rest) state = .error failure state := rfl

@[simp] theorem liftExcept_ok (value : α) :
    (liftExcept (.ok value : Except ε α) : EStateM ε σ α) = pure value := rfl

@[simp] theorem liftExcept_error (failure : ε) :
    (liftExcept (.error failure : Except ε α) : EStateM ε σ α) = throw failure := rfl

@[simp] theorem get_apply (state : σ) : (get : EStateM ε σ σ) state = .ok state state := rfl

@[simp] theorem set_apply (state state' : σ) :
    (set state' : EStateM ε σ PUnit) state = .ok ⟨⟩ state' := rfl

@[simp] theorem modify_apply (change : σ → σ) (state : σ) :
    (modify change : EStateM ε σ PUnit) state = .ok ⟨⟩ (change state) := rfl

@[simp] theorem pure_apply (value : α) (state : σ) :
    (pure value : EStateM ε σ α) state = .ok value state := rfl

@[simp] theorem pure_bind (value : α) (rest : α → EStateM ε σ β) (state : σ) :
    (pure value >>= rest) state = rest value state := rfl

@[simp] theorem get_bind (rest : σ → EStateM ε σ β) (state : σ) :
    (get >>= rest) state = rest state state := rfl

@[simp] theorem set_bind (state' : σ) (rest : PUnit → EStateM ε σ β) (state : σ) :
    (set state' >>= rest) state = rest ⟨⟩ state' := rfl

@[simp] theorem modify_bind (change : σ → σ) (rest : PUnit → EStateM ε σ β) (state : σ) :
    (modify change >>= rest) state = rest ⟨⟩ (change state) := rfl

end EStateM

namespace Except

variable {ε α β : Type}

/-- A bind that succeeds ran its first computation to a value and then the rest. -/
theorem bind_eq_ok {first : Except ε α} {rest : α → Except ε β} {result : β} :
    (first >>= rest) = .ok result ↔ ∃ value, first = .ok value ∧ rest value = .ok result := by
  cases first with
  | error failure => simp [bind, Except.bind]
  | ok value => simp [bind, Except.bind]

@[simp] theorem ok_bind (value : α) (rest : α → Except ε β) :
    (Except.ok value >>= rest) = rest value := rfl

@[simp] theorem error_bind (failure : ε) (rest : α → Except ε β) :
    (Except.error failure >>= rest) = .error failure := rfl

@[simp] theorem throw_eq_error (failure : ε) : (throw failure : Except ε α) = .error failure := rfl

/-- A loop of checks over a list succeeds exactly when every check succeeds. -/
theorem forM_eq_ok {check : α → Except ε Unit} :
    ∀ {items : List α}, items.forM check = .ok () ↔ ∀ item ∈ items, check item = .ok ()
  | [] => by simp [List.forM, pure, Except.pure]
  | item :: rest => by
    rw [List.forM, bind_eq_ok, List.forall_mem_cons]
    constructor
    · rintro ⟨⟨⟩, first, others⟩
      exact ⟨first, forM_eq_ok.mp others⟩
    · rintro ⟨first, others⟩
      exact ⟨(), first, forM_eq_ok.mpr others⟩

/-- What every step of a fold keeps, a fold that succeeds keeps. -/
theorem foldlM_invariant {step : β → α → Except ε β} (Holds : β → Prop)
    (preserved : ∀ state item state', Holds state → step state item = .ok state' → Holds state') :
    ∀ {items : List α} {state state' : β}, Holds state → items.foldlM step state = .ok state' →
      Holds state'
  | [], state, state', holds, run => by
    simp only [List.foldlM, pure, Except.pure, Except.ok.injEq] at run
    exact run ▸ holds
  | item :: rest, state, state', holds, run => by
    rw [List.foldlM_cons, bind_eq_ok] at run
    obtain ⟨middle, first, others⟩ := run
    exact foldlM_invariant Holds preserved (preserved state item middle holds first) others

/-- Renaming the error leaves a success as it is. -/
@[simp] theorem mapError_eq_ok {ε' : Type} {first : Except ε α} {rename : ε → ε'} {value : α} :
    first.mapError rename = .ok value ↔ first = .ok value := by
  cases first <;> simp [Except.mapError]

end Except

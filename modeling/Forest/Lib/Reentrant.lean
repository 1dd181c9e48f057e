import Mathlib.Order.FixedPoints

/-!
# Runs of a machine whose calls re-enter it

A method of a machine may, in the middle of its execution, hand control to code that calls the
machine's methods again before it goes on.  What those nested calls do to the machine is a run
of the machine itself, so the runs are the least solution of one equation: a run is a sequence of
calls whose nested parts are runs.

Calls and runs are labelled relations: from a state, with the labels they record in order, to a
state.  `Steps step` is the sequences of steps of a labelled relation.  `call nested` is what one
call may do when its nested parts do what `nested` allows; it is monotone in `nested`.  `runs
call` is the least relation `R` with `Steps (call R) = R`, by Knaster–Tarski on the complete
lattice of labelled relations.  A property of runs follows from `runs_le_of_closed`: it holds of
the empty run, it composes, and one call has it when its nested parts have it.  An invariant of
states is the special case `runs_invariant`.
-/

namespace Reentrant

variable {σ ε : Type}

/-- Sequences of labelled steps, with the labels of the steps in order. -/
inductive Steps (step : σ → List ε → σ → Prop) : σ → List ε → σ → Prop
  | refl (state : σ) : Steps step state [] state
  | tail {first middle last : σ} {before after : List ε} :
      Steps step first before middle → step middle after last →
      Steps step first (before ++ after) last

namespace Steps

variable {step : σ → List ε → σ → Prop}

theorem single {first last : σ} {labels : List ε} (stepped : step first labels last) :
    Steps step first labels last := by
  simpa using Steps.tail (.refl first) stepped

theorem mono {step' : σ → List ε → σ → Prop} (le : step ≤ step') : Steps step ≤ Steps step' := by
  intro first labels last steps
  induction steps with
  | refl => exact .refl _
  | tail _ stepped inductionHypothesis => exact .tail inductionHypothesis (le _ _ _ stepped)

/-- What holds of the empty sequence and is kept by one more step holds of every sequence. -/
theorem le_of_closed {Holds : σ → List ε → σ → Prop} (empty : ∀ state, Holds state [] state)
    (extend : ∀ {first middle last before after}, Holds first before middle →
      step middle after last → Holds first (before ++ after) last)
    {first last : σ} {labels : List ε} (steps : Steps step first labels last) :
    Holds first labels last := by
  induction steps with
  | refl => exact empty _
  | tail _ stepped inductionHypothesis => exact extend inductionHypothesis stepped

end Steps

/-- The sequences of calls whose nested parts do what the argument allows, as an operator on
labelled relations. -/
def stepsOf (call : (σ → List ε → σ → Prop) →o (σ → List ε → σ → Prop)) :
    (σ → List ε → σ → Prop) →o (σ → List ε → σ → Prop) where
  toFun nested := Steps (call nested)
  monotone' _ _ le := Steps.mono (call.monotone le)

/-- The runs: the least labelled relation that holds every sequence of calls whose nested parts
are runs. -/
def runs (call : (σ → List ε → σ → Prop) →o (σ → List ε → σ → Prop)) : σ → List ε → σ → Prop :=
  OrderHom.lfp (stepsOf call)

variable {call : (σ → List ε → σ → Prop) →o (σ → List ε → σ → Prop)}

theorem runs_eq : runs call = Steps (call (runs call)) :=
  (OrderHom.map_lfp (stepsOf call)).symm

/-- The induction principle of runs: a relation that holds every sequence of calls whose nested
parts it holds, holds every run. -/
theorem runs_le {Holds : σ → List ε → σ → Prop} (closed : Steps (call Holds) ≤ Holds) :
    runs call ≤ Holds :=
  OrderHom.lfp_le (stepsOf call) closed

theorem runs_refl (state : σ) : runs call state [] state := by
  rw [runs_eq]
  exact .refl state

/-- One call whose nested parts are runs is a run. -/
theorem runs_of_call {first last : σ} {labels : List ε} (called : call (runs call) first labels last) :
    runs call first labels last := by
  rw [runs_eq]
  exact .single called

/-- What holds of the empty run, composes, and holds of one call whose nested parts have it,
holds of every run. -/
theorem runs_le_of_closed {Holds : σ → List ε → σ → Prop} (empty : ∀ state, Holds state [] state)
    (compose : ∀ {first middle last before after}, Holds first before middle →
      Holds middle after last → Holds first (before ++ after) last)
    (oneCall : ∀ {first last labels}, call Holds first labels last → Holds first labels last)
    {first last : σ} {labels : List ε} (run : runs call first labels last) :
    Holds first labels last :=
  runs_le (fun _ _ _ steps => steps.le_of_closed empty fun before called =>
    compose before (oneCall called)) first labels last run

/-- An invariant of states that every call keeps, whenever its nested parts keep it, holds after
every run. -/
theorem runs_invariant (Holds : σ → Prop)
    (preserved : ∀ nested : σ → List ε → σ → Prop, (∀ first labels last, nested first labels last →
      Holds first → Holds last) → ∀ first labels last, call nested first labels last →
      Holds first → Holds last)
    {first last : σ} {labels : List ε} (run : runs call first labels last) (holds : Holds first) :
    Holds last :=
  @runs_le_of_closed σ ε call (fun first _ last => Holds first → Holds last) (fun _ => id)
    (fun before after => after ∘ before)
    (fun called => preserved _ (fun _ _ _ kept => kept) _ _ _ called) first last labels run holds

end Reentrant

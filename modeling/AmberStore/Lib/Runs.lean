import Mathlib.Logic.Basic

/-!
# Runs of a system that takes one step after another

What holds at first and is kept by every step holds in every reachable state,
and a step function that is run over a list of actions reaches such a state.
-/

namespace Runs

/-- The states that steps reach from an initial one. -/
inductive Reachable (initial : σ → Prop) (step : σ → σ → Prop) : σ → Prop
  | start {state : σ} (isInitial : initial state) :
      Reachable initial step state
  | next {state after : σ} (reached : Reachable initial step state)
      (stepped : step state after) :
      Reachable initial step after

variable {initial : σ → Prop} {step : σ → σ → Prop}

/-- The rule of invariants. -/
theorem Reachable.invariant
    {holds : σ → Prop}
    (first : ∀ state, initial state → holds state)
    (kept : ∀ state after, holds state → step state after → holds after)
    (reached : Reachable initial step state) :
    holds state := by
  induction reached with
  | start isInitial => exact first _ isInitial
  | next _ stepped ih =>
    exact kept _ _ ih stepped

/-- Steps that are allowed among others reach fewer states. -/
theorem Reachable.mono
    (among : ∀ state after, step state after → wider state after)
    (reached : Reachable initial step state) :
    Reachable initial wider state := by
  induction reached with
  | start isInitial => exact .start isInitial
  | next _ stepped ih =>
    exact .next ih (among _ _ stepped)

/-- A run of a step function ends in a reachable state. -/
theorem Reachable.foldlM
    {act : σ → α → Option σ}
    (steps : ∀ state action after, act state action = some after →
      step state after)
    {actions : List α}
    (reached : Reachable initial step state)
    (ran : actions.foldlM act state = some after) :
    Reachable initial step after := by
  induction actions generalizing state with
  | nil =>
    cases ran
    exact reached
  | cons action actions ih =>
    rw [List.foldlM_cons] at ran
    obtain ⟨next, stepped, rest⟩ := Option.bind_eq_some_iff.mp ran
    exact ih (reached.next (steps _ _ _ stepped)) rest

end Runs

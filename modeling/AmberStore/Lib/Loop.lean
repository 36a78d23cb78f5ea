import Mathlib.Order.WellFounded

/-!
# Loops

A loop is a step that either goes on with another state or leaves with a result.
It is run with fuel; a loop whose states decrease leaves with enough of it, and
what the steps keep is known of the result.
-/

namespace Loop

variable {σ ρ : Type*}

/-- What a step says: go on, or leave. -/
inductive Next (σ ρ : Type*)
  | more (state : σ)
  | done (result : ρ)

/-- Runs a loop for at most so many steps. -/
def run (step : σ → Next σ ρ) : (fuel : Nat) → σ → Option ρ
  | 0, _ => none
  | fuel + 1, state =>
    match step state with
    | .more next => run step fuel next
    | .done result => some result

variable {step : σ → Next σ ρ}

theorem run_more
    (more : step state = .more next) (fuel : Nat) :
    run step (fuel + 1) state = run step fuel next := by
  rw [run, more]

theorem run_done
    (done : step state = .done result) (fuel : Nat) :
    run step (fuel + 1) state = some result := by
  rw [run, done]

/-- The loop leaves with this result, given enough fuel. -/
def Leaves (step : σ → Next σ ρ) (state : σ) (result : ρ) : Prop :=
  ∃ bound, ∀ fuel ≥ bound, run step fuel state = some result

theorem Leaves.of_done
    (done : step state = .done result) :
    Leaves step state result := by
  refine ⟨1, fun fuel enough => ?_⟩
  obtain ⟨fuel, rfl⟩ := Nat.exists_eq_add_of_le' enough
  exact run_done done fuel

theorem Leaves.of_more
    (more : step state = .more next)
    (leaves : Leaves step next result) : Leaves step state result := by
  obtain ⟨bound, leaves⟩ := leaves
  refine ⟨bound + 1, fun fuel enough => ?_⟩
  obtain ⟨fuel, rfl⟩ := Nat.exists_eq_add_of_le' (Nat.le_of_add_left_le enough)
  rw [run_more more]
  exact leaves fuel (by omega)

/-- A run that ended would have ended with more fuel. -/
theorem Leaves.of_run
    (ended : run step fuel state = some result) :
    Leaves step state result := by
  induction fuel generalizing state with
  | zero => cases ended
  | succ fuel ih =>
    cases isStep : step state with
    | more next =>
      rw [run_more isStep] at ended
      exact .of_more isStep (ih ended)
    | done left =>
      rw [run_done isStep] at ended
      exact .of_done (isStep.trans (congrArg _ (Option.some.inj ended)))

/-- A loop leaves with one result only. -/
theorem Leaves.unique
    (left : Leaves step state result) (right : Leaves step state other) :
    result = other := by
  obtain ⟨leftBound, left⟩ := left
  obtain ⟨rightBound, right⟩ := right
  exact Option.some.inj ((left _ (le_max_left _ _)).symm.trans
    (right _ (le_max_right leftBound rightBound)))

/-- A loop whose states decrease leaves, and what its steps keep holds of the
state it leaves from. -/
theorem exists_leaves
    (wellFounded : WellFounded below)
    (keeps : σ → Prop) {good : ρ → Prop}
    (goesOn : ∀ state next, keeps state → step state = .more next →
      keeps next ∧ below next state)
    (ends : ∀ state result, keeps state → step state = .done result →
      good result)
    (start : keeps state) :
    ∃ result, Leaves step state result ∧ good result := by
  induction state using wellFounded.induction with
  | _ state ih =>
    cases isStep : step state with
    | more next =>
      obtain ⟨kept, less⟩ := goesOn state next start isStep
      obtain ⟨result, leaves, isGood⟩ := ih next less kept
      exact ⟨result, leaves.of_more isStep, isGood⟩
    | done result =>
      exact ⟨result, .of_done isStep, ends state result start isStep⟩

end Loop

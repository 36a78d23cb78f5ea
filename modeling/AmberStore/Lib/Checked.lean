import Mathlib.Data.List.Forall2

/-!
# Chains of checks

A validating function is a chain of conditionals that leave with an error.
These lemmas read such a chain as the conjunction of the checks it passed.
-/

open List

namespace Checked

/-- A check that fails with an error passes exactly when its condition is
false and what follows succeeds. -/
theorem errorIf_eq_ok_iff
    [Decidable condition]
    {failure : ε} {next : Except ε α} :
    (if condition then Except.error failure else next) = .ok result ↔
      ¬condition ∧ next = .ok result := by
  by_cases holds : condition
  · simp [holds]
  · simp [holds]

@[simp] theorem ok_bind (value : α) (next : α → Except ε β) :
    ((Except.ok value : Except ε α) >>= next) = next value := rfl

@[simp] theorem error_bind (failure : ε) (next : α → Except ε β) :
    ((Except.error failure : Except ε α) >>= next) = .error failure := rfl

/-- A sequenced computation succeeds exactly when both of its parts do. -/
theorem bind_eq_ok_iff
    {next : α → Except ε β} :
    (first >>= next) = .ok result ↔
      ∃ value, first = .ok value ∧ next value = .ok result := by
  cases first with
  | error failure | ok value => simp [bind, Except.bind]

@[simp] theorem mapError_ok (rename : ε → φ) (value : α) :
    (Except.ok value).mapError rename = .ok value := rfl

@[simp] theorem mapError_error (rename : ε → φ) (failure : ε) :
    (Except.error failure : Except ε α).mapError rename =
      .error (rename failure) := rfl

/-- Renaming an error does not change what succeeds. -/
theorem mapError_eq_ok_iff
    {first : Except ε α} :
    first.mapError rename = .ok result ↔ first = .ok result := by
  cases first with
  | error failure | ok value => simp

/-- A list is mapped exactly when each of its elements is. -/
theorem mapM_eq_ok_iff
    {f : α → Except ε β} :
    inputs.mapM f = .ok results ↔
      List.Forall₂ (fun input result => f input = .ok result)
        inputs results := by
  induction inputs generalizing results with
  | nil =>
    rw [mapM_nil, List.forall₂_nil_left_iff]
    exact ⟨fun same => (Except.ok.inj same).symm, fun same => by rw [same]; rfl⟩
  | cons input inputs ih =>
    rw [mapM_cons, bind_eq_ok_iff, List.forall₂_cons_left_iff]
    constructor
    · rintro ⟨result, isResult, rest⟩
      obtain ⟨others, isOthers, same⟩ := bind_eq_ok_iff.mp rest
      exact ⟨result, others, isResult, ih.mp isOthers,
        (Except.ok.inj same).symm⟩
    · rintro ⟨result, others, isResult, isOthers, rfl⟩
      refine ⟨result, isResult, bind_eq_ok_iff.mpr
        ⟨others, ih.mpr isOthers, rfl⟩⟩

/-- A list is mapped if each of its elements can be. -/
theorem exists_mapM_eq_ok
    {f : α → Except ε β} {inputs : List α}
    (each : ∀ input ∈ inputs, ∃ result, f input = .ok result) :
    ∃ results, inputs.mapM f = .ok results := by
  induction inputs with
  | nil => exact ⟨[], rfl⟩
  | cons input inputs ih =>
    obtain ⟨result, isResult⟩ := each input mem_cons_self
    obtain ⟨results, isResults⟩ := ih fun other isOther =>
      each other (mem_cons_of_mem _ isOther)
    refine ⟨result :: results, ?_⟩
    rw [mapM_cons, isResult, ok_bind, isResults]
    rfl

/-- What an element of the first of two related lists is related to. -/
theorem exists_of_forall₂
    (all : List.Forall₂ related inputs results)
    (isInput : input ∈ inputs) :
    ∃ result ∈ results, related input result := by
  induction all with
  | nil => exact absurd isInput not_mem_nil
  | cons first _ ih =>
    rcases mem_cons.mp isInput with rfl | later
    · exact ⟨_, mem_cons_self, first⟩
    · obtain ⟨result, isResult, holds⟩ := ih later
      exact ⟨result, mem_cons_of_mem _ isResult, holds⟩

/-- A computation whose result can be measured succeeds. -/
theorem exists_ok_of_map_toOption
    {outcome : Except ε α} {measure : α → β}
    (measured : outcome.toOption.map measure = some size) :
    ∃ value, outcome = .ok value ∧ measure value = size := by
  cases outcome with
  | error failure => cases measured
  | ok value => exact ⟨value, rfl, Option.some.inj measured⟩

/-! ## Loops -/

/-- A loop that runs a fixed number of times and leaves at the first error. -/
def times : Nat → (σ → Except ε σ) → σ → Except ε σ
  | 0, _, state => .ok state
  | count + 1, step, state =>
    match step state with
    | .ok next => times count step next
    | .error failure => .error failure

/-- A round that succeeds leaves the remaining rounds to run. -/
theorem times_succ
    (stepped : step state = .ok later) (count : Nat) :
    times (count + 1) step state = times count step later := by
  rw [times, stepped]

/-- A loop whose round takes one piece off the front of its input takes as many
pieces as it has rounds. -/
theorem times_flatten
    (step : List α → Except ε (List α))
    (pieces : List (List α)) (rest : List α)
    (each : ∀ piece ∈ pieces, ∀ rest, step (piece ++ rest) = .ok rest) :
    times pieces.length step (pieces.flatten ++ rest) = .ok rest := by
  induction pieces with
  | nil => rfl
  | cons piece pieces ih =>
    have first : step ((piece :: pieces).flatten ++ rest) =
        .ok (pieces.flatten ++ rest) := by
      rw [flatten_cons, append_assoc]
      exact each piece mem_cons_self _
    rw [length_cons, times_succ first]
    exact ih fun other isOther =>
      each other (mem_cons_of_mem _ isOther)

end Checked

import Mathlib.Order.Filter.AtTopBot.Basic
import Mathlib.Data.List.Forall2

/-!
# Walks with enough fuel

A recursive walk is given fuel, one for each level.  What it does with enough
fuel is what it does for all but finitely many amounts.
-/

open Filter (atTop map_add_atTop_eq_nat eventually_map)

namespace Fuel

/-- One level more still needs only some fuel. -/
theorem eventually_succ
    {holds : Nat → Prop} (below : ∀ᶠ fuel in atTop, holds (fuel + 1)) :
    ∀ᶠ fuel in atTop, holds fuel := by
  rw [← map_add_atTop_eq_nat 1, eventually_map]
  exact below

/-- Finitely many walks need only some fuel together. -/
theorem eventually_forall₂
    {holds : Nat → α → β → Prop}
    (each : List.Forall₂ (fun input result =>
      ∀ᶠ fuel in atTop, holds fuel input result) inputs results) :
    ∀ᶠ fuel in atTop, List.Forall₂ (holds fuel) inputs results := by
  induction each with
  | nil => exact Filter.Eventually.of_forall fun _ => .nil
  | cons first _ ih =>
    filter_upwards [first, ih] with fuel here others
    exact .cons here others

/-- What holds of every result holds beside the relation. -/
theorem forall₂_and_right
    {holds : β → Prop}
    (all : List.Forall₂ related inputs results)
    (each : ∀ result ∈ results, holds result) :
    List.Forall₂ (fun input result => related input result ∧ holds result)
      inputs results := by
  induction all with
  | nil => exact .nil
  | cons first _ ih =>
    obtain ⟨here, others⟩ := List.forall_mem_cons.mp each
    exact .cons ⟨first, here⟩ (ih others)

/-- A walk that appends the part below each child appends all parts.  What is
`fine` stays so when something is taken off its end. -/
theorem foldlM_parts
    [Monad m] [LawfulMonad m]
    {visit : List α → κ → m (List α)} {fine : List α → Prop}
    (front : ∀ before after, fine (before ++ after) → fine before)
    (each : List.Forall₂ (fun child part => ∀ out, fine (out ++ part) →
      visit out child = pure (out ++ part)) children parts)
    (out : List α) (isFine : fine (out ++ parts.flatten)) :
    children.foldlM visit out = pure (out ++ parts.flatten) := by
  induction each generalizing out with
  | nil => simp
  | cons first _ ih =>
    rw [List.flatten_cons, ← List.append_assoc] at isFine ⊢
    rw [List.foldlM_cons, first out (front _ _ isFine), pure_bind]
    exact ih _ isFine

end Fuel

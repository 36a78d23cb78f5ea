import Mathlib.Data.Fintype.Basic
import Mathlib.Logic.Function.Basic
import Mathlib.Tactic.FinCases

/-!
# Peeling orders

Every item has three positions in a table.  An order in which each item is
listed with one position that no later item shares can be solved from its end:
giving each item's own position the value that completes its equation never
disturbs an equation solved before.
-/

open Function List

namespace PeelingOrder

variable {Item Position Value : Type*}

section Order

variable (slot : Item → Fin 3 → Position)

/-- No later item has a position that an earlier one was listed with. -/
def Peeled : List (Item × Fin 3) → Prop
  | [] => True
  | (item, rank) :: later =>
    (∀ entry ∈ later, ∀ other, slot entry.1 other ≠ slot item rank) ∧
      Peeled later

theorem peeled_concat
    (peeled : Peeled slot order)
    (untouched : ∀ entry ∈ order, ∀ other,
      slot item other ≠ slot entry.1 entry.2) :
    Peeled slot (order ++ [(item, rank)]) := by
  induction order with
  | nil => exact ⟨by simp, trivial⟩
  | cons entry order ih =>
    obtain ⟨laterAvoid, laterPeeled⟩ := peeled
    refine ⟨?_, ih laterPeeled ?_⟩
    · intro later laterMember other
      rcases mem_append.mp laterMember with old | new
      · exact laterAvoid later old other
      · rw [mem_singleton] at new
        subst new
        exact untouched entry mem_cons_self other
    · intro earlier earlierMember
      exact untouched earlier (mem_cons_of_mem _ earlierMember)

/-- Two items with the same positions are not in one order. -/
theorem Peeled.not_same
    (peeled : Peeled slot order) (isLeft : left ∈ order)
    (isRight : right ∈ order) (different : left ≠ right) :
    ¬∀ rank, slot left.1 rank = slot right.1 rank := by
  intro same
  induction order with
  | nil => cases isLeft
  | cons entry order ih =>
    obtain ⟨laterAvoid, laterPeeled⟩ := peeled
    rcases mem_cons.mp isLeft with rfl | leftLater
    · rcases mem_cons.mp isRight with rfl | rightLater
      · exact different rfl
      · exact laterAvoid right rightLater left.2 (same left.2).symm
    · rcases mem_cons.mp isRight with rfl | rightLater
      · exact laterAvoid left leftLater right.2 (same right.2)
      · exact ih laterPeeled leftLater rightLater

end Order

section Solve

variable [DecidableEq Position]
variable (slot : Item → Fin 3 → Position)
variable (combine : Value → Value → Value)
variable (target : Item → Value)

/-- The value an equation has in a table. -/
def total (table : Position → Value) (item : Item) : Value :=
  combine (combine (table (slot item 0)) (table (slot item 1)))
    (table (slot item 2))

/-- Completes one item's equation at one of its positions. -/
def solveOne (table : Position → Value) (entry : Item × Fin 3) :
    Position → Value :=
  update table (slot entry.1 entry.2)
    (combine (combine (target entry.1) (table (slot entry.1 (entry.2 + 1))))
      (table (slot entry.1 (entry.2 + 2))))

/-- Solves an order from its end. -/
def solve (table : Position → Value) :
    List (Item × Fin 3) → Position → Value
  | [] => table
  | entry :: later => solveOne slot combine target (solve table later) entry

theorem solve_concat
    (table : Position → Value) (order : List (Item × Fin 3))
    (entry : Item × Fin 3) :
    solve slot combine target table (order ++ [entry]) =
      solve slot combine target
        (solveOne slot combine target table entry) order := by
  induction order with
  | nil => rfl
  | cons first order ih =>
    rw [cons_append, solve, ih, solve]

variable {slot combine target}

/-- An update at a position an equation does not use leaves it alone. -/
theorem total_solveOne_other
    (untouched : ∀ other, slot item other ≠ slot entry.1 entry.2) :
    total slot combine (solveOne slot combine target table entry) item =
      total slot combine table item := by
  simp only [total, solveOne, update_of_ne (untouched _)]

variable [associative : Std.Associative combine]
variable [commutative : Std.Commutative combine]

omit [DecidableEq Position] in
theorem total_eq_rotated
    (table : Position → Value) (item : Item) (rank : Fin 3) :
    total slot combine table item =
      combine (combine (table (slot item rank))
        (table (slot item (rank + 1)))) (table (slot item (rank + 2))) := by
  unfold total
  fin_cases rank
  · rfl
  · simp only [Fin.reduceFinMk, Fin.reduceAdd]
    ac_rfl
  · simp only [Fin.reduceFinMk, Fin.reduceAdd]
    ac_rfl

/-- Completing an equation makes it hold. -/
theorem total_solveOne_self
    (cancel : ∀ left right, combine left (combine left right) = right)
    (distinct : ∀ item, Function.Injective (slot item))
    (table : Position → Value) (entry : Item × Fin 3) :
    total slot combine (solveOne slot combine target table entry) entry.1 =
      target entry.1 := by
  obtain ⟨item, rank⟩ := entry
  have next : slot item (rank + 1) ≠ slot item rank :=
    (distinct item).ne ((by decide : ∀ r : Fin 3, r + 1 ≠ r) rank)
  have last : slot item (rank + 2) ≠ slot item rank :=
    (distinct item).ne ((by decide : ∀ r : Fin 3, r + 2 ≠ r) rank)
  rw [total_eq_rotated _ item rank]
  simp only [solveOne, update_self, update_of_ne next, update_of_ne last]
  generalize table (slot item (rank + 1)) = first
  generalize table (slot item (rank + 2)) = second
  calc
    combine (combine (combine (combine (target item) first) second) first)
        second =
        combine first (combine first
          (combine second (combine second (target item)))) := by ac_rfl
    _ = target item := by rw [cancel, cancel]

/-- In the solved table of a peeling order every listed equation holds. -/
theorem total_solve
    (cancel : ∀ left right, combine left (combine left right) = right)
    (distinct : ∀ item, Function.Injective (slot item))
    (target : Item → Value) (table : Position → Value)
    (peeled : Peeled slot order) :
    ∀ entry ∈ order,
      total slot combine (solve slot combine target table order) entry.1 =
        target entry.1 := by
  induction order with
  | nil => simp
  | cons first later ih =>
    obtain ⟨laterAvoid, laterPeeled⟩ := peeled
    intro entry member
    rcases mem_cons.mp member with rfl | old
    · exact total_solveOne_self cancel distinct _ entry
    · rw [solve, total_solveOne_other (laterAvoid entry old)]
      exact ih laterPeeled entry old

end Solve

end PeelingOrder

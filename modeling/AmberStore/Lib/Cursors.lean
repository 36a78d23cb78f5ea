import Mathlib.Algebra.BigOperators.Group.Finset.Basic
import Mathlib.Algebra.Order.BigOperators.Group.Finset
import Mathlib.Data.Finset.Max
import Mathlib.Order.Interval.Finset.Nat

/-!
# Cursors over a row of cells

Several cursors advance over one row of cells, each from its own start.  A
cursor moves over a free cell and may take it; it never moves over a taken one.
As long as fewer moves were made than there are cells, some cursor is at a free
cell: cursors that are all stuck have passed every cell between them.
-/

open Function

namespace Cursors

variable {Block : Type*}

/-- A row after a number of moves: the cursors stay inside it, and every taken
cell was passed by one of them. -/
structure Row (blocks : Finset Block) (start cursor : Block → Nat)
    (taken : Nat → Prop) (size moves : Nat) : Prop where
  started : ∀ block ∈ blocks, start block ≤ cursor block
  inside : ∀ block ∈ blocks, cursor block ≤ size
  passed : ∀ cell < size, taken cell →
    ∃ block ∈ blocks, start block ≤ cell ∧ cell < cursor block
  counted : ∑ block ∈ blocks, (cursor block - start block) = moves

section Row

variable {blocks : Finset Block} {start cursor : Block → Nat}
variable {taken : Nat → Prop} {size moves : Nat}

/-- Before a move every cursor is at its start. -/
theorem Row.initial
    (atStart : ∀ block ∈ blocks, cursor block = start block)
    (inside : ∀ block ∈ blocks, start block ≤ size)
    (free : ∀ cell < size, ¬taken cell) :
    Row blocks start cursor taken size 0 where
  started := fun block isBlock => (atStart block isBlock).ge
  inside := fun block isBlock => (atStart block isBlock).trans_le
    (inside block isBlock)
  passed := fun cell isCell isTaken => (free cell isCell isTaken).elim
  counted := Finset.sum_eq_zero fun block isBlock => by
    rw [atStart block isBlock, Nat.sub_self]

/-- Cursors that are stuck have passed every cell: of those that start at a cell
or before it, the one that went furthest can only be stuck past it. -/
theorem Row.passed_of_stuck
    (row : Row blocks start cursor taken size moves)
    (isBlock : first ∈ blocks) (atFront : start first = 0)
    (stuck : ∀ block ∈ blocks, cursor block < size → taken (cursor block))
    (isCell : cell < size) :
    ∃ block ∈ blocks, start block ≤ cell ∧ cell < cursor block := by
  classical
  obtain ⟨block, isCandidate, furthest⟩ :=
    (blocks.filter fun block => start block ≤ cell).exists_max_image cursor
      ⟨first, Finset.mem_filter.mpr ⟨isBlock, atFront ▸ Nat.zero_le cell⟩⟩
  obtain ⟨isMember, starts⟩ := Finset.mem_filter.mp isCandidate
  refine ⟨block, isMember, starts, ?_⟩
  by_contra notPast
  have isInside : cursor block < size := by omega
  obtain ⟨other, otherMember, otherStarts, otherPast⟩ :=
    row.passed _ isInside (stuck block isMember isInside)
  have notFurther := furthest other
    (Finset.mem_filter.mpr ⟨otherMember, by omega⟩)
  omega

/-- After fewer moves than there are cells, some cursor is at a free cell. -/
theorem Row.exists_free
    (row : Row blocks start cursor taken size moves)
    (isBlock : first ∈ blocks) (atFront : start first = 0)
    (few : moves < size) :
    ∃ block ∈ blocks, cursor block < size ∧ ¬taken (cursor block) := by
  classical
  by_contra noneFree
  push Not at noneFree
  have covered : Finset.range size ⊆
      blocks.biUnion fun block => Finset.Ico (start block) (cursor block) := by
    intro cell isCell
    obtain ⟨block, isMember, starts, past⟩ := row.passed_of_stuck isBlock
      atFront noneFree (Finset.mem_range.mp isCell)
    exact Finset.mem_biUnion.mpr
      ⟨block, isMember, Finset.mem_Ico.mpr ⟨starts, past⟩⟩
  have bounded := (Finset.card_le_card covered).trans Finset.card_biUnion_le
  simp only [Finset.card_range, Nat.card_Ico] at bounded
  rw [row.counted] at bounded
  omega

/-- A cursor moves over a cell inside the row, which may be taken then. -/
theorem Row.advance
    [DecidableEq Block]
    (row : Row blocks start cursor taken size moves)
    (isBlock : block ∈ blocks) (isInside : cursor block < size)
    (onlyHere : ∀ cell < size, takenNext cell →
      taken cell ∨ cell = cursor block) :
    Row blocks start (update cursor block (cursor block + 1))
      takenNext size (moves + 1) where
  started := by
    intro other isMember
    have starts := row.started other isMember
    by_cases same : other = block
    · subst same
      rw [update_self]
      omega
    · rw [update_of_ne same]
      exact starts
  inside := by
    intro other isMember
    by_cases same : other = block
    · subst same
      rw [update_self]
      exact isInside
    · rw [update_of_ne same]
      exact row.inside other isMember
  passed := by
    intro cell isCell isTaken
    rcases onlyHere cell isCell isTaken with before | here
    · obtain ⟨other, isMember, starts, past⟩ := row.passed cell isCell before
      refine ⟨other, isMember, starts, ?_⟩
      by_cases same : other = block
      · subst same
        rw [update_self]
        omega
      · rw [update_of_ne same]
        exact past
    · refine ⟨block, isBlock, here ▸ row.started block isBlock, ?_⟩
      rw [update_self]
      omega
  counted := by
    have starts := row.started block isBlock
    have counted := row.counted
    rw [← Finset.add_sum_erase _ _ isBlock] at counted ⊢
    have others : ∑ other ∈ blocks.erase block,
        (update cursor block (cursor block + 1) other - start other) =
        ∑ other ∈ blocks.erase block, (cursor other - start other) := by
      apply Finset.sum_congr rfl
      intro other isOther
      rw [update_of_ne (Finset.ne_of_mem_erase isOther)]
    rw [others, update_self]
    omega

end Row

end Cursors

import AmberStore.Lib.ByteString
import Mathlib.Data.List.Nodup

/-!
# Maps from byte strings

A map is the list of its pairs in the order of their keys.
-/

open ByteString

namespace ByteMap

variable {ν : Type}

/-- The keys are in order, no two of which are the same. -/
def Sorted (pairs : List (Bytes × ν)) : Prop :=
  pairs.Pairwise fun left right => left.1 < right.1

/-- Sets the value of a key. -/
def insert (key : Bytes) (value : ν) :
    List (Bytes × ν) → List (Bytes × ν)
  | [] => [(key, value)]
  | (other, old) :: rest =>
    if key < other then (key, value) :: (other, old) :: rest
    else if key = other then (key, value) :: rest
    else (other, old) :: insert key value rest

theorem lt_of_not_lt_of_ne
    {left right : Bytes} (notLess : ¬left < right) (other : left ≠ right) :
    right < left := by
  by_contra notGreater
  exact other (List.le_antisymm notGreater notLess)

/-- Inserting replaces the key's pair and keeps the others. -/
theorem mem_insert
    (sorted : Sorted pairs) (key : Bytes)
    (value : ν) (pair : Bytes × ν) :
    pair ∈ insert key value pairs ↔
      pair = (key, value) ∨ pair.1 ≠ key ∧ pair ∈ pairs := by
  induction pairs with
  | nil => simp [insert]
  | cons first rest ih =>
    obtain ⟨before, restSorted⟩ := List.pairwise_cons.mp sorted
    obtain ⟨other, old⟩ := first
    have later : ∀ {pair}, pair ∈ rest → other < pair.1 :=
      fun isIn => before _ isIn
    rw [insert]
    split_ifs with isLess isSame
    · have kept : pair ∈ (other, old) :: rest → pair.1 ≠ key := by
        rintro isIn rfl
        rcases List.mem_cons.mp isIn with rfl | isLater
        · exact List.lt_irrefl _ isLess
        · exact List.lt_asymm isLess (later isLater)
      rw [List.mem_cons]
      exact or_congr_right ⟨fun isIn => ⟨kept isIn, isIn⟩, And.right⟩
    · subst isSame
      have kept : pair ∈ rest → pair.1 ≠ key := by
        rintro isIn rfl
        exact List.lt_irrefl _ (later isIn)
      rw [List.mem_cons, List.mem_cons]
      refine or_congr_right ⟨fun isIn => ⟨kept isIn, .inr isIn⟩, ?_⟩
      rintro ⟨notKey, rfl | isIn⟩
      · exact absurd rfl notKey
      · exact isIn
    · rw [List.mem_cons, ih restSorted, List.mem_cons]
      constructor
      · rintro (rfl | rfl | ⟨notKey, isIn⟩)
        · exact .inr ⟨fun same => isSame same.symm, .inl rfl⟩
        · exact .inl rfl
        · exact .inr ⟨notKey, .inr isIn⟩
      · rintro (rfl | ⟨notKey, rfl | isIn⟩)
        · exact .inr (.inl rfl)
        · exact .inl rfl
        · exact .inr (.inr ⟨notKey, isIn⟩)

theorem Sorted.insert
    (sorted : Sorted pairs) (key : Bytes)
    (value : ν) : Sorted (insert key value pairs) := by
  induction pairs with
  | nil => exact List.pairwise_singleton _ _
  | cons first rest ih =>
    obtain ⟨before, restSorted⟩ := List.pairwise_cons.mp sorted
    obtain ⟨other, old⟩ := first
    rw [ByteMap.insert]
    split_ifs with isLess isSame
    · refine List.pairwise_cons.mpr ⟨?_, sorted⟩
      intro pair isIn
      rcases List.mem_cons.mp isIn with rfl | isLater
      · exact isLess
      · exact List.lt_trans isLess (before pair isLater)
    · subst isSame
      exact List.pairwise_cons.mpr ⟨before, restSorted⟩
    · refine List.pairwise_cons.mpr ⟨?_, ih restSorted⟩
      intro pair isIn
      rcases (mem_insert restSorted key value pair).mp isIn with
        rfl | ⟨-, isLater⟩
      · exact lt_of_not_lt_of_ne isLess isSame
      · exact before pair isLater

theorem Sorted.nodup
    (sorted : Sorted pairs) : pairs.Nodup := by
  refine List.Pairwise.imp ?_ sorted
  rintro left right isLess rfl
  exact List.lt_irrefl _ isLess

/-- Maps with the same pairs are the same. -/
theorem Sorted.eq_of_mem_iff
    (leftSorted : Sorted left)
    (rightSorted : Sorted right)
    (same : ∀ pair, pair ∈ left ↔ pair ∈ right) : left = right := by
  have permuted := (List.perm_ext_iff_of_nodup leftSorted.nodup
    rightSorted.nodup).mpr same
  exact permuted.eq_of_pairwise
    (fun _ _ _ _ isLess isGreater => absurd isGreater (List.lt_asymm isLess))
    leftSorted rightSorted

/-- Inserting pairs with distinct new keys adds them. -/
theorem mem_foldl_insert
    {news pairs : List (Bytes × ν)} (sorted : Sorted pairs)
    (distinct : news.Pairwise fun left right => left.1 ≠ right.1)
    (isNew : ∀ new ∈ news, ∀ pair ∈ pairs, pair.1 ≠ new.1) :
    Sorted (news.foldl (fun m new => insert new.1 new.2 m) pairs) ∧
      ∀ pair, pair ∈ news.foldl (fun m new => insert new.1 new.2 m) pairs ↔
        pair ∈ pairs ∨ pair ∈ news := by
  induction news generalizing pairs with
  | nil => exact ⟨sorted, by simp⟩
  | cons new news ih =>
    obtain ⟨others, restDistinct⟩ := List.pairwise_cons.mp distinct
    obtain ⟨hereNew, laterNew⟩ := List.forall_mem_cons.mp isNew
    have stillNew : ∀ later ∈ news,
        ∀ pair ∈ insert new.1 new.2 pairs, pair.1 ≠ later.1 := by
      intro later isLater pair isIn
      rcases (mem_insert sorted _ _ _).mp isIn with rfl | ⟨-, isOld⟩
      · exact others later isLater
      · exact laterNew later isLater pair isOld
    obtain ⟨stillSorted, isMember⟩ :=
      ih (sorted.insert new.1 new.2) restDistinct stillNew
    refine ⟨stillSorted, fun pair => ?_⟩
    rw [List.foldl_cons, isMember, mem_insert sorted, List.mem_cons]
    constructor
    · rintro ((rfl | ⟨-, isOld⟩) | isLater)
      · exact .inr (.inl rfl)
      · exact .inl isOld
      · exact .inr (.inr isLater)
    · rintro (isOld | rfl | isLater)
      · exact .inl (.inr ⟨hereNew pair isOld, isOld⟩)
      · exact .inl (.inl rfl)
      · exact .inr isLater

end ByteMap

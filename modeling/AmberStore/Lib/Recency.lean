import Mathlib.Data.List.Perm.Basic
import Mathlib.Data.List.Nodup

/-!
# Maps that remember when an entry was used

Each entry of a map has the stamp of a clock that goes on with every use.  The
order of the stamps is the order of use, so that keeping the entries with the
greatest stamps keeps those that were used last.  What such a map holds is a
beginning of the list of all keys that were used, the last used first.
-/

open List

namespace Recency

variable {κ ν : Type}

/-- An entry and when it was used. -/
structure Slot (κ ν : Type) where
  key : κ
  value : ν
  stamp : Nat

/-! ## Keys in the order of use -/

section Uses

variable [DecidableEq κ]

/-- The keys of uses without repetition, the last used first. -/
def recent : (uses : List κ) → List κ
  | [] => []
  | key :: uses => key :: (recent uses).erase key

/-- A held key that is used again comes first. -/
theorem prefix_recent_of_mem
    {key : κ} (isPrefix : held <+: recent uses)
    (isHeld : key ∈ held) :
    key :: held.erase key <+: recent (key :: uses) := by
  obtain ⟨rest, isRecent⟩ := isPrefix
  rw [recent, ← isRecent, erase_append_left _ isHeld]
  exact ⟨rest, rfl⟩

/-- A key that is not held comes before those that are. -/
theorem prefix_recent_of_not_mem
    {key : κ} (isPrefix : held <+: recent uses)
    (notHeld : key ∉ held) : key :: held <+: recent (key :: uses) := by
  obtain ⟨rest, isRecent⟩ := isPrefix
  rw [recent, ← isRecent, erase_append_right _ notHeld]
  exact ⟨rest.erase key, rfl⟩

end Uses

/-! ## Slots -/

/-- The slot of a key. -/
def find [DecidableEq κ] (slots : List (Slot κ ν)) (key : κ) :
    Option (Slot κ ν) :=
  slots.find? fun slot => slot.key = key

/-- Stamps a key's slot. -/
def restamp [DecidableEq κ] (slots : List (Slot κ ν)) (key : κ) (now : Nat) :
    List (Slot κ ν) :=
  slots.map fun slot =>
    if slot.key = key then { slot with stamp := now } else slot

/-- Keeps the slots from the given one of the sorted stamps on. -/
def evict (slots : List (Slot κ ν)) (keep : Nat) : List (Slot κ ν) :=
  if keep = 0 then []
  else
    let stamps := slots.map Slot.stamp
    match (stamps.mergeSort)[stamps.length - keep]? with
    | none => []
    | some oldestKept => slots.filter fun slot => oldestKept ≤ slot.stamp

@[simp] theorem length_restamp [DecidableEq κ]
    (slots : List (Slot κ ν)) (key : κ) (now : Nat) :
    (restamp slots key now).length = slots.length :=
  length_map _

theorem exists_of_mem_restamp [DecidableEq κ]
    {slot : Slot κ ν}
    (isStamped : slot ∈ restamp slots key now) :
    ∃ before ∈ slots, before.key = slot.key ∧ before.value = slot.value := by
  obtain ⟨before, isBefore, rfl⟩ := mem_map.mp isStamped
  refine ⟨before, isBefore, ?_⟩
  split <;> exact ⟨rfl, rfl⟩

theorem mem_of_mem_evict
    (isKept : slot ∈ evict slots keep) : slot ∈ slots := by
  unfold evict at isKept
  dsimp only at isKept
  split at isKept
  case isTrue => cases isKept
  case isFalse =>
    split at isKept
    case h_1 => cases isKept
    case h_2 => exact mem_of_mem_filter isKept

/-- The slots in the order of use, the last used first. -/
structure InOrder (slots : List (Slot κ ν)) (now : Nat)
    (ordered : List (Slot κ ν)) : Prop where
  perm : ordered.Perm slots
  later : ordered.Pairwise fun first second => second.stamp < first.stamp
  distinct : (ordered.map Slot.key).Nodup
  past : ∀ slot ∈ ordered, slot.stamp ≤ now

theorem inOrder_nil (now : Nat) : InOrder ([] : List (Slot κ ν)) now [] :=
  ⟨.refl _, .nil, nodup_nil, by simp⟩

namespace InOrder

variable {slots ordered : List (Slot κ ν)} {now : Nat}
  (inOrder : InOrder slots now ordered)

include inOrder

theorem tick : InOrder slots (now + 1) ordered :=
  ⟨inOrder.perm, inOrder.later, inOrder.distinct,
    fun slot isSlot => Nat.le_succ_of_le (inOrder.past slot isSlot)⟩

theorem length_eq : ordered.length = slots.length :=
  inOrder.perm.length_eq

/-- A new key is the last used. -/
theorem insert (isNew : key ∉ ordered.map Slot.key) (value : ν) :
    InOrder (⟨key, value, now + 1⟩ :: slots) (now + 1)
      (⟨key, value, now + 1⟩ :: ordered) where
  perm := inOrder.perm.cons _
  later := pairwise_cons.mpr
    ⟨fun slot isSlot => Nat.lt_succ_of_le (inOrder.past slot isSlot),
      inOrder.later⟩
  distinct := nodup_cons.mpr ⟨isNew, inOrder.distinct⟩
  past := forall_mem_cons.mpr ⟨Nat.le_refl _, inOrder.tick.past⟩

/-- Sorting the stamps puts the first used first. -/
theorem mergeSort_stamps :
    (slots.map Slot.stamp).mergeSort = (ordered.map Slot.stamp).reverse := by
  have sorted := @pairwise_mergeSort Nat
    (fun first second => decide (first ≤ second))
    (fun _ _ _ => by simpa using Nat.le_trans)
    (fun first second => by simpa using Nat.le_total first second)
    (slots.map Slot.stamp)
  simp only [decide_eq_true_eq] at sorted
  have reversed : (ordered.map Slot.stamp).reverse.Pairwise (· ≤ ·) := by
    rw [pairwise_reverse, pairwise_map]
    exact inOrder.later.imp Nat.le_of_lt
  refine List.Perm.eq_of_pairwise (fun _ _ _ _ => Nat.le_antisymm) sorted
    reversed ((mergeSort_perm _ _).trans ?_)
  exact (inOrder.perm.symm.map Slot.stamp).trans (reverse_perm _).symm

/-- What is evicted was used before what is kept. -/
theorem evict (enough : keep ≤ ordered.length) :
    InOrder (Recency.evict slots keep) now (ordered.take keep) := by
  cases keep with
  | zero =>
    rw [Recency.evict, if_pos rfl]
    exact ⟨.refl _, .nil, nodup_nil, by simp⟩
  | succ before =>
    -- The pivot is the last that is kept.
    obtain ⟨front, pivot, back, rfl, isBefore⟩ :
        ∃ front pivot back, ordered = front ++ pivot :: back ∧
          front.length = before :=
      ⟨ordered.take before, ordered[before], ordered.drop (before + 1),
        by rw [← drop_eq_getElem_cons, take_append_drop],
        length_take_of_le (Nat.le_of_succ_le enough)⟩
    have later := inOrder.later
    rw [pairwise_append, pairwise_cons] at later
    obtain ⟨-, ⟨pivotLater, -⟩, frontLater⟩ := later
    have taken : (front ++ pivot :: back).take (before + 1) =
        front ++ [pivot] := by
      rw [append_cons]
      exact take_left' (by simp [isBefore])
    have isKept : (front ++ pivot :: back).filter
        (fun slot => pivot.stamp ≤ slot.stamp) = front ++ [pivot] := by
      have frontKept : front.filter (fun slot => pivot.stamp ≤ slot.stamp) =
          front :=
        filter_eq_self.mpr fun slot isSlot => decide_eq_true
          (Nat.le_of_lt (frontLater slot isSlot pivot mem_cons_self))
      have backDropped : back.filter
          (fun slot => pivot.stamp ≤ slot.stamp) = [] :=
        filter_eq_nil_iff.mpr fun slot isSlot => by
          have older := pivotLater slot isSlot
          simpa using older
      simp [filter_append, frontKept, backDropped]
    have isOldest : ((slots.map Slot.stamp).mergeSort)[
        (slots.map Slot.stamp).length - (before + 1)]? = some pivot.stamp := by
      have place : (front ++ pivot :: back).length - (before + 1) =
          (back.map Slot.stamp).reverse.length := by
        simp only [length_append, length_cons, length_reverse, length_map]
        omega
      rw [inOrder.mergeSort_stamps, length_map, ← inOrder.length_eq, place]
      simp
    rw [Recency.evict, if_neg (Nat.succ_ne_zero before)]
    dsimp only
    rw [isOldest, taken]
    refine ⟨?_, ?_, ?_, ?_⟩
    · have filtered := inOrder.perm.filter
        (fun slot => decide (pivot.stamp ≤ slot.stamp))
      rwa [isKept] at filtered
    · rw [← taken]
      exact inOrder.later.sublist (take_sublist _ _)
    · rw [← taken]
      exact inOrder.distinct.sublist ((take_sublist _ _).map Slot.key)
    · rw [← taken]
      exact fun slot isSlot => inOrder.past slot (mem_of_mem_take isSlot)

variable [DecidableEq κ]

/-- The key of a slot that is found is among the keys in order. -/
theorem mem_keys_of_find
    (isFound : find slots key = some slot) :
    slot ∈ ordered ∧ slot.key = key :=
  ⟨inOrder.perm.mem_iff.mpr (mem_of_find?_eq_some isFound),
    by simpa using find?_some isFound⟩

theorem not_mem_keys_of_find (notFound : find slots key = none) :
    key ∉ ordered.map Slot.key := by
  rintro isKey
  obtain ⟨slot, isSlot, same⟩ := mem_map.mp isKey
  have other := find?_eq_none.mp notFound slot (inOrder.perm.mem_iff.mp isSlot)
  simp [same] at other

/-- A slot that is stamped is the last used; the others stay in order. -/
theorem restamp (isSlot : slot ∈ ordered) :
    ∃ after, InOrder (Recency.restamp slots slot.key (now + 1)) (now + 1) after ∧
      after.map Slot.key =
        slot.key :: (ordered.map Slot.key).erase slot.key := by
  obtain ⟨front, back, rfl⟩ := append_of_mem isSlot
  have distinct := inOrder.distinct
  rw [map_append, map_cons, nodup_middle] at distinct
  obtain ⟨notOther, distinctOthers⟩ := nodup_cons.mp distinct
  rw [← map_append] at notOther distinctOthers
  have kept : ∀ other ∈ front ++ back, other.key ≠ slot.key :=
    fun other isOther same => notOther (same ▸ mem_map_of_mem isOther)
  refine ⟨{ slot with stamp := now + 1 } :: (front ++ back), ?_, ?_⟩
  · have others : (front ++ back).map (fun other =>
        if other.key = slot.key then { other with stamp := now + 1 }
        else other) = front ++ back := by
      conv_rhs => rw [← map_id (front ++ back)]
      exact map_congr_left fun other isOther => if_neg (kept other isOther)
    have moved : (slot :: (front ++ back)).Perm slots :=
      perm_middle.symm.trans inOrder.perm
    have fewer : (front ++ back).Sublist (front ++ slot :: back) :=
      (sublist_cons_self slot back).append_left front
    refine ⟨?_, ?_, nodup_cons.mpr ⟨notOther, distinctOthers⟩, ?_⟩
    · have mapped := moved.map fun other =>
      if other.key = slot.key then { other with stamp := now + 1 } else other
      rw [map_cons, others, if_pos rfl] at mapped
      exact mapped
    · exact pairwise_cons.mpr
        ⟨fun other isOther =>
          Nat.lt_succ_of_le (inOrder.past other (fewer.subset isOther)),
          inOrder.later.sublist fewer⟩
    · exact forall_mem_cons.mpr ⟨Nat.le_refl _, fun other isOther =>
      Nat.le_succ_of_le (inOrder.past other (fewer.subset isOther))⟩
  · have notFront : slot.key ∉ front.map Slot.key := fun isFront =>
    notOther (by rw [map_append]; exact mem_append_left _ isFront)
    rw [map_cons, map_append, map_append, map_cons,
      erase_append_right _ notFront, erase_cons_head]

end InOrder

end Recency

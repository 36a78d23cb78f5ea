import AmberStore.BinaryFuse.Slots

/-!
# Counting hashes per slot

The count and hash tables of a construction are compared with the list of
hashes they stand for.  A cell says how many of the hashes touch a slot, the
exclusive or of the ranks they touch it with, and the exclusive or of the
hashes.  A byte holds the count only modulo 64; the construction flags a count
that runs over, and without that flag a hash is dropped only as a duplicate.
-/

open Bounded Checked
open List hiding after

namespace AmberStore.BinaryFuse

/-! ## Cells -/

/-- What the hashes that touch one slot add up to. -/
structure Cell where
  count : Nat
  /-- The exclusive or of their ranks. -/
  rank : Nat
  /-- The exclusive or of the hashes. -/
  hash : UInt64

/-- The cell of a slot nothing touches. -/
def Cell.empty : Cell := ⟨0, 0, 0⟩

/-- The cell with one more hash. -/
def Cell.put (cell : Cell) (rank : Fin 3) (hash : UInt64) : Cell :=
  ⟨cell.count + 1, cell.rank ^^^ rank.val, cell.hash ^^^ hash⟩

/-- The byte a cell's count and rank are kept in. -/
def Cell.packed (cell : Cell) : UInt8 :=
  UInt8.ofNat (4 * cell.count + cell.rank)

/-- The rank a hash touches a slot with, if it does. -/
def rankIn (filter : BinaryFuse16) (hash : UInt64) (index : Nat) :
    Option (Fin 3) :=
  (List.finRange 3).find? fun rank => slotIndex filter hash rank = index

/-- The cell of a slot under a list of hashes. -/
def cellOf (filter : BinaryFuse16) (index : Nat) : List UInt64 → Cell
  | [] => .empty
  | hash :: hashes =>
    match rankIn filter hash index with
    | some rank => (cellOf filter index hashes).put rank hash
    | none => cellOf filter index hashes

section Cells

variable {filter : BinaryFuse16} {bits count : Nat}

theorem rankIn_eq_none_iff (hash : UInt64) (index : Nat) :
    rankIn filter hash index = none ↔
      ∀ rank, slotIndex filter hash rank ≠ index := by
  simp [rankIn]

theorem slotIndex_of_rankIn
    {hash : UInt64}
    (found : rankIn filter hash index = some rank) :
    slotIndex filter hash rank = index := by
  simpa using find?_some found

theorem WellShaped.rankIn_eq_some_iff
    (shaped : WellShaped filter bits count)
    (hash : UInt64) (index : Nat) (rank : Fin 3) :
    rankIn filter hash index = some rank ↔
      slotIndex filter hash rank = index := by
  refine ⟨slotIndex_of_rankIn, fun here => ?_⟩
  cases found : rankIn filter hash index with
  | none => exact absurd here ((rankIn_eq_none_iff hash index).mp found rank)
  | some other =>
    have otherHere := slotIndex_of_rankIn found
    rw [shaped.slotIndex_injective hash (here.trans otherHere.symm)]

@[simp] theorem WellShaped.rankIn_slotIndex
    (shaped : WellShaped filter bits count)
    (hash : UInt64) (rank : Fin 3) :
    rankIn filter hash (slotIndex filter hash rank) = some rank :=
  (shaped.rankIn_eq_some_iff _ _ _).mpr rfl

theorem xor_rank_lt (small : left < 4) (rank : Fin 3) :
    left ^^^ rank.val < 4 :=
  @Nat.xor_lt_two_pow left rank.val 2 small (by omega)

theorem cellOf_rank_lt (index : Nat) (hashes : List UInt64) :
    (cellOf filter index hashes).rank < 4 := by
  induction hashes with
  | nil => exact Nat.zero_lt_succ 3
  | cons hash hashes ih =>
    unfold cellOf
    split
    · exact xor_rank_lt ih _
    · exact ih

theorem cellOf_cons_some
    {hash : UInt64} (hashes : List UInt64)
    (touched : rankIn filter hash index = some rank) :
    cellOf filter index (hash :: hashes) =
      (cellOf filter index hashes).put rank hash := by
  rw [cellOf, touched]

theorem cellOf_cons_none
    {hash : UInt64} (hashes : List UInt64)
    (untouched : rankIn filter hash index = none) :
    cellOf filter index (hash :: hashes) = cellOf filter index hashes := by
  rw [cellOf, untouched]

theorem Cell.put_comm
    (cell : Cell) (rank other : Fin 3) (hash otherHash : UInt64) :
    (cell.put rank hash).put other otherHash =
      (cell.put other otherHash).put rank hash := by
  simp only [put, Cell.mk.injEq]
  refine ⟨trivial, ?_, ?_⟩
  · rw [Nat.xor_assoc, Nat.xor_comm rank.val, ← Nat.xor_assoc]
  · rw [UInt64.xor_assoc, UInt64.xor_comm hash, ← UInt64.xor_assoc]

/-- A cell does not depend on the order of the hashes. -/
theorem cellOf_perm
    (index : Nat)
    (permuted : left.Perm right) :
    cellOf filter index left = cellOf filter index right := by
  induction permuted with
  | nil => rfl
  | cons hash _ ih =>
    simp only [cellOf, ih]
  | swap first second rest =>
    simp only [cellOf]
    cases rankIn filter first index with
    | none => rfl
    | some firstRank =>
      cases rankIn filter second index with
      | none => rfl
      | some secondRank => exact Cell.put_comm _ _ _ _ _
  | trans _ _ firstEq secondEq => exact firstEq.trans secondEq

theorem cellOf_count_zero
    (alone : (cellOf filter index hashes).count = 0) :
    ∀ hash ∈ hashes, rankIn filter hash index = none := by
  induction hashes with
  | nil => simp
  | cons head hashes ih =>
    cases touched : rankIn filter head index with
    | some rank =>
      rw [cellOf_cons_some hashes touched] at alone
      cases alone
    | none =>
      rw [cellOf_cons_none hashes touched] at alone
      intro hash member
      rcases mem_cons.mp member with rfl | rest
      · exact touched
      · exact ih alone hash rest

theorem cellOf_of_untouched
    (untouched : ∀ hash ∈ hashes, rankIn filter hash index = none) :
    cellOf filter index hashes = .empty := by
  induction hashes with
  | nil => rfl
  | cons head hashes ih =>
    rw [cellOf_cons_none hashes (untouched head mem_cons_self)]
    exact ih fun hash member =>
      untouched hash (mem_cons_of_mem _ member)

/-- A slot that one hash touches shows that hash and its rank. -/
theorem cellOf_count_one
    (alone : (cellOf filter index hashes).count = 1) :
    ∃ hash ∈ hashes, ∃ rank, rankIn filter hash index = some rank ∧
      (cellOf filter index hashes).hash = hash ∧
        (cellOf filter index hashes).rank = rank.val := by
  induction hashes with
  | nil => cases alone
  | cons head hashes ih =>
    cases touched : rankIn filter head index with
    | none =>
      rw [cellOf_cons_none hashes touched] at alone ⊢
      obtain ⟨hash, member, rest⟩ := ih alone
      exact ⟨hash, mem_cons_of_mem _ member, rest⟩
    | some rank =>
      rw [cellOf_cons_some hashes touched] at alone ⊢
      have others : (cellOf filter index hashes).count = 0 := by
        simpa [Cell.put] using alone
      have empty := cellOf_of_untouched (cellOf_count_zero others)
      refine ⟨head, mem_cons_self, rank, touched, ?_, ?_⟩
      · simp [empty, Cell.put, Cell.empty]
      · simp [empty, Cell.put, Cell.empty]

end Cells

/-! ## Tables -/

theorem rankBits_toNat (rank : Fin 3) : (rankBits rank).toNat = rank.val :=
  UInt8.toNat_ofNat_of_lt' (lt_trans rank.isLt (by decide))

theorem Cell.packed_toNat (cell : Cell) :
    cell.packed.toNat = (4 * cell.count + cell.rank) % 256 :=
  UInt8.toNat_ofNat'

theorem Cell.packed_succ (count rank : Nat) (hash : UInt64) :
    (⟨count + 1, rank, hash⟩ : Cell).packed =
      (⟨count, rank, hash⟩ : Cell).packed + 4 := by
  apply UInt8.toNat_inj.mp
  rw [UInt8.toNat_add, packed_toNat, packed_toNat]
  change (4 * (count + 1) + rank) % 256 = ((4 * count + rank) % 256 + 4) % 256
  omega

theorem Cell.packed_xor
    (count : Nat) (small : held < 4) (rank : Fin 3)
    (hash : UInt64) :
    (⟨count, held, hash⟩ : Cell).packed ^^^ rankBits rank =
      (⟨count, held ^^^ rank.val, hash⟩ : Cell).packed := by
  apply UInt8.toNat_inj.mp
  have rankSmall : rank.val < 2 ^ 2 := by omega
  have xorSmall : held ^^^ rank.val < 4 := xor_rank_lt small rank
  rw [UInt8.toNat_xor, packed_toNat, packed_toNat, rankBits_toNat,
    xor_low_eq _ rankSmall]
  change 4 * ((4 * count + held) % 256 / 4) +
    ((4 * count + held) % 256 % 4 ^^^ rank.val) =
      (4 * count + (held ^^^ rank.val)) % 256
  have low : (4 * count + held) % 256 % 4 = held := by omega
  rw [low]
  omega

theorem Cell.packed_put
    (cell : Cell) (small : cell.rank < 4) (rank : Fin 3) (hash : UInt64) :
    (cell.packed + 4) ^^^ rankBits rank = (cell.put rank hash).packed := by
  rw [packed, ← packed, ← packed_succ, packed_xor _ small]
  rfl

theorem Cell.packed_unput
    (cell : Cell) (small : cell.rank < 4) (rank : Fin 3) (hash : UInt64) :
    ((cell.put rank hash).packed - 4) ^^^ rankBits rank = cell.packed := by
  rw [put, packed_succ, UInt8.add_sub_cancel,
    packed_xor _ (xor_rank_lt small rank), Nat.xor_assoc, Nat.xor_self,
    Nat.xor_zero]
  rfl

/-- The tables show a cell at a slot. -/
def Holds (tables : Tables) (index : Nat) (cell : Cell) : Prop :=
  tables.t2count[index]? = some cell.packed ∧
    tables.t2hash[index]? = some cell.hash

/-- The tables change at one slot, where they show a cell then. -/
def ChangesTo (tables next : Tables) (index : Nat) (cell : Cell) : Prop :=
  Holds next index cell ∧ ∀ other ≠ index, ∀ otherCell,
    Holds tables other otherCell → Holds next other otherCell

/-- A slot that shows a cell can be changed. -/
theorem Holds.change
    (holds : Holds tables index cell) (newCount : UInt8 → UInt8)
    (newHash : UInt64 → UInt64)
    (isPacked : newCount cell.packed = changed.packed)
    (isHash : newHash cell.hash = changed.hash) :
    ∃ next, (do
      let count ← read Stop.indexOutOfBounds tables.t2count index
      let t2count ← write .indexOutOfBounds tables.t2count index
        (newCount count)
      let held ← read .indexOutOfBounds tables.t2hash index
      let t2hash ← write .indexOutOfBounds tables.t2hash index (newHash held)
      .ok (⟨t2count, t2hash⟩ : Tables)) = Except.ok next ∧
        ChangesTo tables next index changed := by
  have countInside := (List.getElem?_eq_some_iff.mp holds.1).1
  have hashInside := (List.getElem?_eq_some_iff.mp holds.2).1
  rw [(read_eq_ok_iff _).mpr holds.1, ok_bind,
    (write_eq_ok_iff _).mpr ⟨countInside, rfl⟩, ok_bind,
    (read_eq_ok_iff _).mpr holds.2, ok_bind,
    (write_eq_ok_iff _).mpr ⟨hashInside, rfl⟩, ok_bind, isPacked,
    isHash]
  refine ⟨_, rfl, ⟨getElem?_set_self countInside,
    getElem?_set_self hashInside⟩, ?_⟩
  intro other different otherCell otherHolds
  simpa only [Holds, getElem?_set_ne (Ne.symm different)] using otherHolds

/-- Adding a hash at a slot. -/
theorem Holds.add
    (holds : Holds tables index cell) (small : cell.rank < 4) (rank : Fin 3)
    (hash : UInt64) :
    ∃ next, tables.add index (rankBits rank) hash = .ok next ∧
      ChangesTo tables next index (cell.put rank hash) :=
  holds.change (fun count => (count + 4) ^^^ rankBits rank) (· ^^^ hash)
    (cell.packed_put small rank hash) rfl

/-- Removing a hash from a slot undoes adding it. -/
theorem Holds.remove
    {hash : UInt64}
    (holds : Holds tables index (cell.put rank hash)) (small : cell.rank < 4) :
    ∃ next, tables.remove index (rankBits rank) hash = .ok next ∧
      ChangesTo tables next index cell := by
  refine holds.change (fun count => (count - 4) ^^^ rankBits rank)
    (· ^^^ hash) (cell.packed_unput small rank hash) ?_
  simp only [Cell.put]
  rw [UInt64.xor_assoc, UInt64.xor_self, UInt64.xor_zero]

/-- The tables show the cells of a list of hashes at every slot. -/
def Represents (filter : BinaryFuse16) (tables : Tables)
    (hashes : List UInt64) : Prop :=
  ∀ index < filter.fingerprints.length,
    Holds tables index (cellOf filter index hashes)

section Hashes

variable {filter : BinaryFuse16} {bits count : Nat}

namespace WellShaped

variable (shaped : WellShaped filter bits count)
include shaped

theorem cellOf_slot
    (hash : UInt64) (rank : Fin 3) (hashes : List UInt64) :
    cellOf filter (slotIndex filter hash rank) (hash :: hashes) =
      (cellOf filter (slotIndex filter hash rank) hashes).put rank hash :=
  cellOf_cons_some hashes (shaped.rankIn_slotIndex hash rank)

/-- Changing the three slots of a hash in turn takes the tables from one list
of hashes to another whose cells differ there only. -/
theorem change_slots
    {hash : UInt64}
    {change : Tables → Nat → UInt8 → UInt64 → Except Stop Tables}
    (apart : ∀ index, rankIn filter hash index = none →
      cellOf filter index before = cellOf filter index after)
    (changes : ∀ tables rank,
      Holds tables (slotIndex filter hash rank)
        (cellOf filter (slotIndex filter hash rank) before) →
      ∃ next, change tables (slotIndex filter hash rank) (rankBits rank) hash =
          .ok next ∧
        ChangesTo tables next (slotIndex filter hash rank)
          (cellOf filter (slotIndex filter hash rank) after))
    (represents : Represents filter tables before) :
    ∃ next, (do
      let tables ← change tables (slotIndex filter hash 0) 0 hash
      let tables ← change tables (slotIndex filter hash 1) 1 hash
      change tables (slotIndex filter hash 2) 2 hash) = .ok next ∧
        Represents filter next after := by
  have ne (left right : Fin 3) (different : left ≠ right) :=
    (shaped.slotIndex_injective hash).ne different
  have ranked (rank : Fin 3) := represents _ (shaped.slotIndex_lt hash rank)
  obtain ⟨next0, step0, here0, keep0⟩ := changes tables 0 (ranked 0)
  obtain ⟨next1, step1, here1, keep1⟩ := changes next0 1
    (keep0 _ (ne 1 0 (by decide)) _ (ranked 1))
  obtain ⟨next2, step2, here2, keep2⟩ := changes next1 2
    (keep1 _ (ne 2 1 (by decide)) _
      (keep0 _ (ne 2 0 (by decide)) _ (ranked 2)))
  refine ⟨next2, ?_, fun index inside => ?_⟩
  · change (change tables _ (rankBits 0) hash >>= _) = _
    rw [step0, ok_bind]
    change (change next0 _ (rankBits 1) hash >>= _) = _
    rw [step1, ok_bind]
    exact step2
  · cases touched : rankIn filter hash index with
    | none =>
      have off (rank : Fin 3) : index ≠ slotIndex filter hash rank :=
        Ne.symm ((rankIn_eq_none_iff hash index).mp touched rank)
      rw [← apart index touched]
      exact keep2 _ (off 2) _ (keep1 _ (off 1) _
        (keep0 _ (off 0) _ (represents index inside)))
    | some rank =>
      rw [← slotIndex_of_rankIn touched]
      fin_cases rank
      · exact keep2 _ (ne 0 2 (by decide)) _
          (keep1 _ (ne 0 1 (by decide)) _ here0)
      · exact keep2 _ (ne 1 2 (by decide)) _ here1
      · exact here2

/-- Adding a hash at its three slots represents one hash more. -/
theorem addSlots_represents
    (hash : UInt64)
    (represents : Represents filter tables hashes) :
    ∃ next, tables.addSlots filter hash = .ok next ∧
      Represents filter next (hash :: hashes) := by
  refine shaped.change_slots
    (fun index untouched => (cellOf_cons_none hashes untouched).symm) ?_
    represents
  intro tables rank holds
  rw [shaped.cellOf_slot]
  exact holds.add (cellOf_rank_lt _ _) rank hash

/-- Removing a hash from its three slots represents one hash less. -/
theorem removeSlots_represents
    {hash : UInt64}
    (represents : Represents filter tables (hash :: hashes)) :
    ∃ next, tables.removeSlots filter hash = .ok next ∧
      Represents filter next hashes := by
  refine shaped.change_slots
    (fun index untouched => cellOf_cons_none hashes untouched) ?_ represents
  intro tables rank holds
  rw [shaped.cellOf_slot] at holds
  exact holds.remove (cellOf_rank_lt _ _)

/-- What is looked at to tell a duplicate are the cells of the slots. -/
theorem isDuplicate_eq
    (hash : UInt64)
    (represents : Represents filter tables hashes) :
    ∃ flag, tables.isDuplicate filter hash = .ok flag ∧ (flag = true →
      ∃ rank, (cellOf filter (slotIndex filter hash rank) hashes).hash = 0 ∧
        (cellOf filter (slotIndex filter hash rank) hashes).packed = 8) := by
  have counts (rank : Fin 3) := (read_eq_ok_iff Stop.indexOutOfBounds).mpr
    (represents _ (shaped.slotIndex_lt hash rank)).1
  have hashes (rank : Fin 3) := (read_eq_ok_iff Stop.indexOutOfBounds).mpr
    (represents _ (shaped.slotIndex_lt hash rank)).2
  simp only [slotIndex, slot] at counts hashes
  simp only [Tables.isDuplicate, hashes 0, hashes 1, hashes 2, counts 0,
    counts 1, counts 2, ok_bind]
  refine ⟨_, rfl, fun flagged => ?_⟩
  obtain ⟨-, here | here | here⟩ := of_decide_eq_true flagged
  · exact ⟨0, here⟩
  · exact ⟨1, here⟩
  · exact ⟨2, here⟩

end WellShaped

/-- A hash flagged as a duplicate is one already there. -/
theorem mem_of_duplicate
    {hash : UInt64}
    (small : (cellOf filter index hashes).count < 64)
    (noHash : ((cellOf filter index hashes).put rank hash).hash = 0)
    (two : ((cellOf filter index hashes).put rank hash).packed = 8) :
    hash ∈ hashes := by
  have rankBelow := xor_rank_lt (@cellOf_rank_lt filter index hashes) rank
  have single : (cellOf filter index hashes).count = 1 := by
    have packedNat := congrArg UInt8.toNat two
    rw [Cell.packed_toNat] at packedNat
    change (4 * ((cellOf filter index hashes).count + 1) +
      ((cellOf filter index hashes).rank ^^^ rank.val)) % 256 = 8 at packedNat
    omega
  obtain ⟨other, member, _, _, otherHash, _⟩ := cellOf_count_one single
  change (cellOf filter index hashes).hash ^^^ hash = 0 at noHash
  rw [otherHash] at noHash
  rw [← UInt64.xor_eq_zero_iff.mp noHash]
  exact member

/-- What is looked at to tell a count that ran over are the cells. -/
theorem WellShaped.ranOver_eq
    (shaped : WellShaped filter bits count) (hash : UInt64)
    (represents : Represents filter tables hashes) :
    ∃ flag, tables.ranOver filter hash = .ok flag ∧ (flag = false →
      ∀ rank, ¬(cellOf filter (slotIndex filter hash rank) hashes).packed <
        4) := by
  have counts (rank : Fin 3) := (read_eq_ok_iff Stop.indexOutOfBounds).mpr
    (represents _ (shaped.slotIndex_lt hash rank)).1
  simp only [slotIndex, slot] at counts
  simp only [Tables.ranOver, counts 0, counts 1, counts 2, ok_bind]
  refine ⟨_, rfl, fun clear rank => ?_⟩
  have clear := of_decide_eq_false clear
  rw [not_or, not_or] at clear
  fin_cases rank
  · exact clear.1
  · exact clear.2.1
  · exact clear.2.2

/-- What a counting state stands for: the hashes seen so far, and those of
them the tables hold. -/
structure Counted (filter : BinaryFuse16) (counting : Counting)
    (seen held : List UInt64) : Prop where
  represents : Represents filter counting.tables held
  total : held.length + counting.duplicates = seen.length
  small : counting.error = false →
    ∀ index, (cellOf filter index held).count < 64
  kept : counting.error = false → ∀ hash ∈ seen, hash ∈ held

theorem counted_initial (filter : BinaryFuse16) :
    Counted filter
      ⟨⟨List.replicate filter.fingerprints.length 0,
        List.replicate filter.fingerprints.length 0⟩, false, 0⟩ [] [] where
  represents := fun _ inside => ⟨getElem?_replicate_of_lt inside,
    getElem?_replicate_of_lt inside⟩
  total := rfl
  small := fun _ _ => Nat.zero_lt_succ 63
  kept := by simp

/-- Without a flag no slot of the hash just added ran over. -/
theorem small_of_clear
    {hash : UInt64}
    (small : ∀ index, (cellOf filter index hashes).count < 64)
    (clear : ∀ rank, ¬(cellOf filter (slotIndex filter hash rank)
      (hash :: hashes)).packed < 4) (index : Nat) :
    (cellOf filter index (hash :: hashes)).count < 64 := by
  have below := small index
  cases touched : rankIn filter hash index with
  | none => rwa [cellOf_cons_none hashes touched]
  | some rank =>
    have above := clear rank
    have rankBelow := @cellOf_rank_lt filter index (hash :: hashes)
    rw [slotIndex_of_rankIn touched, UInt8.lt_iff_toNat_lt,
      Cell.packed_toNat] at above
    rw [cellOf_cons_some hashes touched] at above rankBelow ⊢
    change ¬(4 * ((cellOf filter index hashes).count + 1) + _) % 256 < 4
      at above
    change (cellOf filter index hashes).count + 1 < 64
    omega

/-- One step of the counting loop. -/
theorem WellShaped.addHash_counted
    (shaped : WellShaped filter bits count)
    (counted : Counted filter counting seen held) (hash : UInt64) :
    ∃ next heldNext, addHash filter counting hash = .ok next ∧
      Counted filter next (hash :: seen) heldNext := by
  obtain ⟨added, addStep, addedRepresents⟩ :=
    shaped.addSlots_represents hash counted.represents
  obtain ⟨duplicate, flag, isDuplicate⟩ :=
    shaped.isDuplicate_eq hash addedRepresents
  have total := counted.total
  unfold addHash
  rw [addStep, ok_bind, flag, ok_bind]
  cases duplicate with
  | true =>
    obtain ⟨restored, restoreStep, represents⟩ :=
      shaped.removeSlots_represents addedRepresents
    obtain ⟨ranOver, overStep, -⟩ := shaped.ranOver_eq hash represents
    rw [Tables.settle, if_pos rfl, restoreStep, ok_bind, overStep, ok_bind]
    refine ⟨_, held, rfl, represents, ?_, ?_, ?_⟩
    · simp only [if_true, length_cons]
      omega
    · intro clear
      exact counted.small (Bool.or_eq_false_iff.mp clear).1
    · intro clear old member
      have clearBefore := (Bool.or_eq_false_iff.mp clear).1
      rcases mem_cons.mp member with rfl | earlier
      · obtain ⟨rank, noHash, two⟩ := isDuplicate rfl
        rw [shaped.cellOf_slot] at noHash two
        exact mem_of_duplicate (counted.small clearBefore _) noHash two
      · exact counted.kept clearBefore old earlier
  | false =>
    obtain ⟨ranOver, overStep, isClear⟩ :=
      shaped.ranOver_eq hash addedRepresents
    rw [Tables.settle, if_neg (by decide), ok_bind, overStep, ok_bind]
    refine ⟨_, hash :: held, rfl, addedRepresents, ?_, ?_, ?_⟩
    · simp only [length_cons, Bool.false_eq_true, if_false]
      omega
    · intro clear
      obtain ⟨clearBefore, clearHere⟩ := Bool.or_eq_false_iff.mp clear
      exact small_of_clear (counted.small clearBefore) (isClear clearHere)
    · intro clear old member
      have clearBefore := (Bool.or_eq_false_iff.mp clear).1
      rcases mem_cons.mp member with rfl | earlier
      · exact mem_cons_self
      · exact mem_cons_of_mem _ (counted.kept clearBefore old earlier)

/-- The whole counting loop. -/
theorem WellShaped.addHashes_counted
    (shaped : WellShaped filter bits count)
    (counted : Counted filter counting seen held) (hashes : List UInt64) :
    ∃ final heldFinal, addHashes filter counting hashes = .ok final ∧
      Counted filter final (hashes.reverse ++ seen) heldFinal := by
  induction hashes generalizing counting seen held with
  | nil => exact ⟨counting, held, rfl, counted⟩
  | cons hash hashes ih =>
    obtain ⟨next, heldNext, step, countedNext⟩ :=
      shaped.addHash_counted counted hash
    obtain ⟨final, heldFinal, rest, countedFinal⟩ := ih countedNext
    refine ⟨final, heldFinal, ?_, by simpa using countedFinal⟩
    rw [addHashes, step, ok_bind, rest]

end Hashes

end AmberStore.BinaryFuse

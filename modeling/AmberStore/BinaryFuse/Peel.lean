import AmberStore.BinaryFuse.Counting
import AmberStore.Lib.PeelingOrder
import Mathlib.Data.Finset.Card

/-!
# Peeling

The peeling loop takes hashes that are alone in some slot off the tables.  The
slot a hash was found at keeps its entry, and the invariant says why that is
harmless: no hash left touches it, and it is not queued again.  The stack the
loop leaves is a peeling order of the hashes it took off.
-/

open Bounded Checked
open List hiding filter

namespace AmberStore.BinaryFuse

/-! ## Packed counts -/

theorem Cell.packed_shift_toNat
    (cell : Cell) (rankSmall : cell.rank < 4) (small : cell.count < 64) :
    (cell.packed >>> 2).toNat = cell.count := by
  rw [UInt8.toNat_shiftRight, packed_toNat, Nat.shiftRight_eq_div_pow]
  change (4 * cell.count + cell.rank) % 256 / 2 ^ 2 = cell.count
  omega

theorem Cell.packed_shift_eq_iff
    (cell : Cell) (rankSmall : cell.rank < 4) (small : cell.count < 64)
    (value : UInt8) :
    cell.packed >>> 2 = value ↔ cell.count = value.toNat := by
  rw [← UInt8.toNat_inj, cell.packed_shift_toNat rankSmall small]

theorem Cell.packed_low
    (cell : Cell) {rank : Fin 3} (isRank : cell.rank = rank.val) :
    cell.packed &&& 3 = rankBits rank := by
  apply UInt8.toNat_inj.mp
  rw [UInt8.toNat_and, packed_toNat, rankBits_toNat]
  change (4 * cell.count + cell.rank) % 256 &&& (2 ^ 2 - 1) = rank.val
  rw [Nat.and_two_pow_sub_one_eq_mod]
  have rankBound := rank.isLt
  omega

/-! ## Lists that a vector's front shows -/

theorem take_set_self
    (values : List α) (value : α)
    (inside : index < values.length) :
    (values.set index value).take (index + 1) =
      values.take index ++ [value] := by
  rw [take_add_one, take_set_of_le (Nat.le_refl index),
    getElem?_set_self inside]
  rfl

theorem fin3_cases (rank other : Fin 3) :
    other = rank ∨ other = rank + 1 ∨ other = rank + 2 := by
  decide +revert

theorem fin3_apart (rank : Fin 3) :
    rank + 1 ≠ rank ∧ rank + 2 ≠ rank ∧ rank + 2 ≠ rank + 1 := by
  decide +revert

/-! ## The queue -/

/-- The slots of a queue, its top last. -/
def queueOf (alone : List UInt32) (qsize : Nat) : List Nat :=
  (alone.take qsize).map UInt32.toNat

theorem queueOf_push
    (index : UInt32) (room : qsize < alone.length) :
    queueOf (alone.set qsize index) (qsize + 1) =
      queueOf alone qsize ++ [index.toNat] := by
  rw [queueOf, take_set_self _ _ room, map_append]
  rfl

theorem queueOf_past (alone : List UInt32) (index : UInt32) :
    queueOf (alone.set qsize index) qsize = queueOf alone qsize := by
  rw [queueOf, take_set_of_le (Nat.le_refl qsize)]
  rfl

/-- The top of the queue is its last slot. -/
theorem queueOf_top
    (nonempty : qsize ≠ 0)
    (top : alone[qsize - 1]? = some index) :
    queueOf alone qsize = queueOf alone (qsize - 1) ++ [index.toNat] := by
  obtain ⟨size, rfl⟩ := Nat.exists_eq_succ_of_ne_zero nonempty
  simp only [queueOf, Nat.succ_eq_add_one, Nat.add_sub_cancel] at top ⊢
  rw [take_add_one, top, map_append]
  rfl

theorem queueOf_below
    (nonempty : qsize ≠ 0) (top : alone[qsize - 1]? = some index)
    (isBelow : other ∈ queueOf alone (qsize - 1)) :
    other ∈ queueOf alone qsize := by
  rw [queueOf_top nonempty top]
  exact mem_append_left _ isBelow

theorem top_mem_queueOf
    (nonempty : qsize ≠ 0) (top : alone[qsize - 1]? = some index) :
    index.toNat ∈ queueOf alone qsize := by
  rw [queueOf_top nonempty top]
  exact mem_append_right _ (mem_singleton_self _)

/-- A queue of slots that wait, each of them once. -/
structure Queued (Waits : Nat → Prop) (alone : List UInt32) (qsize : Nat) :
    Prop where
  length : (queueOf alone qsize).length = qsize
  nodup : (queueOf alone qsize).Nodup
  waiting : ∀ index ∈ queueOf alone qsize, Waits index

namespace Queued

variable {Waits : Nat → Prop} {alone : List UInt32} {qsize : Nat}

/-- There is room for a slot that is not queued. -/
theorem room
    (queued : Queued Waits alone qsize)
    (inside : ∀ index, Waits index → index < bound)
    (isInside : spare < bound) (notQueued : spare ∉ queueOf alone qsize) :
    qsize < bound := by
  have nodup := nodup_cons.mpr ⟨notQueued, queued.nodup⟩
  have below : (spare :: queueOf alone qsize).toFinset ⊆
      Finset.range bound := by
    intro index member
    rw [Finset.mem_range]
    rcases mem_cons.mp (mem_toFinset.mp member) with rfl | isQueued
    · exact isInside
    · exact inside index (queued.waiting index isQueued)
  have few := Finset.card_le_card below
  rw [toFinset_card_of_nodup nodup, Finset.card_range, length_cons,
    queued.length] at few
  exact few

theorem push
    (queued : Queued Waits alone qsize) (room : qsize < alone.length)
    (notQueued : index.toNat ∉ queueOf alone qsize)
    (waits : Waits index.toNat) :
    Queued Waits (alone.set qsize index) (qsize + 1) := by
  have pushed := queueOf_push index room
  refine ⟨?_, ?_, ?_⟩
  · rw [pushed, length_append, queued.length, length_singleton]
  · rw [pushed, ← concat_eq_append]
    exact queued.nodup.concat notQueued
  · rw [pushed, forall_mem_append]
    exact ⟨queued.waiting, fun other isTop => (mem_singleton.mp isTop) ▸ waits⟩

theorem past (queued : Queued Waits alone qsize) (index : UInt32) :
    Queued Waits (alone.set qsize index) qsize := by
  have same := @queueOf_past qsize alone index
  exact ⟨same ▸ queued.length, same ▸ queued.nodup, same ▸ queued.waiting⟩

/-- Without its top a queue holds the slots below it. -/
theorem pop
    (queued : Queued Waits alone qsize) (nonempty : qsize ≠ 0)
    (top : alone[qsize - 1]? = some index) :
    index.toNat ∉ queueOf alone (qsize - 1) ∧
      Queued Waits alone (qsize - 1) := by
  have split := queueOf_top nonempty top
  have length := queued.length
  have nodup := queued.nodup
  rw [split] at length nodup
  rw [length_append, length_singleton] at length
  obtain ⟨below, -, apart⟩ := nodup_append.mp nodup
  exact ⟨fun isBelow => apart _ isBelow _ (mem_singleton_self _) rfl,
    by omega, below, fun other isBelow =>
      queued.waiting other (queueOf_below nonempty top isBelow)⟩

end Queued

/-! ## The invariant -/

/-- The slots that peeled hashes were found at. -/
def peeledSlots (filter : BinaryFuse16) (stack : List (UInt64 × Fin 3)) :
    List Nat :=
  stack.map fun entry => slotIndex filter entry.1 entry.2

/-- A slot that may be queued: no peeled hash was found there, and no more than
one hash that is left touches it. -/
def Waits (filter : BinaryFuse16) (rest : List UInt64)
    (stack : List (UInt64 × Fin 3)) (index : Nat) : Prop :=
  index < filter.fingerprints.length ∧ index ∉ peeledSlots filter stack ∧
    (cellOf filter index rest).count ≤ 1

variable {hash : UInt64}

theorem mem_peeledSlots_concat :
    index ∈ peeledSlots filter (stack ++ [(hash, rank)]) ↔
      index ∈ peeledSlots filter stack ∨ index = slotIndex filter hash rank := by
  simp [peeledSlots]

/-- The slot a hash was found at does not wait. -/
theorem not_waits_found :
    ¬Waits filter rest (stack ++ [(hash, rank)])
      (slotIndex filter hash rank) :=
  fun waits => waits.2.1 (mem_peeledSlots_concat.mpr (.inr rfl))

/-- What holds in the peeling loop: `stack` has been peeled off `all`, and
`rest` is left.  There is memory for a slot each and for `size` hashes. -/
structure PeelState (filter : BinaryFuse16) (size : Nat) (peeling : Peeling)
    (all rest : List UInt64) (stack : List (UInt64 × Fin 3)) : Prop where
  stacksize : peeling.stacksize = stack.length
  hashes : peeling.reverseOrder.take stack.length = stack.map Prod.fst
  ranks : peeling.reverseH.take stack.length =
    stack.map fun entry => rankBits entry.2
  permuted : (stack.map Prod.fst ++ rest).Perm all
  peeled : PeelingOrder.Peeled (slotIndex filter) stack
  avoided : ∀ entry ∈ stack, ∀ hash ∈ rest,
    rankIn filter hash (slotIndex filter entry.1 entry.2) = none
  holds : ∀ index < filter.fingerprints.length,
    index ∉ peeledSlots filter stack →
      Holds peeling.tables index (cellOf filter index rest)
  small : ∀ index, (cellOf filter index rest).count < 64
  queued : Queued (Waits filter rest stack) peeling.alone peeling.qsize
  queueRoom : peeling.alone.length = filter.fingerprints.length
  ranksRoom : peeling.reverseH.length = size
  orderRoom : size ≤ peeling.reverseOrder.length
  fits : all.length ≤ size

/-- The slots a round may still look at: those queued, and those that more than
one of the hashes left touch. -/
def pending (filter : BinaryFuse16) (peeling : Peeling)
    (rest : List UInt64) : Finset Nat :=
  (queueOf peeling.alone peeling.qsize).toFinset ∪
    (Finset.range filter.fingerprints.length).filter fun index =>
      2 ≤ (cellOf filter index rest).count

theorem mem_pending :
    index ∈ pending filter peeling rest ↔
      index ∈ queueOf peeling.alone peeling.qsize ∨
        index < filter.fingerprints.length ∧
          2 ≤ (cellOf filter index rest).count := by
  simp [pending]

/-- Taking a hash off a slot: the slot's cell loses it, every other cell
stays, and the slot is queued when one hash is left there. -/
theorem takeOff_spec
    (peeling : Peeling)
    (holds : Holds peeling.tables index.toNat (cell.put rank hash))
    (rankSmall : cell.rank < 4) (small : cell.count + 1 < 64)
    (queued : Queued Ready peeling.alone peeling.qsize)
    (room : peeling.qsize < peeling.alone.length)
    (isNew : cell.count = 1 →
      index.toNat ∉ queueOf peeling.alone peeling.qsize ∧ Ready index.toNat) :
    ∃ tables alone qsize,
      takeOff peeling index (rankBits rank) hash = .ok
        { peeling with tables := tables, alone := alone, qsize := qsize } ∧
      ChangesTo peeling.tables tables index.toNat cell ∧
      alone.length = peeling.alone.length ∧ Queued Ready alone qsize ∧
      ∀ other ∈ queueOf alone qsize,
        other ∈ queueOf peeling.alone peeling.qsize ∨
          other = index.toNat ∧ cell.count = 1 := by
  obtain ⟨tables, removed, changes⟩ := holds.remove rankSmall
  have putSmall : (cell.put rank hash).rank < 4 := xor_rank_lt rankSmall rank
  have twoIff : (cell.put rank hash).packed >>> 2 = 2 ↔ cell.count = 1 := by
    rw [Cell.packed_shift_eq_iff _ putSmall small]
    change cell.count + 1 = 2 ↔ _
    omega
  rw [takeOff, (write_eq_ok_iff _).mpr ⟨room, rfl⟩, ok_bind,
    (read_eq_ok_iff _).mpr holds.1, ok_bind, removed, ok_bind]
  refine ⟨tables, _, _, rfl, changes, length_set, ?_⟩
  by_cases one : cell.count = 1
  · rw [if_pos (twoIff.mpr one)]
    obtain ⟨notQueued, waits⟩ := isNew one
    refine ⟨queued.push room notQueued waits, ?_⟩
    rw [queueOf_push index room, forall_mem_append]
    exact ⟨fun other => .inl, fun other isTop =>
      .inr ⟨mem_singleton.mp isTop, one⟩⟩
  · rw [if_neg (mt twoIff.mp one), queueOf_past]
    exact ⟨queued.past index, fun other => .inl⟩

section Step

variable {filter : BinaryFuse16} {bits count size : Nat}

/-- The cells of the hashes left after one of them is taken off. -/
theorem cellOf_erase
    (index : Nat)
    (member : hash ∈ rest) :
    cellOf filter index rest = cellOf filter index (hash :: rest.erase hash) :=
  cellOf_perm index (perm_cons_erase member)

theorem cellOf_erase_count_le
    (index : Nat)
    (member : hash ∈ rest) :
    (cellOf filter index (rest.erase hash)).count ≤
      (cellOf filter index rest).count := by
  rw [cellOf_erase index member]
  cases touched : rankIn filter hash index with
  | none => rw [cellOf_cons_none _ touched]
  | some rank =>
    rw [cellOf_cons_some _ touched]
    exact Nat.le_succ _

/-- A slot of a hash that is left: with the hash and without it. -/
theorem WellShaped.cellOf_erase_slot
    (shaped : WellShaped filter bits count)
    (rank : Fin 3)
    (member : hash ∈ rest) :
    cellOf filter (slotIndex filter hash rank) rest =
      (cellOf filter (slotIndex filter hash rank)
        (rest.erase hash)).put rank hash := by
  rw [cellOf_erase _ member, shaped.cellOf_slot]

variable {peeling : Peeling} {all rest : List UInt64} {alone : List UInt32}
variable {stack : List (UInt64 × Fin 3)} {hash : UInt64} {rank : Fin 3}

/-- The slots below the one a hash is found at still wait without it. -/
theorem Queued.peel
    (queued : Queued (Waits filter rest stack) alone qsize)
    (member : hash ∈ rest) (nonempty : qsize ≠ 0)
    (top : alone[qsize - 1]? = some (slot filter hash rank)) :
    Queued (Waits filter (rest.erase hash) (stack ++ [(hash, rank)])) alone
      (qsize - 1) := by
  obtain ⟨notBelow, popped⟩ := queued.pop nonempty top
  refine ⟨popped.length, popped.nodup, fun index isBelow => ?_⟩
  obtain ⟨inside, notPeeled, atMost⟩ := popped.waiting index isBelow
  refine ⟨inside, ?_, (cellOf_erase_count_le index member).trans atMost⟩
  rw [mem_peeledSlots_concat, not_or]
  refine ⟨notPeeled, ?_⟩
  rintro rfl
  exact notBelow isBelow

/-- A hash is recorded, and the top of the queue dropped. -/
def Peeling.record (peeling : Peeling) (hash : UInt64) (rank : Fin 3) :
    Peeling :=
  { peeling with
    qsize := peeling.qsize - 1
    reverseH := peeling.reverseH.set peeling.stacksize (rankBits rank)
    reverseOrder := peeling.reverseOrder.set peeling.stacksize hash
    stacksize := peeling.stacksize + 1 }

/-- Dropping the top of the queue keeps the invariant. -/
theorem PeelState.skip
    (state : PeelState filter size peeling all rest stack)
    (queued : Queued (Waits filter rest stack) peeling.alone qsize) :
    PeelState filter size { peeling with qsize := qsize } all rest stack :=
  { state with queued := queued }

section Left

variable (state : PeelState filter size peeling all rest stack)
variable (member : hash ∈ rest)
include state member

/-- While a hash is left there is memory for it. -/
theorem PeelState.stacksize_lt : peeling.stacksize < size := by
  have sameLength := state.permuted.length_eq
  have positive := length_pos_of_mem member
  have fits := state.fits
  rw [length_append, length_map] at sameLength
  rw [state.stacksize]
  omega

/-- The tables show what is left once every slot of the hash but the one it was
found at shows it gone, and no other slot has changed. -/
theorem PeelState.holds_erase
    (others : ∀ index cell, (∀ other, index ≠ slotIndex filter hash other) →
      Holds peeling.tables index cell → Holds tables index cell)
    (gone : ∀ other ≠ rank, Holds tables (slotIndex filter hash other)
      (cellOf filter (slotIndex filter hash other) (rest.erase hash)))
    (index : Nat) (inside : index < filter.fingerprints.length)
    (notPeeled : index ∉ peeledSlots filter (stack ++ [(hash, rank)])) :
    Holds tables index (cellOf filter index (rest.erase hash)) := by
  rw [mem_peeledSlots_concat, not_or] at notPeeled
  cases touched : rankIn filter hash index with
  | none =>
    have before := state.holds index inside notPeeled.1
    rw [cellOf_erase index member, cellOf_cons_none _ touched] at before
    exact others index _ (fun other =>
      Ne.symm ((rankIn_eq_none_iff hash index).mp touched other)) before
  | some other =>
    obtain rfl := slotIndex_of_rankIn touched
    refine gone other ?_
    rintro rfl
    exact notPeeled.2 rfl

variable (lone : (cellOf filter (slotIndex filter hash rank)
  (rest.erase hash)).count = 0)
variable (queued : Queued (Waits filter (rest.erase hash)
  (stack ++ [(hash, rank)])) alone qsize)
include lone queued

/-- The state once a hash is recorded and gone from the tables. -/
theorem PeelState.record
    (holds : ∀ index < filter.fingerprints.length,
      index ∉ peeledSlots filter (stack ++ [(hash, rank)]) →
        Holds tables index (cellOf filter index (rest.erase hash)))
    (queueRoom : alone.length = filter.fingerprints.length) :
    PeelState filter size { peeling.record hash rank with
      tables := tables, alone := alone, qsize := qsize } all (rest.erase hash)
      (stack ++ [(hash, rank)]) := by
  have stackLt := state.stacksize_lt member
  have longer : (stack ++ [(hash, rank)]).length = peeling.stacksize + 1 := by
    rw [length_append, length_singleton, state.stacksize]
  exact {
    stacksize := longer.symm
    hashes := by
      rw [longer, Peeling.record,
        take_set_self _ _ (stackLt.trans_le state.orderRoom), state.stacksize,
        state.hashes, map_append]
      rfl
    ranks := by
      rw [longer, Peeling.record,
        take_set_self _ _ (state.ranksRoom ▸ stackLt), state.stacksize,
        state.ranks, map_append]
      rfl
    permuted := by
      rw [map_append, append_assoc]
      exact ((perm_cons_erase member).symm.append_left _).trans state.permuted
    peeled := by
      apply PeelingOrder.peeled_concat _ state.peeled
      intro entry entryMember other
      exact (rankIn_eq_none_iff hash _).mp
        (state.avoided entry entryMember hash member) other
    avoided := by
      intro entry entryMember other otherMember
      rcases mem_append.mp entryMember with old | new
      · exact state.avoided entry old other (mem_of_mem_erase otherMember)
      · rw [mem_singleton] at new
        subst new
        exact cellOf_count_zero lone other otherMember
    holds := holds
    small := fun index => (cellOf_erase_count_le index member).trans_lt
      (state.small index)
    queued := queued
    queueRoom := queueRoom
    ranksRoom := length_set.trans state.ranksRoom
    orderRoom := state.orderRoom.trans length_set.ge
    fits := state.fits }

omit state in
/-- A round that finds a hash and queues no slot it could not have looked at
before has fewer left. -/
theorem pending_ssubset
    (found : slotIndex filter hash rank ∈ queueOf peeling.alone peeling.qsize)
    (known : ∀ index ∈ queueOf alone qsize,
      index ∈ pending filter peeling rest) :
    pending filter { peeling.record hash rank with
      tables := tables, alone := alone, qsize := qsize } (rest.erase hash) ⊂
      pending filter peeling rest := by
  refine (Finset.ssubset_iff_of_subset ?_).mpr
    ⟨_, mem_pending.mpr (.inl found), ?_⟩
  · intro index isPending
    rcases mem_pending.mp isPending with isQueued | ⟨inside, two⟩
    · exact known index isQueued
    · exact mem_pending.mpr (.inr ⟨inside,
        two.trans (cellOf_erase_count_le index member)⟩)
  · intro isPending
    rcases mem_pending.mp isPending with isQueued | ⟨-, two⟩
    · exact not_waits_found (queued.waiting _ isQueued)
    · omega

end Left

section Slots

variable (state : PeelState filter size peeling all rest stack)
variable (shaped : WellShaped filter bits count) (member : hash ∈ rest)

include state shaped member

/-- No hash was found at a slot of a hash that is left. -/
theorem PeelState.fresh (rank : Fin 3) :
    slotIndex filter hash rank ∉ peeledSlots filter stack := by
  intro taken
  obtain ⟨entry, entryMember, entrySlot⟩ := mem_map.mp taken
  have untouched := state.avoided entry entryMember hash member
  rw [entrySlot, shaped.rankIn_slotIndex] at untouched
  cases untouched

/-- The tables show a hash that is left at each of its slots. -/
theorem PeelState.held (rank : Fin 3) :
    Holds peeling.tables (slotIndex filter hash rank)
      ((cellOf filter (slotIndex filter hash rank)
        (rest.erase hash)).put rank hash) := by
  rw [← shaped.cellOf_erase_slot rank member]
  exact state.holds _ (shaped.slotIndex_lt hash rank)
    (state.fresh shaped member rank)

theorem PeelState.small_erase (rank : Fin 3) :
    (cellOf filter (slotIndex filter hash rank)
      (rest.erase hash)).count + 1 < 64 := by
  have small := state.small (slotIndex filter hash rank)
  rwa [shaped.cellOf_erase_slot rank member] at small

/-- A slot of a hash that is peeled off with another of its slots can be queued
when it has one hash left: it had two before. -/
theorem PeelState.pushable
    (different : other ≠ rank)
    (one : (cellOf filter (slotIndex filter hash other)
      (rest.erase hash)).count = 1) :
    slotIndex filter hash other ∉ queueOf peeling.alone peeling.qsize ∧
      slotIndex filter hash other ∈ pending filter peeling rest ∧
      Waits filter (rest.erase hash) (stack ++ [(hash, rank)])
        (slotIndex filter hash other) := by
  have inside := shaped.slotIndex_lt hash other
  have two : (cellOf filter (slotIndex filter hash other) rest).count = 2 := by
    rw [shaped.cellOf_erase_slot other member]
    exact congrArg Nat.succ one
  refine ⟨?_, mem_pending.mpr (.inr ⟨inside, two.ge⟩), inside, ?_, one.le⟩
  · intro isQueued
    have atMost := (state.queued.waiting _ isQueued).2.2
    omega
  · rw [mem_peeledSlots_concat, not_or]
    exact ⟨state.fresh shaped member other,
      (shaped.slotIndex_injective hash).ne different⟩

/-- Peeling the hash at the top of the queue. -/
theorem PeelState.peelHash
    (nonempty : peeling.qsize ≠ 0)
    (top : peeling.alone[peeling.qsize - 1]? = some (slot filter hash rank))
    (lone : (cellOf filter (slotIndex filter hash rank)
      (rest.erase hash)).count = 0) :
    ∃ after1 next,
      takeOff (peeling.record hash rank) (slot filter hash (rank + 1))
        (rankBits (rank + 1)) hash = .ok after1 ∧
      takeOff after1 (slot filter hash (rank + 2)) (rankBits (rank + 2))
        hash = .ok next ∧
      PeelState filter size next all (rest.erase hash)
        (stack ++ [(hash, rank)]) ∧
      pending filter next (rest.erase hash) ⊂ pending filter peeling rest := by
  obtain ⟨apart1, apart2, apart21⟩ := fin3_apart rank
  have ne21 := (shaped.slotIndex_injective hash).ne apart21
  have heldAt := state.held shaped member
  have smallAt := state.small_erase shaped member
  have below {index : Nat} := @queueOf_below _ _ _ index nonempty top
  have waits := state.queued.peel member nonempty top
  have room {alone : List UInt32} {qsize : Nat} (queued : Queued
      (Waits filter (rest.erase hash) (stack ++ [(hash, rank)])) alone qsize) :
      qsize < filter.fingerprints.length :=
    queued.room (fun index waits => waits.1) (shaped.slotIndex_lt hash rank)
      (fun isQueued => not_waits_found (queued.waiting _ isQueued))
  obtain ⟨tables1, alone1, qsize1, take1, ⟨here1, keep1⟩, length1, queued1,
    from1⟩ := takeOff_spec (peeling.record hash rank) (heldAt (rank + 1))
      (cellOf_rank_lt _ _) (smallAt (rank + 1)) waits
      (state.queueRoom ▸ room waits) (fun one => by
        obtain ⟨notQueued, -, waits⟩ := state.pushable shaped member apart1 one
        exact ⟨fun isBelow => notQueued (below isBelow), waits⟩)
  obtain ⟨tables2, alone2, qsize2, take2, ⟨here2, keep2⟩, length2, queued2,
    from2⟩ := takeOff_spec
      { peeling.record hash rank with
        tables := tables1, alone := alone1, qsize := qsize1 }
      (keep1 _ ne21 _ (heldAt (rank + 2))) (cellOf_rank_lt _ _)
      (smallAt (rank + 2)) queued1
      ((room queued1).trans_eq (length1.trans state.queueRoom).symm)
      (fun one => by
        obtain ⟨notQueued, -, waits⟩ := state.pushable shaped member apart2 one
        refine ⟨fun isQueued => ?_, waits⟩
        rcases from1 _ isQueued with isBelow | ⟨same, -⟩
        · exact notQueued (below isBelow)
        · exact ne21 same)
  refine ⟨_, _, take1, take2, state.record member lone queued2
    (state.holds_erase member ?_ ?_)
    (length2.trans (length1.trans state.queueRoom)),
    pending_ssubset member lone queued2 (top_mem_queueOf nonempty top) ?_⟩
  · exact fun index cell off held => keep2 _ (off _) _ (keep1 _ (off _) _ held)
  · intro other isOther
    rcases fin3_cases rank other with same | rfl | rfl
    · exact absurd same isOther
    · exact keep2 _ ne21.symm _ here1
    · exact here2
  · intro index isQueued
    rcases from2 _ isQueued with isQueued1 | ⟨rfl, one⟩
    · rcases from1 _ isQueued1 with isBelow | ⟨rfl, one⟩
      · exact mem_pending.mpr (.inl (below isBelow))
      · exact (state.pushable shaped member apart1 one).2.1
    · exact (state.pushable shaped member apart2 one).2.1

end Slots

/-- A round of the peeling loop. -/
theorem PeelState.peelTop
    (state : PeelState filter size peeling all rest stack)
    (shaped : WellShaped filter bits count) (nonempty : peeling.qsize ≠ 0) :
    ∃ next restNext stackNext, peelTop filter peeling = .ok next ∧
      PeelState filter size next all restNext stackNext ∧
      pending filter next restNext ⊂ pending filter peeling rest := by
  have topInside : peeling.qsize - 1 < peeling.alone.length := by
    have length := state.queued.length
    rw [queueOf, length_map, length_take] at length
    omega
  have top := getElem?_eq_getElem topInside
  generalize peeling.alone[peeling.qsize - 1] = index at top
  have isTop := top_mem_queueOf nonempty top
  obtain ⟨inside, notPeeled, atMost⟩ := state.queued.waiting _ isTop
  have held := state.holds _ inside notPeeled
  have oneIff := (cellOf filter index.toNat rest).packed_shift_eq_iff
    (cellOf_rank_lt _ _) (state.small _) 1
  rw [BinaryFuse.peelTop, (read_eq_ok_iff _).mpr top, ok_bind,
    (read_eq_ok_iff _).mpr held.1, ok_bind]
  by_cases one : (cellOf filter index.toNat rest).packed >>> 2 = 1
  · obtain ⟨hash, member, rank, touched, hashEq, rankEq⟩ :=
      cellOf_count_one (oneIff.mp one)
    have here := slotIndex_of_rankIn touched
    have slotEq : index = slot filter hash rank := UInt32.toNat_inj.mp here.symm
    have alone : (cellOf filter (slotIndex filter hash rank)
        (rest.erase hash)).count = 0 := by
      have single := oneIff.mp one
      rw [cellOf_erase _ member, cellOf_cons_some _ touched] at single
      rw [here]
      exact Nat.succ.inj single
    rw [slotEq] at top
    obtain ⟨after1, next, take1, take2, nextState, fewer⟩ :=
      state.peelHash shaped member nonempty top alone
    refine ⟨next, _, _, ?_, nextState, fewer⟩
    rw [if_pos one, (read_eq_ok_iff _).mpr held.2, ok_bind, hashEq,
      Cell.packed_low _ rankEq]
    dsimp only
    have stackLt := state.stacksize_lt member
    rw [(write_eq_ok_iff _).mpr ⟨state.ranksRoom ▸ stackLt, rfl⟩,
      ok_bind, (write_eq_ok_iff _).mpr
        ⟨stackLt.trans_le state.orderRoom, rfl⟩, ok_bind, slotEq,
      shaped.otherSlots_eq]
    dsimp only
    rw [Peeling.record] at take1
    rw [take1, ok_bind, take2]
  · rw [if_neg one]
    obtain ⟨notBelow, popped⟩ := state.queued.pop nonempty top
    refine ⟨_, rest, stack, rfl, state.skip popped,
      (Finset.ssubset_iff_of_subset ?_).mpr
        ⟨_, mem_pending.mpr (.inl isTop), ?_⟩⟩
    · intro other isPending
      rcases mem_pending.mp isPending with isBelow | crowded
      · exact mem_pending.mpr (.inl (queueOf_below nonempty top isBelow))
      · exact mem_pending.mpr (.inr crowded)
    · intro isPending
      rcases mem_pending.mp isPending with isBelow | ⟨-, two⟩
      · exact notBelow isBelow
      · omega

/-- The loop empties the queue. -/
theorem PeelState.peel
    (state : PeelState filter size peeling all rest stack)
    (shaped : WellShaped filter bits count)
    (enough : (pending filter peeling rest).card < fuel) :
    ∃ final restFinal stackFinal, peel filter fuel peeling = .ok final ∧
      PeelState filter size final all restFinal stackFinal := by
  induction fuel generalizing peeling rest stack with
  | zero => exact (Nat.not_lt_zero _ enough).elim
  | succ fuel ih =>
    rw [BinaryFuse.peel]
    by_cases empty : peeling.qsize = 0
    · rw [if_pos empty]
      exact ⟨peeling, rest, stack, rfl, state⟩
    · rw [if_neg empty]
      obtain ⟨next, restNext, stackNext, isNext, nextState, fewer⟩ :=
        state.peelTop shaped empty
      rw [isNext, ok_bind]
      have less := Finset.card_lt_card fewer
      exact ih nextState (by omega)

/-- There are no more rounds than slots. -/
theorem PeelState.card_pending_le
    (state : PeelState filter size peeling all rest stack) :
    (pending filter peeling rest).card ≤ filter.fingerprints.length := by
  rw [← Finset.card_range filter.fingerprints.length]
  refine Finset.card_le_card fun index isPending => Finset.mem_range.mpr ?_
  rcases mem_pending.mp isPending with isQueued | ⟨inside, -⟩
  · exact (state.queued.waiting index isQueued).1
  · exact inside

/-! ## The first queue -/

/-- Scanning slots queues the ones a single hash touches. -/
theorem queueAlone_queued
    (represents : Represents filter tables hashes)
    (small : ∀ index, (cellOf filter index hashes).count < 64)
    (narrow : filter.fingerprints.length < 2 ^ 32)
    (inside : ∀ index ∈ slots, index < filter.fingerprints.length)
    (room : alone.length = filter.fingerprints.length)
    (queued : Queued (Waits filter hashes []) alone qsize)
    (nodup : slots.Nodup)
    (apart : ∀ index ∈ slots, index ∉ queueOf alone qsize) :
    ∃ aloneFinal qsizeFinal,
      queueAlone tables.t2count slots alone qsize =
        .ok (aloneFinal, qsizeFinal) ∧
      aloneFinal.length = filter.fingerprints.length ∧
      Queued (Waits filter hashes []) aloneFinal qsizeFinal := by
  induction slots generalizing alone qsize with
  | nil => exact ⟨alone, qsize, rfl, room, queued⟩
  | cons index slots ih =>
    obtain ⟨notLater, laterNodup⟩ := nodup_cons.mp nodup
    obtain ⟨isInside, laterInside⟩ := forall_mem_cons.mp inside
    obtain ⟨notQueued, laterApart⟩ := forall_mem_cons.mp apart
    have left : qsize < alone.length := room ▸
      queued.room (fun other waits => waits.1) isInside notQueued
    have isIndex : (UInt32.ofNat index).toNat = index :=
      UInt32.toNat_ofNat_of_lt' (isInside.trans narrow)
    rw [queueAlone, (write_eq_ok_iff _).mpr ⟨left, rfl⟩, ok_bind,
      (read_eq_ok_iff _).mpr (represents index isInside).1, ok_bind]
    have oneIff := (cellOf filter index hashes).packed_shift_eq_iff
      (cellOf_rank_lt _ _) (small index) 1
    by_cases one : (cellOf filter index hashes).packed >>> 2 = 1
    · rw [if_pos one]
      refine ih laterInside (length_set.trans room)
        (queued.push left (isIndex.symm ▸ notQueued) ?_) laterNodup ?_
      · rw [isIndex]
        exact ⟨isInside, by simp [peeledSlots], (oneIff.mp one).le⟩
      · intro other isLater
        rw [queueOf_push _ left, isIndex, mem_append, mem_singleton, not_or]
        exact ⟨laterApart other isLater, fun same => notLater (same ▸ isLater)⟩
    · rw [if_neg one]
      refine ih laterInside (length_set.trans room)
        (queued.past _) laterNodup ?_
      rw [queueOf_past]
      exact laterApart

/-- The state the peeling loop starts from. -/
theorem WellShaped.initial_state
    (shaped : WellShaped filter bits count)
    (represents : Represents filter tables hashes)
    (small : ∀ index, (cellOf filter index hashes).count < 64)
    (room : alone.length = filter.fingerprints.length)
    (ranksRoom : reverseH.length = size)
    (orderRoom : size ≤ reverseOrder.length) (fits : hashes.length ≤ size) :
    ∃ aloneFinal qsize,
      queueAlone tables.t2count (List.range filter.fingerprints.length)
        alone 0 = .ok (aloneFinal, qsize) ∧
      PeelState filter size
        { tables := tables
          alone := aloneFinal
          qsize := qsize
          reverseH := reverseH
          reverseOrder := reverseOrder
          stacksize := 0 } hashes hashes [] := by
  obtain ⟨aloneFinal, qsize, isQueued, finalRoom, queued⟩ :=
    queueAlone_queued represents small (shaped.capacity ▸ shaped.fits)
      (fun index => mem_range.mp) room
      (show Queued (Waits filter hashes []) alone 0 from ⟨rfl, nodup_nil,
        fun index absent => absurd absent not_mem_nil⟩)
      nodup_range (fun index _ => not_mem_nil)
  exact ⟨aloneFinal, qsize, isQueued,
    { stacksize := rfl
      hashes := rfl
      ranks := rfl
      permuted := List.Perm.refl _
      peeled := trivial
      avoided := by simp
      holds := fun index inside _ => represents index inside
      small := small
      queued := queued
      queueRoom := finalRoom
      ranksRoom := ranksRoom
      orderRoom := orderRoom
      fits := fits }⟩

end Step

end AmberStore.BinaryFuse

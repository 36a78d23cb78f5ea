import AmberStore.BinaryFuse.Peel
import AmberStore.BinaryFuse.Placement

/-!
# No false negatives

A filter that construction returns contains every key it was built from: the
placement keeps every hash, the counting drops only duplicates, a successful
peeling has taken off everything that was counted, and solving the peeling
order in reverse makes every equation hold.
-/

open Bounded Checked Sorted
open List hiding count filter length

namespace AmberStore.BinaryFuse

variable {keys : List UInt64}

/-! ## Assigning the fingerprints -/

/-- The fingerprint array as a table. -/
def printTable (filter : BinaryFuse16) (index : Nat) : UInt16 :=
  filter.fingerprints.getD index 0

instance xor_associative :
    Std.Associative (fun left right : UInt16 => left ^^^ right) :=
  ⟨UInt16.xor_assoc⟩

instance xor_commutative :
    Std.Commutative (fun left right : UInt16 => left ^^^ right) :=
  ⟨UInt16.xor_comm⟩

/-- A filter with other fingerprints of the same number. -/
def SameGeometry (filter other : BinaryFuse16) : Prop :=
  ∃ prints, other = { filter with fingerprints := prints } ∧
    prints.length = filter.fingerprints.length

theorem SameGeometry.trans
    (left : SameGeometry first second) (right : SameGeometry second third) :
    SameGeometry first third := by
  obtain ⟨leftPrints, rfl, leftLength⟩ := left
  obtain ⟨rightPrints, rfl, rightLength⟩ := right
  exact ⟨rightPrints, rfl, rightLength.trans leftLength⟩

theorem SameGeometry.slotIndex_eq
    (same : SameGeometry filter other) :
    slotIndex other = slotIndex filter := by
  obtain ⟨prints, rfl, _⟩ := same
  rfl

/-- The ring of slots read from a rank on. -/
theorem ring_read
    (filter : BinaryFuse16) (hash : UInt64) (rank : Fin 3)
    (small : step < 3) :
    read Stop.indexOutOfBounds
      [(getHashFromHash filter hash).1, (getHashFromHash filter hash).2.1,
        (getHashFromHash filter hash).2.2, (getHashFromHash filter hash).1,
        (getHashFromHash filter hash).2.1]
      ((rankBits rank).toNat + step) =
        .ok (slot filter hash (rank + ⟨step, small⟩)) := by
  rw [read_eq_ok_iff, rankBits_toNat]
  have cases : step = 0 ∨ step = 1 ∨ step = 2 := by omega
  rcases cases with rfl | rfl | rfl
  · fin_cases rank <;> rfl
  · fin_cases rank <;> rfl
  · fin_cases rank <;> rfl

/-- Assigning one hash completes its equation. -/
theorem WellShaped.assignOne_solves
    (shaped : WellShaped filter bits count)
    (hashing : Hashing) (hash : UInt64) (rank : Fin 3) :
    ∃ next, assignOne hashing filter hash (rankBits rank) = .ok next ∧
      SameGeometry filter next ∧
      printTable next = PeelingOrder.solveOne (slotIndex filter)
        (fun left right => left ^^^ right) hashing.fingerprint
        (printTable filter) (hash, rank) := by
  have read0 := ring_read filter hash rank (by decide : 0 < 3)
  rw [Nat.add_zero, Fin.mk_zero, Fin.add_zero] at read0
  have inside (other : Fin 3) : (slot filter hash other).toNat <
      filter.fingerprints.length := shaped.slotIndex_lt hash other
  have print (other : Fin 3) :=
    read_eq_ok_of_lt Stop.indexOutOfBounds 0 (inside other)
  rw [assignOne]
  dsimp only
  rw [read0, ok_bind, ring_read filter hash rank (by decide : 1 < 3), ok_bind,
    ring_read filter hash rank (by decide : 2 < 3), ok_bind, print, ok_bind,
    print, ok_bind, (write_eq_ok_iff _).mpr ⟨inside _, rfl⟩, ok_bind]
  refine ⟨_, rfl, ⟨_, rfl, length_set⟩, ?_⟩
  funext index
  simp only [printTable, PeelingOrder.solveOne, Function.update_apply]
  exact getD_set _ _ _ _ (inside rank)

theorem getElem?_of_take_concat
    {values : List α}
    (isFront : values.take (length + 1) = front ++ [last])
    (isLength : front.length = length) :
    values[length]? = some last ∧ values.take length = front := by
  constructor
  · rw [← getElem?_take_of_lt (Nat.lt_succ_self length), isFront,
      ← isLength, getElem?_concat_length]
  · have shorter := congrArg (List.take length) isFront
    rw [take_take, Nat.min_eq_left (Nat.le_succ length),
      ← isLength, take_left] at shorter
    rw [← isLength]
    exact shorter

theorem SameGeometry.wellShaped
    (same : SameGeometry filter other)
    (shaped : WellShaped filter bits count) :
    WellShaped other bits count := by
  obtain ⟨prints, rfl, sameLength⟩ := same
  exact { shaped with capacity := sameLength.trans shaped.capacity }

/-- Assigning the stack solves its peeling order. -/
theorem WellShaped.assign_solves
    {filter : BinaryFuse16} (shaped : WellShaped filter bits count)
    (hashing : Hashing)
    (hashes : reverseOrder.take stack.length = stack.map Prod.fst)
    (ranks : reverseH.take stack.length =
      stack.map fun entry => rankBits entry.2) :
    ∃ final, assign hashing reverseOrder reverseH stack.length filter =
        .ok final ∧
      SameGeometry filter final ∧
      printTable final = PeelingOrder.solve (slotIndex filter)
        (fun left right => left ^^^ right) hashing.fingerprint
        (printTable filter) stack := by
  induction stack using List.reverseRecOn generalizing filter with
  | nil => exact ⟨filter, rfl, ⟨_, rfl, rfl⟩, rfl⟩
  | append_singleton stack entry ih =>
    rw [length_append, length_singleton, map_append] at hashes ranks
    obtain ⟨isHash, hashesFront⟩ :=
      getElem?_of_take_concat hashes (length_map _)
    obtain ⟨isRank, ranksFront⟩ := getElem?_of_take_concat ranks (length_map _)
    obtain ⟨next, isNext, sameStep, tableStep⟩ :=
      shaped.assignOne_solves hashing entry.1 entry.2
    obtain ⟨final, isFinal, sameRest, tableRest⟩ :=
      ih (sameStep.wellShaped shaped) hashesFront ranksFront
    refine ⟨final, ?_, sameStep.trans sameRest, ?_⟩
    · rw [length_append, length_singleton, assign,
        (read_eq_ok_iff _).mpr isHash, ok_bind,
        (read_eq_ok_iff _).mpr isRank, ok_bind, isNext,
        ok_bind, isFinal]
    · rw [tableRest, tableStep, sameStep.slotIndex_eq,
        PeelingOrder.solve_concat]

/-! ## Queries -/

/-- A filter contains a key exactly when the key's equation holds. -/
theorem WellShaped.contains_eq
    (shaped : WellShaped filter bits count)
    (hashing : Hashing) (key : UInt64) :
    contains hashing filter key = .ok (decide
      (PeelingOrder.total (slotIndex filter)
        (fun left right => left ^^^ right) (printTable filter)
        (hashing.mix key filter.seed) =
          hashing.fingerprint (hashing.mix key filter.seed))) := by
  have inside (rank : Fin 3) :=
    shaped.slotIndex_lt (hashing.mix key filter.seed) rank
  have read0 := read_eq_ok_of_lt Stop.indexOutOfBounds 0 (inside 0)
  have read1 := read_eq_ok_of_lt Stop.indexOutOfBounds 0 (inside 1)
  have read2 := read_eq_ok_of_lt Stop.indexOutOfBounds 0 (inside 2)
  simp only [slotIndex, slot] at read0 read1 read2
  simp only [contains, read0, read1, read2]
  change Except.ok _ = Except.ok _
  congr 1
  rw [decide_eq_decide, UInt16.xor_eq_zero_iff]
  exact eq_comm

/-! ## The construction -/

theorem mem_pruneDuplicates :
    key ∈ pruneDuplicates keys ↔ key ∈ keys := by
  unfold pruneDuplicates
  rw [mem_dedupAdjacent, mem_mergeSort]

theorem length_pruneDuplicates_le (keys : List UInt64) :
    (pruneDuplicates keys).length ≤ keys.length := by
  unfold pruneDuplicates
  refine (length_dedupAdjacent_le _).trans ?_
  rw [length_mergeSort]

/-- The hashes of the keys, peeled into an order that can be solved. -/
structure PeeledOff (hashing : Hashing) (filter : BinaryFuse16)
    (peeling : Peeling) (keys : List UInt64) : Prop where
  shaped : ∃ bits count, WellShaped filter bits count
  ordered : ∃ stack : List (UInt64 × Fin 3),
    peeling.stacksize = stack.length ∧
      peeling.reverseOrder.take stack.length = stack.map Prod.fst ∧
      (peeling.reverseH.take stack.length =
        stack.map fun entry => rankBits entry.2) ∧
      PeelingOrder.Peeled (slotIndex filter) stack ∧
      ∀ key ∈ keys, hashing.mix key filter.seed ∈ stack.map Prod.fst

/-- A peeling that took off as many hashes as were counted took off every one
of them. -/
theorem peeledOff_of_state
    {order : List UInt64}
    (shaped : WellShaped filter bits count)
    (counted : Counted filter counting order.reverse held)
    (clear : counting.error = false)
    (state : PeelState filter size peeling held rest stack)
    (done : peeling.stacksize + counting.duplicates = order.length)
    (placed : ∀ key ∈ keys, hashing.mix key filter.seed ∈ order) :
    PeeledOff hashing filter peeling keys := by
  refine ⟨⟨bits, count, shaped⟩, stack, state.stacksize, state.hashes,
    state.ranks, state.peeled, ?_⟩
  intro key member
  have total := counted.total
  have sameLength := state.permuted.length_eq
  rw [length_reverse] at total
  rw [length_append, length_map] at sameLength
  have stacksize := state.stacksize
  have restEmpty : rest = [] := length_eq_zero_iff.mp (by omega)
  have permuted := state.permuted
  rw [restEmpty, append_nil] at permuted
  apply permuted.mem_iff.mpr
  apply counted.kept clear
  exact mem_reverse.mpr (placed key member)

/-- Assigning a peeled order gives a well-shaped filter that contains the
keys. -/
theorem PeeledOff.contains
    (peeledOff : PeeledOff hashing filter peeling keys) :
    ∃ final, assign hashing peeling.reverseOrder peeling.reverseH
        peeling.stacksize filter = .ok final ∧
      (∃ bits count, WellShaped final bits count) ∧
      ∀ key ∈ keys, BinaryFuse.contains hashing final key = .ok true := by
  obtain ⟨bits, count, shaped⟩ := peeledOff.shaped
  obtain ⟨stack, stacksize, hashes, ranks, peeled, listed⟩ := peeledOff.ordered
  obtain ⟨final, isFinal, same, solved⟩ :=
    shaped.assign_solves hashing hashes ranks
  have finalShaped := same.wellShaped shaped
  refine ⟨final, stacksize ▸ isFinal, ⟨bits, count, finalShaped⟩, ?_⟩
  intro key member
  have seedEq : final.seed = filter.seed := by
    obtain ⟨prints, rfl, _⟩ := same
    rfl
  have cancel (left right : UInt16) : left ^^^ (left ^^^ right) = right := by
    rw [← UInt16.xor_assoc, UInt16.xor_self, UInt16.zero_xor]
  obtain ⟨entry, entryMember, entryHash⟩ := mem_map.mp (listed key member)
  have holds := PeelingOrder.total_solve cancel shaped.slotIndex_injective
    hashing.fingerprint (printTable filter) peeled entry entryMember
  rw [finalShaped.contains_eq, same.slotIndex_eq, solved, seedEq, ← entryHash,
    decide_eq_true holds]

/-- What an iteration finds: a filter of the shape it expects, room for its
keys, and the memory of the queue and the ranks. -/
structure Ready (geometry : Geometry) (size iterations : Nat)
    (state : BuildState) : Prop where
  shaped : ShapedAt geometry size iterations state.filter
  roomy : state.keys.length ≤ size
  queue : state.alone.length = state.filter.fingerprints.length
  ranks : state.reverseH.length = size

theorem Ready.reseed
    (ready : Ready geometry size iterations state) :
    Ready geometry size iterations (BinaryFuse.reseed state) := by
  refine ⟨?_, ?_, ?_, ?_⟩
  · rw [reseed_filter]
    exact ready.shaped.setSeed _
  · rw [reseed_keys]
    exact ready.roomy
  · rw [reseed_alone, reseed_filter]
    exact ready.queue
  · rw [reseed_reverseH]
    exact ready.ranks

/-- The start of a construction. -/
theorem ready_start (hashing : Hashing) (keys : List UInt64)
    (seed rngcounter : UInt64) :
    Ready (hashing.geometry keys.length) keys.length 0
      { filter := { initializeParameters (hashing.geometry keys.length) with
          seed := seed }
        rngcounter := rngcounter
        keys := keys
        alone := List.replicate (initializeParameters
          (hashing.geometry keys.length)).fingerprints.length 0
        reverseH := List.replicate keys.length 0 } where
  shaped := ShapedAt.setSeed ⟨fun small => absurd small.2 (by decide),
    fun _ => wellShaped_initializeParameters _⟩ seed
  roomy := le_rfl
  queue := length_replicate
  ranks := length_replicate

theorem resizeSegments_fingerprints
    (size iterations : Nat) (filter : BinaryFuse16) :
    (resizeSegments size iterations filter).fingerprints =
      filter.fingerprints := by
  unfold resizeSegments
  split_ifs <;> rfl

/-- An iteration that succeeds has peeled off the hash of every key; one that
does not keeps the keys and hands on what the next needs. -/
def Meets (hashing : Hashing) (geometry : Geometry) (size iterations : Nat)
    (state : BuildState) : Outcome → Prop
  | .success filter peeling =>
    filter = resizeSegments size iterations state.filter ∧
      PeeledOff hashing filter peeling state.keys
  | .retry next =>
    Ready geometry size iterations next ∧ ∀ key ∈ state.keys, key ∈ next.keys

/-- An iteration stays inside its memory, unless its shift overflows. -/
theorem Ready.iterate
    (ready : Ready geometry size iterations state) (hashing : Hashing)
    (few : blocks ≤ 64)
    (isBlocks : blockBits (resizeSegments size (iterations + 1) state.filter) =
      .ok blocks) :
    ∃ outcome, iterate hashing size (iterations + 1) state = .ok outcome ∧
      Meets hashing geometry size (iterations + 1) state outcome := by
  have resized := ready.shaped.resize
  obtain ⟨bits, count, wellShaped⟩ := resized.exists_wellShaped
  have queueRoom := ready.queue.trans (congrArg List.length
    (resizeSegments_fingerprints size (iterations + 1) state.filter).symm)
  rw [BinaryFuse.iterate]
  dsimp only
  generalize isFilter : resizeSegments size (iterations + 1) state.filter =
    filter at resized wellShaped isBlocks queueRoom
  obtain ⟨placement, isPlaced, orderRoom, placed⟩ := @placeHashes_order _ size
    (state.keys.map fun key => hashing.mix key filter.seed) few
    (by rw [length_map]; exact ready.roomy)
  obtain ⟨counting, held, isCounted, counted⟩ := wellShaped.addHashes_counted
    (counted_initial filter) (placement.reverseOrder.take size)
  rw [isBlocks, ok_bind, isPlaced, ok_bind, isCounted, ok_bind]
  cases flagged : counting.error with
  | true =>
    rw [if_pos rfl]
    refine ⟨_, rfl, Ready.reseed ⟨resized, ready.roomy, queueRoom,
      ready.ranks⟩, ?_⟩
    rw [reseed_keys]
    exact fun _ member => member
  | false =>
    have orderLength : (placement.reverseOrder.take size).length = size := by
      rw [length_take, Nat.min_eq_left orderRoom]
    rw [append_nil] at counted
    have total := counted.total
    rw [length_reverse, orderLength] at total
    obtain ⟨alone, qsize, isQueued, started⟩ := wellShaped.initial_state
      counted.represents (counted.small flagged) queueRoom ready.ranks
      orderRoom (by omega)
    obtain ⟨peeling, rest, stack, isPeeled, final⟩ := started.peel wellShaped
      (Nat.lt_succ_of_le started.card_pending_le)
    rw [if_neg Bool.false_ne_true, isQueued, ok_bind]
    dsimp only
    rw [isPeeled, ok_bind]
    by_cases done : peeling.stacksize + counting.duplicates = size
    · rw [if_pos done]
      refine ⟨_, rfl, isFilter.symm, peeledOff_of_state wellShaped counted
        flagged final (done.trans orderLength.symm) ?_⟩
      intro key member
      exact placed _ (mem_map.mpr ⟨key, member, rfl⟩)
    · rw [if_neg done]
      refine ⟨_, rfl, Ready.reseed ⟨resized, ?_, final.queueRoom,
        final.ranksRoom⟩, ?_⟩
      · dsimp only
        split_ifs
        · exact (length_pruneDuplicates_le _).trans ready.roomy
        · exact ready.roomy
      · intro key member
        rw [reseed_keys]
        dsimp only
        split_ifs
        · exact mem_pruneDuplicates.mpr member
        · exact member

/-- The shift that covers the segments does not overflow in any iteration: only
the smaller segments of every fourth one can be too many. -/
def ShiftFits (geometry : Geometry) (size : Nat) : Prop :=
  4 < size → size < 1000000 → geometry.segmentCount < 2 ^ 30

theorem Geometry.segmentCount_lt (geometry : Geometry) :
    geometry.segmentCount < 2 ^ 31 := by
  have fits := geometry.fits
  have halved : 2 ^ 1 ≤ 2 ^ geometry.bits :=
    Nat.pow_le_pow_right (by decide) geometry.bits_pos
  have wide := Nat.mul_le_mul_left (geometry.segmentCount + 2) halved
  omega

theorem ShapedAt.segmentCount_le
    (shaped : ShapedAt geometry size iterations filter)
    (shiftFits : ShiftFits geometry size) :
    filter.segmentCount.toNat ≤ 2 ^ 31 := by
  by_cases small : smallIteration size iterations
  · have few := shiftFits small.1.1 small.1.2
    rw [(shaped.1 small).segmentCount]
    omega
  · rw [(shaped.2 small).segmentCount]
    exact geometry.segmentCount_lt.le

/-- A well-shaped filter that contains the keys. -/
def Answers (hashing : Hashing) (keys : List UInt64)
    (filter : BinaryFuse16) : Prop :=
  (∃ bits count, WellShaped filter bits count) ∧
    ∀ key ∈ keys, contains hashing filter key = .ok true

/-- The loop ends with a filter that contains every key it works on, or with
the last iteration, or its shift overflows. -/
theorem Ready.buildLoop
    (ready : Ready geometry size iterations state)
    (kept : ∀ key ∈ keys, key ∈ state.keys) :
    buildLoop hashing size fuel iterations state = .error .tooManyIterations ∨
      (∃ filter, buildLoop hashing size fuel iterations state = .ok filter ∧
        Answers hashing keys filter) ∨
      buildLoop hashing size fuel iterations state = .error .overflow ∧
        ¬ShiftFits geometry size := by
  induction fuel generalizing iterations state with
  | zero => exact .inl rfl
  | succ fuel ih =>
    rw [BinaryFuse.buildLoop]
    rcases blockBits_cases (resizeSegments size (iterations + 1)
      state.filter) with ⟨blocks, few, isBlocks, -⟩ | ⟨overflow, many⟩
    · obtain ⟨outcome, isOutcome, meets⟩ :=
        ready.iterate hashing (by omega) isBlocks
      rw [isOutcome, ok_bind]
      cases outcome with
      | success filter peeling =>
        obtain ⟨final, isFinal, shaped, held⟩ := meets.2.contains
        exact .inr (.inl ⟨final, isFinal, shaped, fun key member =>
          held key (kept key member)⟩)
      | retry next =>
        exact ih meets.1 fun key member =>
          meets.2 key (kept key member)
    · refine .inr (.inr ⟨?_, fun shiftFits => ?_⟩)
      · rw [BinaryFuse.iterate]
        dsimp only
        rw [overflow]
        rfl
      · exact absurd (ready.shaped.resize.segmentCount_le shiftFits)
          (Nat.not_le.mpr many)

/-- Construction over fewer than two to the 32 keys. -/
theorem build_cases
    (fits : keys.length < 2 ^ 32) :
    build hashing keys = .error .tooManyIterations ∨
      (∃ filter, build hashing keys = .ok filter ∧
        Answers hashing keys filter) ∨
      build hashing keys = .error .overflow ∧
        ¬ShiftFits (hashing.geometry keys.length) keys.length := by
  rw [build, Nat.mod_eq_of_lt fits]
  exact (ready_start hashing keys _ _).buildLoop fun key member => member

/-- A filter that construction returns is well shaped and contains every key
it was built from. -/
theorem build_contains
    (fits : keys.length < 2 ^ 32)
    (success : build hashing keys = .ok filter) :
    Answers hashing keys filter := by
  rcases build_cases fits with failed | ⟨other, built, answers⟩ | ⟨failed, -⟩
  · rw [failed] at success
    cases success
  · rw [built] at success
    exact Except.ok.inj success ▸ answers
  · rw [failed] at success
    cases success

end AmberStore.BinaryFuse

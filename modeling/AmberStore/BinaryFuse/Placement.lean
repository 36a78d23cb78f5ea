import AmberStore.BinaryFuse.Slots
import AmberStore.Lib.Cursors
import Mathlib.Data.List.Basic

/-!
# Shape and placement across iterations

The segment size changes from iteration to iteration, but every iteration runs
on a well-shaped filter.  Its placement keeps every hash: a hash goes to a free
position and is never overwritten, and a hash of zero is what a position left
free reads as.
-/

open Bounded Checked Cursors
open List hiding after count filter

namespace AmberStore.BinaryFuse

/-! ## The shape at each iteration -/

theorem WellShaped.setSeed
    (shaped : WellShaped filter bits count) (seed : UInt64) :
    WellShaped { filter with seed := seed } bits count where
  segmentLength := shaped.segmentLength
  segmentLengthMask := shaped.segmentLengthMask
  segmentCount := shaped.segmentCount
  segmentCountLength := shaped.segmentCountLength
  count_pos := shaped.count_pos
  capacity := shaped.capacity
  fits := shaped.fits

theorem toNat_ofNat_of_lt (fits : value < 2 ^ 32) :
    (UInt32.ofNat value).toNat = value :=
  UInt32.toNat_ofNat_of_lt' fits

/-- The mask is one less than a length that is not zero. -/
theorem toNat_sub_one {length : UInt32} (positive : 0 < length.toNat) :
    (length - 1).toNat = length.toNat - 1 := by
  rw [UInt32.toNat_sub_of_le]
  · rfl
  · exact UInt32.le_iff_toNat_le.mpr positive

/-- Fields that agree with a segment length and count make a well-shaped
filter. -/
theorem wellShaped_of_lengths
    (count_pos : 1 ≤ count)
    (capacity : filter.fingerprints.length = (count + 2) * 2 ^ bits)
    (fits : (count + 2) * 2 ^ bits < 2 ^ 32)
    (segmentLength : filter.segmentLength.toNat = 2 ^ bits)
    (segmentCount : filter.segmentCount.toNat = count)
    (mask : filter.segmentLengthMask = filter.segmentLength - 1)
    (countLength : filter.segmentCountLength =
      filter.segmentCount * filter.segmentLength) :
    WellShaped filter bits count where
  segmentLength := segmentLength
  segmentLengthMask := by
    rw [mask, toNat_sub_one (by rw [segmentLength]; exact Nat.two_pow_pos _),
      segmentLength]
  segmentCount := segmentCount
  segmentCountLength := by
    rw [countLength, UInt32.toNat_mul, segmentCount, segmentLength]
    apply Nat.mod_eq_of_lt
    have wide : count * 2 ^ bits ≤ (count + 2) * 2 ^ bits :=
      Nat.mul_le_mul_right _ (by omega)
    omega
  count_pos := count_pos
  capacity := capacity
  fits := fits

theorem wellShaped_initializeParameters (geometry : Geometry) :
    WellShaped (initializeParameters geometry) geometry.bits
      geometry.segmentCount := by
  have fits := geometry.fits
  have positive : 0 < 2 ^ geometry.bits := Nat.two_pow_pos _
  have lengthFits : 2 ^ geometry.bits ≤
      (geometry.segmentCount + 2) * 2 ^ geometry.bits :=
    Nat.le_mul_of_pos_left _ (by omega)
  have countFits : geometry.segmentCount ≤
      (geometry.segmentCount + 2) * 2 ^ geometry.bits :=
    (Nat.le_add_right _ 2).trans (Nat.le_mul_of_pos_right _ positive)
  apply wellShaped_of_lengths geometry.segmentCount_pos
    (by simp [initializeParameters]) fits
  · exact toNat_ofNat_of_lt (by omega)
  · exact toNat_ofNat_of_lt (by omega)
  · rfl
  · rfl

/-- Half the segment length makes room for the same slots. -/
theorem capacity_eq (count bits : Nat) :
    (2 * count + 2 + 2) * 2 ^ bits = (count + 2) * 2 ^ (bits + 1) := by
  rw [Nat.pow_succ']
  ring

theorem WellShaped.halve
    (shaped : WellShaped filter (bits + 1) count) :
    WellShaped (halveSegments filter) bits (2 * count + 2) := by
  have fits := shaped.fits
  have positive : 0 < 2 ^ bits := Nat.two_pow_pos _
  have doubled : 2 ^ (bits + 1) = 2 * 2 ^ bits := by rw [Nat.pow_succ']
  have sameCapacity := capacity_eq count bits
  have countFits : 2 * count + 2 + 2 ≤ (2 * count + 2 + 2) * 2 ^ bits :=
    Nat.le_mul_of_pos_right _ positive
  apply wellShaped_of_lengths (by omega)
    (by rw [sameCapacity]; exact shaped.capacity) (by omega)
  · change (filter.segmentLength / 2).toNat = _
    rw [UInt32.toNat_div, shaped.segmentLength, doubled]
    exact Nat.mul_div_cancel_left _ (by decide)
  · change (filter.segmentCount * 2 + 2).toNat = _
    rw [UInt32.toNat_add, UInt32.toNat_mul, shaped.segmentCount]
    change ((count * 2) % 2 ^ 32 + 2) % 2 ^ 32 = _
    omega
  · rfl
  · rfl

theorem WellShaped.restore
    (count_pos : 1 ≤ count)
    (shaped : WellShaped filter bits (2 * count + 2)) :
    WellShaped (restoreSegments filter) (bits + 1) count := by
  have fits := shaped.fits
  have positive : 0 < 2 ^ bits := Nat.two_pow_pos _
  have doubled : 2 ^ (bits + 1) = 2 * 2 ^ bits := by rw [Nat.pow_succ']
  have sameCapacity := capacity_eq count bits
  have lengthFits : 2 ^ (bits + 1) ≤ (count + 2) * 2 ^ (bits + 1) :=
    Nat.le_mul_of_pos_left _ (by omega)
  apply wellShaped_of_lengths count_pos
    (by rw [← sameCapacity]; exact shaped.capacity) (by omega)
  · change (filter.segmentLength * 2).toNat = _
    rw [UInt32.toNat_mul, shaped.segmentLength, doubled, Nat.mul_comm]
    change 2 * 2 ^ bits % 2 ^ 32 = _
    exact Nat.mod_eq_of_lt (by omega)
  · change (filter.segmentCount / 2 - 1).toNat = _
    have half : (filter.segmentCount / 2).toNat = count + 1 := by
      rw [UInt32.toNat_div, shaped.segmentCount]
      change (2 * count + 2) / 2 = count + 1
      omega
    rw [toNat_sub_one (by omega), half]
    omega
  · rfl
  · rfl

/-- Whether an iteration runs with the smaller segments. -/
def smallIteration (size iterations : Nat) : Prop :=
  (4 < size ∧ size < 1000000) ∧ iterations % 4 = 2

/-- The shape a filter has after a number of iterations. -/
def ShapedAt (geometry : Geometry) (size iterations : Nat)
    (filter : BinaryFuse16) : Prop :=
  (smallIteration size iterations →
    WellShaped filter (geometry.bits - 1) (2 * geometry.segmentCount + 2)) ∧
  (¬smallIteration size iterations →
    WellShaped filter geometry.bits geometry.segmentCount)

theorem ShapedAt.setSeed
    (shaped : ShapedAt geometry size iterations filter) (seed : UInt64) :
    ShapedAt geometry size iterations { filter with seed := seed } :=
  ⟨fun small => (shaped.1 small).setSeed seed,
    fun large => (shaped.2 large).setSeed seed⟩

theorem ShapedAt.exists_wellShaped
    (shaped : ShapedAt geometry size iterations filter) :
    ∃ bits count, WellShaped filter bits count := by
  by_cases small : smallIteration size iterations
  · exact ⟨_, _, shaped.1 small⟩
  · exact ⟨_, _, shaped.2 small⟩

/-- Resizing for the next iteration keeps the shape. -/
theorem ShapedAt.resize
    (shaped : ShapedAt geometry size iterations filter) :
    ShapedAt geometry size (iterations + 1)
      (resizeSegments size (iterations + 1) filter) := by
  have bits_pos := geometry.bits_pos
  have bitsSplit : geometry.bits - 1 + 1 = geometry.bits := by omega
  unfold resizeSegments
  by_cases sized : 4 < size ∧ size < 1000000
  · rw [if_pos sized]
    by_cases second : (iterations + 1) % 4 = 2
    · rw [if_pos second]
      have large := shaped.2 (fun small => by have := small.2; omega)
      rw [← bitsSplit] at large
      exact ⟨fun _ => large.halve, fun large => absurd ⟨sized, second⟩ large⟩
    · rw [if_neg second]
      refine ⟨fun small => absurd small.2 second, fun _ => ?_⟩
      by_cases third : (iterations + 1) % 4 = 3
      · rw [if_pos third]
        have small := shaped.1 ⟨sized, by omega⟩
        rw [← bitsSplit]
        exact small.restore geometry.segmentCount_pos
      · rw [if_neg third]
        exact shaped.2 (fun small => by have := small.2; omega)
  · rw [if_neg sized]
    exact ⟨fun small => absurd small.1 sized,
      fun _ => shaped.2 (fun small => sized small.1)⟩

/-! ## Block bits -/

theorem blockBitsFrom_cases (segmentCount fuel bits : Nat) :
    (∃ found < bits + fuel, blockBitsFrom segmentCount fuel bits = .ok found ∧
        segmentCount ≤ 2 ^ found) ∨
      blockBitsFrom segmentCount fuel bits = .error .overflow ∧
        ∀ more < fuel, 2 ^ (bits + more) < segmentCount := by
  induction fuel generalizing bits with
  | zero => exact .inr ⟨rfl, fun more isMore => absurd isMore (by omega)⟩
  | succ fuel ih =>
    rw [blockBitsFrom]
    by_cases short : 2 ^ bits < segmentCount
    · rw [if_pos short]
      rcases ih (bits + 1) with
        ⟨found, isFound, covers⟩ | ⟨overflow, all⟩
      · exact .inl ⟨found, by omega, covers⟩
      · refine .inr ⟨overflow, fun more isMore => ?_⟩
        cases more with
        | zero => exact short
        | succ more =>
          rw [Nat.add_comm more, ← Nat.add_assoc]
          exact all more (by omega)
    · rw [if_neg short]
      exact .inl ⟨bits, by omega, rfl, Nat.not_lt.mp short⟩

/-- The shift overflows for more than two to the 31 segments. -/
theorem blockBits_cases (filter : BinaryFuse16) :
    (∃ bits ≤ 31, blockBits filter = .ok bits ∧
        filter.segmentCount.toNat ≤ 2 ^ 31) ∨
      blockBits filter = .error .overflow ∧
        2 ^ 31 < filter.segmentCount.toNat := by
  rcases blockBitsFrom_cases filter.segmentCount.toNat 31 1 with
    ⟨bits, isBits, found, covers⟩ | ⟨overflow, all⟩
  · exact .inl ⟨bits, by omega, found,
      covers.trans (Nat.pow_le_pow_right (by decide) (by omega))⟩
  · exact .inr ⟨overflow, all 30 (by decide)⟩

/-! ## Placement -/

/-- The hashes a placement order has to show: the ones placed so far that are
not zero, and no more entries in use than that. -/
structure Placed (order hashes : List UInt64) : Prop where
  kept : ∀ hash ∈ hashes, hash ≠ 0 → hash ∈ order
  inUse : order.countP (· ≠ 0) ≤ hashes.countP (· ≠ 0)

/-- Replacing a free entry keeps the others. -/
theorem Placed.fill
    {hash : UInt64}
    (placed : Placed (before ++ 0 :: after) hashes) :
    Placed (before ++ hash :: after) (hashes ++ [hash]) where
  kept := by
    intro old member nonzero
    rcases mem_append.mp member with earlier | new
    · have held := placed.kept old earlier nonzero
      simp only [mem_append, mem_cons] at held ⊢
      tauto
    · rw [mem_singleton] at new
      subst new
      simp
  inUse := by
    have inUse := placed.inUse
    simp only [countP_append, countP_cons, ne_eq, not_true,
      decide_false, Bool.false_eq_true, if_false, Nat.add_zero,
      countP_nil, Nat.zero_add] at inUse ⊢
    omega

/-- With no more hashes than entries, every hash is in the placement order,
zero included. -/
theorem Placed.mem
    (placed : Placed order hashes)
    (roomy : hashes.length ≤ order.length)
    {hash : UInt64} (member : hash ∈ hashes) :
    hash ∈ order := by
  by_cases zero : hash = 0
  · subst zero
    by_contra absent
    have orderFull : order.countP (· ≠ 0) = order.length := by
      apply countP_eq_length.mpr
      intro entry entryMember
      simp only [ne_eq, decide_not, Bool.not_eq_true', decide_eq_false_iff_not]
      intro entryZero
      exact absent (entryZero ▸ entryMember)
    have hashesShort : hashes.countP (· ≠ 0) < hashes.length := by
      apply lt_of_le_of_ne countP_le_length
      intro full
      have := countP_eq_length.mp full 0 member
      simp at this
    have inUse := placed.inUse
    omega
  · exact placed.kept hash member zero

/-- A placement in progress: the hashes placed so far are in the order before
the sentinel, and the positions of the blocks are cursors over it. -/
structure Placing (size bits : Nat) (placement : Placement)
    (hashes : List UInt64) : Prop where
  blocks : placement.startPos.length = 2 ^ bits
  order : ∃ order, placement.reverseOrder = order ++ [1] ∧
    order.length = size ∧ Placed order hashes
  row : Row (Finset.range (2 ^ bits)) (fun block => (block * size) >>> bits)
    (fun block => placement.startPos.getD block 0)
    (fun cell => placement.reverseOrder.getD cell 0 ≠ 0) size hashes.length

theorem placing_initial (size bits : Nat) :
    Placing size bits
      ⟨List.replicate size 0 ++ [1], startPositions size bits⟩ [] where
  blocks := by simp [startPositions]
  order := by
    refine ⟨_, rfl, length_replicate, by simp, ?_⟩
    simp [countP_replicate]
  row := by
    apply Row.initial
    · intro block isBlock
      rw [startPositions, getD_eq_getElem?_getD, getElem?_map,
        getElem?_range (Finset.mem_range.mp isBlock)]
      rfl
    · intro block isBlock
      rw [Nat.shiftRight_eq_div_pow]
      apply Nat.div_le_of_le_mul
      exact Nat.mul_le_mul_right _ (Finset.mem_range.mp isBlock).le
    · intro cell isCell
      rw [getD_append _ _ _ _ (by simpa using isCell)]
      simp [isCell]

/-- The search goes round all blocks, so it meets one that is free. -/
theorem findSegment_free
    (blocks : placement.startPos.length = 2 ^ bits)
    (inside : ∀ block < 2 ^ bits,
      placement.startPos.getD block 0 < placement.reverseOrder.length)
    (isBlock : start < 2 ^ bits)
    (free : placement.reverseOrder.getD
      (placement.startPos.getD ((start + steps) % 2 ^ bits) 0) 0 = 0)
    (enough : steps < fuel) :
    ∃ found < 2 ^ bits, findSegment placement bits fuel start = .ok found ∧
      placement.reverseOrder.getD (placement.startPos.getD found 0) 0 = 0 := by
  induction steps generalizing start fuel with
  | zero =>
    obtain ⟨fuel, rfl⟩ := Nat.exists_eq_succ_of_ne_zero (by omega : fuel ≠ 0)
    rw [Nat.add_zero, Nat.mod_eq_of_lt isBlock] at free
    refine ⟨start, isBlock, ?_, free⟩
    rw [findSegment, read_eq_ok_of_lt _ 0 (blocks ▸ isBlock),
      ok_bind, read_eq_ok_of_lt _ 0 (inside start isBlock),
      ok_bind, if_neg (not_not.mpr free)]
  | succ steps ih =>
    obtain ⟨fuel, rfl⟩ := Nat.exists_eq_succ_of_ne_zero (by omega : fuel ≠ 0)
    rw [findSegment, read_eq_ok_of_lt _ 0 (blocks ▸ isBlock), ok_bind,
      read_eq_ok_of_lt _ 0 (inside start isBlock), ok_bind]
    split_ifs with taken
    · apply ih (Nat.mod_lt _ (Nat.two_pow_pos bits)) _ (by omega)
      rw [Nat.mod_add_mod, Nat.add_assoc, Nat.add_comm 1]
      exact free
    · exact ⟨start, isBlock, rfl, not_not.mp taken⟩

theorem shiftRight_lt_blocks
    (hash : UInt64) (few : bits ≤ 64) :
    hash.toNat >>> (64 - bits) < 2 ^ bits := by
  rw [Nat.shiftRight_eq_div_pow]
  apply Nat.div_lt_of_lt_mul
  rw [← Nat.pow_add, Nat.sub_add_cancel few]
  exact hash.toNat_lt

/-- While there are positions left, a search finds a free one. -/
theorem Placing.findSegment
    (placing : Placing size bits placement hashes) (few : bits ≤ 64)
    (left : hashes.length < size) (hash : UInt64) :
    ∃ found < 2 ^ bits, findSegment placement bits (2 ^ bits)
        (hash.toNat >>> (64 - bits)) = .ok found ∧
      placement.reverseOrder.getD (placement.startPos.getD found 0) 0 = 0 := by
  obtain ⟨block, isBlock, -, isFree⟩ := placing.row.exists_free
    (Finset.mem_range.mpr (Nat.two_pow_pos bits))
    (by rw [Nat.zero_mul, Nat.zero_shiftRight]) left
  rw [Finset.mem_range] at isBlock
  have first := shiftRight_lt_blocks hash few
  have reached : (hash.toNat >>> (64 - bits) +
      (block + 2 ^ bits - hash.toNat >>> (64 - bits)) % 2 ^ bits) % 2 ^ bits =
        block := by
    rw [Nat.add_mod_mod, Nat.add_sub_cancel' (by omega), Nat.add_mod_right,
      Nat.mod_eq_of_lt isBlock]
  refine findSegment_free placing.blocks ?_ first
    (by rw [reached]; exact not_not.mp isFree)
    (Nat.mod_lt _ (Nat.two_pow_pos bits))
  intro other isOther
  obtain ⟨order, orderEq, orderLength, -⟩ := placing.order
  rw [orderEq, length_append, orderLength]
  exact Nat.lt_succ_of_le
    (placing.row.inside other (Finset.mem_range.mpr isOther))

/-- While there are positions left, one more hash is placed. -/
theorem Placing.placeHash
    (placing : Placing size bits placement hashes) (few : bits ≤ 64)
    (left : hashes.length < size) (hash : UInt64) :
    ∃ next, placeHash bits placement hash = .ok next ∧
      Placing size bits next (hashes ++ [hash]) := by
  obtain ⟨found, foundBlock, isFound, free⟩ := placing.findSegment few left hash
  have foundInside : found < placement.startPos.length :=
    placing.blocks ▸ foundBlock
  obtain ⟨order, orderEq, orderLength, placed⟩ := placing.order
  generalize isPosition : placement.startPos.getD found 0 = position at free
  have atMost : position ≤ size := isPosition ▸
    placing.row.inside found (Finset.mem_range.mpr foundBlock)
  have beforeSentinel : position < order.length := by
    rcases Nat.lt_or_ge position order.length with before | past
    · exact before
    · rw [orderEq, getD_append_right _ _ _ _ past] at free
      have atEnd : position - order.length = 0 := by omega
      rw [atEnd] at free
      cases free
  have positionInside : position < placement.reverseOrder.length := by
    rw [orderEq, length_append]
    omega
  rw [orderEq, getD_append _ _ _ _ beforeSentinel,
    getD_eq_getElem _ _ beforeSentinel] at free
  have isRead := read_eq_ok_of_lt Stop.indexOutOfBounds 0 foundInside
  rw [isPosition] at isRead
  refine ⟨⟨placement.reverseOrder.set position hash,
    placement.startPos.set found (position + 1)⟩, ?_, ?_, ?_, ?_⟩
  · rw [BinaryFuse.placeHash, isFound, ok_bind, isRead,
      ok_bind, (write_eq_ok_iff _).mpr ⟨positionInside, rfl⟩,
      ok_bind, (write_eq_ok_iff _).mpr ⟨foundInside, rfl⟩,
      ok_bind]
  · rw [length_set, placing.blocks]
  · obtain ⟨before, after, split, -, setEq⟩ :=
      @exists_of_set _ position hash order beforeSentinel
    rw [free] at split
    refine ⟨order.set position hash, ?_, ?_, ?_⟩
    · rw [orderEq, set_append_left _ _ beforeSentinel]
    · rw [length_set, orderLength]
    · rw [split] at placed
      rw [setEq]
      exact placed.fill
  · have advanced := placing.row.advance (Finset.mem_range.mpr foundBlock)
      (by rw [isPosition]; omega)
      (fun cell _ (isTaken :
          (placement.reverseOrder.set position hash).getD cell 0 ≠ 0) => by
        by_cases here : cell = position
        · exact .inr (here.trans isPosition.symm)
        · rw [getD_set _ _ _ _ positionInside, if_neg here] at isTaken
          exact .inl isTaken)
    have cursors : (fun other =>
        (placement.startPos.set found (position + 1)).getD other 0) =
        Function.update (fun other => placement.startPos.getD other 0) found
          (placement.startPos.getD found 0 + 1) := by
      funext other
      rw [getD_set _ _ _ _ foundInside, Function.update_apply, isPosition]
    rw [cursors, length_append]
    exact advanced

/-- No more hashes than positions are all placed. -/
theorem Placing.placeHashes
    (placing : Placing size bits placement placedHashes) (few : bits ≤ 64)
    (hashes : List UInt64)
    (roomy : placedHashes.length + hashes.length ≤ size) :
    ∃ final, placeHashes bits placement hashes = .ok final ∧
      Placing size bits final (placedHashes ++ hashes) := by
  induction hashes generalizing placement placedHashes with
  | nil => exact ⟨placement, rfl, by simpa using placing⟩
  | cons hash hashes ih =>
    rw [length_cons] at roomy
    obtain ⟨next, isNext, nextPlacing⟩ := placing.placeHash few (by omega) hash
    obtain ⟨final, isFinal, finalPlacing⟩ :=
      ih nextPlacing (by
        rw [length_append, length_singleton]
        omega)
    refine ⟨final, ?_, by simpa using finalPlacing⟩
    rw [BinaryFuse.placeHashes, isNext, ok_bind, isFinal]

/-- The order an iteration starts from is full and holds every hash it
placed. -/
theorem placeHashes_order
    (few : bits ≤ 64) (roomy : hashes.length ≤ size) :
    ∃ final, placeHashes bits
        ⟨List.replicate size 0 ++ [1], startPositions size bits⟩ hashes =
          .ok final ∧
      size ≤ final.reverseOrder.length ∧
      ∀ hash ∈ hashes, hash ∈ final.reverseOrder.take size := by
  obtain ⟨final, isFinal, placing⟩ := (placing_initial size bits).placeHashes
    few hashes (by rw [length_nil]; omega)
  obtain ⟨order, orderEq, orderLength, placed⟩ := placing.order
  refine ⟨final, isFinal, ?_, fun hash member => ?_⟩
  · rw [orderEq, length_append, orderLength]
    exact Nat.le_add_right _ _
  · rw [orderEq, ← orderLength, take_left]
    exact placed.mem (orderLength.symm ▸ roomy) member

end AmberStore.BinaryFuse

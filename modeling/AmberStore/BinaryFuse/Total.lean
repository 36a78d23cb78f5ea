import AmberStore.BinaryFuse.Section

/-!
# Where construction ends

Construction returns a filter or gives up after the last iteration, as long as
its shift does not overflow.  The number of keys is cut to 32 bits, and the
shift that covers the segments is one of 32 bits.  Two to the 32 keys find no
position at all, and segments that are too many once they are halved run the
shift over in the second iteration.
-/

open Bounded Checked

namespace AmberStore.BinaryFuse

/-- Construction over fewer than two to the 32 keys ends, with a filter or after
the last iteration, and every access on the way is inside its vector.  A filter
it returns contains every key and is read back from its section. -/
theorem build_no_false_negatives
    (hashing : Hashing) (keys : List UInt64) (fits : keys.length < 2 ^ 32)
    (shiftFits : ShiftFits (hashing.geometry keys.length) keys.length) :
    (build hashing keys = .error .tooManyIterations ∨
      ∃ filter, build hashing keys = .ok filter) ∧
    ∀ filter, build hashing keys = .ok filter →
      (∀ key ∈ keys, contains hashing filter key = .ok true) ∧
        parseSection (sectionBytes filter) = .ok filter := by
  have cases := @build_cases keys hashing fits
  constructor
  · rcases cases with gaveUp | ⟨filter, built, -⟩ | ⟨-, notFits⟩
    · exact .inl gaveUp
    · exact .inr ⟨filter, built⟩
    · exact absurd shiftFits notFits
  · intro filter isBuilt
    obtain ⟨⟨bits, count, shaped⟩, contained⟩ := build_contains fits isBuilt
    exact ⟨contained, shaped.parseSection_sectionBytes⟩

/-- The hashing of the source, over the geometry it derives for five keys. -/
def fiveKeysHashing : Hashing :=
  .standard fun _ => ⟨3, 1, by decide, by decide, by decide⟩

theorem build_no_false_negatives_fiveKeys :
    ∃ filter, build fiveKeysHashing [1, 2, 3, 4, 5] = .ok filter ∧
      (∀ key ∈ [1, 2, 3, 4, 5],
        contains fiveKeysHashing filter key = .ok true) ∧
      parseSection (sectionBytes filter) = .ok filter := by
  have built : (build fiveKeysHashing [1, 2, 3, 4, 5]).isOk = true := by
    decide +kernel
  have ends := build_no_false_negatives fiveKeysHashing [1, 2, 3, 4, 5]
    (by decide) fun _ _ => by decide
  obtain gaveUp | ⟨filter, isBuilt⟩ := ends.1
  · rw [gaveUp] at built
    cases built
  · exact ⟨filter, isBuilt, ends.2 filter isBuilt⟩

/-! ## Too many keys -/

/-- With the only position taken by the sentinel, the search goes round. -/
theorem findSegment_endless
    (isBlock : start < 2 ^ bits) :
    findSegment ⟨List.replicate 0 0 ++ [1], startPositions 0 bits⟩ bits fuel
      start = .error .endlessLoop := by
  induction fuel generalizing start with
  | zero => rfl
  | succ fuel ih =>
    have atZero : (startPositions 0 bits)[start]? = some 0 := by
      rw [startPositions, List.getElem?_map, List.getElem?_range isBlock]
      simp
    rw [findSegment, (read_eq_ok_iff _).mpr atZero, ok_bind]
    exact ih (Nat.mod_lt _ (Nat.two_pow_pos bits))

/-- The number of keys is cut to 32 bits, so that there is no position for the
first of two to the 32 keys. -/
theorem build_endless
    (hashing : Hashing) (many : keys.length = 2 ^ 32) :
    build hashing keys = .error .endlessLoop := by
  rw [build, many, Nat.mod_self]
  have shaped := (ready_start hashing [] (splitmix64 1).2 0).shaped.resize
  obtain ⟨bits, isBits⟩ : ∃ bits ≤ 31, blockBits (resizeSegments 0 1
      { initializeParameters (hashing.geometry 0) with
        seed := (splitmix64 1).2 }) = .ok bits := by
    rcases blockBits_cases (resizeSegments 0 1
      { initializeParameters (hashing.geometry 0) with
        seed := (splitmix64 1).2 }) with ⟨bits, few, isBits, -⟩ | ⟨-, past⟩
    · exact ⟨bits, few, isBits⟩
    · exact absurd (shaped.segmentCount_le fun large =>
      absurd large (by decide)) (Nat.not_le.mpr past)
  obtain ⟨key, later, rfl⟩ := List.exists_cons_of_ne_nil
    (List.ne_nil_of_length_pos (many ▸ Nat.two_pow_pos 32))
  rw [buildLoop, iterate]
  dsimp only
  rw [isBits.2, ok_bind, List.map_cons, placeHashes, placeHash,
    findSegment_endless (shiftRight_lt_blocks _ (by omega))]
  rfl

/-! ## Too many segments -/

/-- Hashes that are the keys, over segments of two slots, of which there are two
to the 30. -/
def wideHashing : Hashing where
  mix key _ := key
  fingerprint _ := 0
  geometry _ := ⟨1, 2 ^ 30, by decide, by decide, by decide⟩

/-- Keys that share their slots are not peeled off together. -/
theorem PeeledOff.not_same_slots
    (peeledOff : PeeledOff hashing filter peeling keys)
    (isLeft : left ∈ keys) (isRight : right ∈ keys)
    (different : hashing.mix left filter.seed ≠ hashing.mix right filter.seed) :
    slotIndex filter (hashing.mix left filter.seed) ≠
      slotIndex filter (hashing.mix right filter.seed) := by
  obtain ⟨stack, -, -, -, peeled, listed⟩ := peeledOff.ordered
  obtain ⟨leftEntry, leftMember, leftHash⟩ :=
    List.mem_map.mp (listed left isLeft)
  obtain ⟨rightEntry, rightMember, rightHash⟩ :=
    List.mem_map.mp (listed right isRight)
  intro same
  apply peeled.not_same _ leftMember rightMember
  · intro sameEntry
    rw [← leftHash, ← rightHash, sameEntry] at different
    exact different rfl
  · intro rank
    rw [leftHash, rightHash, same]

/-- The second iteration halves segments that are too many to be halved. -/
theorem iterate_overflow
    (shaped : ShapedAt geometry size 1 state.filter)
    (sized : 4 < size ∧ size < 1000000)
    (many : 2 ^ 30 ≤ geometry.segmentCount) :
    iterate hashing size 2 state = .error .overflow := by
  have small := (shaped.resize.1 ⟨sized, rfl⟩).segmentCount
  rcases blockBits_cases (resizeSegments size 2 state.filter) with
    ⟨-, -, -, covers⟩ | ⟨overflow, -⟩
  · rw [small] at covers
    omega
  · rw [iterate]
    dsimp only
    rw [overflow]
    rfl

/-- In segments of two slots the hashes 2 and 4 have the same slots: they are
too small for a segment past the first, and differ in no bit of an offset. -/
theorem slotIndex_two_eq_four
    (masked : filter.segmentLengthMask = 1) :
    slotIndex filter 2 = slotIndex filter 4 := by
  have fits := filter.segmentCountLength.toNat_lt
  have first (hash : UInt64) (small : hash.toNat ≤ 4) :
      hash.toNat * filter.segmentCountLength.toNat / 2 ^ 64 = 0 := by
    apply Nat.div_eq_of_lt
    have bounded := Nat.mul_le_mul_right filter.segmentCountLength.toNat small
    omega
  have same : getHashFromHash filter 2 = getHashFromHash filter 4 := by
    simp only [getHashFromHash, first 2 (by decide), first 4 (by decide),
      masked]
    rfl
  funext rank
  fin_cases rank
  · exact congrArg (fun slots => slots.1.toNat) same
  · exact congrArg (fun slots => slots.2.1.toNat) same
  · exact congrArg (fun slots => slots.2.2.toNat) same

/-- Construction that does not end with its first iteration overflows in the
second where the segments are too many to be halved. -/
theorem build_overflow
    (sized : 4 < keys.length ∧ keys.length < 1000000)
    (masked : (initializeParameters
      (hashing.geometry keys.length)).segmentLengthMask = 1)
    (many : 2 ^ 30 ≤ (hashing.geometry keys.length).segmentCount)
    (isLeft : left ∈ keys) (isRight : right ∈ keys)
    (leftHash : ∀ seed, hashing.mix left seed = 2)
    (rightHash : ∀ seed, hashing.mix right seed = 4) :
    build hashing keys = .error .overflow := by
  have few : keys.length < 2 ^ 32 := by omega
  have ready := ready_start hashing keys (splitmix64 1).2 (splitmix64 1).1
  have covered := (ready.shaped.resize.2 (fun small => absurd small.2
    (by decide))).segmentCount.trans_le (Geometry.segmentCount_lt _).le
  rw [build, Nat.mod_eq_of_lt few, buildLoop]
  rcases blockBits_cases (resizeSegments keys.length 1
    { initializeParameters (hashing.geometry keys.length) with
      seed := (splitmix64 1).2 }) with ⟨blocks, fewBlocks, isBlocks, -⟩ |
        ⟨-, past⟩
  · obtain ⟨outcome, isOutcome, meets⟩ :=
      ready.iterate hashing (by omega) isBlocks
    rw [isOutcome, ok_bind]
    cases outcome with
    | success filter peeling =>
      obtain ⟨isFilter, peeledOff⟩ := meets
      have sameMask : filter.segmentLengthMask = 1 := by
        rw [isFilter, resizeSegments, if_pos sized, if_neg (by decide),
          if_neg (by decide), masked]
      have apart := peeledOff.not_same_slots isLeft isRight
      rw [leftHash, rightHash] at apart
      exact (apart (by decide) (slotIndex_two_eq_four sameMask)).elim
    | retry next =>
      change buildLoop hashing keys.length 1023 1 next = _
      rw [buildLoop, iterate_overflow meets.1.shaped sized many]
      rfl
  · exact absurd covered (Nat.not_le.mpr past)

/-- Construction loops for ever over two to the 32 keys, and runs its shift over
for five keys and two to the 30 segments of two slots. -/
theorem build_endless_or_overflows :
    build wideHashing (List.replicate (2 ^ 32) 0) = .error .endlessLoop ∧
      build wideHashing [2, 4, 6, 8, 10] = .error .overflow := by
  refine ⟨build_endless wideHashing List.length_replicate, ?_⟩
  apply build_overflow (by decide) rfl (le_refl _)
    (by decide : (2 : UInt64) ∈ _) (by decide : (4 : UInt64) ∈ _)
  · exact fun _ => rfl
  · exact fun _ => rfl

end AmberStore.BinaryFuse

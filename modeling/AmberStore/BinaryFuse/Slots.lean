import AmberStore.BinaryFuse.Build
import Mathlib.Data.Fintype.Basic
import Mathlib.Data.LawfulXor.Basic
import Mathlib.Data.Nat.Bitwise
import Mathlib.Tactic.FinCases

/-!
# The slots of a hash

In a well-shaped filter the three slots of a hash lie in three consecutive
segments, inside the fingerprint array, and the branch-free computation of the
other two slots from one of them finds the right ones.
-/

namespace AmberStore.BinaryFuse

/-! ## Exclusive or below a power of two -/

theorem xor_low_eq
    (value : Nat)
    (small : low < 2 ^ bits) :
    value ^^^ low =
      2 ^ bits * (value / 2 ^ bits) + ((value % 2 ^ bits) ^^^ low) := by
  have high : (value ^^^ low) / 2 ^ bits = value / 2 ^ bits := by
    rw [Nat.xor_div_two_pow, Nat.div_eq_of_lt small, Nat.xor_zero]
  have rest : (value ^^^ low) % 2 ^ bits = (value % 2 ^ bits) ^^^ low := by
    rw [Nat.xor_mod_two_pow, Nat.mod_eq_of_lt small]
  rw [← high, ← rest, Nat.div_add_mod]

theorem xor_low_div
    (value : Nat)
    (small : low < 2 ^ bits) :
    (value ^^^ low) / 2 ^ bits = value / 2 ^ bits := by
  rw [Nat.xor_div_two_pow, Nat.div_eq_of_lt small, Nat.xor_zero]

theorem xor_low_add
    (value : Nat)
    (small : low < 2 ^ bits) :
    (value ^^^ low) + 2 ^ bits = (value + 2 ^ bits) ^^^ low := by
  have positive : 0 < 2 ^ bits := Nat.two_pow_pos bits
  rw [xor_low_eq value small, xor_low_eq (value + 2 ^ bits) small,
    Nat.add_div_right _ positive, Nat.add_mod_right]
  ring

/-! ## Shape -/

/-- A filter whose fields describe `count` segments of two to the `bits`
slots, and two more. -/
structure WellShaped (filter : BinaryFuse16) (bits count : Nat) : Prop where
  segmentLength : filter.segmentLength.toNat = 2 ^ bits
  segmentLengthMask : filter.segmentLengthMask.toNat = 2 ^ bits - 1
  segmentCount : filter.segmentCount.toNat = count
  segmentCountLength : filter.segmentCountLength.toNat = count * 2 ^ bits
  count_pos : 1 ≤ count
  capacity : filter.fingerprints.length = (count + 2) * 2 ^ bits
  fits : (count + 2) * 2 ^ bits < 2 ^ 32

/-- The slot of a hash with a given rank. -/
def slot (filter : BinaryFuse16) (hash : UInt64) : Fin 3 → UInt32
  | 0 => (getHashFromHash filter hash).1
  | 1 => (getHashFromHash filter hash).2.1
  | 2 => (getHashFromHash filter hash).2.2

/-- The slot as an index. -/
def slotIndex (filter : BinaryFuse16) (hash : UInt64) (rank : Fin 3) : Nat :=
  (slot filter hash rank).toNat

section Shaped

variable {filter : BinaryFuse16} {bits count : Nat}

namespace WellShaped

variable (shaped : WellShaped filter bits count)
include shaped

theorem masked_lt (value : UInt32) :
    (value &&& filter.segmentLengthMask).toNat < 2 ^ bits := by
  rw [UInt32.toNat_and, shaped.segmentLengthMask,
    Nat.and_two_pow_sub_one_eq_mod]
  exact Nat.mod_lt _ (Nat.two_pow_pos bits)

/-- The first slot, as an index. -/
theorem first_lt (hash : UInt64) :
    slotIndex filter hash 0 < count * 2 ^ bits := by
  have product : hash.toNat * filter.segmentCountLength.toNat / 2 ^ 64 <
      count * 2 ^ bits := by
    rw [shaped.segmentCountLength]
    apply Nat.div_lt_of_lt_mul
    have positive : 0 < count * 2 ^ bits :=
      Nat.mul_pos shaped.count_pos (Nat.two_pow_pos bits)
    exact Nat.mul_lt_mul_of_pos_right hash.toNat_lt positive
  have fits := shaped.fits
  have wide : count * 2 ^ bits ≤ (count + 2) * 2 ^ bits :=
    Nat.mul_le_mul_right _ (by omega)
  change (UInt32.ofNat _).toNat < _
  rw [UInt32.toNat_ofNat_of_lt' (by change _ < 2 ^ 32; omega)]
  exact product

/-- Two segments after the first slot the index still fits 32 bits. -/
theorem slotIndex_room (hash : UInt64) :
    slotIndex filter hash 0 + 2 * 2 ^ bits < 2 ^ 32 := by
  have first := shaped.first_lt hash
  have fits := shaped.fits
  rw [Nat.add_mul] at fits
  omega

theorem second_eq (hash : UInt64) :
    slotIndex filter hash 1 =
      (slotIndex filter hash 0 + 2 ^ bits) ^^^
        ((hash >>> 18).toUInt32 &&& filter.segmentLengthMask).toNat := by
  have room := shaped.slotIndex_room hash
  change ((slot filter hash 0 + filter.segmentLength) ^^^ _).toNat = _
  rw [UInt32.toNat_xor, UInt32.toNat_add, shaped.segmentLength,
    Nat.mod_eq_of_lt]
  · rfl
  · change slotIndex filter hash 0 + _ < _
    omega

theorem third_eq (hash : UInt64) :
    slotIndex filter hash 2 =
      (slotIndex filter hash 0 + 2 * 2 ^ bits) ^^^
        (hash.toUInt32 &&& filter.segmentLengthMask).toNat := by
  have room := shaped.slotIndex_room hash
  change ((slot filter hash 0 + filter.segmentLength +
    filter.segmentLength) ^^^ _).toNat = _
  have sum : (slot filter hash 0 + filter.segmentLength +
      filter.segmentLength).toNat = slotIndex filter hash 0 + 2 * 2 ^ bits := by
    rw [UInt32.toNat_add, UInt32.toNat_add, shaped.segmentLength]
    change (((slotIndex filter hash 0 + 2 ^ bits) % 2 ^ 32) + 2 ^ bits) %
      2 ^ 32 = _
    omega
  rw [UInt32.toNat_xor, sum]

/-- The segment a slot lies in. -/
theorem slotIndex_div (hash : UInt64) (rank : Fin 3) :
    slotIndex filter hash rank / 2 ^ bits =
      slotIndex filter hash 0 / 2 ^ bits + rank.val := by
  have positive : 0 < 2 ^ bits := Nat.two_pow_pos bits
  fin_cases rank
  · rfl
  · change slotIndex filter hash 1 / 2 ^ bits = _
    rw [shaped.second_eq, xor_low_div _ (shaped.masked_lt _),
      Nat.add_div_right _ positive]
  · change slotIndex filter hash 2 / 2 ^ bits = _
    rw [shaped.third_eq, xor_low_div _ (shaped.masked_lt _),
      Nat.add_mul_div_right _ _ positive]

/-- The three slots of a hash differ. -/
theorem slotIndex_injective (hash : UInt64) :
    Function.Injective (slotIndex filter hash) := by
  intro left right same
  have leftSegment := shaped.slotIndex_div hash left
  have rightSegment := shaped.slotIndex_div hash right
  rw [same] at leftSegment
  exact Fin.ext (by omega)

/-- Every slot lies inside the fingerprint array. -/
theorem slotIndex_lt (hash : UInt64) (rank : Fin 3) :
    slotIndex filter hash rank < filter.fingerprints.length := by
  have positive : 0 < 2 ^ bits := Nat.two_pow_pos bits
  have segment := shaped.slotIndex_div hash rank
  have firstSegment : slotIndex filter hash 0 / 2 ^ bits < count :=
    Nat.div_lt_of_lt_mul (by rw [Nat.mul_comm]; exact shaped.first_lt hash)
  have rankBound := rank.isLt
  rw [shaped.capacity]
  apply (Nat.div_lt_iff_lt_mul positive).mp
  omega

end WellShaped

/-! ## The other two slots -/

/-- A rank as the two bits a count carries. -/
def rankBits (rank : Fin 3) : UInt8 :=
  UInt8.ofNat rank.val

theorem WellShaped.segment_shift
    (shaped : WellShaped filter bits count)
    (value masked : UInt32)
    (small : masked.toNat < 2 ^ bits)
    (roomy : value.toNat + 2 ^ bits < 2 ^ 32) :
    (value ^^^ masked) + filter.segmentLength =
      (value + filter.segmentLength) ^^^ masked := by
  apply UInt32.toNat_inj.mp
  have below : (value.toNat ^^^ masked.toNat) + 2 ^ bits < 2 ^ 32 := by
    rw [xor_low_add _ small]
    have bitsLt : 2 ^ bits < 2 ^ 32 := by omega
    exact Nat.xor_lt_two_pow roomy (small.trans bitsLt)
  rw [UInt32.toNat_add, UInt32.toNat_xor, UInt32.toNat_xor,
    UInt32.toNat_add, shaped.segmentLength, Nat.mod_eq_of_lt below,
    Nat.mod_eq_of_lt roomy, xor_low_add _ small]

section Branchless

variable (filter) (hash : UInt64) (index : UInt32)

/-- The bits of the second slot's offset in its segment. -/
def offset1 : UInt32 :=
  (hash >>> 18).toUInt32 &&& filter.segmentLengthMask

/-- The bits of the third slot's offset in its segment. -/
def offset2 : UInt32 :=
  hash.toUInt32 &&& filter.segmentLengthMask

theorem otherSlots_zero :
    otherSlots filter hash index 0 =
      (((index + filter.segmentLength) ^^^ offset1 filter hash, 1),
        ((index + 2 * filter.segmentLength) ^^^ offset2 filter hash, 2)) := by
  have is0 : spread (((0 : UInt8) - 1) >>> 7) = -1 := by decide
  have is1 : spread ((0 : UInt8) &&& 1) = 0 := by decide
  have is2 : spread ((0 : UInt8) >>> 1) = 0 := by decide
  simp only [otherSlots, is0, is1, is2]
  simp [offset1, offset2]

theorem otherSlots_one :
    otherSlots filter hash index 1 =
      (((index + filter.segmentLength) ^^^
          (offset1 filter hash ^^^ offset2 filter hash), 2),
        ((index - filter.segmentLength) ^^^ offset1 filter hash, 0)) := by
  have is0 : spread (((1 : UInt8) - 1) >>> 7) = 0 := by decide
  have is1 : spread ((1 : UInt8) &&& 1) = -1 := by decide
  have is2 : spread ((1 : UInt8) >>> 1) = 0 := by decide
  simp only [otherSlots, is0, is1, is2]
  simp [offset1, offset2]

theorem otherSlots_two :
    otherSlots filter hash index 2 =
      (((index - 2 * filter.segmentLength) ^^^ offset2 filter hash, 0),
        ((index - filter.segmentLength) ^^^
          (offset1 filter hash ^^^ offset2 filter hash), 1)) := by
  have is0 : spread (((2 : UInt8) - 1) >>> 7) = 0 := by decide
  have is1 : spread ((2 : UInt8) &&& 1) = 0 := by decide
  have is2 : spread ((2 : UInt8) >>> 1) = -1 := by decide
  simp only [otherSlots, is0, is1, is2]
  simp [offset1, offset2, UInt32.sub_eq_add_neg]

end Branchless

theorem slot_one_eq (filter : BinaryFuse16) (hash : UInt64) :
    slot filter hash 1 =
      (slot filter hash 0 + filter.segmentLength) ^^^ offset1 filter hash :=
  rfl

theorem slot_two_eq (filter : BinaryFuse16) (hash : UInt64) :
    slot filter hash 2 =
      (slot filter hash 0 + filter.segmentLength + filter.segmentLength) ^^^
        offset2 filter hash :=
  rfl

/-- From a slot and its rank the other two slots and ranks are found. -/
theorem WellShaped.otherSlots_eq
    (shaped : WellShaped filter bits count)
    (hash : UInt64) (rank : Fin 3) :
    otherSlots filter hash (slot filter hash rank) (rankBits rank) =
      ((slot filter hash (rank + 1), rankBits (rank + 1)),
        (slot filter hash (rank + 2), rankBits (rank + 2))) := by
  have room : (slot filter hash 0).toNat + 2 * 2 ^ bits < 2 ^ 32 :=
    shaped.slotIndex_room hash
  have second : (slot filter hash 0 + filter.segmentLength).toNat =
      (slot filter hash 0).toNat + 2 ^ bits := by
    rw [UInt32.toNat_add, shaped.segmentLength]
    exact Nat.mod_eq_of_lt (by omega)
  have doubled (value : UInt32) : value + 2 * filter.segmentLength =
      value + filter.segmentLength + filter.segmentLength := by
    rw [UInt32.two_mul, UInt32.add_assoc]
  have small1 : (offset1 filter hash).toNat < 2 ^ bits := shaped.masked_lt _
  have small2 : (offset2 filter hash).toNat < 2 ^ bits := shaped.masked_lt _
  have low1 := shaped.segment_shift _ _ small1 (by omega :
    (slot filter hash 0).toNat + 2 ^ bits < 2 ^ 32)
  have low2 := shaped.segment_shift _ _ small2 (by omega :
    (slot filter hash 0).toNat + 2 ^ bits < 2 ^ 32)
  have high1 := shaped.segment_shift _ _ small1 (by omega :
    (slot filter hash 0 + filter.segmentLength).toNat + 2 ^ bits < 2 ^ 32)
  have high2 := shaped.segment_shift _ _ small2 (by omega :
    (slot filter hash 0 + filter.segmentLength).toNat + 2 ^ bits < 2 ^ 32)
  have cancel (value left right : UInt32) :
      (value ^^^ left) ^^^ (left ^^^ right) = value ^^^ right := by
    rw [UInt32.xor_assoc, xor_cancel_left]
  fin_cases rank
  · change otherSlots filter hash (slot filter hash 0) 0 =
      ((slot filter hash 1, 1), (slot filter hash 2, 2))
    rw [otherSlots_zero, doubled, slot_one_eq, slot_two_eq]
  · change otherSlots filter hash (slot filter hash 1) 1 =
      ((slot filter hash 2, 2), (slot filter hash 0, 0))
    rw [otherSlots_one, slot_one_eq, slot_two_eq, high1, ← low1,
      UInt32.add_sub_cancel, cancel, xor_cancel_right]
  · change otherSlots filter hash (slot filter hash 2) 2 =
      ((slot filter hash 0, 0), (slot filter hash 1, 1))
    have twoDown : slot filter hash 2 - 2 * filter.segmentLength =
        slot filter hash 0 ^^^ offset2 filter hash := by
      rw [slot_two_eq, ← high2, ← low2, UInt32.add_assoc,
        ← UInt32.two_mul, UInt32.add_sub_cancel]
    have oneDown : slot filter hash 2 - filter.segmentLength =
        (slot filter hash 0 + filter.segmentLength) ^^^
          offset2 filter hash := by
      rw [slot_two_eq, ← high2, UInt32.add_sub_cancel]
    rw [otherSlots_two, twoDown, oneDown, xor_cancel_right,
      UInt32.xor_comm (offset1 filter hash), cancel, slot_one_eq]

end Shaped

end AmberStore.BinaryFuse

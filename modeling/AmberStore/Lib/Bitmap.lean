import Mathlib.Data.Nat.Bitwise

/-!
# Bitmaps in words

A set of positions as the bits of 64-bit words.
-/

open List

namespace Bitmap

/-- The word with one bit. -/
def bit (position : Nat) : UInt64 :=
  1 <<< UInt64.ofNat (position % 64)

/-- Whether a position is in the set. -/
def test (words : List UInt64) (position : Nat) : Bool :=
  words.getD (position / 64) 0 &&& bit position ≠ 0

/-- Puts a position into the set. -/
def put (words : List UInt64) (position : Nat) : List UInt64 :=
  words.set (position / 64) (words.getD (position / 64) 0 ||| bit position)

/-- So many words are enough for so many positions. -/
def wordCount (positions : Nat) : Nat :=
  (positions + 63) / 64

theorem toNat_bit (position : Nat) :
    (bit position).toNat = 2 ^ (position % 64) := by
  have small : position % 64 < 64 := Nat.mod_lt _ (by decide)
  have fits : 2 ^ (position % 64) < 2 ^ 64 :=
    Nat.pow_lt_pow_right (by decide) small
  unfold bit
  rw [UInt64.toNat_shiftLeft, UInt64.toNat_ofNat', UInt64.toNat_one,
    Nat.mod_eq_of_lt (by omega : position % 64 < 2 ^ 64),
    Nat.mod_eq_of_lt small, Nat.shiftLeft_eq, Nat.one_mul,
    Nat.mod_eq_of_lt fits]

/-- A bit is in a word as it is in the word's value. -/
theorem and_bit_ne_zero_iff (word : UInt64) (position : Nat) :
    word &&& bit position ≠ 0 ↔ word.toNat.testBit (position % 64) = true := by
  rw [ne_eq, ← UInt64.toNat_inj, UInt64.toNat_and, toNat_bit, Nat.and_two_pow]
  cases word.toNat.testBit (position % 64) <;> simp

theorem test_eq_true_iff (words : List UInt64) (position : Nat) :
    test words position = true ↔
      (words.getD (position / 64) 0).toNat.testBit (position % 64) = true := by
  unfold test
  rw [decide_eq_true_iff, and_bit_ne_zero_iff]

@[simp] theorem length_put (words : List UInt64) (position : Nat) :
    (put words position).length = words.length :=
  length_set

/-- Putting a position in adds that one alone. -/
theorem test_put
    (inside : position / 64 < words.length) (other : Nat) :
    test (put words position) other = true ↔
      other = position ∨ test words other = true := by
  rw [test_eq_true_iff, test_eq_true_iff]
  unfold put
  by_cases sameWord : other / 64 = position / 64
  · rw [sameWord, getD_eq_getElem?_getD, getElem?_set_self inside,
      Option.getD_some, UInt64.toNat_or, toNat_bit, Nat.testBit_or,
      Nat.testBit_two_pow, Bool.or_eq_true, decide_eq_true_iff]
    have same : position % 64 = other % 64 ↔ other = position := by omega
    rw [same]
    exact or_comm
  · have different : other ≠ position := by
      rintro rfl
      exact sameWord rfl
    rw [getD_eq_getElem?_getD, getElem?_set_ne (Ne.symm sameWord),
      ← getD_eq_getElem?_getD]
    simp [different]

theorem test_replicate (count position : Nat) :
    test (List.replicate count 0) position = false := by
  have zero : (List.replicate count (0 : UInt64)).getD (position / 64) 0 = 0 := by
    rw [getD_eq_getElem?_getD, getElem?_replicate]
    split <;> rfl
  rw [Bool.eq_false_iff, ne_eq, test_eq_true_iff, zero]
  simp

theorem lt_wordCount (inside : position < positions) :
    position / 64 < wordCount positions := by
  unfold wordCount
  omega

end Bitmap

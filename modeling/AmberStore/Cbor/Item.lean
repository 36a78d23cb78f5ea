import AmberStore.Cbor.Head
import Mathlib.Data.List.Flatten

/-!
# Deterministic CBOR items

The items the encoders of the store emit: integers, strings, and definite
arrays and maps of such items, all with shortest heads.  An item is described by
its bytes and by how many levels of containers it may use, so that a reader
which counts levels can be run over it by induction.
-/

open ByteString List

namespace AmberStore.Cbor

/-- How many elements or pairs the readers accept in one container. -/
abbrev maxElements : Nat := 131072

/-- Bytes that are one deterministic item with at most this many levels of
containers. -/
inductive Item : (levels : Nat) → Bytes → Prop
  | uint {levels : Nat} (n : Nat)
      (fits : n < 2 ^ 64) :
      Item levels (appendHead .uint n)
  | negint {levels : Nat} (n : Nat)
      (fits : n < 2 ^ 64) :
      Item levels (appendHead .negint n)
  | bstr {levels : Nat} (content : Bytes)
      (fits : content.length < 2 ^ 63) :
      Item levels (appendBstr content)
  | tstr {levels : Nat} (text : String)
      (fits : (utf8 text).length < 2 ^ 63) :
      Item levels (appendTstr text)
  | array {levels : Nat} (items : List Bytes)
      (few : items.length ≤ maxElements)
      (each : ∀ item ∈ items, Item levels item) :
      Item (levels + 1) (appendHead .array items.length ++ items.flatten)
  | map {levels : Nat} (pairs : Nat) (members : List Bytes)
      (paired : members.length = 2 * pairs)
      (few : pairs ≤ maxElements)
      (each : ∀ member ∈ members, Item levels member) :
      Item (levels + 1) (appendHead .map pairs ++ members.flatten)

theorem Item.ne_nil
    (isItem : Item levels item) :
    item ≠ [] := by
  cases isItem <;> simp [appendBstr, appendTstr, appendHead_ne_nil]

/-- An integer is an item. -/
theorem Item.int (value : Int64) :
    Item levels (appendInt value) := by
  unfold appendInt
  split
  · exact .uint _ (UInt64.toNat_lt _)
  · exact .negint _ (UInt64.toNat_lt _)

/-- An array of items is an item. -/
theorem Item.list
    (values : List α) (piece : α → Bytes)
    (few : values.length ≤ maxElements)
    (each : ∀ value ∈ values, Item levels (piece value)) :
    Item (levels + 1)
      (appendHead .array values.length ++ values.flatMap piece) := by
  have whole := Item.array (values.map piece) (by rwa [length_map])
    (by simpa only [forall_mem_map] using each)
  rwa [length_map, ← flatMap_def] at whole

/-- A map from small integers to items is an item. -/
theorem Item.record
    (ks : List Nat) (value : Nat → Bytes)
    (few : ks.length ≤ maxElements)
    (small : ∀ k ∈ ks, k < 2 ^ 64)
    (each : ∀ k ∈ ks, Item levels (value k)) :
    Item (levels + 1)
      (appendHead .map ks.length ++
        ks.flatMap (fun k => appendHead .uint k ++ value k)) := by
  have bytes : (ks.flatMap fun k => [appendHead .uint k, value k]).flatten =
      ks.flatMap fun k => appendHead .uint k ++ value k := by
    simp [flatMap_def, flatten_flatten, Function.comp_def]
  rw [← bytes]
  refine .map _ _ ?paired few ?each
  case paired =>
    simp [length_flatMap, map_const', Nat.mul_comm]
  case each =>
    intro member isMember
    obtain ⟨k, isKey, isMember⟩ := mem_flatMap.mp isMember
    simp only [mem_cons, not_mem_nil, or_false] at isMember
    rcases isMember with rfl | rfl
    · exact .uint k (small k isKey)
    · exact each k isKey

/-! ## Records -/

/-- The number of a field, if its content is not empty. -/
def optionalKey (number : Nat) (content : List α) : List Nat :=
  if content.isEmpty then [] else [number]

theorem optionalKey_length (number : Nat) (content : List α) :
    (optionalKey number content).length =
      if content.isEmpty then 0 else 1 := by
  unfold optionalKey
  split <;> rfl

theorem optionalKey_sublist (number : Nat) (content : List α) :
    (optionalKey number content).Sublist [number] := by
  unfold optionalKey
  split
  · exact nil_sublist _
  · exact List.Sublist.refl _

/-- The bytes of a field's pair. -/
def pairBytes (value : Nat → Bytes) (number : Nat) : Bytes :=
  appendHead .uint number ++ value number

/-- A field that is left out has no pair. -/
theorem optionalField_eq
    (number : Nat) (content : List α) (value : Nat → Bytes) :
    optionalField number content (value number) =
      (optionalKey number content).flatMap (pairBytes value) := by
  cases content with
  | nil => rfl
  | cons first content => simp [optionalField, optionalKey, pairBytes]

section TenFields

/-! A record of five fields, and of five more that may be left out. -/

variable (five : List α) (six : List β) (seven : List γ) (eight : List δ)
variable (nine : List ε)

theorem tenFields_length :
    ([0, 1, 2, 3, 4] ++ optionalKey 5 five ++ optionalKey 6 six ++
      optionalKey 7 seven ++ optionalKey 8 eight ++
      optionalKey 9 nine).length =
      5 + (if five.isEmpty then 0 else 1) + (if six.isEmpty then 0 else 1) +
        (if seven.isEmpty then 0 else 1) + (if eight.isEmpty then 0 else 1) +
        (if nine.isEmpty then 0 else 1) := by
  simp only [length_append, optionalKey_length, length_cons, length_nil]

theorem tenFields_sublist :
    ([0, 1, 2, 3, 4] ++ optionalKey 5 five ++ optionalKey 6 six ++
      optionalKey 7 seven ++ optionalKey 8 eight ++
      optionalKey 9 nine).Sublist (List.range 10) :=
  (((((List.Sublist.refl _).append (optionalKey_sublist 5 _)).append
    (optionalKey_sublist 6 _)).append
    (optionalKey_sublist 7 _)).append
    (optionalKey_sublist 8 _)).append (optionalKey_sublist 9 _)

end TenFields

/-! ## Integers -/

/-- Complementing the bits of an integer reflects it around minus a half. -/
theorem complement_eq (value : Int64) : ~~~value = -1 - value := by
  apply Int64.toBitVec_inj.mp
  have one : Int64.toBitVec 1 = 1#64 := rfl
  simp only [Int64.toBitVec_sub, Int64.toBitVec_neg, Int64.toBitVec_not, one]
  bv_omega

/-- The bits of an integer that is not negative are its value. -/
theorem ofNat_bits_of_nonneg
    (nonneg : 0 ≤ value) :
    value.toUInt64.toNat < 2 ^ 63 ∧
      Int64.ofNat value.toUInt64.toNat = value := by
  have bits : value.toUInt64.toNat = value.toBitVec.toNat := rfl
  constructor
  · rw [Int64.le_iff_toInt_le, ← Int64.toInt_toBitVec value,
      BitVec.toInt_eq_toNat_cond] at nonneg
    rw [bits]
    simp only [Int64.toInt_zero] at nonneg
    omega
  · apply Int64.toBitVec_inj.mp
    rw [bits, Int64.toBitVec_ofNat', BitVec.ofNat_toNat, BitVec.setWidth_eq]

/-- The complement of the bits of a negative integer is the complement of its
value. -/
theorem ofNat_complement_of_neg
    (negative : ¬0 ≤ value) :
    (~~~value.toUInt64).toNat < 2 ^ 63 ∧
      ~~~(Int64.ofNat (~~~value.toUInt64).toNat) = value := by
  have bits : (~~~value.toUInt64).toNat = (~~~value.toBitVec).toNat := rfl
  constructor
  · rw [Int64.le_iff_toInt_le, ← Int64.toInt_toBitVec value,
      BitVec.toInt_eq_toNat_cond] at negative
    rw [bits, BitVec.toNat_not]
    simp only [Int64.toInt_zero] at negative
    omega
  · have complement :
        Int64.ofNat (~~~value.toUInt64).toNat = ~~~value := by
      apply Int64.toBitVec_inj.mp
      rw [bits, Int64.toBitVec_ofNat', Int64.toBitVec_not,
        BitVec.ofNat_toNat, BitVec.setWidth_eq]
    rw [complement, Int64.not_not]

/-- What a number below the sign bit is written as. -/
theorem appendInt_ofNat (small : v < 2 ^ 63) :
    appendInt (Int64.ofNat v) = appendHead .uint v := by
  have nonneg : 0 ≤ Int64.ofNat v := by
    rw [Int64.le_iff_toInt_le, Int64.toInt_ofNat_of_lt small, Int64.toInt_zero]
    exact Int.natCast_nonneg v
  have bits : (Int64.ofNat v).toUInt64.toNat = v := by
    change (Int64.ofNat v).toBitVec.toNat = v
    rw [Int64.toBitVec_ofNat', BitVec.toNat_ofNat]
    omega
  rw [appendInt, if_pos nonneg, bits]

/-- What the complement of such a number is written as. -/
theorem appendInt_complement (small : v < 2 ^ 63) :
    appendInt (~~~Int64.ofNat v) = appendHead .negint v := by
  have negative : ¬0 ≤ ~~~Int64.ofNat v := by
    have reduced : (-(v : Int) - 1).bmod (2 ^ 64) = -(v : Int) - 1 :=
      Int.bmod_eq_of_le (by omega) (by omega)
    rw [Int64.le_iff_toInt_le, Int64.toInt_zero, Int64.toInt_not,
      Int64.toInt_ofNat_of_lt small, reduced]
    omega
  have bits : (~~~(~~~Int64.ofNat v).toUInt64).toNat = v := by
    change (~~~(~~~Int64.ofNat v).toBitVec).toNat = v
    rw [Int64.toBitVec_not, BitVec.not_not, Int64.toBitVec_ofNat',
      BitVec.toNat_ofNat]
    omega
  rw [appendInt, if_neg negative, bits]

end AmberStore.Cbor

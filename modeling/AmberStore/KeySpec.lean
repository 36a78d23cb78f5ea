import AmberStore.Key
import Mathlib.Tactic.IntervalCases

/-!
# What a constructed key says

A key made from a hash carries its type and its length, and is canonical.
-/

open ByteString List

namespace AmberStore.Key

/-! ## The length field -/

theorem lengthSizeFor_pos (length : UInt64) : 1 ≤ lengthSizeFor length := by
  unfold lengthSizeFor
  split
  · exact le_rfl
  · omega

/-- A length fits into its field. -/
theorem toNat_lt_pow_lengthSizeFor (length : UInt64) :
    length.toNat < 256 ^ lengthSizeFor length := by
  unfold lengthSizeFor
  split
  case isTrue isZero =>
    subst isZero
    decide
  case isFalse =>
    have high := @Nat.lt_log2_self length.toNat
    rw [show (256 : Nat) = 2 ^ 8 from rfl, ← Nat.pow_mul]
    exact high.trans_le (Nat.pow_le_pow_right (by decide) (by omega))

/-- The first byte of a written number. -/
theorem byteAt_beBytes (width value : Nat) :
    byteAt (beBytes (width + 1) value) 0 =
      UInt8.ofNat (value / 256 ^ width) := by
  induction width generalizing value with
  | zero => simp [beBytes, byteAt]
  | succ width ih =>
    rw [beBytes, byteAt_append_left _ _ (by rw [beBytes_length]; omega), ih,
      Nat.div_div_eq_div_mul, Nat.pow_succ, Nat.mul_comm]

/-- The top byte of a length field is not zero. -/
theorem top_ne_zero {length : UInt64} (nonzero : length ≠ 0) :
    byteAt (beBytes (lengthSizeFor length) length.toNat) 0 ≠ 0 := by
  have positive : length.toNat ≠ 0 :=
    fun zero => nonzero (UInt64.toNat_inj.mp zero)
  have low := Nat.log2_self_le positive
  have inField := toNat_lt_pow_lengthSizeFor length
  obtain ⟨width, isWidth⟩ := Nat.exists_eq_add_of_le' (lengthSizeFor_pos length)
  rw [isWidth] at inField ⊢
  rw [byteAt_beBytes]
  have isLog : width = length.toNat.log2 / 8 := by
    rw [lengthSizeFor, if_neg nonzero] at isWidth
    omega
  have atLeast : 256 ^ width ≤ length.toNat := by
    rw [isLog, show (256 : Nat) = 2 ^ 8 from rfl, ← Nat.pow_mul]
    exact (Nat.pow_le_pow_right (by decide) (by omega)).trans low
  have isPos : 0 < length.toNat / 256 ^ width :=
    Nat.div_pos atLeast (Nat.pow_pos (by decide))
  have isByte : length.toNat / 256 ^ width < 2 ^ 8 := by
    rw [Nat.div_lt_iff_lt_mul (Nat.pow_pos (by decide)), Nat.mul_comm]
    exact inField
  intro zero
  have value := congrArg UInt8.toNat zero
  rw [UInt8.toNat_ofNat_of_lt' isByte] at value
  exact absurd value (Nat.ne_of_gt isPos)

/-! ## The header -/

/-- The bits of a header are the type and the width of the length. -/
theorem header_bits
    (type_ : ObjectType) (positive : 1 ≤ width)
    (small : width ≤ 8) :
    let header := type_.toU8 <<< 4 ||| UInt8.ofNat (width - 1)
    header &&& 0x08 = 0 ∧ header >>> 4 = type_.toU8 ∧
      (header &&& 0x07).toNat + 1 = width := by
  interval_cases width <;> cases type_ <;> decide

section NewFromHash

variable (type_ : ObjectType) (length : UInt64) (hash : Digest size)

theorem newFromHash_front_length :
    ((hash.val.take (headerAt - lengthSizeFor length)).reverse ++
      (beBytes (lengthSizeFor length) length.toNat).reverse).length =
        headerAt := by
  have small := lengthSizeFor_le length
  simp only [length_append, length_reverse, length_take,
    beBytes_length, hash.property, headerAt, size]
  omega

theorem header_newFromHash :
    (newFromHash type_ length hash).header =
      type_.toU8 <<< 4 ||| UInt8.ofNat (lengthSizeFor length - 1) :=
  byteAt_field _ _ [] (newFromHash_front_length length hash)

theorem lengthSize_newFromHash :
    (newFromHash type_ length hash).lengthSize = lengthSizeFor length := by
  rw [lengthSize, header_newFromHash]
  exact (header_bits type_ (lengthSizeFor_pos length)
    (lengthSizeFor_le length)).2.2

@[simp] theorem type_newFromHash :
    (newFromHash type_ length hash).type_ = some type_ := by
  rw [Key.type_, header_newFromHash, (header_bits type_
    (lengthSizeFor_pos length) (lengthSizeFor_le length)).2.1]
  cases type_ <;> rfl

@[simp] theorem length_newFromHash :
    (newFromHash type_ length hash).length = length.toNat := by
  have small := lengthSizeFor_le length
  have field : slice (newFromHash type_ length hash).bytes
      (headerAt - lengthSizeFor length) headerAt =
        (beBytes (lengthSizeFor length) length.toNat).reverse := by
    unfold newFromHash
    dsimp only
    rw [append_assoc]
    apply slice_field
    · simp only [length_reverse, length_take, hash.property, headerAt, size]
      omega
    · simp only [length_reverse, beBytes_length, headerAt, size]
      omega
  rw [Key.length, lengthSize_newFromHash, field, reverse_reverse,
    beNat_beBytes_of_lt (toNat_lt_pow_lengthSizeFor length)]

/-- The byte before the header is the top one of the length. -/
theorem byteAt_newFromHash :
    byteAt (newFromHash type_ length hash).bytes (headerAt - 1) =
      byteAt (beBytes (lengthSizeFor length) length.toNat) 0 := by
  have small := lengthSizeFor_le length
  have positive := lengthSizeFor_pos length
  have front := newFromHash_front_length length hash
  have frontLength : (hash.val.take
      (headerAt - lengthSizeFor length)).reverse.length =
        headerAt - lengthSizeFor length := by
    simp only [length_reverse, length_take, hash.property, headerAt, size]
    omega
  have last : headerAt - 1 - (headerAt - lengthSizeFor length) =
      lengthSizeFor length - 1 := by
    change 30 - (31 - lengthSizeFor length) = lengthSizeFor length - 1
    omega
  unfold newFromHash
  dsimp only
  rw [byteAt_append_left _ _ (by rw [front]; decide),
    byteAt_append_right _ _ (by rw [frontLength]; omega), frontLength, last]
  unfold byteAt
  rw [getD_eq_getElem?_getD, getElem?_reverse (by rw [beBytes_length]; omega),
    beBytes_length, Nat.sub_self, getD_eq_getElem?_getD]

/-- The key of an object is canonical. -/
theorem canonical_newFromHash (notGit : type_ ≠ .gitSha1) :
    (newFromHash type_ length hash).Canonical := by
  obtain ⟨noReserved, isType, -⟩ := header_bits type_
    (lengthSizeFor_pos length) (lengthSizeFor_le length)
  have isValid : ObjectType.isValid type_.toU8 = true := by
    cases type_ <;> rfl
  have shortest : ¬(byteAt (newFromHash type_ length hash).bytes
        (headerAt - 1) = 0 ∧
      ¬((newFromHash type_ length hash).lengthSize = 1 ∧
        (newFromHash type_ length hash).length = 0)) := by
    rw [byteAt_newFromHash, lengthSize_newFromHash, length_newFromHash]
    rintro ⟨isZero, notEmpty⟩
    by_cases empty : length = 0
    · subst empty
      exact notEmpty ⟨rfl, rfl⟩
    · exact top_ne_zero empty isZero
  have isOwn : (newFromHash type_ length hash).isGit = false := by
    rw [isGit, header_newFromHash, isType]
    cases type_ <;> first | rfl | exact absurd rfl notGit
  unfold Canonical validate
  rw [header_newFromHash, if_neg (by simpa using noReserved), isType, isValid,
    if_neg (by decide), if_neg shortest, isOwn]
  rfl

/-- The hash of a key is the leading part of the digest it was made from. -/
theorem hash_newFromHash (notGit : type_ ≠ .gitSha1) :
    (newFromHash type_ length hash).hash =
      hash.val.take (headerAt - (newFromHash type_ length hash).lengthSize) := by
  have isOwn : (newFromHash type_ length hash).isGit = false := by
    rw [isGit, header_newFromHash, (header_bits type_
      (lengthSizeFor_pos length) (lengthSizeFor_le length)).2.1]
    cases type_ <;> first | rfl | exact absurd rfl notGit
  have sized : (hash.val.take (headerAt - lengthSizeFor length)).reverse.length =
      headerAt - lengthSizeFor length := by
    simp only [length_reverse, length_take, hash.property, headerAt, size]
    omega
  rw [Key.hash, isOwn, if_neg (by decide), lengthSize_newFromHash]
  unfold newFromHash
  dsimp only
  rw [append_assoc, take_left' sized, reverse_reverse]

end NewFromHash

/-! ## Git keys -/

section NewGitSha1

variable (sum : Digest gitSha1Size)

theorem header_newGitSha1 :
    (newGitSha1 sum).header = ObjectType.gitSha1.toU8 <<< 4 := by
  apply byteAt_field
  rw [length_append, length_replicate, sum.property]
  rfl

theorem tail_newGitSha1 :
    slice (newGitSha1 sum).bytes gitSha1Size headerAt =
      List.replicate (headerAt - gitSha1Size) 0 := by
  unfold newGitSha1
  dsimp only
  rw [append_assoc]
  apply slice_field _ _ _ sum.property
  rw [length_replicate]
  rfl

theorem byteAt_newGitSha1 :
    byteAt (newGitSha1 sum).bytes (headerAt - 1) = 0 := by
  have isLast : (newGitSha1 sum).bytes =
      (sum.val ++ List.replicate 10 (0 : UInt8)) ++
        (0 : UInt8) :: [ObjectType.gitSha1.toU8 <<< 4] := by
    unfold newGitSha1
    simp only [append_assoc]
    rfl
  rw [isLast]
  apply byteAt_field
  rw [length_append, length_replicate, sum.property]
  rfl

theorem lengthSize_newGitSha1 : (newGitSha1 sum).lengthSize = 1 := by
  rw [lengthSize, header_newGitSha1]
  rfl

theorem length_newGitSha1 : (newGitSha1 sum).length = 0 := by
  have field : slice (newGitSha1 sum).bytes (headerAt - 1) headerAt = [0] := by
    rw [← byteAt_newGitSha1 sum]
    exact (singleton_byteAt _
      (by rw [(newGitSha1 sum).bytes_length]; decide)).symm
  rw [Key.length, lengthSize_newGitSha1, field]
  rfl

/-- The key of a git object is canonical. -/
theorem canonical_newGitSha1 : (newGitSha1 sum).Canonical := by
  have shortest : ¬(byteAt (newGitSha1 sum).bytes (headerAt - 1) = 0 ∧
      ¬((newGitSha1 sum).lengthSize = 1 ∧ (newGitSha1 sum).length = 0)) :=
    fun long => long.2 ⟨lengthSize_newGitSha1 sum, length_newGitSha1 sum⟩
  have hasTail : (newGitSha1 sum).hasGitTail = true := by
    rw [hasGitTail, header_newGitSha1, tail_newGitSha1]
    rfl
  unfold Canonical validate
  rw [if_neg shortest, hasTail, header_newGitSha1, Bool.not_true,
    Bool.and_false]
  rfl

theorem hash_newGitSha1 : (newGitSha1 sum).hash = sum.val := by
  have isGit : (newGitSha1 sum).isGit = true := by
    rw [Key.isGit, header_newGitSha1]
    rfl
  rw [Key.hash, isGit, if_pos rfl]
  unfold newGitSha1
  dsimp only
  rw [append_assoc, take_left' sum.property]

end NewGitSha1

/-! ## Every canonical key is constructed -/

/-- A header without the reserved bit is its type and its width. -/
theorem header_eq
    {header : UInt8} (noReserved : header &&& 0x08 = 0) :
    (header >>> 4) <<< 4 ||| UInt8.ofNat (header &&& 0x07).toNat = header := by
  have each : ∀ n < 256, UInt8.ofNat n &&& 0x08 = 0 →
      (UInt8.ofNat n >>> 4) <<< 4 |||
        UInt8.ofNat (UInt8.ofNat n &&& 0x07).toNat = UInt8.ofNat n := by
    decide +kernel
  have isHeader : UInt8.ofNat header.toNat = header := UInt8.ofNat_toNat
  rw [← isHeader] at noReserved ⊢
  exact each _ header.toNat_lt noReserved

theorem toU8_fromU8
    (isValid : ObjectType.isValid value = true) :
    ∃ type_, ObjectType.fromU8 value = some type_ ∧ type_.toU8 = value := by
  have each : ∀ n < 256, ObjectType.isValid (UInt8.ofNat n) = true →
      ((ObjectType.fromU8 (UInt8.ofNat n)).map ObjectType.toU8) =
        some (UInt8.ofNat n) := by
    decide +kernel
  have isValue : UInt8.ofNat value.toNat = value := UInt8.ofNat_toNat
  rw [← isValue] at isValid ⊢
  exact Option.map_eq_some_iff.mp (each _ value.toNat_lt isValid)

/-- What validation checks. -/
structure Validated (key : Key) : Prop where
  noReserved : key.header &&& 0x08 = 0
  isValid : ObjectType.isValid (key.header >>> 4) = true
  shortest : byteAt key.bytes (headerAt - 1) = 0 →
    key.lengthSize = 1 ∧ key.length = 0
  tail : key.isGit = true → key.hasGitTail = true

theorem Canonical.validated {key : Key} (canonical : key.Canonical) :
    key.Validated := by
  unfold Canonical validate at canonical
  split_ifs at canonical with reserved invalid long noTail
  refine ⟨by simpa using reserved, by simpa using invalid, ?_, ?_⟩
  · intro isZero
    by_contra notEmpty
    exact long ⟨isZero, notEmpty⟩
  · intro git
    simpa [git] using noTail

theorem lengthSize_pos (key : Key) : 1 ≤ key.lengthSize :=
  Nat.le_add_left 1 _

theorem lengthSize_le (key : Key) : key.lengthSize ≤ 8 := by
  have each : ∀ n < 256, (UInt8.ofNat n &&& 0x07).toNat ≤ 7 := by
    decide +kernel
  have bound := each _ key.header.toNat_lt
  rw [UInt8.ofNat_toNat] at bound
  unfold lengthSize
  omega

/-- The bytes of the length field. -/
theorem lengthField_length (key : Key) :
    (slice key.bytes (headerAt - key.lengthSize) headerAt).length =
      key.lengthSize := by
  have small := key.lengthSize_le
  rw [slice_length_of_le _ _ (by rw [key.bytes_length]; decide)]
  change 31 - (31 - key.lengthSize) = key.lengthSize
  omega

theorem length_lt (key : Key) : key.length < 256 ^ key.lengthSize := by
  have bound := beNat_lt (slice key.bytes (headerAt - key.lengthSize)
    headerAt).reverse
  rwa [length_reverse, lengthField_length] at bound

/-- A top byte that is not zero is one the length needs. -/
theorem pow_le_length
    {key : Key} (top : byteAt key.bytes (headerAt - 1) ≠ 0) :
    256 ^ (key.lengthSize - 1) ≤ key.length := by
  have positive := key.lengthSize_pos
  have small := key.lengthSize_le
  have atEnd : slice key.bytes (headerAt - 1) headerAt =
      [byteAt key.bytes (headerAt - 1)] :=
    (singleton_byteAt _ (by rw [key.bytes_length]; decide)).symm
  have field : slice key.bytes (headerAt - key.lengthSize) headerAt =
      slice key.bytes (headerAt - key.lengthSize) (headerAt - 1) ++
        [byteAt key.bytes (headerAt - 1)] := by
    rw [← atEnd, slice_append_slice _ (by omega) (by decide)]
  have restLength :
      (slice key.bytes (headerAt - key.lengthSize) (headerAt - 1)).length =
        key.lengthSize - 1 := by
    rw [slice_length_of_le _ _ (by rw [key.bytes_length]; decide)]
    change 30 - (31 - key.lengthSize) = _
    omega
  have isPositive : 1 ≤ (byteAt key.bytes (headerAt - 1)).toNat :=
    Nat.one_le_iff_ne_zero.mpr fun zero => top (UInt8.toNat_inj.mp zero)
  rw [Key.length, field, reverse_append, reverse_singleton,
    singleton_append, beNat_cons, length_reverse, restLength]
  calc 256 ^ (key.lengthSize - 1)
      = 1 * 256 ^ (key.lengthSize - 1) := (Nat.one_mul _).symm
    _ ≤ _ * 256 ^ (key.lengthSize - 1) := Nat.mul_le_mul_right _ isPositive
    _ ≤ _ := Nat.le_add_right _ _

theorem toNat_ofNat_length (key : Key) :
    (UInt64.ofNat key.length).toNat = key.length := by
  have bound := key.length_lt
  have small : 256 ^ key.lengthSize ≤ 256 ^ 8 :=
    Nat.pow_le_pow_right (by decide) key.lengthSize_le
  exact UInt64.toNat_ofNat_of_lt' (bound.trans_le small)

/-- The width of a canonical key's length is the one the length needs. -/
theorem Validated.lengthSizeFor_eq
    {key : Key} (validated : key.Validated) :
    lengthSizeFor (UInt64.ofNat key.length) = key.lengthSize := by
  have positive := key.lengthSize_pos
  by_cases empty : key.length = 0
  · have isZero : byteAt key.bytes (headerAt - 1) = 0 := by
      by_contra top
      have atLeast := pow_le_length top
      have some := Nat.pow_pos (n := key.lengthSize - 1) (by decide : 0 < 256)
      omega
    rw [empty, (validated.shortest isZero).1]
    rfl
  · have top : byteAt key.bytes (headerAt - 1) ≠ 0 :=
      fun isZero => empty (validated.shortest isZero).2
    have atLeast := pow_le_length top
    have atMost := key.length_lt
    have notZero : UInt64.ofNat key.length ≠ 0 := by
      intro zero
      have isZero := congrArg UInt64.toNat zero
      rw [toNat_ofNat_length] at isZero
      exact empty isZero
    rw [lengthSizeFor, if_neg notZero, toNat_ofNat_length]
    rw [show (256 : Nat) = 2 ^ 8 from rfl, ← Nat.pow_mul] at atLeast atMost
    have low := (Nat.le_log2 empty).mpr atLeast
    have high := (Nat.log2_lt empty).mpr atMost
    omega

/-- A canonical key of any other type is made from a hash that starts with
its own. -/
theorem Validated.exists_newFromHash
    {key : Key} (validated : key.Validated) (notGit : key.isGit = false) :
    ∃ type_ length hash, type_ ≠ .gitSha1 ∧
      key = newFromHash type_ length hash := by
  have small := key.lengthSize_le
  have positive := key.lengthSize_pos
  obtain ⟨type_, -, isType⟩ := toU8_fromU8 validated.isValid
  let front := key.bytes.take (headerAt - key.lengthSize)
  have frontLength : front.reverse.length = headerAt - key.lengthSize := by
    rw [length_reverse, length_take, key.bytes_length]
    change min (31 - key.lengthSize) 32 = 31 - key.lengthSize
    omega
  have padded : (front.reverse ++
      List.replicate (key.lengthSize + 1) (0 : UInt8)).length = size := by
    rw [length_append, frontLength, length_replicate]
    change 31 - key.lengthSize + (key.lengthSize + 1) = 32
    omega
  refine ⟨type_, UInt64.ofNat key.length, ⟨_, padded⟩, ?_, ?_⟩
  · rintro rfl
    rw [isGit, ← isType] at notGit
    exact absurd notGit (by decide)
  · apply ext
    have isLength : (beBytes key.lengthSize key.length).reverse =
        slice key.bytes (headerAt - key.lengthSize) headerAt := by
      have whole := beBytes_beNat (slice key.bytes
        (headerAt - key.lengthSize) headerAt).reverse
      rw [length_reverse, lengthField_length] at whole
      rw [Key.length, whole, reverse_reverse]
    have isHeader : [type_.toU8 <<< 4 ||| UInt8.ofNat (key.lengthSize - 1)] =
        slice key.bytes headerAt size := by
      rw [isType, lengthSize, Nat.add_sub_cancel,
        header_eq validated.noReserved]
      exact singleton_byteAt _ (by rw [key.bytes_length]; decide)
    have isFront : front = slice key.bytes 0 (headerAt - key.lengthSize) := by
      rw [slice_zero]
    unfold newFromHash
    dsimp only
    rw [validated.lengthSizeFor_eq, toNat_ofNat_length,
      take_left' frontLength, reverse_reverse, isLength, isHeader,
      isFront, slice_append_slice _ (Nat.zero_le _) (Nat.sub_le _ _),
      slice_append_slice _ (Nat.zero_le _) (by decide)]
    exact (slice_self _ key.bytes_length.le).symm

/-- A canonical git key is made from the SHA-1 it holds. -/
theorem Validated.exists_newGitSha1
    (validated : key.Validated) (git : key.isGit = true) :
    ∃ sum, key = newGitSha1 sum := by
  have hasTail := validated.tail git
  rw [hasGitTail, Bool.and_eq_true, beq_iff_eq, all_eq_true] at hasTail
  obtain ⟨noWidth, zeros⟩ := hasTail
  have sized : (key.bytes.take gitSha1Size).length = gitSha1Size := by
    rw [length_take, key.bytes_length]
    rfl
  refine ⟨⟨_, sized⟩, ext ?_⟩
  have isTail : slice key.bytes gitSha1Size headerAt =
      List.replicate (headerAt - gitSha1Size) 0 := by
    rw [eq_replicate_iff]
    refine ⟨slice_length_of_le _ _ (by rw [key.bytes_length]; decide), ?_⟩
    intro byte isIn
    simpa using zeros byte isIn
  have isHeader : [ObjectType.gitSha1.toU8 <<< 4] =
      slice key.bytes headerAt size := by
    have isType : key.header >>> 4 = ObjectType.gitSha1.toU8 := by
      simpa [isGit] using git
    have whole := header_eq validated.noReserved
    rw [noWidth, isType] at whole
    have isEnd : [key.header] = slice key.bytes headerAt size :=
      singleton_byteAt _ (by rw [key.bytes_length]; decide)
    rw [← isEnd, ← whole]
    rfl
  unfold newGitSha1
  dsimp only
  rw [← isTail, isHeader, ← slice_zero,
    slice_append_slice _ (Nat.zero_le _) (by decide),
    slice_append_slice _ (Nat.zero_le _) (by decide)]
  exact (slice_self _ key.bytes_length.le).symm

/-- Bytes are parsed into the key that has them, if it can be constructed, and a
constructed key returns what it was constructed from. -/
theorem parse_constructed :
    (∀ bytes key, parse bytes = .ok key ↔ key.bytes = bytes ∧
      ((∃ type_ length hash, type_ ≠ .gitSha1 ∧
        key = newFromHash type_ length hash) ∨ ∃ sum, key = newGitSha1 sum)) ∧
    (∀ type_ length hash, type_ ≠ .gitSha1 →
      (newFromHash type_ length hash).type_ = some type_ ∧
      (newFromHash type_ length hash).length = length.toNat ∧
      (newFromHash type_ length hash).hash = hash.val.take
        (31 - (newFromHash type_ length hash).lengthSize)) ∧
    ∀ sum, (newGitSha1 sum).type_ = some .gitSha1 ∧
      (newGitSha1 sum).length = 0 ∧ (newGitSha1 sum).hash = sum.val := by
  refine ⟨fun bytes key => ?_, fun type_ length hash notGit =>
    ⟨type_newFromHash _ _ _, length_newFromHash _ _ _,
      hash_newFromHash _ _ _ notGit⟩, fun sum =>
    ⟨?_, length_newGitSha1 sum, hash_newGitSha1 sum⟩⟩
  · rw [parse_eq_ok_iff]
    refine and_congr_right fun _ => ⟨fun canonical => ?_, ?_⟩
    · cases git : key.isGit with
      | false => exact .inl (canonical.validated.exists_newFromHash git)
      | true => exact .inr (canonical.validated.exists_newGitSha1 git)
    · rintro (⟨type_, length, hash, notGit, rfl⟩ | ⟨sum, rfl⟩)
      · exact canonical_newFromHash _ _ _ notGit
      · exact canonical_newGitSha1 sum
  · rw [Key.type_, header_newGitSha1]
    rfl

end AmberStore.Key

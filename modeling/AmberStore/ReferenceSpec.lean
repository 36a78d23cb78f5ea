import AmberStore.Cbor.Item
import AmberStore.Reference

/-!
# The reference codec is canonical

Both passes of the lax decoder are run over the deterministic encoding of a
record: the first skips it whole, the second fills the record's fields one by
one.  The other direction needs no knowledge of the decoder, because what it
returns is compared with the input.
-/

open ByteString Checked
open List hiding count

namespace AmberStore.Reference

open Cbor hiding readHead readHead_appendHead

/-! ## The first pass -/

@[simp] theorem readHead_appendHead
    (major : Major) (n : Nat) (rest : Bytes) (fits : n < 2 ^ 64) :
    readHead (appendHead major n ++ rest) = .ok ⟨major, n, rest⟩ := by
  rw [readHead, Cbor.readHead_appendHead major n rest fits, mapError_ok]

/-- A string is skipped by its length. -/
theorem skipItem_string
    (isString : major = .bstr ∨ major = .tstr)
    (content rest : Bytes) (fits : content.length < 2 ^ 63) (depth : Nat) :
    skipItem (appendHead major content.length ++ content ++ rest) depth =
      .ok rest := by
  have isRead := readHead_appendHead major content.length (content ++ rest)
    (by omega)
  rw [← append_assoc] at isRead
  rw [skipItem, isRead]
  rcases isString with rfl | rfl
  · simp
  · simp

/-- An integer is skipped with its head. -/
theorem skipItem_integer
    (isInteger : major = .uint ∨ major = .negint)
    (n : Nat) (rest : Bytes) (fits : n < 2 ^ 64) (depth : Nat) :
    skipItem (appendHead major n ++ rest) depth = .ok rest := by
  rw [skipItem, readHead_appendHead major n rest fits]
  rcases isInteger with rfl | rfl
  · simp
  · simp

/-- A container is skipped member by member, one level down. -/
theorem skipItem_container
    {members : List Bytes}
    (shape : major = .array ∧ members.length = count ∨
      major = .map ∧ members.length = 2 * count)
    (fits : count < 2 ^ 64)
    (shallow : depth + 1 ≤ maxNestedLevels)
    (each : ∀ member ∈ members, ∀ rest,
      skipItem (member ++ rest) (depth + 1) = .ok rest)
    (rest : Bytes) :
    skipItem (appendHead major count ++ members.flatten ++ rest) depth =
      .ok rest := by
  have isRead := readHead_appendHead major count (members.flatten ++ rest) fits
  rw [← append_assoc] at isRead
  have loop := Checked.times_flatten
    (fun input => skipItem input (depth + 1)) members rest each
  have notDeep : ¬maxNestedLevels < depth + 1 := by omega
  rw [skipItem, isRead]
  rcases shape with ⟨rfl, sized⟩ | ⟨rfl, sized⟩
  · simp only [dif_neg notDeep, reduceCtorEq, if_false, Nat.one_mul, ← sized]
    exact loop
  · simp only [dif_neg notDeep, if_true, ← sized]
    exact loop

/-- Every deterministic item is skipped. -/
theorem skipItem_item
    (isItem : Item levels item) :
    ∀ (depth : Nat), depth + levels ≤ maxNestedLevels → ∀ rest,
      skipItem (item ++ rest) depth = .ok rest := by
  induction isItem with
  | uint n fits =>
    intro depth shallow rest
    exact skipItem_integer (.inl rfl) n rest fits depth
  | negint n fits =>
    intro depth shallow rest
    exact skipItem_integer (.inr rfl) n rest fits depth
  | bstr content fits =>
    intro depth shallow rest
    exact skipItem_string (.inl rfl) content rest fits depth
  | tstr text fits =>
    intro depth shallow rest
    exact skipItem_string (.inr rfl) (utf8 text) rest fits depth
  | array items few each ih =>
    intro depth shallow rest
    refine skipItem_container (.inl ⟨rfl, rfl⟩)
      (lt_of_le_of_lt few (by decide)) (by omega) ?_ rest
    intro item isMember
    exact ih item isMember (depth + 1) (by omega)
  | map pairs members paired few each ih =>
    intro depth shallow rest
    refine skipItem_container (.inr ⟨rfl, paired⟩)
      (lt_of_le_of_lt few (by decide)) (by omega) ?_ rest
    intro member isMember
    exact ih member isMember (depth + 1) (by omega)

/-! ## The second pass -/

/-- A head of another type is not taken for a tag. -/
theorem unwrapTags_appendHead
    (notTag : major ≠ .tag)
    (n : Nat) (rest : Bytes) (fits : n < 2 ^ 64) :
    unwrapTags (appendHead major n ++ rest) =
      .ok (appendHead major n ++ rest, ⟨major, n, rest⟩) := by
  have isRead := readHead_appendHead major n rest fits
  have untagged : peekTag (appendHead major n ++ rest) = none := by
    rw [peekTag, startsWithTag_of_readHead isRead, decide_eq_false notTag]
    rfl
  have stripped : stripAndCheckTags (appendHead major n ++ rest) =
      .ok (appendHead major n ++ rest) := by
    have same : stripSelfDescribed (appendHead major n ++ rest) =
        appendHead major n ++ rest := by
      rw [stripSelfDescribed, untagged]
    have checked : checkTags (appendHead major n ++ rest) = .ok () := by
      rw [checkTags, untagged]
    rw [stripAndCheckTags, same, checked]
    rfl
  rw [unwrapTags, stripped]
  simp only
  rw [isRead]
  simp [notTag]

/-- A text field is read back. -/
theorem readTstrField_appendTstr
    (text : String) (rest : Bytes) (field : Nat)
    (fits : (utf8 text).length < 2 ^ 63) :
    readTstrField (appendTstr text ++ rest) field = .ok (text, rest) := by
  unfold readTstrField appendTstr
  rw [append_assoc, unwrapTags_appendHead (by decide) _ _ (by omega), ok_bind]
  simp [isNullHead, takeBytes]

/-- A byte-string field is read back. -/
theorem readBstrField_appendBstr
    (content rest : Bytes) (field : Nat)
    (fits : content.length < 2 ^ 63) :
    readBstrField (appendBstr content ++ rest) field =
      .ok (content, rest) := by
  unfold readBstrField appendBstr
  rw [append_assoc, unwrapTags_appendHead (by decide) _ _ (by omega), ok_bind]
  simp [takeBytes]

/-- The integer field is read back. -/
theorem readInt64Field_appendInt
    (value : Int64) (rest : Bytes) :
    readInt64Field (appendInt value ++ rest) = .ok (value, rest) := by
  unfold readInt64Field appendInt
  by_cases nonneg : 0 ≤ value
  · obtain ⟨small, spelled⟩ := ofNat_bits_of_nonneg nonneg
    have inRange : ¬i64Max < value.toUInt64.toNat := by
      change ¬2 ^ 63 - 1 < _
      omega
    rw [if_pos nonneg, unwrapTags_appendHead (by decide) _ _ (by omega),
      ok_bind]
    simp only [if_neg inRange, spelled]
  · obtain ⟨small, spelled⟩ := ofNat_complement_of_neg nonneg
    have inRange : ¬i64Max < (~~~value.toUInt64).toNat := by
      change ¬2 ^ 63 - 1 < _
      omega
    rw [if_neg nonneg, unwrapTags_appendHead (by decide) _ _ (by omega),
      ok_bind]
    simp only [if_neg inRange, ← complement_eq, spelled]

/-- The first pair of a field is read into the record. -/
theorem readPair_field
    (known : number ≤ 5) (unseen : number ∉ seen)
    (isRead : readField record number (value ++ rest) = .ok (filled, rest)) :
    readPair ⟨record, seen,
        appendHead .uint number ++ (value ++ rest)⟩ =
      .ok ⟨filled, number :: seen, rest⟩ := by
  unfold readPair
  simp only
  rw [readHead_appendHead .uint number _ (by omega), ok_bind]
  have matched : ¬(Major.uint ≠ .uint ∨ 5 < number) := by simpa using known
  simp only [if_neg matched, if_neg unseen, isRead, ok_bind]
  rfl

/-! ## The fields of a record -/

/-- Every string of the record has a length that a head can carry. -/
structure Encodable (r : Reference) : Prop where
  name : (utf8 r.name).length < 2 ^ 63
  key : r.key.length < 2 ^ 63
  user : (utf8 r.user).length < 2 ^ 63
  signature : r.signature.length < 2 ^ 63
  publicKey : r.publicKey.length < 2 ^ 63

/-- The bytes of the value of a field. -/
def fieldValue (r : Reference) : (number : Nat) → Bytes
  | 0 => appendTstr r.name
  | 1 => appendBstr r.key
  | 2 => appendTstr r.user
  | 3 => appendInt r.createdAt
  | 4 => appendBstr r.signature
  | _ => appendBstr r.publicKey

/-- The fields that are encoded. -/
def present (r : Reference) : List Nat :=
  [0, 1, 2, 3] ++ optionalKey 4 r.signature ++
    optionalKey 5 r.publicKey

/-- Copies one field of a record into another. -/
def copyField (r record : Reference) : (number : Nat) → Reference
  | 0 => { record with name := r.name }
  | 1 => { record with key := r.key }
  | 2 => { record with user := r.user }
  | 3 => { record with createdAt := r.createdAt }
  | 4 => { record with signature := r.signature }
  | _ => { record with publicKey := r.publicKey }

/-- The encoding is a map of the present fields. -/
theorem encodeUnchecked_eq (r : Reference) :
    r.encodeUnchecked =
      appendHead .map r.present.length ++
        r.present.flatMap (pairBytes r.fieldValue) := by
  simp only [present, length_append, optionalKey_length, length_cons,
    length_nil, flatMap_append, ← optionalField_eq]
  simp [encodeUnchecked, pairBytes, fieldValue]

/-- The fields that are left out are those a fresh record has already. -/
theorem foldl_copyField (r : Reference) :
    r.present.foldl r.copyField {} = r := by
  obtain ⟨name, key, user, createdAt, signature, publicKey⟩ := r
  cases signature <;> cases publicKey <;> rfl

/-- The fields are encoded in order, each at most once. -/
theorem present_sublist (r : Reference) :
    r.present.Sublist (List.range 6) :=
  ((List.Sublist.refl _).append (optionalKey_sublist 4 _)).append
    (optionalKey_sublist 5 _)

theorem present_le (r : Reference) :
    ∀ number ∈ r.present, number ≤ 5 := by
  intro number isPresent
  have among := mem_range.mp (r.present_sublist.subset isPresent)
  omega

variable {r : Reference}

namespace Encodable

variable (encodable : r.Encodable)
include encodable

/-- The value of a field is an item of no levels. -/
theorem item_fieldValue
    (levels number : Nat) :
    Item levels (r.fieldValue number) := by
  unfold fieldValue
  split
  · exact .tstr _ encodable.name
  · exact .bstr _ encodable.key
  · exact .tstr _ encodable.user
  · exact .int _
  · exact .bstr _ encodable.signature
  · exact .bstr _ encodable.publicKey

/-- The encoding of a record is one item. -/
theorem item_encodeUnchecked :
    Item 1 r.encodeUnchecked := by
  rw [encodeUnchecked_eq]
  refine .record r.present r.fieldValue ?few ?small ?each
  case few => exact le_trans r.present_sublist.length_le (by decide)
  case small =>
    intro number isPresent
    exact lt_of_le_of_lt (r.present_le number isPresent) (by decide)
  case each =>
    intro number isPresent
    exact encodable.item_fieldValue 0 number

/-- The value of a field is read into the record. -/
theorem readField_fieldValue
    (record : Reference) (number : Nat) (rest : Bytes) :
    readField record number (r.fieldValue number ++ rest) =
      .ok (r.copyField record number, rest) := by
  rcases number with _ | _ | _ | _ | _ | number
  · simp [readField, fieldValue, copyField,
      readTstrField_appendTstr _ _ _ encodable.name]
  · simp [readField, fieldValue, copyField,
      readBstrField_appendBstr _ _ _ encodable.key]
  · simp [readField, fieldValue, copyField,
      readTstrField_appendTstr _ _ _ encodable.user]
  · simp [readField, fieldValue, copyField, readInt64Field_appendInt]
  · simp [readField, fieldValue, copyField,
      readBstrField_appendBstr _ _ _ encodable.signature]
  · simp [readField, fieldValue, copyField,
      readBstrField_appendBstr _ _ _ encodable.publicKey]

/-- The pairs of fields that were not seen are read one after the other. -/
theorem times_readPair
    (rest : Bytes)
    (numbers : List Nat) (record : Reference) (seen : List Nat)
    (known : ∀ number ∈ numbers, number ≤ 5)
    (distinct : numbers.Nodup)
    (unseen : ∀ number ∈ numbers, number ∉ seen) :
    Checked.times numbers.length readPair
        ⟨record, seen, numbers.flatMap (pairBytes r.fieldValue) ++ rest⟩ =
      .ok ⟨numbers.foldl r.copyField record, numbers.reverse ++ seen,
        rest⟩ := by
  induction numbers generalizing record seen with
  | nil => rfl
  | cons number numbers ih =>
    obtain ⟨isNew, distinct⟩ := nodup_cons.mp distinct
    have first := readPair_field
      (known number mem_cons_self) (unseen number mem_cons_self)
      (encodable.readField_fieldValue record number
        (numbers.flatMap (pairBytes r.fieldValue) ++ rest))
    have bytes :
        (number :: numbers).flatMap (pairBytes r.fieldValue) ++ rest =
          appendHead .uint number ++ (r.fieldValue number ++
            (numbers.flatMap (pairBytes r.fieldValue) ++ rest)) := by
      simp [pairBytes]
    rw [bytes, length_cons, Checked.times_succ first]
    rw [ih _ _
      (fun other isOther => known other (mem_cons_of_mem _ isOther))
      distinct]
    · simp
    · intro other isOther
      rw [mem_cons, not_or]
      refine ⟨?_, unseen other (mem_cons_of_mem _ isOther)⟩
      rintro rfl
      exact isNew isOther

/-- The lax decoder reads the encoding of a record back. -/
theorem unmarshal_encodeUnchecked :
    unmarshal r.encodeUnchecked = .ok r := by
  have skipped : skipItem r.encodeUnchecked 0 = .ok [] := by
    have whole := skipItem_item encodable.item_encodeUnchecked 0 (by decide) []
    rwa [append_nil] at whole
  have pairs := encodable.times_readPair [] r.present {} [] r.present_le
    (r.present_sublist.nodup nodup_range) (fun _ _ => not_mem_nil)
  rw [append_nil, r.foldl_copyField] at pairs
  have unwrapped := unwrapTags_appendHead (show Major.map ≠ .tag by decide)
    r.present.length (r.present.flatMap (pairBytes r.fieldValue))
    (lt_of_le_of_lt r.present_sublist.length_le (by decide))
  rw [← encodeUnchecked_eq] at unwrapped
  unfold unmarshal
  rw [skipped, ok_bind, unwrapped]
  simp [isNullHead, pairs]

end Encodable

/-! ## The codec -/

theorem length_of_validateName
    {name : String} (valid : validateName name = .ok ()) :
    (utf8 name).length ≤ maxNameLen := by
  unfold validateName at valid
  rw [errorIf_eq_ok_iff, errorIf_eq_ok_iff] at valid
  exact Nat.le_of_not_lt valid.2.1

theorem length_of_validateUser
    {user : String} (valid : validateUser user = .ok ()) :
    (utf8 user).length ≤ maxUserLen := by
  unfold validateUser at valid
  rw [errorIf_eq_ok_iff, errorIf_eq_ok_iff] at valid
  exact Nat.le_of_not_lt valid.2.1

/-- What a valid record passed. -/
theorem validate_eq_ok_iff (r : Reference) :
    r.validate = .ok () ↔
      validateName r.name = .ok () ∧
        (∃ key, Key.parse r.key = .ok key) ∧
        (r.user ≠ "" → validateUser r.user = .ok ()) ∧
        r.signature.length ≤ maxSignatureLen ∧
        r.publicKey.length ≤ maxPublicKeyLen := by
  unfold validate
  simp only [bind_eq_ok_iff, mapError_eq_ok_iff]
  by_cases given : r.user = ""
  · simp [given, errorIf_eq_ok_iff, Unique.exists_iff]
  · simp [given, errorIf_eq_ok_iff, bind_eq_ok_iff,
      mapError_eq_ok_iff, Unique.exists_iff]

/-- A valid record has short strings. -/
theorem encodable_of_validate
    (valid : r.validate = .ok ()) : r.Encodable := by
  obtain ⟨name, ⟨key, parsed⟩, user, signature, publicKey⟩ :=
    r.validate_eq_ok_iff.mp valid
  refine ⟨?name, ?key, ?user, ?signature, ?publicKey⟩
  case name =>
    exact lt_of_le_of_lt (length_of_validateName name) (by decide)
  case key =>
    obtain ⟨same, -⟩ := (Key.parse_eq_ok_iff _ _).mp parsed
    rw [← same, key.bytes_length]
    decide
  case user =>
    by_cases given : r.user = ""
    · rw [given]
      decide
    · exact lt_of_le_of_lt (length_of_validateUser (user given)) (by decide)
  case signature => exact lt_of_le_of_lt signature (by decide)
  case publicKey => exact lt_of_le_of_lt publicKey (by decide)

/-- A valid record is encoded without looking further. -/
theorem encode_eq_ok_iff (r : Reference) (b : Bytes) :
    r.encode = .ok b ↔ r.validate = .ok () ∧ r.encodeUnchecked = b := by
  unfold encode
  rw [bind_eq_ok_iff]
  constructor
  · rintro ⟨⟨⟩, valid, same⟩
    cases same
    exact ⟨valid, rfl⟩
  · rintro ⟨valid, rfl⟩
    exact ⟨(), valid, rfl⟩

/-- Decoding ends with a comparison against the encoding. -/
theorem decode_eq_ok_iff (r : Reference) (b : Bytes) :
    decode b = .ok r ↔
      unmarshal b = .ok r ∧ r.validate = .ok () ∧ r.encodeUnchecked = b := by
  unfold decode
  cases unmarshalled : unmarshal b with
  | error error => simp
  | ok record =>
    cases validated : record.validate with
    | error error =>
      simp only [validated, reduceCtorEq, Except.ok.injEq, false_iff]
      rintro ⟨rfl, valid, -⟩
      rw [validated] at valid
      cases valid
    | ok passed =>
      simp only [validated, ne_eq, errorIf_eq_ok_iff, not_not, Except.ok.injEq]
      constructor
      · rintro ⟨same, rfl⟩
        exact ⟨rfl, validated, same⟩
      · rintro ⟨rfl, -, same⟩
        exact ⟨same, rfl⟩

/-- The codec is canonical: every valid record is decoded from its encoding,
and what is decoded is a valid record in its own encoding. -/
theorem decode_canonical :
    (∀ r : Reference, r.validate = .ok () →
      ∃ b, r.encode = .ok b ∧ decode b = .ok r) ∧
    (∀ (b : Bytes) (r : Reference), decode b = .ok r →
      r.validate = .ok () ∧ r.encode = .ok b) := by
  constructor
  · intro r valid
    refine ⟨r.encodeUnchecked, (r.encode_eq_ok_iff _).mpr ⟨valid, rfl⟩, ?_⟩
    exact (decode_eq_ok_iff r _).mpr
      ⟨(encodable_of_validate valid).unmarshal_encodeUnchecked, valid, rfl⟩
  · intro b r decoded
    obtain ⟨-, valid, same⟩ := (decode_eq_ok_iff r b).mp decoded
    exact ⟨valid, (r.encode_eq_ok_iff b).mpr ⟨valid, same⟩⟩

/-- A record that points at the key of a blob. -/
def sampleReference : Reference :=
  { name := "n", key := List.replicate 30 7 ++ [5, 0], user := "u",
    createdAt := -42, signature := [1, 2, 3] }

/-- The sample goes through the codec and back. -/
theorem decode_canonical_sampleReference :
    ∃ b, sampleReference.encode = .ok b ∧ decode b = .ok sampleReference ∧
      sampleReference.validate = .ok () := by
  obtain ⟨b, encoded, decoded⟩ := decode_canonical.1 sampleReference (by decide)
  exact ⟨b, encoded, decoded, (decode_canonical.2 b _ decoded).1⟩

end AmberStore.Reference

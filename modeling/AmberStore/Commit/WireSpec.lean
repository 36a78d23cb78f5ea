import AmberStore.Commit.Wire
import AmberStore.Fx.DecSpec
import AmberStore.Fx.WellformedSpec

/-!
# The commit codec is canonical

The encoding of a commit is a well-formed document that fills the wire shape of
the commit, field by field; the wire shape converts back to the commit.  The
other direction needs no knowledge of the decoder, because what it returns is
compared with the input.
-/

open ByteString Checked List

namespace AmberStore

open Cbor

/-! ## Identities -/

namespace Identity

/-- The wire shape of an identity. -/
def toWire (identity : Identity) : WireIdentity :=
  ⟨identity.name, identity.email, identity.when_, identity.tzOffset.toInt64⟩

/-- The texts of the identity have lengths that a head can carry. -/
structure Encodable (identity : Identity) : Prop where
  name : (utf8 identity.name).length < 2 ^ 63
  email : (utf8 identity.email).length < 2 ^ 63

/-- The bytes of the value of a field. -/
def fieldValue (identity : Identity) : (k : Nat) → Bytes
  | 0 => appendTstr identity.name
  | 1 => appendTstr identity.email
  | 2 => appendInt identity.when_
  | _ => appendInt identity.tzOffset.toInt64

/-- Copies one field into a wire shape. -/
def copyField (identity : Identity) (w : WireIdentity) :
    (k : Nat) → WireIdentity
  | 0 => { w with name := identity.name }
  | 1 => { w with email := identity.email }
  | 2 => { w with when_ := identity.when_ }
  | _ => { w with tzOffset := identity.tzOffset.toInt64 }

/-- The encoding is a map of all four fields. -/
theorem encodeIdentity_eq (identity : Identity) :
    Commit.encodeIdentity identity =
      appendHead .map [0, 1, 2, 3].length ++
        [0, 1, 2, 3].flatMap (fun k =>
          appendHead .uint k ++ identity.fieldValue k) := by
  simp [Commit.encodeIdentity, fieldValue]

variable {identity : Identity}

theorem Encodable.item_fieldValue
    (encodable : identity.Encodable) (levels k : Nat) :
    Item levels (identity.fieldValue k) := by
  unfold fieldValue
  split
  · exact .tstr _ encodable.name
  · exact .tstr _ encodable.email
  · exact .int _
  · exact .int _

theorem Encodable.fills_fieldValue
    (encodable : identity.Encodable)
    (w : WireIdentity) (k : Nat) :
    Fx.Fills (Fx.wireIdentityField w k) (identity.fieldValue k)
      (identity.copyField w k) := by
  rcases k with _ | _ | _ | k
  · exact (Fx.fills_appendTstr _ encodable.name).into
      (fun v => { w with name := v }) _
  · exact (Fx.fills_appendTstr _ encodable.email).into
      (fun v => { w with email := v }) _
  · exact (Fx.fills_appendInt _).into (fun v => { w with when_ := v }) _
  · exact (Fx.fills_appendInt _).into (fun v => { w with tzOffset := v }) _

theorem Encodable.item_encodeIdentity
    (encodable : identity.Encodable) (levels : Nat) :
    Item (levels + 1) (Commit.encodeIdentity identity) := by
  rw [encodeIdentity_eq]
  exact .record [0, 1, 2, 3] identity.fieldValue (by decide) (by decide)
    (fun k _ => encodable.item_fieldValue levels k)

/-- The encoding of an identity fills its wire shape. -/
theorem Encodable.fills_encodeIdentity
    (encodable : identity.Encodable) :
    Fx.Fills Fx.parseToWireIdentity (Commit.encodeIdentity identity)
      identity.toWire := by
  rw [encodeIdentity_eq]
  exact Fx.fills_map (by decide) [0, 1, 2, 3]
    (fun k _ w => encodable.fills_fieldValue w k) (by decide) (by decide)

end Identity

namespace Commit

/-! ## The fields of a commit -/

/-- The wire shape of a commit. -/
def toWire (c : Commit) : WireCommit where
  tree := c.tree.bytes
  parents := c.parents.map Key.bytes
  author := c.author.toWire
  committer := c.committer.toWire
  message := c.message
  signature := c.signature
  publicKey := c.publicKey
  changeId := c.changeId
  conflictTerms := c.conflictTerms.map Key.bytes
  conflictLabels := c.conflictLabels

/-- Every string and every list of the commit has a length that the decoder
takes. -/
structure Encodable (c : Commit) : Prop where
  parents : c.parents.length ≤ maxElements
  author : c.author.Encodable
  committer : c.committer.Encodable
  message : (utf8 c.message).length < 2 ^ 63
  signature : c.signature.length < 2 ^ 63
  publicKey : c.publicKey.length < 2 ^ 63
  changeId : c.changeId.length < 2 ^ 63
  conflictTerms : c.conflictTerms.length ≤ maxElements
  conflictLabels : c.conflictLabels.length ≤ maxElements
  labels : ∀ label ∈ c.conflictLabels, (utf8 label).length < 2 ^ 63

/-- The bytes of the value of a field. -/
def fieldValue (c : Commit) : (k : Nat) → Bytes
  | 0 => appendBstr c.tree.bytes
  | 1 => appendKeys c.parents
  | 2 => encodeIdentity c.author
  | 3 => encodeIdentity c.committer
  | 4 => appendTstr c.message
  | 5 => appendBstr c.signature
  | 6 => appendBstr c.publicKey
  | 7 => appendBstr c.changeId
  | 8 => appendKeys c.conflictTerms
  | _ => appendHead .array c.conflictLabels.length ++
      c.conflictLabels.flatMap appendTstr

/-- Copies one field into a wire shape. -/
def copyField (c : Commit) (w : WireCommit) : (k : Nat) → WireCommit
  | 0 => { w with tree := c.tree.bytes }
  | 1 => { w with parents := c.parents.map Key.bytes }
  | 2 => { w with author := c.author.toWire }
  | 3 => { w with committer := c.committer.toWire }
  | 4 => { w with message := c.message }
  | 5 => { w with signature := c.signature }
  | 6 => { w with publicKey := c.publicKey }
  | 7 => { w with changeId := c.changeId }
  | 8 => { w with conflictTerms := c.conflictTerms.map Key.bytes }
  | _ => { w with conflictLabels := c.conflictLabels }

/-- The fields that are encoded. -/
def present (c : Commit) : List Nat :=
  [0, 1, 2, 3, 4] ++ optionalKey 5 c.signature ++
    optionalKey 6 c.publicKey ++ optionalKey 7 c.changeId ++
    optionalKey 8 c.conflictTerms ++ optionalKey 9 c.conflictLabels

/-- The encoding is a map of the present fields. -/
theorem encodeUnchecked_eq (c : Commit) :
    c.encodeUnchecked =
      appendHead .map c.present.length ++
        c.present.flatMap (pairBytes c.fieldValue) := by
  rw [show c.present.length = _ from tenFields_length _ _ _ _ _]
  simp only [present, flatMap_append, ← optionalField_eq]
  simp [encodeUnchecked, pairBytes, fieldValue]

/-- The fields that are left out are those a fresh shape has already. -/
theorem foldl_copyField (c : Commit) :
    c.present.foldl c.copyField {} = c.toWire := by
  obtain ⟨tree, parents, author, committer, message, signature, publicKey,
    changeId, conflictTerms, conflictLabels⟩ := c
  cases signature <;> cases publicKey <;> cases changeId <;>
    cases conflictTerms <;> cases conflictLabels <;> rfl

/-- The fields are encoded in order, each at most once. -/
theorem present_sublist (c : Commit) : c.present.Sublist (List.range 10) :=
  tenFields_sublist _ _ _ _ _

theorem present_lt (c : Commit) : ∀ k ∈ c.present, k < 10 :=
  fun _ isPresent => mem_range.mp (c.present_sublist.subset isPresent)

variable {c : Commit}

/-- The value of a field is an item. -/
theorem Encodable.item_fieldValue
    (encodable : c.Encodable) (k : Nat) :
    Item 1 (c.fieldValue k) := by
  unfold fieldValue
  split
  · exact .bstr _ (Fx.bytes_length_lt _)
  · exact Fx.item_keys _ encodable.parents 0
  · exact encodable.author.item_encodeIdentity 0
  · exact encodable.committer.item_encodeIdentity 0
  · exact .tstr _ encodable.message
  · exact .bstr _ encodable.signature
  · exact .bstr _ encodable.publicKey
  · exact .bstr _ encodable.changeId
  · exact Fx.item_keys _ encodable.conflictTerms 0
  · exact .list _ _ encodable.conflictLabels fun label isLabel =>
    .tstr _ (encodable.labels label isLabel)

/-- The value of a field fills it. -/
theorem Encodable.fills_fieldValue
    (encodable : c.Encodable) (w : WireCommit) (k : Nat) :
    Fx.Fills (Fx.wireCommitField w k) (c.fieldValue k) (c.copyField w k) := by
  rcases k with _ | _ | _ | _ | _ | _ | _ | _ | _ | k
  · exact (Fx.fills_appendBstr _ _ (Fx.bytes_length_lt _)).into
      (fun v => { w with tree := v }) _
  · exact (Fx.fills_keys _ encodable.parents).into
      (fun v => { w with parents := v }) _
  · exact encodable.author.fills_encodeIdentity.into
      (fun v => { w with author := v }) _
  · exact encodable.committer.fills_encodeIdentity.into
      (fun v => { w with committer := v }) _
  · exact (Fx.fills_appendTstr _ encodable.message).into
      (fun v => { w with message := v }) _
  · exact (Fx.fills_appendBstr _ _ encodable.signature).into
      (fun v => { w with signature := v }) _
  · exact (Fx.fills_appendBstr _ _ encodable.publicKey).into
      (fun v => { w with publicKey := v }) _
  · exact (Fx.fills_appendBstr _ _ encodable.changeId).into
      (fun v => { w with changeId := v }) _
  · exact (Fx.fills_keys _ encodable.conflictTerms).into
      (fun v => { w with conflictTerms := v }) _
  · exact (Fx.fills_array c.conflictLabels
      (lt_of_le_of_lt encodable.conflictLabels (by decide))
      (fun label isLabel =>
        Fx.fills_appendTstr label (encodable.labels label isLabel))).into
      (fun v => { w with conflictLabels := v }) _

/-- The lax decoder reads the encoding of a commit back. -/
theorem Encodable.unmarshalCommit_encodeUnchecked
    (encodable : c.Encodable) :
    Fx.unmarshalCommit c.encodeUnchecked = .ok c.toWire := by
  have item : Item 2 c.encodeUnchecked := by
    rw [encodeUnchecked_eq]
    refine .record c.present c.fieldValue ?few ?small ?each
    case few => exact le_trans c.present_sublist.length_le (by decide)
    case small =>
      intro k isPresent
      exact lt_trans (c.present_lt k isPresent) (by decide)
    case each =>
      intro k isPresent
      exact encodable.item_fieldValue k
  have fills : Fx.Fills Fx.parseToWireCommit
      (appendHead .map c.present.length ++
        c.present.flatMap (pairBytes c.fieldValue))
      (c.present.foldl c.copyField {}) :=
    Fx.fills_map (by decide) c.present
      (fun k _ w => encodable.fills_fieldValue w k) c.present_lt
      (c.present_sublist.nodup nodup_range)
  rw [foldl_copyField, ← encodeUnchecked_eq] at fills
  exact Fx.unmarshal_item item (by decide) fills

/-! ## Conversion -/

/-- Keys that are canonical are parsed back from their bytes. -/
theorem parseKeys_map_bytes
    (failed : Nat → Key.Error → ConvertError) (keys : List Key) (index : Nat)
    (canonical : ∀ key ∈ keys, key.Canonical) :
    parseKeys failed index (keys.map Key.bytes) = .ok keys := by
  induction keys generalizing index with
  | nil => rfl
  | cons key keys ih =>
    have parsed : Key.parse key.bytes = .ok key :=
      (Key.parse_eq_ok_iff _ _).mpr ⟨rfl, canonical key mem_cons_self⟩
    rw [map_cons, parseKeys, parsed,
      ih (index + 1) fun other isOther =>
        canonical other (mem_cons_of_mem _ isOther)]
    rfl

/-- An identity whose offset is in range is converted back. -/
theorem identityFromWire_toWire
    (inRange : -maxTzOffset ≤ identity.tzOffset ∧
      identity.tzOffset ≤ maxTzOffset) :
    identityFromWire identity.toWire = .ok identity := by
  have wide : -maxTzOffset.toInt64 ≤ identity.tzOffset.toInt64 ∧
      identity.tzOffset.toInt64 ≤ maxTzOffset.toInt64 := by
    obtain ⟨lower, upper⟩ := inRange
    rw [Int32.le_iff_toInt_le] at lower upper
    rw [Int64.le_iff_toInt_le, Int64.le_iff_toInt_le, Int32.toInt_toInt64]
    exact ⟨lower, upper⟩
  simp only [identityFromWire, Identity.toWire, not_true_eq_false, wide,
    and_self, if_false, Int32.toInt32_toInt64]

/-- What conversion and the decoder need of a commit. -/
structure Convertible (c : Commit) : Prop where
  tree : c.tree.Canonical
  parents : ∀ key ∈ c.parents, key.Canonical
  author : -maxTzOffset ≤ c.author.tzOffset ∧ c.author.tzOffset ≤ maxTzOffset
  committer : -maxTzOffset ≤ c.committer.tzOffset ∧
    c.committer.tzOffset ≤ maxTzOffset
  conflictTerms : ∀ key ∈ c.conflictTerms, key.Canonical

/-- The wire shape of a commit converts back to it. -/
theorem Convertible.fromWire_toWire
    (convertible : c.Convertible) :
    fromWire c.toWire = .ok c := by
  have tree : Key.parse c.tree.bytes = .ok c.tree :=
    (Key.parse_eq_ok_iff _ _).mpr ⟨rfl, convertible.tree⟩
  have parents := parseKeys_map_bytes .parent c.parents 0 convertible.parents
  have terms := parseKeys_map_bytes .conflictTerm c.conflictTerms 0
    convertible.conflictTerms
  simp only [fromWire, toWire, tree, parents, terms,
    identityFromWire_toWire convertible.author,
    identityFromWire_toWire convertible.committer, mapError_ok,
    ok_bind]
  rfl

/-! ## Validation -/

theorem length_of_validateText
    {max : Nat}
    (valid : validateText text max = .ok ()) :
    (utf8 text).length ≤ max := by
  unfold validateText at valid
  rw [errorIf_eq_ok_iff] at valid
  exact Nat.le_of_not_lt valid.1

/-- What a valid identity passed. -/
theorem validateIdentity_eq_ok_iff (identity : Identity) :
    validateIdentity identity = .ok () ↔
      validateText identity.name maxIdentityLen = .ok () ∧
        validateText identity.email maxIdentityLen = .ok () ∧
        -maxTzOffset ≤ identity.tzOffset ∧
        identity.tzOffset ≤ maxTzOffset := by
  unfold validateIdentity
  simp only [bind_eq_ok_iff, mapError_eq_ok_iff,
    errorIf_eq_ok_iff, not_not, Unique.exists_iff]
  simp

theorem canonical_of_checkParents
    {parents : List Key}
    (checked : checkParents index seen parents = .ok ()) :
    ∀ key ∈ parents, key.Canonical := by
  induction parents generalizing index seen with
  | nil => simp
  | cons p parents ih =>
    simp only [checkParents, bind_eq_ok_iff, mapError_eq_ok_iff,
      errorIf_eq_ok_iff, Unique.exists_iff] at checked
    obtain ⟨canonical, -, -, others⟩ := checked
    rw [forall_mem_cons]
    exact ⟨canonical, ih others⟩

theorem canonical_of_checkTerms
    (checked : checkTerms index terms = .ok ()) :
    ∀ key ∈ terms, key.Canonical := by
  induction terms generalizing index with
  | nil => simp
  | cons t terms ih =>
    simp only [checkTerms, bind_eq_ok_iff, mapError_eq_ok_iff,
      errorIf_eq_ok_iff, Unique.exists_iff] at checked
    obtain ⟨canonical, -, others⟩ := checked
    rw [forall_mem_cons]
    exact ⟨canonical, ih others⟩

theorem length_of_checkLabels
    (checked : checkLabels index labelled labels = .ok result) :
    ∀ label ∈ labels, (utf8 label).length ≤ maxLabelLen := by
  induction labels generalizing index labelled with
  | nil => simp
  | cons l labels ih =>
    simp only [checkLabels, bind_eq_ok_iff,
      mapError_eq_ok_iff, Unique.exists_iff] at checked
    obtain ⟨short, others⟩ := checked
    rw [forall_mem_cons]
    exact ⟨length_of_validateText short, ih others⟩

/-- Labels that pass are short, and at most one more than the terms. -/
theorem labels_of_validateLabels
    (valid : c.validateLabels = .ok ()) :
    c.conflictLabels.length ≤ 1 + c.conflictTerms.length ∧
      ∀ label ∈ c.conflictLabels, (utf8 label).length ≤ maxLabelLen := by
  unfold validateLabels at valid
  by_cases unlabelled : c.conflictLabels = []
  · simp [unlabelled]
  · simp only [if_neg unlabelled, errorIf_eq_ok_iff, bind_eq_ok_iff] at valid
    obtain ⟨-, counted, labelled, checked, -⟩ := valid
    exact ⟨le_of_eq (not_not.mp counted), length_of_checkLabels checked⟩

/-- What a valid commit passed, as far as the codec needs it. -/
theorem spec_of_validate
    (valid : c.validate = .ok ()) :
    c.Encodable ∧ c.Convertible := by
  simp only [validate, bind_eq_ok_iff, mapError_eq_ok_iff, errorIf_eq_ok_iff,
    Unique.exists_iff, not_or, not_not, Nat.not_lt] at valid
  obtain ⟨tree, -, parentCount, parents, author, committer, message, signature,
    publicKey, changeId, ⟨-, termCount⟩, terms, labels⟩ := valid
  obtain ⟨authorName, authorEmail, authorTz⟩ :=
    (validateIdentity_eq_ok_iff _).mp author
  obtain ⟨committerName, committerEmail, committerTz⟩ :=
    (validateIdentity_eq_ok_iff _).mp committer
  obtain ⟨labelCount, labels⟩ := labels_of_validateLabels labels
  have identityLen : maxIdentityLen < 2 ^ 63 := by decide
  have short {length max : Nat} (bounded : length ≤ max)
      (small : max < 2 ^ 63) : length < 2 ^ 63 :=
    lt_of_le_of_lt bounded small
  constructor
  · exact {
      parents := le_trans parentCount (by decide)
      author := ⟨short (length_of_validateText authorName) identityLen,
        short (length_of_validateText authorEmail) identityLen⟩
      committer := ⟨short (length_of_validateText committerName) identityLen,
        short (length_of_validateText committerEmail) identityLen⟩
      message := short message (by decide)
      signature := short signature (by decide)
      publicKey := short publicKey (by decide)
      changeId := short changeId (by decide)
      conflictTerms := le_trans termCount (by decide)
      conflictLabels := le_trans labelCount
        (le_trans (Nat.add_le_add_left termCount 1) (by decide))
      labels := fun label isLabel => short (labels label isLabel) (by decide) }
  · exact {
      tree := tree
      parents := canonical_of_checkParents parents
      author := authorTz
      committer := committerTz
      conflictTerms := canonical_of_checkTerms terms }

/-! ## The codec -/

/-- A valid commit is encoded without looking further. -/
theorem encode_eq_ok_iff (c : Commit) (b : Bytes) :
    c.encode = .ok b ↔ c.validate = .ok () ∧ c.encodeUnchecked = b := by
  unfold encode
  rw [bind_eq_ok_iff]
  constructor
  · rintro ⟨_, valid, same⟩
    exact ⟨valid, Except.ok.inj same⟩
  · rintro ⟨valid, rfl⟩
    exact ⟨(), valid, rfl⟩

/-- Decoding ends with a comparison against the encoding. -/
theorem decode_eq_ok_iff (c : Commit) (b : Bytes) :
    decode b = .ok c ↔
      (∃ w, Fx.unmarshalCommit b = .ok w ∧ fromWire w = .ok c) ∧
        c.validate = .ok () ∧ c.encodeUnchecked = b := by
  unfold decode
  cases unmarshalled : Fx.unmarshalCommit b with
  | error error => simp
  | ok w =>
    cases converted : fromWire w with
    | error error => simp [converted]
    | ok record =>
      cases validated : record.validate with
      | error error =>
        simp only [validated, reduceCtorEq, Except.ok.injEq,
          exists_eq_left', converted, false_iff]
        rintro ⟨rfl, valid, -⟩
        rw [validated] at valid
        cases valid
      | ok passed =>
        simp only [validated, ne_eq, errorIf_eq_ok_iff, not_not,
          Except.ok.injEq, exists_eq_left', converted]
        constructor
        · rintro ⟨same, rfl⟩
          exact ⟨rfl, validated, same⟩
        · rintro ⟨rfl, -, same⟩
          exact ⟨same, rfl⟩

/-- The codec is canonical: every valid commit is decoded from its encoding,
and what is decoded is a valid commit in its own encoding. -/
theorem decode_accepts_exactly_encodings :
    (∀ c : Commit, c.validate = .ok () →
      ∃ b, c.encode = .ok b ∧ decode b = .ok c) ∧
    (∀ (b : Bytes) (c : Commit), decode b = .ok c →
      c.validate = .ok () ∧ c.encode = .ok b) := by
  constructor
  · intro c valid
    obtain ⟨encodable, convertible⟩ := spec_of_validate valid
    refine ⟨c.encodeUnchecked, (c.encode_eq_ok_iff _).mpr ⟨valid, rfl⟩, ?_⟩
    exact (decode_eq_ok_iff c _).mpr
      ⟨⟨c.toWire, encodable.unmarshalCommit_encodeUnchecked,
        convertible.fromWire_toWire⟩, valid, rfl⟩
  · intro b c decoded
    obtain ⟨-, valid, same⟩ := (decode_eq_ok_iff c b).mp decoded
    exact ⟨valid, (c.encode_eq_ok_iff b).mpr ⟨valid, same⟩⟩

/-- A key of one payload byte with the given type. -/
def sampleKey (type_ : Key.ObjectType) : Key :=
  ⟨List.replicate 31 1 ++ [type_.toU8 <<< (4 : UInt8)], by simp⟩

/-- A commit of a conflicted tree with one parent. -/
def sampleCommit : Commit where
  tree := sampleKey .dirLeaf
  parents := [sampleKey .commit]
  author := ⟨"Ann", "ann@example.com", 1700000000000000000, 120⟩
  committer := ⟨"Bob", "", -5, -300⟩
  message := "merge"
  signature := [1, 2]
  publicKey := []
  changeId := [7]
  conflictTerms := [sampleKey .dirLeaf, sampleKey .dirNode]
  conflictLabels := ["ours", "", "theirs"]

/-- The sample goes through the codec and back. -/
theorem decode_accepts_exactly_encodings_sampleCommit :
    ∃ b, sampleCommit.encode = .ok b ∧ decode b = .ok sampleCommit ∧
      sampleCommit.validate = .ok () := by
  obtain ⟨b, encoded, decoded⟩ :=
    decode_accepts_exactly_encodings.1 sampleCommit (by decide)
  exact ⟨b, encoded, decoded,
    (decode_accepts_exactly_encodings.2 b _ decoded).1⟩

end Commit
end AmberStore

import AmberStore.Fstree.Decode
import AmberStore.Fx.DecSpec
import AmberStore.Fx.WellformedSpec
import AmberStore.Lib.Checked

/-!
# Tree objects are decoded to what was encoded

The encoding of an entry, a pair or a list of keys is a deterministic item, and
fills the target it is decoded with.
-/

open ByteString Checked List

namespace AmberStore

open Cbor

/-! ## Targets -/

namespace Fx

/-- No deterministic item is tagged. -/
theorem nextType_item
    (isItem : Item levels item)
    (rest : Bytes) : nextType (item ++ rest) ≠ .tag := by
  cases isItem with
  | uint n fits | negint n fits => rw [nextType_appendHead _ _ _ fits]; decide
  | bstr content fits =>
    rw [appendBstr, append_assoc, nextType_appendHead _ _ _ (by omega)]
    decide
  | tstr text fits =>
    rw [appendTstr, append_assoc, nextType_appendHead _ _ _ (by omega)]
    decide
  | array items few | map pairs members paired few =>
    rw [append_assoc,
      nextType_appendHead _ _ _ (lt_of_le_of_lt few (by decide))]
    decide

/-- An item fills a target that takes it as it is. -/
theorem fills_raw
    (isItem : Item levels item)
    (shallow : levels ≤ item.length) : Fills parseToRaw item item := by
  intro rest
  rw [parseToRaw, prologue_of_untagged (nextType_item isItem rest)]
  simp only [skip_item isItem shallow]
  simp

/-- The numbers of an array are put in their places. -/
theorem iterate_set (rest : Bytes) (before values : List UInt64) :
    (fun position : (List UInt64 × Nat × Option CborError) × Bytes =>
        let elem := parseToUint "uint64" (2 ^ 64 - 1) position.2
        ((List.set position.1.1 position.1.2.1 (UInt64.ofNat elem.value),
          position.1.2.1 + 1, position.1.2.2.or elem.err),
          elem.rest))^[values.length]
        ((before ++ List.replicate values.length 0, before.length, none),
          values.flatMap (fun r => appendHead .uint r.toNat) ++ rest) =
      ((before ++ values, before.length + values.length, none), rest) := by
  induction values generalizing before with
  | nil => simp
  | cons value values ih =>
    have small : value.toNat ≤ 2 ^ 64 - 1 := Nat.le_sub_one_of_lt value.toNat_lt
    have fills := fills_appendUint "uint64" small value.toNat_lt
    rw [length_cons, Function.iterate_succ_apply, flatMap_cons,
      append_assoc, replicate_succ]
    simp only [fills _, Option.or_none, UInt64.ofNat_toNat,
      set_append_right _ _ (le_refl before.length), Nat.sub_self,
      set_cons_zero]
    have next := ih (before ++ [value])
    simp only [append_assoc, singleton_append, length_append,
      length_singleton] at next
    rw [next, Nat.add_right_comm, Nat.add_assoc]

/-- Numbers fill a list of numbers. -/
theorem fills_u64s (values : List UInt64) (few : values.length < 2 ^ 64) :
    Fills parseToU64s
      (appendHead .array values.length ++
        values.flatMap fun r => appendHead .uint r.toNat) values := by
  intro rest
  rw [append_assoc]
  obtain ⟨ai, notOpen, isRead⟩ := getHead_appendHead .array values.length
    (values.flatMap (fun r => appendHead .uint r.toNat) ++ rest) few
  have typed := nextType_appendHead .array values.length
    (values.flatMap (fun r => appendHead .uint r.toNat) ++ rest) few
  rw [parseToU64s, underTags_of_untagged (by rw [typed]; decide)]
  simp only [typed, isRead, if_neg notOpen]
  rw [forItems_of_definite notOpen]
  have loop := iterate_set rest [] values
  simp only [nil_append, length_nil] at loop
  simp only [loop]

/-- A pair fills a pair. -/
theorem fills_pair
    (sepSized : p.sepName.length < 2 ^ 63)
    (childSized : p.childKey.length < 2 ^ 63) :
    Fills parseToPair (Fstree.appendPair p) p := by
  intro rest
  have sep := fills_appendBstr "[]uint8" p.sepName sepSized
  have child := fills_appendBstr "[]uint8" p.childKey childSized
  rw [Fstree.appendPair, append_assoc, append_assoc]
  obtain ⟨ai, notOpen, isRead⟩ := getHead_appendHead .array 2
    (appendBstr p.sepName ++ (appendBstr p.childKey ++ rest))
    (by decide)
  have typed := nextType_appendHead .array 2
    (appendBstr p.sepName ++ (appendBstr p.childKey ++ rest))
    (by decide)
  rw [parseToPair, underTags_of_untagged (by rw [typed]; decide)]
  simp only [typed, isRead, if_neg notOpen, ne_eq, not_true_eq_false, if_false,
    sep _, child _, Option.map_none, Option.or_none]

end Fx

namespace Fstree

/-! ## Extended attributes -/

/-- The lengths of the attributes are those that memory allows. -/
def Xattrs.Allocated (m : Xattrs) : Prop :=
  ∀ pair ∈ m.pairs, pair.1.length < 2 ^ 63 ∧ pair.2.length < 2 ^ 63

theorem Xattrs.Allocated.item_encodeXattrs
    (allocated : m.Allocated)
    (few : m.pairs.length ≤ maxElements) :
    Item 1 (encodeXattrs m) := by
  unfold encodeXattrs
  set sorted := m.pairs.insertionSort fun left right =>
    ¬ appendBstr right.1 < appendBstr left.1 with isSorted
  have perm : sorted.Perm m.pairs := perm_insertionSort _ _
  have bytes : (sorted.flatMap fun pair =>
      [appendBstr pair.1, appendBstr pair.2]).flatten =
      sorted.flatMap fun pair =>
        appendBstr pair.1 ++ appendBstr pair.2 := by
    simp [flatMap_def, flatten_flatten, Function.comp_def]
  change Item 1 (appendHead .map m.pairs.length ++
    sorted.flatMap fun pair => appendBstr pair.1 ++ appendBstr pair.2)
  rw [← bytes]
  refine .map _ _ ?paired few ?each
  case paired =>
    rw [← perm.length_eq]
    simp [length_flatMap, map_const', Nat.mul_comm]
  case each =>
    intro member isMember
    obtain ⟨pair, isPair, isMember⟩ := mem_flatMap.mp isMember
    obtain ⟨nameSized, valueSized⟩ := allocated pair (perm.mem_iff.mp isPair)
    simp only [mem_cons, not_mem_nil, or_false] at isMember
    rcases isMember with rfl | rfl
    · exact .bstr _ nameSized
    · exact .bstr _ valueSized

/-! ## Entries -/

namespace Entry

/-- The bytes of the value of a field. -/
def fieldValue (e : Entry) : (k : Nat) → Bytes
  | 0 => appendBstr e.name
  | 1 => appendHead .uint e.mode.toNat
  | 2 => appendHead .uint e.uid.toNat
  | 3 => appendHead .uint e.gid.toNat
  | 4 => appendInt e.mtime
  | 5 => appendBstr e.contentKey
  | 6 => appendBstr e.linkTarget
  | 7 => appendHead .array e.rdev.length ++
      e.rdev.flatMap fun r => appendHead .uint r.toNat
  | 8 => e.xattrsIn
  | _ => appendBstr e.xattrsKey

/-- Copies one field into another entry. -/
def copyField (e w : Entry) : (k : Nat) → Entry
  | 0 => { w with name := e.name }
  | 1 => { w with mode := e.mode }
  | 2 => { w with uid := e.uid }
  | 3 => { w with gid := e.gid }
  | 4 => { w with mtime := e.mtime }
  | 5 => { w with contentKey := e.contentKey }
  | 6 => { w with linkTarget := e.linkTarget }
  | 7 => { w with rdev := e.rdev }
  | 8 => { w with xattrsIn := e.xattrsIn }
  | _ => { w with xattrsKey := e.xattrsKey }

/-- The map of some fields. -/
def fieldsBytes (e : Entry) (ks : List Nat) : Bytes :=
  appendHead .map ks.length ++ ks.flatMap (pairBytes e.fieldValue)

/-- The strings of the entry have lengths that memory allows. -/
structure Allocated (e : Entry) : Prop where
  name : e.name.length < 2 ^ 63
  contentKey : e.contentKey.length < 2 ^ 63
  linkTarget : e.linkTarget.length < 2 ^ 63
  xattrsKey : e.xattrsKey.length < 2 ^ 63

/-- What of a field's value the decoder needs. -/
def FieldReads (e : Entry) (k : Nat) : Prop :=
  (k = 7 → e.rdev.length ≤ maxElements) ∧ (k = 8 → Item 1 e.xattrsIn)

theorem Allocated.item_fieldValue
    {e : Entry} (allocated : e.Allocated) (reads : e.FieldReads k) :
    Item 1 (e.fieldValue k) := by
  unfold fieldValue
  split
  · exact .bstr _ allocated.name
  · exact .uint _ (UInt64.toNat_lt _)
  · exact .uint _ (UInt64.toNat_lt _)
  · exact .uint _ (UInt64.toNat_lt _)
  · exact .int _
  · exact .bstr _ allocated.contentKey
  · exact .bstr _ allocated.linkTarget
  · exact .list _ _ (reads.1 rfl) fun r _ => .uint _ r.toNat_lt
  · exact reads.2 rfl
  · exact .bstr _ allocated.xattrsKey

/-- A number fills the field it is put into. -/
theorem fills_number
    (n : UInt64) (put : UInt64 → Entry) (fld : String) :
    Fx.Fills (fun data => (Fx.parseToUint "uint64" (2 ^ 64 - 1) data).into
      (fun v => put (.ofNat v)) fld) (appendHead .uint n.toNat)
      (put n) := by
  have small : n.toNat ≤ 2 ^ 64 - 1 := Nat.le_sub_one_of_lt n.toNat_lt
  have fills := (Fx.fills_appendUint "uint64" small n.toNat_lt).into
    (fun v => put (.ofNat v)) fld
  rwa [UInt64.ofNat_toNat] at fills

theorem Allocated.fills_fieldValue
    {e : Entry} (allocated : e.Allocated) (reads : e.FieldReads k)
    (w : Entry) :
    Fx.Fills (Fx.entryField w k) (e.fieldValue k) (e.copyField w k) := by
  rcases k with _ | _ | _ | _ | _ | _ | _ | _ | _ | k
  · exact (Fx.fills_appendBstr _ _ allocated.name).into
      (fun v => { w with name := v }) _
  · exact fills_number e.mode (fun v => { w with mode := v }) _
  · exact fills_number e.uid (fun v => { w with uid := v }) _
  · exact fills_number e.gid (fun v => { w with gid := v }) _
  · exact (Fx.fills_appendInt _).into (fun v => { w with mtime := v }) _
  · exact (Fx.fills_appendBstr _ _ allocated.contentKey).into
      (fun v => { w with contentKey := v }) _
  · exact (Fx.fills_appendBstr _ _ allocated.linkTarget).into
      (fun v => { w with linkTarget := v }) _
  · exact (Fx.fills_u64s _ (lt_of_le_of_lt (reads.1 rfl) (by decide))).into
      (fun v => { w with rdev := v }) _
  · have item := reads.2 rfl
    have present := length_pos_iff.mpr item.ne_nil
    exact (Fx.fills_raw item present).into (fun v => { w with xattrsIn := v }) _
  · exact (Fx.fills_appendBstr _ _ allocated.xattrsKey).into
      (fun v => { w with xattrsKey := v }) _

theorem Allocated.item_fieldsBytes
    {e : Entry} (allocated : e.Allocated)
    (ordered : ks.Sublist (List.range 10))
    (reads : ∀ k ∈ ks, e.FieldReads k) :
    Item 2 (e.fieldsBytes ks) := by
  refine .record ks e.fieldValue ?few ?small ?each
  case few => exact le_trans ordered.length_le (by decide)
  case small =>
    intro k isField
    exact lt_trans (mem_range.mp (ordered.subset isField)) (by decide)
  case each =>
    intro k isField
    exact allocated.item_fieldValue (reads k isField)

/-- The map of some fields fills an entry with them. -/
theorem Allocated.fills_fieldsBytes
    {e : Entry} (allocated : e.Allocated)
    (ordered : ks.Sublist (List.range 10))
    (reads : ∀ k ∈ ks, e.FieldReads k) :
    Fx.Fills Fx.parseToEntry (e.fieldsBytes ks) (ks.foldl e.copyField {}) :=
  Fx.fills_map (by decide) ks
    (fun k isField w => allocated.fills_fieldValue (reads k isField) w)
    (fun k isField => mem_range.mp (ordered.subset isField))
    (ordered.nodup nodup_range)

/-- The fields that are encoded. -/
def present (e : Entry) : List Nat :=
  [0, 1, 2, 3, 4] ++ optionalKey 5 e.contentKey ++
    optionalKey 6 e.linkTarget ++ optionalKey 7 e.rdev ++
    optionalKey 8 e.xattrsIn ++ optionalKey 9 e.xattrsKey

theorem present_sublist (e : Entry) : e.present.Sublist (List.range 10) :=
  tenFields_sublist _ _ _ _ _

/-- The fields that are left out are those a fresh entry has already. -/
theorem foldl_copyField (e : Entry) :
    e.present.foldl e.copyField {} = e := by
  obtain ⟨name, mode, uid, gid, mtime, contentKey, linkTarget, rdev, xattrsIn,
    xattrsKey⟩ := e
  cases contentKey <;> cases linkTarget <;> cases rdev <;> cases xattrsIn <;>
    cases xattrsKey <;> rfl

/-- The encoding of an entry is the map of its fields, if its attributes are
one item. -/
theorem appendEntry_eq (e : Entry) :
    appendEntry e =
      (checkXattrsIn e >>= fun _ => .ok (e.fieldsBytes e.present)) := by
  rw [appendEntry, fieldsBytes,
    show e.present.length = _ from tenFields_length _ _ _ _ _]
  simp only [present, flatMap_append, ← optionalField_eq]
  simp [pairBytes, fieldValue]

theorem appendEntry_eq_ok
    (appended : appendEntry e = .ok bytes) :
    bytes = e.fieldsBytes e.present := by
  rw [appendEntry_eq] at appended
  obtain ⟨_, -, isBytes⟩ := bind_eq_ok_iff.mp appended
  exact (Except.ok.inj isBytes).symm

end Entry

/-! ## Objects -/

/-- What the inputs of the encoders are: lengths that memory allows, numbers
within the decoder's bound, and attributes encoded from a map within it. -/
structure Entry.Encodable (e : Entry) : Prop where
  allocated : e.Allocated
  rdev : e.rdev.length ≤ maxElements
  xattrsIn : e.xattrsIn = [] ∨ ∃ m : Xattrs, m.Allocated ∧
    m.pairs.length ≤ maxElements ∧ e.xattrsIn = encodeXattrs m

theorem Entry.Encodable.fieldReads
    {e : Entry} (encodable : e.Encodable) :
    ∀ k ∈ e.present, e.FieldReads k := by
  refine fun k isField => ⟨fun _ => encodable.rdev, ?_⟩
  rintro rfl
  obtain isEmpty | ⟨m, allocated, few, isEncoded⟩ := encodable.xattrsIn
  · simp [Entry.present, optionalKey, isEmpty] at isField
  · rw [isEncoded]
    exact allocated.item_encodeXattrs few

/-- Attributes that were encoded from a map are taken. -/
theorem Entry.Encodable.appendEntry_eq_ok
    (encodable : e.Encodable) :
    appendEntry e = .ok (e.fieldsBytes e.present) := by
  have checked : checkXattrsIn e = .ok () := by
    unfold checkXattrsIn
    obtain isEmpty | ⟨m, allocated, few, isEncoded⟩ := encodable.xattrsIn
    · rw [isEmpty]
      rfl
    · split
      · rfl
      · rw [isEncoded, Fx.wellformed_item Fx.marshalerWf_roomy
          (allocated.item_encodeXattrs few) (by decide)]
        rfl
  rw [Entry.appendEntry_eq, checked]
  rfl

theorem Entry.Encodable.marshalEntries_eq_ok
    (encodable : ∀ e ∈ entries, e.Encodable) :
    marshalEntries entries = .ok (appendHead .array entries.length ++
      entries.flatMap fun e => e.fieldsBytes e.present) := by
  have maps : entries.mapM appendEntry =
      .ok (entries.map fun e => e.fieldsBytes e.present) := by
    rw [mapM_eq_ok_iff, List.forall₂_map_right_iff, List.forall₂_same]
    exact fun e isEntry => (encodable e isEntry).appendEntry_eq_ok
  rw [marshalEntries, maps, ok_bind, flatMap_def]

theorem marshalEntries_eq_ok
    (marshalled : marshalEntries entries = .ok bytes) :
    bytes = appendHead .array entries.length ++
      entries.flatMap fun e => e.fieldsBytes e.present := by
  obtain ⟨maps, isMaps, isBytes⟩ := bind_eq_ok_iff.mp marshalled
  rw [← Except.ok.inj isBytes]
  congr 1
  have each := mapM_eq_ok_iff.mp isMaps
  clear isMaps isBytes marshalled
  induction each with
  | nil => rfl
  | cons isMap _ ih =>
    rw [flatten_cons, flatMap_cons, Entry.appendEntry_eq_ok isMap, ih]

/-- A leaf is decoded to the entries that its maps fill. -/
theorem decodeDirLeaf_parts
    {parts : List β}
    (few : parts.length ≤ maxElements)
    (items : ∀ part ∈ parts, Item 2 (piece part))
    (each : ∀ part ∈ parts,
      Fx.Fills Fx.parseToEntry (piece part) (value part)) :
    decodeDirLeaf (appendHead .array parts.length ++
      parts.flatMap piece) = .ok (parts.map value) := by
  have fills : Fx.Fills (Fx.parseToSliceOf "[]fstree.Entry" Fx.parseToEntry)
      (appendHead .array parts.length ++ parts.flatMap piece)
      (parts.map value) :=
    Fx.fills_parts parts (lt_of_le_of_lt few (by decide)) each
  rw [decodeDirLeaf, Fx.unmarshalEntries,
    Fx.unmarshal_item (.list parts piece few items) (by decide) fills]
  rfl

/-- A leaf is decoded to the entries it was encoded from. -/
theorem decodeDirLeaf_marshalEntries
    {entries : List Entry}
    (few : entries.length ≤ maxElements)
    (encodable : ∀ e ∈ entries, e.Encodable)
    (marshalled : marshalEntries entries = .ok bytes) :
    decodeDirLeaf bytes = .ok entries := by
  have items : ∀ e ∈ entries, Item 2 (e.fieldsBytes e.present) :=
    fun e isEntry => (encodable e isEntry).allocated.item_fieldsBytes
      e.present_sublist (encodable e isEntry).fieldReads
  have fills : ∀ e ∈ entries,
      Fx.Fills Fx.parseToEntry (e.fieldsBytes e.present) (id e) := by
    intro e isEntry
    have filled := (encodable e isEntry).allocated.fills_fieldsBytes
      e.present_sublist (encodable e isEntry).fieldReads
    rwa [e.foldl_copyField] at filled
  rw [marshalEntries_eq_ok marshalled, decodeDirLeaf_parts few items fills,
    map_id]

/-- An index node is decoded to the pairs it was encoded from. -/
theorem decodeDirNode_marshalPairs
    (few : pairs.length ≤ maxElements)
    (sized : ∀ p ∈ pairs,
      p.sepName.length < 2 ^ 63 ∧ p.childKey.length < 2 ^ 63) :
    decodeDirNode (marshalPairs pairs) = .ok pairs := by
  have item : Item 2 (marshalPairs pairs) := by
    refine .list pairs _ few fun p isPair => ?_
    have sep : Item 0 (appendBstr p.sepName) := .bstr _ (sized p isPair).1
    have child : Item 0 (appendBstr p.childKey) := .bstr _ (sized p isPair).2
    have two := Item.array [appendBstr p.sepName, appendBstr p.childKey]
      (by change 2 ≤ maxElements; decide) (by simpa using ⟨sep, child⟩)
    simpa [appendPair] using two
  have fills : Fx.Fills
      (Fx.parseToSliceOf "[]fstree.DirPair" Fx.parseToPair)
      (marshalPairs pairs) pairs :=
    Fx.fills_array pairs (lt_of_le_of_lt few (by decide)) fun p isPair =>
      Fx.fills_pair (sized p isPair).1 (sized p isPair).2
  rw [decodeDirNode, Fx.unmarshalPairs,
    Fx.unmarshal_item item (by decide) fills]
  rfl

/-- Canonical keys are parsed back from their bytes. -/
theorem parseChildren_map_bytes
    {keys : List Key} (canonical : ∀ key ∈ keys, key.Canonical)
    (index : Nat) :
    parseChildren index (keys.map Key.bytes) = .ok keys := by
  induction keys generalizing index with
  | nil => rfl
  | cons key keys ih =>
    rw [forall_mem_cons] at canonical
    have parsed : Key.parse key.bytes = .ok key :=
      (Key.parse_eq_ok_iff _ _).mpr ⟨rfl, canonical.1⟩
    rw [map_cons, parseChildren, parsed, ih canonical.2 (index + 1)]
    rfl

/-- A file's index node is decoded to the keys it was encoded from. -/
theorem decodeFileNode_keys
    {keys : List Key} (few : keys.length ≤ maxElements)
    (canonical : ∀ key ∈ keys, key.Canonical) :
    decodeFileNode (appendHead .array keys.length ++
      keys.flatMap fun key => appendBstr key.bytes) = .ok keys := by
  rw [decodeFileNode, Fx.unmarshalByteSlices, Fx.unmarshal_item
    (Fx.item_keys keys few 0) (by decide) (Fx.fills_keys keys few)]
  exact parseChildren_map_bytes canonical 0

/-- Whatever the encoders write is decoded to what they were given. -/
theorem decode_encode_tree (blake3 : Bytes → Key.Digest Key.size) :
    (∀ entries object, entries.length ≤ maxElements →
      (∀ e ∈ entries, e.Encodable) →
      encodeDirLeaf blake3 entries = .ok object →
      decodeDirLeaf object.bytes = .ok entries) ∧
    (∀ pairs object, pairs.length ≤ maxElements →
      (∀ p ∈ pairs, p.sepName.length < 2 ^ 63 ∧ p.childKey.length < 2 ^ 63) →
      encodeDirNode blake3 pairs = .ok object →
      decodeDirNode object.bytes = .ok pairs) ∧
    (∀ keys : List Key, keys.length ≤ maxElements →
      (∀ key ∈ keys, key.Canonical) →
      decodeFileNode (encodeFileNode blake3 keys).bytes = .ok keys) := by
  refine ⟨fun entries object few encodable encoded => ?leaf,
    fun pairs object few sized encoded => ?node,
    fun keys few canonical => decodeFileNode_keys few canonical⟩
  case leaf =>
    obtain ⟨bytes, marshalled, rest⟩ := bind_eq_ok_iff.mp encoded
    obtain ⟨sub, -, isObject⟩ := bind_eq_ok_iff.mp rest
    rw [← Except.ok.inj isObject]
    exact decodeDirLeaf_marshalEntries few encodable marshalled
  case node =>
    obtain ⟨sub, -, isObject⟩ := bind_eq_ok_iff.mp encoded
    rw [← Except.ok.inj isObject]
    exact decodeDirNode_marshalPairs few sized

/-- A key field is empty or holds a canonical key. -/
def KeyField (field : Bytes) : Prop :=
  field = [] ∨ ∃ key : Key, key.Canonical ∧ field = key.bytes

theorem KeyField.keyFieldLength_eq_ok
    (isKeyField : KeyField field)
    (failed : Key.Error → Error) :
    ∃ length, keyFieldLength field failed = .ok length := by
  unfold keyFieldLength
  obtain rfl | ⟨key, canonical, rfl⟩ := isKeyField
  · exact ⟨0, rfl⟩
  · have parsed : Key.parse key.bytes = .ok key :=
      (Key.parse_eq_ok_iff _ _).mpr ⟨rfl, canonical⟩
    rw [if_pos key.bytes_length, parsed]
    exact ⟨key.length, rfl⟩

/-- A leaf of entries that can be encoded is encoded. -/
theorem encodeDirLeaf_eq_ok
    (blake3 : Bytes → Key.Digest Key.size)
    (encodable : ∀ e ∈ entries, e.Encodable)
    (keys : ∀ e ∈ entries, KeyField e.contentKey ∧ KeyField e.xattrsKey) :
    ∃ object, encodeDirLeaf blake3 entries = .ok object := by
  have lengths : ∃ sub, entries.mapM entryLength = .ok sub := by
    simp only [mapM_eq_ok_iff]
    induction entries with
    | nil => exact ⟨[], .nil⟩
    | cons e entries ih =>
      rw [forall_mem_cons] at encodable keys
      obtain ⟨sub, isSub⟩ := ih encodable.2 keys.2
      obtain ⟨content, isContent⟩ :=
        keys.1.1.keyFieldLength_eq_ok (.entryContentKey e.name)
      obtain ⟨xattrs, isXattrs⟩ :=
        keys.1.2.keyFieldLength_eq_ok (.entryXattrsKey e.name)
      refine ⟨(content + xattrs) :: sub, .cons ?_ isSub⟩
      rw [entryLength, isContent, ok_bind, isXattrs, ok_bind]
  obtain ⟨sub, isSub⟩ := lengths
  unfold encodeDirLeaf
  rw [Entry.Encodable.marshalEntries_eq_ok encodable, ok_bind, isSub]
  exact ⟨_, rfl⟩

/-- The attributes of an entry. -/
def sampleXattrs : Xattrs :=
  ⟨[([0x75], [0x31])], pairwise_singleton _ _⟩

/-- A device with attributes, and an entry with a negative time. -/
def sampleEntries : List Entry :=
  [{ name := [0x61], mode := 0o20644, uid := 1000,
     gid := 0x8000000000000000, mtime := -5, linkTarget := [0x2f],
     rdev := [259, 0],
     xattrsIn := encodeXattrs sampleXattrs },
   { mtime := -1 }]

theorem encodable_sampleEntries : ∀ e ∈ sampleEntries, e.Encodable := by
  rw [sampleEntries, forall_mem_cons, forall_mem_singleton]
  refine ⟨⟨by constructor <;> decide, by decide,
    .inr ⟨sampleXattrs, ?_, by decide, rfl⟩⟩,
    by constructor <;> decide, by decide, .inl rfl⟩
  unfold Xattrs.Allocated
  decide

theorem decode_encode_sampleEntries :
    ∃ object, encodeDirLeaf (fun _ => ⟨List.replicate 32 0, rfl⟩)
        sampleEntries = .ok object ∧
      decodeDirLeaf object.bytes = .ok sampleEntries := by
  have keys : ∀ e ∈ sampleEntries,
      KeyField e.contentKey ∧ KeyField e.xattrsKey := by
    rw [sampleEntries, forall_mem_cons, forall_mem_singleton]
    exact ⟨⟨.inl rfl, .inl rfl⟩, .inl rfl, .inl rfl⟩
  obtain ⟨object, encoded⟩ := encodeDirLeaf_eq_ok
    (fun _ => ⟨List.replicate 32 0, rfl⟩) encodable_sampleEntries keys
  exact ⟨object, encoded, (decode_encode_tree _).1 sampleEntries object
    (by decide) encodable_sampleEntries encoded⟩

end Fstree
end AmberStore

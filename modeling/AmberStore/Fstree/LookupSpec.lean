import AmberStore.Fstree.ScanSpec

/-!
# What a lookup finds

Where names are in order, the binary search finds the entry of a name, and the
child that may hold it.  A lookup that scans finds what a lookup that decodes
finds.
-/

open ByteString Checked

namespace AmberStore.Fstree

open Cbor

/-! ## Searching in order -/

/-- Entries are in the order of their names, no two of which are the same. -/
def InOrder (entries : List Entry) : Prop :=
  entries.Pairwise fun left right => left.name < right.name

/-- Separators are in order. -/
def PairsInOrder (pairs : List DirPair) : Prop :=
  pairs.Pairwise fun left right => left.sepName < right.sepName

/-- The first entry that is not below a name is that of the name, if there is
one. -/
theorem filter_find?_eq
    (ordered : InOrder entries) (name : Bytes) :
    (entries.find? fun e => !decide (e.name < name)).filter
        (fun e => e.name = name) =
      entries.find? fun e => e.name = name := by
  induction entries with
  | nil => rfl
  | cons e entries ih =>
    obtain ⟨before, ordered⟩ := List.pairwise_cons.mp ordered
    by_cases isBelow : e.name < name
    · have other : e.name ≠ name := fun same =>
      List.lt_irrefl name (same ▸ isBelow)
      simpa [List.find?_cons, isBelow, other] using ih ordered
    · by_cases here : e.name = name
      · simp [here, List.lt_irrefl]
      · have absent : entries.find? (fun e => decide (e.name = name)) =
            none := by
          rw [List.find?_eq_none]
          intro later isIn same
          have same : later.name = name := by simpa using same
          exact isBelow (same ▸ before later isIn)
        simp [isBelow, here, absent]

theorem findEntry_eq_find?
    (ordered : InOrder entries) (name : Bytes) :
    findEntry entries name = entries.find? fun e => e.name = name := by
  have turnsOff : entries.Pairwise fun left right =>
      decide (right.name < name) = true → decide (left.name < name) = true :=
    ordered.imp fun isBefore isBelow => by
      simp only [decide_eq_true_eq] at isBelow ⊢
      exact List.lt_trans isBefore isBelow
  unfold findEntry
  dsimp only
  rw [Sorted.getElem?_partitionPoint turnsOff, filter_find?_eq ordered]

/-- An entry in order is found by its name. -/
theorem findEntry_eq_some
    (ordered : InOrder entries)
    (isEntry : e ∈ entries) : findEntry entries e.name = some e := by
  rw [findEntry_eq_find? ordered]
  induction entries with
  | nil => cases isEntry
  | cons first entries ih =>
    obtain ⟨before, ordered⟩ := List.pairwise_cons.mp ordered
    rcases List.mem_cons.mp isEntry with rfl | later
    · simp
    · have other : first.name ≠ e.name := fun same =>
      List.lt_irrefl e.name (same ▸ before e later)
      simpa [List.find?_cons, other] using ih ordered later

theorem findEntry_eq_none
    (ordered : InOrder entries)
    (absent : ∀ e ∈ entries, e.name ≠ name) : findEntry entries name = none := by
  rw [findEntry_eq_find? ordered, List.find?_eq_none]
  simpa using absent

theorem findChild_eq_find?
    (ordered : PairsInOrder pairs) (name : Bytes) :
    findChild pairs name =
      (pairs.find? fun p => decide (name ≤ p.sepName)).map
        DirPair.childKey := by
  have turnsOff : pairs.Pairwise fun left right =>
      decide (right.sepName < name) = true →
        decide (left.sepName < name) = true :=
    ordered.imp fun isBefore isBelow => by
      simp only [decide_eq_true_eq] at isBelow ⊢
      exact List.lt_trans isBefore isBelow
  have notBelow : (fun p : DirPair => !decide (p.sepName < name)) =
      fun p => decide (name ≤ p.sepName) := by
    funext p
    rw [← decide_not]
    rfl
  unfold findChild
  dsimp only
  rw [Sorted.getElem?_partitionPoint turnsOff, notBelow]

/-! ## Scanning and decoding -/

theorem leaf_eq_of_ne_unsure
    (isAnswer : Scan.leaf data name = answer)
    (sure : answer ≠ .unsure) : Scan.scanLeaf data name = some answer := by
  unfold Scan.leaf at isAnswer
  cases isScan : Scan.scanLeaf data name with
  | none =>
    rw [isScan] at isAnswer
    exact absurd isAnswer.symm sure
  | some other =>
    rw [isScan] at isAnswer
    rw [← isAnswer]
    rfl

theorem node_eq_of_ne_unsure
    (isAnswer : Scan.node data name = answer)
    (sure : answer ≠ .unsure) : Scan.scanNode data name = some answer := by
  unfold Scan.node at isAnswer
  cases isScan : Scan.scanNode data name with
  | none =>
    rw [isScan] at isAnswer
    exact absurd isAnswer.symm sure
  | some other =>
    rw [isScan] at isAnswer
    rw [← isAnswer]
    rfl

/-- A leaf of entries that a scan takes is decoded. -/
theorem decodeDirLeaf_scanned
    {parts : List Scan.Part} (few : parts.length ≤ Scan.maxItems) :
    decodeDirLeaf (appendHead .array parts.length ++
      parts.flatMap Scan.Part.bytes) = .ok (parts.map Scan.Part.value) :=
  decodeDirLeaf_parts few (fun part _ => part.item) (fun part _ => part.fills)

/-- An entry that a scan finds is the one the decoder finds, decoded alone or
with the others. -/
theorem decode_of_found
    (sized : data.length < 2 ^ 63)
    (isFound : Scan.leaf data name = .found start stop) :
    ∃ entries e, decodeDirLeaf data = .ok entries ∧
      findEntry entries name = some e ∧
      decodeDirLeaf (0x81 :: slice data start stop) = .ok [e] := by
  obtain ⟨parts, few, isData, ordered, located⟩ := Scan.exists_of_scanLeaf sized
    (leaf_eq_of_ne_unsure isFound Scan.Leaf.noConfusion)
  obtain ⟨absurd_, -⟩ | ⟨_, _, same, part, isPart, rfl, isSlice⟩ := located
  · cases absurd_
  · cases same
    have decoded := decodeDirLeaf_scanned few
    have one : [part].length ≤ Scan.maxItems := by
      change 1 ≤ Scan.maxItems
      decide
    have alone := decodeDirLeaf_scanned one
    rw [← isData] at decoded
    refine ⟨_, part.value, decoded,
      findEntry_eq_some ordered (List.mem_map_of_mem isPart), ?_⟩
    rw [isSlice]
    have isHead : appendHead .array 1 = [0x81] := by decide
    rw [List.flatMap_singleton, List.length_singleton, isHead] at alone
    exact alone

/-- A name that a scan does not find is not found by the decoder. -/
theorem decode_of_missing
    (sized : data.length < 2 ^ 63)
    (isMissing : Scan.leaf data name = .missing) :
    ∃ entries, decodeDirLeaf data = .ok entries ∧
      findEntry entries name = none := by
  obtain ⟨parts, few, isData, ordered, located⟩ := Scan.exists_of_scanLeaf sized
    (leaf_eq_of_ne_unsure isMissing Scan.Leaf.noConfusion)
  obtain ⟨-, absent⟩ | ⟨_, _, same, -⟩ := located
  · have decoded := decodeDirLeaf_scanned few
    rw [← isData] at decoded
    refine ⟨_, decoded, findEntry_eq_none ordered ?_⟩
    simpa using absent
  · cases same

/-- The fields of pairs are no longer than the node. -/
theorem pairs_sized
    (sized : (marshalPairs ps).length < 2 ^ 63) :
    ∀ p ∈ ps, p.sepName.length < 2 ^ 63 ∧ p.childKey.length < 2 ^ 63 := by
  intro p isPair
  obtain ⟨before, after, rfl⟩ := List.append_of_mem isPair
  rw [marshalPairs, List.flatMap_append, List.flatMap_cons] at sized
  simp only [appendPair, appendBstr, List.length_append] at sized
  omega

/-- Where a scan leads is where the decoder leads. -/
theorem decode_of_node
    (sized : data.length < 2 ^ 63)
    (sure : Scan.node data name ≠ .unsure) :
    ∃ pairs, decodeDirNode data = .ok pairs ∧
      Scan.node data name =
        ((findChild pairs name).map Scan.Node.child).getD .missing := by
  obtain ⟨ps, few, isData, ordered, -, isAnswer⟩ :=
    Scan.scanNode_eq_some_iff.mp (node_eq_of_ne_unsure rfl sure)
  refine ⟨ps, ?_, ?_⟩
  · rw [isData] at sized ⊢
    exact decodeDirNode_marshalPairs few (pairs_sized sized)
  · rw [isAnswer, findChild_eq_find? ordered, Scan.firstChild, Option.none_or]

/-- A lookup in a leaf finds what the decoder finds. -/
theorem leafEntry_eq_decodedEntry
    (k : Key) (sized : data.length < 2 ^ 63)
    (name : Bytes) :
    (leafEntry k data name : Except (WalkError ε) Entry) =
      decodedEntry k data name := by
  unfold leafEntry
  split
  case h_1 start stop isFound =>
    obtain ⟨entries, e, decoded, isEntry, alone⟩ :=
      decode_of_found sized isFound
    rw [alone, decodedEntry, decoded, mapError_ok, ok_bind, isEntry]
  case h_2 isMissing =>
    obtain ⟨entries, decoded, isNone⟩ := decode_of_missing sized isMissing
    rw [decodedEntry, decoded, mapError_ok, ok_bind, isNone]
  case h_3 => rfl

/-- A lookup in an index node leads where the decoder leads. -/
theorem nodeChild_eq_decodedChild
    (k : Key) (sized : data.length < 2 ^ 63)
    (name : Bytes) :
    (nodeChild k data name : Except (WalkError ε) Key) =
      decodedChild k data name := by
  by_cases sure : Scan.node data name = .unsure
  · rw [nodeChild, sure]
  · obtain ⟨pairs, decoded, answer⟩ := decode_of_node sized sure
    rw [nodeChild, answer, decodedChild, decoded, mapError_ok, ok_bind]
    cases findChild pairs name <;> rfl

/-- What a scan answers is what the decoder finds, and so is what a lookup
finds.  The scan answers for every leaf that the encoder writes of at most
131072 entries in order, without inline attributes and with at most 131072 device
numbers each, and for every index node it writes of at most 131072 pairs in
order. -/
theorem scan_agrees_with_decoder {ε : Type}
    (blake3 : Bytes → Key.Digest Key.size) :
    (∀ data name : Bytes, data.length < 2 ^ 63 →
      (∀ start stop, Scan.leaf data name = .found start stop →
        ∃ entries e, decodeDirLeaf data = .ok entries ∧
          findEntry entries name = some e ∧
          decodeDirLeaf (0x81 :: slice data start stop) = .ok [e]) ∧
      (Scan.leaf data name = .missing → ∃ entries,
        decodeDirLeaf data = .ok entries ∧ findEntry entries name = none) ∧
      (∀ child, Scan.node data name = .child child → ∃ pairs,
        decodeDirNode data = .ok pairs ∧ findChild pairs name = some child) ∧
      (Scan.node data name = .missing → ∃ pairs,
        decodeDirNode data = .ok pairs ∧ findChild pairs name = none) ∧
      ∀ k : Key,
        (leafEntry k data name : Except (WalkError ε) Entry) =
            decodedEntry k data name ∧
          (nodeChild k data name : Except (WalkError ε) Key) =
            decodedChild k data name) ∧
    (∀ entries object, encodeDirLeaf blake3 entries = .ok object →
      entries.length ≤ Scan.maxItems → InOrder entries →
      (∀ e ∈ entries,
        e.Allocated ∧ e.xattrsIn = [] ∧ e.rdev.length ≤ Scan.maxItems) →
      ∀ name, Scan.leaf object.bytes name ≠ .unsure) ∧
    (∀ pairs object, encodeDirNode blake3 pairs = .ok object →
      pairs.length ≤ Scan.maxItems → PairsInOrder pairs →
      (∀ p ∈ pairs, p.sepName.length < 2 ^ 63 ∧ p.childKey.length < 2 ^ 63) →
      ∀ name, Scan.node object.bytes name ≠ .unsure) := by
  refine ⟨fun data name sized => ⟨fun start stop => decode_of_found sized,
    decode_of_missing sized, ?child, ?missing,
    fun k => ⟨leafEntry_eq_decodedEntry k sized name,
      nodeChild_eq_decodedChild k sized name⟩⟩, ?leaf, ?node⟩
  case child =>
    intro child isChild
    obtain ⟨pairs, decoded, answer⟩ := decode_of_node sized
      (by rw [isChild]; exact Scan.Node.noConfusion)
    rw [isChild] at answer
    refine ⟨pairs, decoded, ?_⟩
    cases isFound : findChild pairs name with
    | none =>
      rw [isFound] at answer
      cases answer
    | some found =>
      rw [isFound] at answer
      cases answer
      rfl
  case missing =>
    intro isMissing
    obtain ⟨pairs, decoded, answer⟩ := decode_of_node sized
      (by rw [isMissing]; exact Scan.Node.noConfusion)
    rw [isMissing] at answer
    refine ⟨pairs, decoded, ?_⟩
    cases isFound : findChild pairs name with
    | none => rfl
    | some found =>
      rw [isFound] at answer
      cases answer
  case leaf =>
    intro entries object encoded few ordered each name
    obtain ⟨bytes, marshalled, rest⟩ := bind_eq_ok_iff.mp encoded
    obtain ⟨sub, -, isObject⟩ := bind_eq_ok_iff.mp rest
    rw [← Except.ok.inj isObject]
    exact Scan.leaf_marshalEntries_ne_unsure few each ordered marshalled name
  case node =>
    intro pairs object encoded few ordered sized name
    obtain ⟨sub, -, isObject⟩ := bind_eq_ok_iff.mp encoded
    rw [← Except.ok.inj isObject]
    exact Scan.node_marshalPairs_ne_unsure few ordered sized name

/-- A leaf with a device of too many numbers is encoded, but the scan does not
answer for it. -/
theorem leaf_device_unsure
    (isDevice : device = { rdev := numbers })
    (many : maxElements < numbers.length)
    (fits : numbers.length < 2 ^ 64) :
    ∃ object, encodeDirLeaf (fun _ => ⟨List.replicate 32 0, rfl⟩) [device] =
        .ok object ∧
      InOrder [device] ∧ device.xattrsIn = [] ∧
      Scan.leaf object.bytes [] = .unsure := by
  have noXattrs : device.xattrsIn = [] := by rw [isDevice]
  have appended : appendEntry device =
      .ok (device.fieldsBytes device.present) := by
    rw [Entry.appendEntry_eq, checkXattrsIn, noXattrs]
    rfl
  have marshalled : marshalEntries [device] = .ok
      (appendHead .array 1 ++ (device.fieldsBytes device.present ++ [])) := by
    rw [marshalEntries, List.mapM_cons, appended]
    rfl
  have lengths : entryLength device = .ok 0 := by
    rw [isDevice]
    rfl
  have isPresent : device.present = [0, 1, 2, 3, 4, 7] := by
    obtain ⟨first, rest, rfl⟩ := List.exists_cons_of_length_pos
      (Nat.zero_lt_of_lt many)
    rw [isDevice]
    rfl
  have empty : ([] : Bytes).length < 2 ^ 63 := by decide
  have allocated : device.Allocated := by
    rw [isDevice]
    exact ⟨empty, empty, empty, empty⟩
  have isRdev : device.rdev = numbers := by rw [isDevice]
  have noEntry := Scan.entry_eq_none (by rw [isRdev]; exact many)
    (by rw [isRdev]; exact fits) allocated isPresent []
  have encoded : ∃ object,
      encodeDirLeaf (fun _ => ⟨List.replicate 32 0, rfl⟩) [device] =
        .ok object ∧ object.bytes = appendHead .array 1 ++
          (device.fieldsBytes device.present ++ []) := by
    rw [encodeDirLeaf, marshalled, ok_bind, List.mapM_cons, lengths]
    exact ⟨_, rfl, rfl⟩
  obtain ⟨object, isObject, isBytes⟩ := encoded
  refine ⟨object, isObject, List.pairwise_singleton _ _, noXattrs, ?_⟩
  rw [isBytes, Scan.leaf, Scan.scanLeaf,
    Scan.array_eq_some_iff.mpr ⟨rfl, by decide⟩]
  simp only [Option.bind_eq_bind, Option.bind_some]
  rw [Scan.entries, noEntry]
  rfl

/-- A device with one number too many. -/
def manyNumbers : Entry :=
  { rdev := List.replicate 131073 0 }

/-- Such a leaf is encoded, but the scan does not answer for it. -/
theorem leaf_manyNumbers_unsure :
    ∃ object, encodeDirLeaf (fun _ => ⟨List.replicate 32 0, rfl⟩)
        [manyNumbers] = .ok object ∧
      InOrder [manyNumbers] ∧ manyNumbers.xattrsIn = [] ∧
      Scan.leaf object.bytes [] = .unsure := by
  have length : (List.replicate 131073 (0 : UInt64)).length = 131073 :=
    List.length_replicate
  exact leaf_device_unsure manyNumbers.eq_def (by rw [length]; decide)
    (by rw [length]; decide)

/-- An entry and the bytes of a leaf that holds it. -/
theorem scan_agrees_with_decoder_sample :
    ∃ entries e,
      decodeDirLeaf [0x81, 0xa5, 0, 0x41, 0x61, 1, 0, 2, 0, 3, 0, 4, 0] =
          .ok entries ∧
        findEntry entries [0x61] = some e ∧
        decodeDirLeaf (0x81 :: slice
          [0x81, 0xa5, 0, 0x41, 0x61, 1, 0, 2, 0, 3, 0, 4, 0] 1 13) =
          .ok [e] :=
  ((@scan_agrees_with_decoder Unit
    (fun _ => ⟨List.replicate 32 0, rfl⟩)).1 _ _ (by decide)).1 1 13 (by decide)

end AmberStore.Fstree

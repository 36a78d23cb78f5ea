import AmberStore.ChunkersSpec
import AmberStore.Fstree.BuilderSpec
import AmberStore.Fstree.Lookup
import AmberStore.Ingest.Driver
import AmberStore.Lib.Fuel

/-!
# A file that is built is read back

Below every key that a build of a file adds or emits there is content, and the
key has the content's length.  The root's content is the file's.
-/

open ByteString Checked List

namespace AmberStore.Ingest.Driver

open Chunkers (ItemChunker)
open Filter (atTop)
open Fstree

variable {blake3 : Bytes → Key.Digest Key.size} {hash : Bytes → UInt64}
variable {ε : Type} {get : Key → Except ε Bytes}

/-! ## Content below a key -/

/-- A key has content below it, and says how long it is. -/
structure HasContent (get : Key → Except ε Bytes) (k : Key)
    (content : Bytes) : Prop where
  canonical : k.Canonical
  length : k.length = content.length % 2 ^ 64
  reads : ∀ᶠ fuel in atTop, ∀ w, contentInner get fuel w k = pure (w ++ content)

/-- A blob has its bytes. -/
theorem hasContent_blob
    (isStored : get (encodeBlob blake3 chunk).key =
      .ok (encodeBlob blake3 chunk).bytes) :
    HasContent get (encodeBlob blake3 chunk).key chunk where
  canonical := (IndexBuilder.keyed_newObject (by decide) _ _).canonical
  length := by
    rw [encodeBlob, newObject, Key.length_newFromHash]
    exact UInt64.toNat_ofNat
  reads := by
    apply Fuel.eventually_succ
    apply Filter.Eventually.of_forall
    intro fuel w
    rw [contentInner, isStored, mapError_ok, answered_bind]
    have isBlob : (encodeBlob blake3 chunk).key.type_ = some .blob :=
      Key.type_newFromHash _ _ _
    rw [isBlob]
    rfl

/-- The lengths of parts modulo a number make up the length of the whole. -/
theorem sum_length_mod
    {parts : List Bytes}
    (each : List.Forall₂ (fun child part =>
      Key.length child = part.length % 2 ^ 64) children parts) :
    (children.map Key.length).sum % 2 ^ 64 = parts.flatten.length % 2 ^ 64 := by
  induction each with
  | nil => rfl
  | cons first _ ih =>
    rw [map_cons, sum_cons, flatten_cons, length_append,
      Nat.add_mod, ih, first, Nat.mod_mod, ← Nat.add_mod]

/-- An index node has the content of its children. -/
theorem hasContent_fileNode
    {parts : List Bytes}
    (few : children.length ≤ Cbor.maxElements)
    (each : List.Forall₂ (HasContent get) children parts)
    (isStored : get (encodeFileNode blake3 children).key =
      .ok (encodeFileNode blake3 children).bytes) :
    HasContent get (encodeFileNode blake3 children).key parts.flatten where
  canonical := (IndexBuilder.keyed_newObject (by decide) _ _).canonical
  length := by
    rw [encodeFileNode, newObject, Key.length_newFromHash,
      ← sum_length_mod (each.imp fun _ _ has => has.length)]
    exact UInt64.toNat_ofNat
  reads := by
    have canonical : ∀ child ∈ children, child.Canonical := by
      intro child isChild
      obtain ⟨part, -, has⟩ := exists_of_forall₂ each isChild
      exact has.canonical
    have isNode : (encodeFileNode blake3 children).key.type_ =
        some .fileNode := Key.type_newFromHash _ _ _
    have decoded : decodeFileNode (encodeFileNode blake3 children).bytes =
        .ok children := decodeFileNode_keys few canonical
    apply Fuel.eventually_succ
    filter_upwards [Fuel.eventually_forall₂
      (each.imp fun _ _ has => has.reads)] with fuel reads w
    rw [contentInner, isStored, mapError_ok, answered_bind, isNode]
    dsimp only
    rw [decoded, mapError_ok, answered_bind]
    exact Fuel.foldlM_parts (fun _ _ _ => trivial)
      (reads.imp fun _ _ here out _ => here out) w trivial

/-- Index levels of files keep to the rule of index nodes. -/
theorem closes_content
    {ic : ItemChunker} (few : ic.maxRun ≤ Cbor.maxElements) :
    IndexBuilder.Closes blake3 ic false (fun o => get o.key = .ok o.bytes)
      (fun _ => []) fun k _ content => HasContent get k content := by
  intro level content obj sep counted _ full carries isNode isStored
  obtain ⟨parts, all, rfl⟩ := carries
  cases isNode
  have each : List.Forall₂ (HasContent get) level.keys parts := by
    rw [IndexBuilder.children, if_neg (by decide),
      List.forall₂_map_left_iff] at all
    exact all
  rw [append_nil]
  exact hasContent_fileNode (by rw [counted.keys]; omega) each isStored

/-! ## Chunks -/

theorem exists_addChunk
    {ic : ItemChunker}
    (ready : IndexBuilder.Ready True levels) (chunk : Bytes) :
    ∃ after emitted,
      addChunk blake3 hash ⟨ic, false, levels⟩ chunk =
        .ok (⟨ic, false, after⟩, emitted) ∧
      (∀ o ∈ emitted, o.Keyed blake3) ∧ IndexBuilder.Ready True after ∧
        after ≠ [] := by
  have keyed : (encodeBlob blake3 chunk).Keyed blake3 :=
    IndexBuilder.keyed_newObject (by decide) _ _
  obtain ⟨after, emitted, added, allKeyed, stillReady, present⟩ :
    ∃ after emitted, (⟨ic, false, levels⟩ : IndexBuilder).addChild blake3 hash
      (encodeBlob blake3 chunk).key [] = .ok (⟨ic, false, after⟩, emitted) ∧
        _ := ready.exists_addChild keyed.canonical []
  refine ⟨after, encodeBlob blake3 chunk :: emitted, ?_,
    forall_mem_cons.mpr ⟨keyed, allKeyed⟩, stillReady, present⟩
  unfold addChunk
  dsimp only
  rw [added]
  rfl

theorem exists_addChunks
    {ic : ItemChunker}
    (ready : IndexBuilder.Ready True levels) (chunks : List Bytes) :
    ∃ after emitted,
      addChunks blake3 hash ⟨ic, false, levels⟩ chunks =
        .ok (⟨ic, false, after⟩, emitted) ∧
      (∀ o ∈ emitted, o.Keyed blake3) ∧ IndexBuilder.Ready True after ∧
        (chunks ≠ [] ∨ levels ≠ [] → after ≠ []) := by
  induction chunks generalizing levels with
  | nil =>
    exact ⟨levels, [], rfl, by simp, ready, fun some => some.resolve_left (· rfl)⟩
  | cons chunk rest ih =>
    obtain ⟨next, first, added, firstKeyed, nextReady, present⟩ :
      ∃ next first, addChunk blake3 hash ⟨ic, false, levels⟩ chunk =
        .ok (⟨ic, false, next⟩, first) ∧ _ := exists_addChunk ready chunk
    obtain ⟨after, later, addedRest, laterKeyed, stillReady, stillPresent⟩ :=
      ih nextReady
    refine ⟨after, first ++ later, ?_,
      forall_mem_append.mpr ⟨firstKeyed, laterKeyed⟩, stillReady,
      fun _ => stillPresent (.inr present)⟩
    rw [addChunks, added, ok_bind]
    dsimp only
    rw [addedRest]
    rfl

/-- Any chunks are indexed. -/
theorem exists_indexChunks (d : Driver) (chunks : List Bytes) :
    ∃ root emitted, indexChunks blake3 hash d chunks = .ok (root, emitted) ∧
      ∀ o ∈ emitted, o.Keyed blake3 := by
  obtain ⟨levels, first, added, firstKeyed, ready, present⟩ :
    ∃ levels first, addChunks blake3 hash ⟨d.ic, false, []⟩ chunks =
      .ok (⟨d.ic, false, levels⟩, first) ∧ _ :=
    exists_addChunks IndexBuilder.ready_nil chunks
  -- There is a child to finish with, a chunk or the empty blob.
  obtain ⟨after, empty, addedEmpty, emptyKeyed, stillReady, somePresent⟩ :
      ∃ after empty,
        addEmpty blake3 hash ⟨d.ic, false, levels⟩ chunks =
          .ok (⟨d.ic, false, after⟩, empty) ∧
        (∀ o ∈ empty, o.Keyed blake3) ∧ IndexBuilder.Ready True after ∧
          after ≠ [] := by
    by_cases none : chunks = []
    · subst none
      exact exists_addChunk ready []
    · refine ⟨levels, [], ?_, by simp, ready, present (.inl none)⟩
      rw [addEmpty, if_neg (by simpa using none)]
  obtain ⟨root, later, finished, laterKeyed⟩ :
    ∃ root later, (⟨d.ic, false, after⟩ : IndexBuilder).finish blake3 hash =
      .ok (root, later) ∧ _ := stillReady.exists_finish somePresent
  refine ⟨root, first ++ empty ++ later, ?_, forall_mem_append.mpr
    ⟨forall_mem_append.mpr ⟨firstKeyed, emptyKeyed⟩, laterKeyed⟩⟩
  rw [indexChunks, added, ok_bind]
  dsimp only
  rw [addedEmpty, ok_bind]
  dsimp only
  rw [finished]
  rfl

/-- A file without chunks is the empty blob. -/
theorem indexChunks_nil (d : Driver) :
    indexChunks blake3 hash d [] =
      .ok ((encodeBlob blake3 []).key, [encodeBlob blake3 []]) := by
  have single : (⟨d.ic, false, [_]⟩ : IndexBuilder).finish blake3 hash = _ :=
    @IndexBuilder.finish_single blake3 hash d.ic false
      (IndexBuilder.push false {} (encodeBlob blake3 []).key []) rfl
  unfold indexChunks
  change ((⟨d.ic, false, [_]⟩ : IndexBuilder).finish blake3 hash >>=
    fun finished => Except.ok (finished.1,
      [] ++ [encodeBlob blake3 []] ++ finished.2)) = _
  rw [single]
  rfl

section Content

variable {ic : ItemChunker} (few : ic.maxRun ≤ Cbor.maxElements)

/-- The levels hold the content. -/
abbrev HoldsContent (get : Key → Except ε Bytes) (ic : ItemChunker)
    (levels : List IdxLevel) (content : Bytes) : Prop :=
  IndexBuilder.Holds ic false (fun k _ content => HasContent get k content)
    levels content

include few in
theorem HoldsContent.addChunk
    (holds : HoldsContent get ic levels content)
    (added : addChunk blake3 hash ⟨ic, false, levels⟩ chunk = .ok (ib, emitted))
    (allStored : ∀ o ∈ emitted, get o.key = .ok o.bytes) :
    (ib.ic = ic ∧ ib.isDir = false) ∧
      HoldsContent get ic ib.levels (content ++ chunk) ∧
      ∀ o ∈ emitted, ∃ content, HasContent get o.key content := by
  obtain ⟨⟨next, later⟩, isAdded, same⟩ := bind_eq_ok_iff.mp added
  cases same
  obtain ⟨⟨after, later⟩, isAdded, same⟩ := bind_eq_ok_iff.mp isAdded
  cases same
  obtain ⟨blobStored, laterStored⟩ := forall_mem_cons.mp allStored
  have blob := hasContent_blob blobStored
  obtain ⟨stillHolds, each⟩ := IndexBuilder.Holds.addFrom
    (closes_content few) holds blob isAdded laterStored
  rw [IndexBuilder.flatMap_nothing, append_nil] at stillHolds
  refine ⟨⟨rfl, rfl⟩, stillHolds, forall_mem_cons.mpr ⟨⟨_, blob⟩, ?_⟩⟩
  intro o isIn
  obtain ⟨-, content, has⟩ := each o isIn
  exact ⟨content, has⟩

include few in
theorem HoldsContent.addChunks
    (holds : HoldsContent get ic levels content)
    (added : addChunks blake3 hash ⟨ic, false, levels⟩ chunks =
      .ok (ib, emitted))
    (allStored : ∀ o ∈ emitted, get o.key = .ok o.bytes) :
    (ib.ic = ic ∧ ib.isDir = false) ∧
      HoldsContent get ic ib.levels (content ++ chunks.flatten) ∧
      ∀ o ∈ emitted, ∃ content, HasContent get o.key content := by
  induction chunks generalizing levels content emitted with
  | nil =>
    cases added
    exact ⟨⟨rfl, rfl⟩, by simpa using holds, by simp⟩
  | cons chunk rest ih =>
    obtain ⟨⟨⟨ic', isDir', next⟩, first⟩, isAdded, added⟩ :=
      bind_eq_ok_iff.mp added
    obtain ⟨⟨_, later⟩, restAdded, same⟩ := bind_eq_ok_iff.mp added
    cases same
    obtain ⟨firstStored, laterStored⟩ := forall_mem_append.mp allStored
    obtain ⟨⟨rfl, rfl⟩, nextHolds, firstHave⟩ :=
      holds.addChunk few isAdded firstStored
    obtain ⟨isSame, stillHolds, laterHave⟩ := ih nextHolds restAdded laterStored
    rw [append_assoc] at stillHolds
    exact ⟨isSame, stillHolds, forall_mem_append.mpr ⟨firstHave, laterHave⟩⟩

include few in
/-- The root has the content of all chunks. -/
theorem hasContent_indexChunks
    {d : Driver} (isIc : d.ic = ic)
    (indexed : indexChunks blake3 hash d chunks = .ok (root, emitted))
    (allStored : ∀ o ∈ emitted, get o.key = .ok o.bytes) :
    HasContent get root chunks.flatten ∧
      ∀ o ∈ emitted, ∃ content, HasContent get o.key content := by
  subst isIc
  obtain ⟨⟨⟨ic', isDir', levels⟩, first⟩, added, indexed⟩ :=
    bind_eq_ok_iff.mp indexed
  obtain ⟨⟨⟨ic'', isDir'', after⟩, empty⟩, addedEmpty, indexed⟩ :=
    bind_eq_ok_iff.mp indexed
  obtain ⟨⟨_, later⟩, finished, same⟩ := bind_eq_ok_iff.mp indexed
  cases same
  rw [forall_mem_append, forall_mem_append] at allStored
  obtain ⟨⟨firstStored, emptyStored⟩, laterStored⟩ := allStored
  have start : HoldsContent get d.ic [] [] := rfl
  obtain ⟨⟨rfl, rfl⟩, holds, firstHave⟩ := start.addChunks few added firstStored
  rw [nil_append] at holds
  have next : (ic'' = d.ic ∧ isDir'' = false) ∧
      HoldsContent get d.ic after chunks.flatten ∧
      ∀ o ∈ empty, ∃ content, HasContent get o.key content := by
    by_cases none : chunks = []
    · subst none
      simpa using holds.addChunk few addedEmpty emptyStored
    · rw [addEmpty, if_neg (by simpa using none)] at addedEmpty
      cases addedEmpty
      exact ⟨⟨rfl, rfl⟩, holds, by simp⟩
  obtain ⟨⟨rfl, rfl⟩, stillHolds, emptyHave⟩ := next
  obtain ⟨⟨-, rootHas⟩, laterHave⟩ := IndexBuilder.Holds.finishFrom
    (closes_content few) stillHolds finished laterStored
  rw [IndexBuilder.flatMap_nothing, append_nil] at rootHas
  refine ⟨rootHas, forall_mem_append.mpr
    ⟨forall_mem_append.mpr ⟨firstHave, emptyHave⟩, ?_⟩⟩
  intro o isIn
  obtain ⟨-, content, has⟩ := laterHave o isIn
  exact ⟨content, has⟩

end Content

/-! ## Files -/

/-- Reading the content below a key ends with the content. -/
def ReadsAs (get : Key → Except ε Bytes) (k : Key) (content : Bytes) : Prop :=
  ∃ depth, ∀ fuel ≥ depth, writeContent get fuel k = pure content

theorem HasContent.readsAs
    (has : HasContent get k content) :
    ReadsAs get k content := by
  obtain ⟨depth, reads⟩ := Filter.eventually_atTop.mp has.reads
  exact ⟨depth, fun fuel enough => reads fuel enough []⟩

/-- Every file is built, and reading what was emitted gives the file.  The
length of the root's key, and of every index node's, is that of the content
below it modulo `2 ^ 64`. -/
theorem readsAs_buildFile
    (blake3 : Bytes → Key.Digest Key.size) (hash : Bytes → UInt64)
    (fs : FileSystem ε) (d : Driver) (full : Path) (data : Bytes)
    (isFile : fs.openFile full = .ok (.ok data))
    (valid : (Chunkers.Resolved.new d.byteOpts).validate = .ok ())
    (few : d.ic.maxRun ≤ 131072) (missing : ε) :
    ∃ root objects, buildFile blake3 hash fs d full = .ok (root, objects) ∧
      (∀ o ∈ objects, o.Keyed blake3) ∧
      (KeysDistinct objects →
        ReadsAs (getFrom missing objects) root data ∧
        root.length = data.length % 2 ^ 64 ∧
        ∀ o ∈ objects, o.key.type_ = some .fileNode →
          ∃ content, ReadsAs (getFrom missing objects) o.key content ∧
            o.key.length = content.length % 2 ^ 64) ∧
      (data = [] → objects = [encodeBlob blake3 []] ∧
        root = (encodeBlob blake3 []).key) := by
  obtain ⟨chunks, isSplit, rfl, noEmpty⟩ :=
    Chunkers.exists_splitBytes valid data
  obtain ⟨root, objects, indexed, keyed⟩ :
    ∃ root objects, indexChunks blake3 hash d chunks = .ok (root, objects) ∧
      _ := exists_indexChunks d chunks
  refine ⟨root, objects, ?_, keyed, ?_, ?_⟩
  · rw [buildFile, isFile, mapError_ok, ok_bind, valid, mapError_ok, ok_bind,
      mapError_ok, ok_bind, isSplit, mapError_ok, ok_bind, indexed]
    rfl
  · intro distinct
    obtain ⟨rootHas, each⟩ := hasContent_indexChunks few rfl indexed
      fun o isIn => distinct.getFrom missing isIn
    refine ⟨rootHas.readsAs, rootHas.length, fun o isIn _ => ?_⟩
    obtain ⟨content, has⟩ := each o isIn
    exact ⟨content, has.readsAs, has.length⟩
  · intro empty
    have none : chunks = [] := by
      rw [flatten_eq_nil_iff] at empty
      exact eq_nil_iff_forall_not_mem.mpr fun chunk isIn =>
        noEmpty (empty chunk isIn ▸ isIn)
    subst none
    rw [indexChunks_nil] at indexed
    cases indexed
    exact ⟨rfl, rfl⟩

/-- A filesystem with one file, of two chunks. -/
def oneFile : FileSystem Unit where
  openFile _ := .ok (.ok Chunkers.cutBytes)

/-- A driver for short files. -/
def shortDriver : Driver where
  ic := ⟨32, 512, 127, by decide, by decide⟩
  byteOpts := some Chunkers.shortSizes

theorem readsAs_buildFile_oneFile :
    ({ byte := some Chunkers.shortSizes } : ChunkOpts).driver =
        some shortDriver ∧
      ∃ root objects, buildFile startDigest (fun _ => 0) oneFile shortDriver [] =
          .ok (root, objects) ∧ objects.length = 3 ∧
        ReadsAs (getFrom () objects) root Chunkers.cutBytes ∧
        root.length = 90 := by
  refine ⟨rfl, ?_⟩
  obtain ⟨root, objects, built, -, reads, -⟩ := readsAs_buildFile
    startDigest (fun _ => 0) oneFile shortDriver []
    Chunkers.cutBytes rfl (by decide) (by decide) ()
  have distinct : ∀ built ∈ (buildFile startDigest (fun _ => 0) oneFile
      shortDriver []).toOption, built.2.length = 3 ∧ KeysDistinct built.2 := by
    unfold KeysDistinct
    decide +kernel
  obtain ⟨isThree, areDistinct⟩ := distinct (root, objects) (by rw [built]; rfl)
  obtain ⟨isRead, isLength, -⟩ := reads areDistinct
  exact ⟨root, objects, built, isThree, isRead, isLength⟩

end AmberStore.Ingest.Driver

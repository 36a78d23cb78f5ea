import AmberStore.Packstore.Index

/-!
# A built footer is read back

What `buildFooter` appends to a header and a body is accepted by `parseFooter`,
with the body's length, and the view it gives finds exactly the entries the
footer was built from.  The filter is no obstacle: it holds every entry's key,
and a key it lets through by accident is still looked up in the index.
-/

open ByteString Checked List Sorted

namespace AmberStore.Packstore

/-! ## What a built footer consists of -/

/-- The parts of a built footer. -/
structure FooterParts (hashing : BinaryFuse.Hashing)
    (entries : List IndexEntry) where
  fanout : List Nat
  filter : BinaryFuse.BinaryFuse16
  nonempty : entries ≠ []
  isFanout : IsFanout (sortEntries entries) fanout
  shaped : ∃ bits count, BinaryFuse.WellShaped filter bits count
  holds : ∀ entry ∈ entries,
    BinaryFuse.contains hashing filter (filterKey entry.k) = .ok true

namespace FooterParts

variable {hashing : BinaryFuse.Hashing} {entries : List IndexEntry}
  (parts : FooterParts hashing entries)

/-- The bytes of the index section. -/
def indexBytes : Bytes :=
  parts.fanout.flatMap (beBytes 4) ++ (sortEntries entries).flatMap rowBytes

/-- The bytes of the filter section. -/
def filterBytes : Bytes :=
  BinaryFuse.sectionBytes parts.filter

/-- What the footer's CRC covers. -/
def covered (bodyLen : Nat) : Bytes :=
  [tagSeal] ++ parts.indexBytes ++ parts.filterBytes ++
    trailerFields bodyLen parts.indexBytes.length parts.filterBytes.length
      entries.length

/-- The footer's bytes. -/
def bytes (crc32c : Bytes → UInt32) (bodyLen : Nat) : Bytes :=
  parts.covered bodyLen ++
    beBytes 4 (crc32c (parts.covered bodyLen)).toNat ++ [0, 0, 0, 0] ++
    magicTrailer

theorem indexBytes_length :
    parts.indexBytes.length = fanoutSize + entries.length * indexEntrySize := by
  rw [indexBytes, length_append, flatMap_length _ (beBytes_length 4),
    flatMap_length _ rowBytes_length, parts.isFanout.length_eq,
    (sortEntries_perm entries).length_eq]

theorem filterBytes_length :
    parts.filterBytes.length = BinaryFuse.sectionHeaderSize +
      2 * parts.filter.fingerprints.length := by
  rw [filterBytes, BinaryFuse.sectionBytes, length_append,
    BinaryFuse.sectionHeader_length, BinaryFuse.printBytes_length]

theorem fingerprints_lt :
    parts.filter.fingerprints.length < 2 ^ 32 := by
  obtain ⟨bits, count, shaped⟩ := parts.shaped
  rw [shaped.capacity]
  exact shaped.fits

include parts in
theorem entries_lt :
    entries.length < 2 ^ 32 := by
  have fits := parts.isFanout.fits
  rwa [(sortEntries_perm entries).length_eq] at fits

end FooterParts

/-- The filter's input has no more keys than there are entries, and has all
of theirs. -/
theorem buildFilterSection_eq_ok
    (fits : entries.length < 2 ^ 32)
    (built : buildFilterSection hashing entries = .ok bytes) :
    ∃ filter, bytes = BinaryFuse.sectionBytes filter ∧
      (∃ bits count, BinaryFuse.WellShaped filter bits count) ∧
      ∀ entry ∈ entries,
        BinaryFuse.contains hashing filter (filterKey entry.k) = .ok true := by
  unfold buildFilterSection at built
  obtain ⟨filter, success, same⟩ := bind_eq_ok_iff.mp built
  cases same
  have few := length_dedupAdjacent_le
    ((entries.map fun entry => filterKey entry.k).mergeSort
      fun left right => left ≤ right)
  rw [length_mergeSort, length_map] at few
  obtain ⟨shaped, holds⟩ := BinaryFuse.build_contains
    (Nat.lt_of_le_of_lt few fits) (mapError_eq_ok_iff.mp success)
  refine ⟨filter, rfl, shaped, ?_⟩
  intro entry member
  refine holds _ ?_
  rw [mem_dedupAdjacent, mem_mergeSort]
  exact mem_map_of_mem member

/-- An index section is a fanout and the rows that it counts. -/
theorem indexSection_eq_ok
    (built : indexSection sorted = .ok bytes) :
    ∃ fanout, IsFanout sorted fanout ∧
      bytes = fanout.flatMap (beBytes 4) ++ sorted.flatMap rowBytes := by
  obtain ⟨counts, tallied, built⟩ := bind_eq_ok_iff.mp built
  obtain ⟨fanout, accumulated, same⟩ := bind_eq_ok_iff.mp built
  exact ⟨fanout, isFanout_of_accumulate tallied accumulated,
    (Except.ok.inj same).symm⟩

/-- A footer that was built is the bytes of its parts, and its offsets are
64-bit numbers. -/
theorem buildFooter_eq_ok
    (built : buildFooter crc32c hashing bodyLen entries = .ok footer) :
    ∃ parts : FooterParts hashing entries,
      footer = parts.bytes crc32c bodyLen ∧
        bodyLen + 1 + parts.indexBytes.length < 2 ^ 64 := by
  unfold buildFooter at built
  rw [errorIf_eq_ok_iff] at built
  obtain ⟨nonempty, built⟩ := built
  obtain ⟨index, indexBuilt, built⟩ := bind_eq_ok_iff.mp built
  obtain ⟨filterSection, filterBuilt, built⟩ := bind_eq_ok_iff.mp built
  obtain ⟨fanout, isFanout, rfl⟩ := indexSection_eq_ok indexBuilt
  have fits := isFanout.fits
  rw [(sortEntries_perm entries).length_eq] at fits
  obtain ⟨filter, rfl, shaped, holds⟩ :=
    buildFilterSection_eq_ok fits filterBuilt
  split at built
  case isFalse => cases built
  case isTrue offsetsFit =>
    cases built
    exact ⟨⟨fanout, filter, nonempty, isFanout, shaped, holds⟩, rfl, offsetsFit⟩

/-! ## Reading the footer back -/

@[simp] theorem headerAt_length (version : UInt8) :
    (headerAt version).length = 8 := rfl

theorem isHeader_eq_true_iff :
    isHeader bytes = true ↔
      bytes.length = 8 ∧ bytes.take 7 = magicHeader.take 7 ∧
        readsVersion (byteAt bytes 7) = true := by
  unfold isHeader
  exact decide_eq_true_iff

/-- A file that starts with a header of a known version passes the version
check. -/
theorem checkVersion_of_isHeader
    (isSegment : isHeader (bytes.take 8) = true) :
    checkVersion bytes = .ok () := by
  obtain ⟨_, _, reads⟩ := isHeader_eq_true_iff.mp isSegment
  rw [byteAt_take _ (by omega)] at reads
  unfold checkVersion
  rw [if_pos (Or.inr (Or.inr reads))]

theorem isHeader_headerAt (version : UInt8) :
    isHeader (headerAt version) = readsVersion version := by
  simp [isHeader, headerAt, byteAt]

/-- The trailer up to its CRC, as a table of its six integers. -/
theorem trailerFields_eq (bodyLen indexLen filterLen keyCount : Nat) :
    trailerFields bodyLen indexLen filterLen keyCount =
      [bodyLen + 1, indexLen, bodyLen + 1 + indexLen, filterLen, keyCount,
        bodyLen].flatMap (beBytes 8) := by
  simp [trailerFields]

theorem readBe_table
    {values : List Nat} (rest : Bytes)
    (inside : index < values.length) (fits : values[index] < 2 ^ 64) :
    readBe (values.flatMap (beBytes 8) ++ rest) (index * 8) 8 =
      values[index] := by
  have total := flatMap_length (beBytes 8) (beBytes_length 8) values
  rw [readBe_append_left _ _ (by omega)]
  have row := readBe_flatMap (beBytes 8) (beBytes_length 8) inside
    (show 0 + 8 ≤ 8 by omega)
  rw [Nat.add_zero] at row
  rw [row, readBe, slice_zero, take_of_length_le (by simp)]
  exact beNat_beBytes_of_lt fits

namespace FooterParts

variable {hashing : BinaryFuse.Hashing} {entries : List IndexEntry}
  (parts : FooterParts hashing entries)

/-- The view a footer is read back as. -/
def view (bodyLen : Nat) : FooterView where
  fanout := parts.fanout
  entriesOff := bodyLen + 1 + fanoutSize
  entriesLen := parts.indexBytes.length - fanoutSize
  filter := parts.filter
  keyCount := entries.length
  bodyLen := bodyLen
  indexOff := bodyLen + 1
  indexLen := parts.indexBytes.length

/-- The last sixty-four bytes of a footer. -/
def trailer (crc32c : Bytes → UInt32) (bodyLen : Nat) : Bytes :=
  trailerFields bodyLen parts.indexBytes.length parts.filterBytes.length
    entries.length ++
    (beBytes 4 (crc32c (parts.covered bodyLen)).toNat ++ ([0, 0, 0, 0] ++
      magicTrailer))

variable (crc32c : Bytes → UInt32) (bodyLen : Nat)

theorem bytes_eq :
    parts.bytes crc32c bodyLen =
      [tagSeal] ++ (parts.indexBytes ++ (parts.filterBytes ++
        parts.trailer crc32c bodyLen)) := by
  simp only [bytes, covered, trailer, append_assoc]

theorem trailer_length :
    (parts.trailer crc32c bodyLen).length = trailerSize := by
  simp [trailer, trailerFields]

theorem trailer_crc :
    readBe (parts.trailer crc32c bodyLen) 48 4 =
      (crc32c (parts.covered bodyLen)).toNat :=
  readBe_field _ _ (by simp [trailerFields]) (UInt32.toNat_lt _)

theorem trailer_reserved :
    readBe (parts.trailer crc32c bodyLen) 52 4 = 0 := by
  have zero : ([0, 0, 0, 0] : Bytes) = beBytes 4 0 := rfl
  rw [trailer, ← append_assoc, zero]
  exact readBe_field _ _ (by simp [trailerFields]) (by decide)

theorem trailer_magic :
    slice (parts.trailer crc32c bodyLen) 56 64 = magicTrailer := by
  have ending := slice_field (trailerFields bodyLen parts.indexBytes.length
    parts.filterBytes.length entries.length ++
    (beBytes 4 (crc32c (parts.covered bodyLen)).toNat ++ [0, 0, 0, 0]))
    magicTrailer [] (by simp [trailerFields]; rfl) rfl
  simpa [trailer] using ending

/-! ### The parts of a file that ends in a footer -/

variable (head : Bytes)

/-- A file whose records end where its footer starts. -/
def image : Bytes :=
  head ++ parts.bytes crc32c head.length

theorem image_eq :
    parts.image crc32c head =
      head ++ ([tagSeal] ++ (parts.indexBytes ++ (parts.filterBytes ++
        parts.trailer crc32c head.length))) := by
  rw [image, bytes_eq]

theorem image_length :
    (parts.image crc32c head).length = head.length + 1 +
      parts.indexBytes.length + parts.filterBytes.length + 64 := by
  have trailerLength := parts.trailer_length crc32c head.length
  simp only [image_eq, length_append, length_singleton,
    trailerLength, trailerSize]
  omega

theorem image_trailer :
    (parts.image crc32c head).drop
      ((parts.image crc32c head).length - trailerSize) =
        parts.trailer crc32c head.length := by
  have split : parts.image crc32c head = (head ++ [tagSeal] ++
      parts.indexBytes ++ parts.filterBytes) ++
        parts.trailer crc32c head.length := by
    simp only [image_eq, append_assoc]
  rw [image_length, split, drop_left']
  simp only [length_append, length_singleton, trailerSize]
  omega

theorem image_seal :
    byteAt (parts.image crc32c head) head.length = tagSeal := by
  rw [image_eq]
  exact byteAt_field _ _ _ rfl

theorem image_index :
    slice (parts.image crc32c head) (head.length + 1)
      (head.length + 1 + parts.indexBytes.length) = parts.indexBytes := by
  rw [image_eq, ← append_assoc]
  exact slice_field _ _ _ (by simp) rfl

theorem image_rows :
    slice (parts.image crc32c head) (head.length + 1 + fanoutSize)
      (head.length + 1 + fanoutSize + (parts.indexBytes.length - fanoutSize)) =
      (sortEntries entries).flatMap rowBytes := by
  have tableLength : (parts.fanout.flatMap (beBytes 4)).length =
      fanoutSize := by
    rw [flatMap_length _ (beBytes_length 4), parts.isFanout.length_eq]
  have split : parts.image crc32c head = (head ++ [tagSeal] ++
      parts.fanout.flatMap (beBytes 4)) ++
        ((sortEntries entries).flatMap rowBytes ++ (parts.filterBytes ++
          parts.trailer crc32c head.length)) := by
    simp only [image_eq, indexBytes, append_assoc]
  rw [split]
  refine slice_field _ _ _ ?_ ?_
  · simp only [length_append, length_singleton, tableLength]
  · rw [indexBytes, length_append, tableLength]
    omega

theorem image_filter :
    slice (parts.image crc32c head)
      (head.length + 1 + parts.indexBytes.length)
      (head.length + 1 + parts.indexBytes.length +
        parts.filterBytes.length) = parts.filterBytes := by
  have split : parts.image crc32c head =
      (head ++ [tagSeal] ++ parts.indexBytes) ++ (parts.filterBytes ++
        parts.trailer crc32c head.length) := by
    simp only [image_eq, append_assoc]
  rw [split]
  refine slice_field _ _ _ ?_ rfl
  simp only [length_append, length_singleton]

theorem image_covered :
    slice (parts.image crc32c head) head.length
      ((parts.image crc32c head).length - 16) = parts.covered head.length := by
  have coveredLength : (parts.covered head.length).length = 1 +
      parts.indexBytes.length + parts.filterBytes.length + 48 := by
    simp [covered, trailerFields]
    omega
  rw [image_length, image, bytes, append_assoc, append_assoc]
  refine slice_field _ _ _ rfl ?_
  rw [coveredLength]
  omega

/-- The index, filter and body fields of the trailer. -/
theorem image_field
    (offsetsFit : head.length + 1 + parts.indexBytes.length < 2 ^ 64)
    {index : Nat} (inside : index < 6) :
    readBe (parts.trailer crc32c head.length) (index * 8) 8 =
      [head.length + 1, parts.indexBytes.length,
        head.length + 1 + parts.indexBytes.length, parts.filterBytes.length,
        entries.length, head.length][index] := by
  have filterLength := parts.filterBytes_length
  have fewPrints := parts.fingerprints_lt
  have fewEntries := parts.entries_lt
  unfold BinaryFuse.sectionHeaderSize at filterLength
  rw [trailer, trailerFields_eq]
  have allFit : ∀ value ∈ [head.length + 1, parts.indexBytes.length,
      head.length + 1 + parts.indexBytes.length, parts.filterBytes.length,
      entries.length, head.length], value < 2 ^ 64 := by
    simp only [forall_mem_cons]
    refine ⟨?_, ?_, ?_, ?_, ?_, ?_, fun _ none => absurd none (by simp)⟩
    all_goals omega
  exact readBe_table _ inside (allFit _ (getElem_mem _))

variable {crc32c} {head}

/-- A file that ends in a footer is parsed to the footer's view. -/
theorem parseFooter_image
    (isSegment : isHeader (head.take 8) = true)
    (offsetsFit : head.length + 1 + parts.indexBytes.length < 2 ^ 64) :
    parseFooter crc32c (parts.image crc32c head) =
      .ok (parts.view head.length) := by
  have indexLength := parts.indexBytes_length
  have filterLength := parts.filterBytes_length
  have fewEntries := parts.entries_lt
  have someEntry : 0 < entries.length := length_pos_of_ne_nil parts.nonempty
  have headLength : 8 ≤ head.length := by
    have taken := (isHeader_eq_true_iff.mp isSegment).1
    rw [length_take] at taken
    omega
  have imageLength := parts.image_length crc32c head
  have isHeader_image :
      isHeader ((parts.image crc32c head).take 8) = true := by
    rwa [image, take_append_of_le_length headLength]
  have field := @image_field _ _ parts crc32c head offsetsFit
  have indexOff := @field 0 (by decide)
  have indexLen := @field 1 (by decide)
  have filterOff := @field 2 (by decide)
  have filterLen := @field 3 (by decide)
  have keyCount := @field 4 (by decide)
  have bodyLen := @field 5 (by decide)
  simp only [Nat.reduceMul, getElem_cons_zero, getElem_cons_succ]
    at indexOff indexLen filterOff filterLen keyCount bodyLen
  obtain ⟨bits, count, shaped⟩ := parts.shaped
  have parsedIndex := parts.isFanout.parseIndexSection_eq
  rw [(sortEntries_perm entries).length_eq] at parsedIndex
  have parsedFilter := shaped.parseSection_sectionBytes
  unfold parseFooter
  simp only [image_trailer, indexOff, indexLen, filterOff, filterLen,
    keyCount, bodyLen, checkVersion_of_isHeader isHeader_image,
    isHeader_image, trailer_magic, trailer_reserved, trailer_crc,
    image_covered, image_seal, image_index, image_filter]
  have longEnough :
      ¬(parts.image crc32c head).length < minSealedLen := by
    unfold minSealedLen fanoutSize indexEntrySize trailerSize
    unfold fanoutSize indexEntrySize at indexLength
    omega
  have filterFits : head.length + 1 + parts.indexBytes.length ≤
      (parts.image crc32c head).length - trailerSize := by
    rw [imageLength, trailerSize]
    omega
  have filterEnds : (parts.image crc32c head).length - trailerSize -
      (head.length + 1 + parts.indexBytes.length) =
        parts.filterBytes.length := by
    rw [imageLength, trailerSize]
    omega
  have recordsFit : head.length < (parts.image crc32c head).length := by
    omega
  have countFits : entries.length ≤ 2 ^ 32 - 1 := by omega
  simp only [if_neg longEnough, bind, Except.bind, not_true_eq_false, ne_eq,
    if_false, filterEnds, ← indexLength, Nat.not_lt.mpr headLength,
    Nat.not_le.mpr recordsFit, Nat.not_lt.mpr countFits,
    Nat.not_lt.mpr filterFits, or_false]
  simp only [indexBytes, filterBytes, parsedIndex, parsedFilter,
    mapError_ok, view]

/-- A footer behind a header and a body is parsed to the footer's view. -/
theorem parseFooter_headerAt
    (reads : readsVersion version = true) (body : Bytes)
    (offsetsFit : (headerAt version ++ body).length + 1 +
      parts.indexBytes.length < 2 ^ 64) :
    parseFooter crc32c (parts.image crc32c (headerAt version ++ body)) =
      .ok (parts.view (headerAt version ++ body).length) := by
  refine parts.parseFooter_image ?_ offsetsFit
  rw [take_append_of_le_length (by simp),
    take_of_length_le (by simp), isHeader_headerAt, reads]

/-- The view finds each key's entry. -/
theorem lookup_image
    (distinct : (entries.map IndexEntry.k).Nodup) (key : Key) :
    (parts.view head.length).lookup (parts.image crc32c head) key =
      .ok ((entries.find? fun entry => entry.k = key).map fun entry =>
        (entry.off, entry.slen)) := by
  unfold FooterView.lookup view
  rw [image_rows,
    parts.isFanout.searchIndex_eq (inKeyOrder_sortEntries distinct),
    find?_eq_of_perm (sortEntries_perm entries) distinct]

/-- The filter loses no key, and what it lets through is looked up. -/
theorem has_image
    (distinct : (entries.map IndexEntry.k).Nodup) (key : Key) :
    FooterView.has hashing (parts.view head.length)
      (parts.image crc32c head) key =
        .ok (entries.find? fun entry => entry.k = key).isSome := by
  obtain ⟨bits, count, shaped⟩ := parts.shaped
  have answered := shaped.contains_eq hashing (filterKey key)
  unfold FooterView.has
  rw [parts.lookup_image distinct key]
  simp only [view, bind, Except.bind]
  cases found : entries.find? fun entry => entry.k = key with
  | none =>
    rw [answered]
    simp only [Option.map_none, Option.isSome_none]
    split <;> rfl
  | some entry =>
    have isKey : entry.k = key := by simpa using find?_some found
    have held := parts.holds entry (mem_of_find?_eq_some found)
    rw [isKey] at held
    rw [held]
    rfl

end FooterParts

/-! ## What is accepted -/

/-- What every file with an accepted footer looks like. -/
structure LooksSealed (image : Bytes) (bodyLen : Nat) : Prop where
  longEnough : minSealedLen ≤ image.length
  magic : image.drop (image.length - 8) = magicTrailer
  header_le : 8 ≤ bodyLen
  lt_length : bodyLen < image.length
  seals : byteAt image bodyLen = tagSeal

theorem looksSealed_of_parseFooter
    (parsed : parseFooter crc32c image = .ok view) :
    LooksSealed image view.bodyLen := by
  unfold parseFooter at parsed
  simp only [errorIf_eq_ok_iff, bind_eq_ok_iff,
    mapError_eq_ok_iff, Except.ok.injEq] at parsed
  obtain ⟨longEnough, _, _, _, magic, _, offsets, _, seals, fanout, _,
    filter, _, rfl⟩ := parsed
  push Not at offsets
  have longEnough := Nat.not_lt.mp longEnough
  refine ⟨longEnough, ?_, offsets.1, offsets.2.1, not_not.mp seals⟩
  have ending := not_not.mp magic
  have atLeast : 64 ≤ image.length := Nat.le_trans (by decide) longEnough
  clear offsets
  unfold slice trailerSize at ending
  rw [drop_drop, take_of_length_le] at ending
  · rwa [show image.length - 64 + 56 = image.length - 8 by omega] at ending
  · rw [length_drop]
    omega

/-- How the parts of an accepted footer lie in the file. -/
structure FooterLayout (image : Bytes) (view : FooterView) : Prop where
  indexOff_eq : view.indexOff = view.bodyLen + 1
  indexLen_eq : view.indexLen = fanoutSize + view.keyCount * indexEntrySize
  entriesOff_eq : view.entriesOff = view.indexOff + fanoutSize
  entriesLen_eq : view.entriesLen = view.indexLen - fanoutSize
  bodyLen_lt : view.bodyLen < 2 ^ 64
  filterOff_lt : view.indexOff + view.indexLen < 2 ^ 64
  index : parseIndexSection
    (slice image view.indexOff (view.indexOff + view.indexLen))
      view.keyCount = .ok view.fanout
  shaped : ∃ bits count, BinaryFuse.WellShaped view.filter bits count

theorem footerLayout_of_parseFooter
    (parsed : parseFooter crc32c image = .ok view) :
    FooterLayout image view := by
  unfold parseFooter at parsed
  simp only [errorIf_eq_ok_iff, bind_eq_ok_iff,
    mapError_eq_ok_iff, Except.ok.injEq] at parsed
  obtain ⟨_, _, _, _, _, _, offsets, _, _, fanout, index, filter,
    filterParsed, rfl⟩ := parsed
  push Not at offsets
  obtain ⟨_, _, _, indexOff, indexLen, filterOff, _⟩ := offsets
  have small := readBe_lt (image.drop (image.length - trailerSize)) 16 8
  rw [filterOff] at small
  exact ⟨indexOff, indexLen, rfl, rfl, readBe_lt _ 40 8, small, index,
    BinaryFuse.wellShaped_of_parseSection filterParsed⟩

/-! ## Sealing refines the active index -/

/-- A footer that was built over entries of distinct keys is accepted behind
any header and body of its length, and finds exactly those entries. -/
theorem parseFooter_buildFooter
    (crc32c : Bytes → UInt32) (hashing : BinaryFuse.Hashing)
    (version : UInt8) (reads : readsVersion version = true)
    (body : Bytes) (entries : List IndexEntry)
    (distinct : (entries.map IndexEntry.k).Nodup)
    (footer : Bytes)
    (built : buildFooter crc32c hashing (headerAt version ++ body).length
      entries = .ok footer) :
    ∃ view, parseFooter crc32c (headerAt version ++ body ++ footer) =
        .ok view ∧
      view.bodyLen = (headerAt version ++ body).length ∧
      ∀ key,
        view.lookup (headerAt version ++ body ++ footer) key =
          .ok ((entries.find? fun entry => entry.k = key).map fun entry =>
            (entry.off, entry.slen)) ∧
        FooterView.has hashing view (headerAt version ++ body ++ footer) key =
          .ok (entries.find? fun entry => entry.k = key).isSome := by
  obtain ⟨parts, rfl, offsetsFit⟩ := buildFooter_eq_ok built
  refine ⟨parts.view (headerAt version ++ body).length,
    parts.parseFooter_headerAt reads body offsetsFit, rfl, ?_⟩
  intro key
  exact ⟨parts.lookup_image distinct key, parts.has_image distinct key⟩

/-- A hashing that keeps keys as they are, over one segment of two slots. -/
def identityHashing : BinaryFuse.Hashing where
  mix key _ := key
  fingerprint hash := hash.toUInt16
  geometry _ := ⟨1, 1, Nat.one_pos, Nat.one_pos, by decide⟩

/-- The key that repeats a byte. -/
def repeatedKey (byte : UInt8) : Key :=
  ⟨List.replicate Key.size byte, length_replicate⟩

/-- The entries of two records. -/
def pairEntries : List IndexEntry :=
  [⟨repeatedKey 2, 60, 5⟩, ⟨repeatedKey 7, 8, 3⟩]

/-- The two entries can be sealed, whatever the CRC is. -/
theorem exists_buildFooter_pairEntries
    (crc32c : Bytes → UInt32) (fits : bodyLen < 2 ^ 63) :
    ∃ footer, buildFooter crc32c identityHashing bodyLen pairEntries =
      .ok footer ∧ footer.length = 1218 := by
  -- Merge sort is by well-founded recursion, so it is not evaluated: both
  -- lists are in order already.
  have sorted : sortEntries pairEntries = pairEntries :=
    mergeSort_of_pairwise (by decide)
  have sortedHeads : (pairEntries.map fun entry => filterKey entry.k).mergeSort
      (fun left right => left ≤ right) =
        pairEntries.map fun entry => filterKey entry.k :=
    mergeSort_of_pairwise (by decide)
  have indexBuilt : ∃ index, buildIndexSection pairEntries = .ok index ∧
      index.length = 1112 := by
    unfold buildIndexSection
    rw [sorted]
    exact exists_ok_of_map_toOption (by decide +kernel)
  have filterBuilt : ∃ bytes, buildFilterSection identityHashing pairEntries =
      .ok bytes ∧ bytes.length = 41 := by
    unfold buildFilterSection
    rw [sortedHeads]
    exact exists_ok_of_map_toOption (by decide +kernel)
  obtain ⟨index, indexEq, indexLength⟩ := indexBuilt
  obtain ⟨bytes, filterEq, filterLength⟩ := filterBuilt
  unfold buildFooter
  rw [if_neg (by simp [pairEntries]), indexEq, filterEq]
  simp only [bind, Except.bind, indexLength]
  rw [if_pos (by omega)]
  refine ⟨_, rfl, ?_⟩
  simp [trailerFields, indexLength, filterLength]

/-- The footer of two entries behind an empty body finds the second of them
and not a third key. -/
theorem parseFooter_buildFooter_pairEntries :
    ∃ footer view,
      parseFooter (fun _ => 0) (headerAt 2 ++ [] ++ footer) = .ok view ∧
      view.lookup (headerAt 2 ++ [] ++ footer) (repeatedKey 7) =
        .ok (some (8, 3)) ∧
      FooterView.has identityHashing view (headerAt 2 ++ [] ++ footer)
        (repeatedKey 9) = .ok false := by
  obtain ⟨footer, built, _⟩ := exists_buildFooter_pairEntries (fun _ => 0)
    (show (headerAt 2 ++ []).length < 2 ^ 63 by decide)
  obtain ⟨view, parsed, _, found⟩ := parseFooter_buildFooter (fun _ => 0)
    identityHashing 2 (by decide) [] pairEntries (by decide) footer built
  refine ⟨footer, view, parsed, ?_, ?_⟩
  · rw [(found (repeatedKey 7)).1]
    rfl
  · rw [(found (repeatedKey 9)).2]
    rfl

end AmberStore.Packstore

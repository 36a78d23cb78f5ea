import AmberStore.Packstore.FooterSpec
import AmberStore.Packstore.Verify

/-!
# A clean scrub means every read is right

The walk of the body is followed by a comparison of the index it gives with the
stored one.  So the stored rows are the records of the body, in key order, and
the search of the bucket of a key finds one of the key's records if there is
any.  The scrub looked at that very record.
-/

open ByteString Checked List

namespace AmberStore.Packstore

open Amberpack

namespace SealedSegment

variable {primitives : Primitives}
variable (segment : SealedSegment primitives.crc32c)

/-- A record of the body, found by following the records from an offset. -/
inductive RecordFrom : (start off : Nat) → Record → Prop
  | here {start : Nat} {record : Record}
      (parsed : parseRecord primitives.crc32c
        (slice segment.mm start segment.fv.bodyLen) = .ok record) :
      RecordFrom start start record
  | later {start off : Nat} {first record : Record}
      (parsed : parseRecord primitives.crc32c
        (slice segment.mm start segment.fv.bodyLen) = .ok first)
      (rest : RecordFrom (start + first.length) off record) :
      RecordFrom start off record

/-- A record of the body. -/
def BodyRecord (off : Nat) (record : Record) : Prop :=
  segment.RecordFrom 8 off record

/-- Some record of the body carries a key. -/
def Carries (key : Key) : Prop :=
  ∃ off record, segment.BodyRecord off record ∧ record.key = key

/-- The index entry of a record. -/
def entryOf (off : Nat) (record : Record) : IndexEntry :=
  ⟨record.key, UInt64.ofNat off, UInt32.ofNat record.slen⟩

/-! ## One record -/

/-- What a scrubbed record passed. -/
structure Scrubbed (off : Nat) (record : Record) : Prop where
  parsed : parseRecord primitives.crc32c
    (slice segment.mm off segment.fv.bodyLen) = .ok record
  allowed : versionFor record.key record.flags ≤ segment.version
  object : ∃ payload, decodePayload primitives.codecs record.flags record.ulen
    (slice segment.mm (off + recHeaderSize)
      (off + recHeaderSize + record.slen)) = .ok payload ∧
    verifyObject primitives record.key payload = .ok ()
  filtered : BinaryFuse.contains primitives.hashing segment.fv.filter
    (filterKey record.key) = .ok true

theorem scrubbed_of_scrubRecord
    (scrubbed : segment.scrubRecord primitives off = .ok record) :
    segment.Scrubbed off record := by
  unfold scrubRecord at scrubbed
  simp only [errorIf_eq_ok_iff, bind_eq_ok_iff, mapError_eq_ok_iff] at scrubbed
  obtain ⟨parsedRecord, parsed, allowed, payload, decoded, _, verified, maybe,
    contained, isThere, same⟩ := scrubbed
  cases same
  cases maybe with
  | false => simp at isThere
  | true =>
    exact ⟨parsed, UInt8.not_lt.mp allowed, ⟨payload, decoded, verified⟩,
      contained⟩

section Scrubbed

variable {segment}
variable {off : Nat} {record : Record}

theorem Scrubbed.record_le
    (scrubbed : segment.Scrubbed off record) :
    off + record.length ≤ segment.fv.bodyLen := by
  have positive := record.length_pos
  have within := (fields_of_parseRecord _ scrubbed.parsed).1
  rw [slice_length] at within
  omega

theorem Scrubbed.slen_lt
    (scrubbed : segment.Scrubbed off record) :
    record.slen < 2 ^ 32 := by
  rw [(fields_of_parseRecord _ scrubbed.parsed).2.2.2]
  exact readBe_lt _ 38 4

/-- A read of a scrubbed record's row gives the payload the scrub saw. -/
theorem Scrubbed.readRow
    (scrubbed : segment.Scrubbed off record) (afterHeader : 8 ≤ off) :
    ∃ payload, segment.readRow primitives (entryOf off record).off
        (entryOf off record).slen = .ok payload ∧
      verifyObject primitives record.key payload = .ok () := by
  obtain ⟨_, flagsEq, ulenEq, _⟩ := fields_of_parseRecord _ scrubbed.parsed
  obtain ⟨payload, decoded, verified⟩ := scrubbed.object
  have layout := footerLayout_of_parseFooter segment.parsed
  have within := scrubbed.record_le
  have fits := layout.bodyLen_lt
  unfold Record.length recHeaderSize at within
  have offEq : (entryOf off record).off.toNat = off :=
    UInt64.toNat_ofNat_of_lt' (by change off < 2 ^ 64; omega)
  have slenEq : (entryOf off record).slen.toNat = record.slen :=
    UInt32.toNat_ofNat_of_lt' scrubbed.slen_lt
  refine ⟨payload, ?_, verified⟩
  -- Both the row and the scrub read the header from the same bytes.
  have header (width : Nat) (enough : 46 ≤ width) (at_ : Nat)
      (inside : at_ + 4 ≤ 46) :
      byteAt ((segment.mm.drop off).take width) at_ =
          byteAt segment.mm (off + at_) ∧
        readBe ((segment.mm.drop off).take width) at_ 4 =
          readBe segment.mm (off + at_) 4 := by
    rw [byteAt_take _ (by omega), byteAt_drop, readBe_take _ (by omega),
      readBe_drop]
    exact ⟨rfl, rfl⟩
  unfold slice at flagsEq ulenEq
  rw [(header _ (by omega) 33 (by omega)).1] at flagsEq
  rw [(header _ (by omega) 34 (by omega)).2] at ulenEq
  unfold SealedSegment.readRow recordSpan
  rw [offEq, slenEq, if_neg (by unfold recHeaderSize; omega), ok_bind]
  simp only [slice, Nat.add_sub_cancel_left] at decoded ⊢
  rw [(header _ (by decide) 33 (by omega)).1,
    (header _ (by decide) 34 (by omega)).2, ← flagsEq, ← ulenEq, decoded]
  rfl

end Scrubbed

/-! ## The walk -/

theorem recordFrom_le
    (isRecord : segment.RecordFrom start off record) :
    start ≤ off := by
  induction isRecord with
  | here parsed => exact le_rfl
  | later parsed rest ih => omega

theorem not_recordFrom_end
    (atEnd : segment.fv.bodyLen ≤ start) :
    ¬segment.RecordFrom start off record := by
  have empty : slice segment.mm start segment.fv.bodyLen = [] := by
    unfold slice
    rw [Nat.sub_eq_zero_of_le atEnd, take_zero]
  have unparsed : ∀ record, parseRecord primitives.crc32c
      (slice segment.mm start segment.fv.bodyLen) ≠ .ok record := by
    intro record parsed
    have within := (fields_of_parseRecord _ parsed).1
    have positive := record.length_pos
    rw [empty, length_nil] at within
    omega
  intro isRecord
  cases isRecord with
  | here parsed | later parsed rest => exact unparsed _ parsed

/-- A walk that reaches the end of the body lists exactly its records, all
scrubbed. -/
theorem walk_spec
    (walked : segment.walk primitives cancel fuel start =
      .ok (segment.fv.bodyLen, entries)) :
    (∀ off record, segment.RecordFrom start off record →
      segment.Scrubbed off record ∧ entryOf off record ∈ entries) ∧
    ∀ entry ∈ entries, ∃ off record,
      segment.RecordFrom start off record ∧ entry = entryOf off record := by
  have atEnd (off : Nat) (record : Record) :
      ¬segment.RecordFrom segment.fv.bodyLen off record :=
    segment.not_recordFrom_end le_rfl
  induction fuel generalizing start entries with
  | zero =>
    cases walked
    exact ⟨fun off record isRecord => absurd isRecord (atEnd off record), nofun⟩
  | succ fuel ih =>
    unfold walk at walked
    split at walked
    case isFalse =>
      obtain ⟨rfl, rfl⟩ := Prod.mk.inj (Except.ok.inj walked)
      exact ⟨fun off record isRecord => absurd isRecord (atEnd off record),
        nofun⟩
    case isTrue =>
      simp only [errorIf_eq_ok_iff, bind_eq_ok_iff] at walked
      obtain ⟨_, first, scrubbed, rest, walkedRest, same⟩ := walked
      obtain ⟨endEq, rfl⟩ := Prod.mk.inj (Except.ok.inj same)
      have firstScrubbed := segment.scrubbed_of_scrubRecord scrubbed
      have parsedFirst := firstScrubbed.parsed
      rw [Nat.add_assoc, ← Record.length] at walkedRest
      have restEq : rest = (segment.fv.bodyLen, rest.2) := Prod.ext endEq rfl
      rw [restEq] at walkedRest
      obtain ⟨listed, isListed⟩ := ih walkedRest
      constructor
      · intro off record isRecord
        cases isRecord with
        | here parsed =>
          rw [parsedFirst] at parsed
          cases parsed
          exact ⟨firstScrubbed, mem_cons_self⟩
        | later parsed isLater =>
          rw [parsedFirst] at parsed
          cases parsed
          obtain ⟨laterScrubbed, member⟩ := listed off record isLater
          exact ⟨laterScrubbed, mem_cons_of_mem _ member⟩
      · intro entry member
        rcases mem_cons.mp member with rfl | inRest
        · exact ⟨start, first, .here parsedFirst, rfl⟩
        · obtain ⟨off, record, isRecord, entryEq⟩ := isListed entry inRest
          exact ⟨off, record, .later parsedFirst isRecord, entryEq⟩

end SealedSegment

/-! ## The index -/

/-- The rows of a stored index section that equals a rebuilt one are the rows
of the rebuilt entries, and its fanout counts them. -/
theorem isFanout_of_indexSection
    (rebuilt : indexSection sorted = .ok stored)
    (parsed : parseIndexSection stored sorted.length = .ok fanout) :
    IsFanout sorted fanout ∧
      stored.drop fanoutSize = sorted.flatMap rowBytes := by
  obtain ⟨builtFanout, isFanout, rfl⟩ := indexSection_eq_ok rebuilt
  rw [isFanout.parseIndexSection_eq] at parsed
  cases parsed
  refine ⟨isFanout, drop_left' ?_⟩
  rw [flatMap_length _ (beBytes_length 4), isFanout.length_eq]

theorem UnstableSort.keysSorted
    (unstable : UnstableSort) (entries : List IndexEntry) :
    KeysSorted (unstable.sort entries) := by
  refine (unstable.sorted entries).imp ?_
  intro left right notSmaller
  rw [Key.bytes_lt_iff] at notSmaller
  exact Nat.le_of_not_lt notSmaller

namespace SealedSegment

variable {primitives : Primitives}
variable (segment : SealedSegment primitives.crc32c)

/-- What a clean scrub establishes: the entries of the body's records are the
rows of the index. -/
theorem exists_entries_of_verify
    (verified : segment.verify primitives unstable cancel = .ok ()) :
    ∃ entries : List IndexEntry,
      segment.walk primitives cancel segment.fv.bodyLen 8 =
        .ok (segment.fv.bodyLen, entries) ∧
      IsFanout (unstable.sort entries) segment.fv.fanout ∧
      slice segment.mm segment.fv.entriesOff
          (segment.fv.entriesOff + segment.fv.entriesLen) =
        (unstable.sort entries).flatMap rowBytes := by
  unfold verify at verified
  obtain ⟨⟨off, entries⟩, walked, rest⟩ := bind_eq_ok_iff.mp verified
  simp only [errorIf_eq_ok_iff, bind_eq_ok_iff,
    mapError_eq_ok_iff, ne_eq, not_not, and_true] at rest
  obtain ⟨rfl, counted, rebuilt, built, rfl⟩ := rest
  have layout := footerLayout_of_parseFooter segment.parsed
  have parsedIndex := layout.index
  rw [← counted, ← (unstable.perm entries).length_eq] at parsedIndex
  obtain ⟨isFanout, rows⟩ := isFanout_of_indexSection built parsedIndex
  refine ⟨entries, walked, isFanout, ?_⟩
  have longer : fanoutSize ≤ segment.fv.indexLen := by
    rw [layout.indexLen_eq]
    exact Nat.le_add_right _ _
  rw [layout.entriesOff_eq, layout.entriesLen_eq, ← rows, drop_slice,
    Nat.add_assoc, Nat.add_sub_cancel' longer]

/-- The filter of a parsed segment answers every query. -/
theorem exists_contains (key : Key) :
    ∃ maybe, BinaryFuse.contains primitives.hashing segment.fv.filter
      (filterKey key) = .ok maybe := by
  obtain ⟨bits, count, shaped⟩ :=
    (footerLayout_of_parseFooter segment.parsed).shaped
  exact ⟨_, shaped.contains_eq primitives.hashing (filterKey key)⟩

section Reads

/-- A key that no record of the body carries is not found. -/
theorem reads_of_not_carries
    (isFanout : IsFanout sorted segment.fv.fanout)
    (rows : slice segment.mm segment.fv.entriesOff
      (segment.fv.entriesOff + segment.fv.entriesLen) = sorted.flatMap rowBytes)
    (isListed : ∀ entry ∈ sorted, ∃ off record,
      segment.BodyRecord off record ∧ entry = entryOf off record)
    (notCarried : ¬segment.Carries key) :
    segment.has primitives key = .ok false ∧
      segment.get primitives key = .ok none := by
  obtain ⟨maybe, contained⟩ := segment.exists_contains key
  have missed : segment.fv.lookup segment.mm key = .ok none := by
    unfold FooterView.lookup
    rw [rows]
    refine isFanout.searchIndex_of_not_mem ?_
    intro entry member isKey
    obtain ⟨off, record, isRecord, rfl⟩ := isListed entry member
    exact notCarried ⟨off, record, isRecord, isKey⟩
  unfold has FooterView.has SealedSegment.get
  rw [contained]
  cases maybe with
  | false => exact ⟨rfl, rfl⟩
  | true => simp [missed]

/-- A key that some record of the body carries is found, and what is read is
the key's object. -/
theorem reads_of_carries
    (isFanout : IsFanout sorted segment.fv.fanout)
    (ordered : KeysSorted sorted)
    (rows : slice segment.mm segment.fv.entriesOff
      (segment.fv.entriesOff + segment.fv.entriesLen) = sorted.flatMap rowBytes)
    (listed : ∀ off record, segment.BodyRecord off record →
      segment.Scrubbed off record ∧ entryOf off record ∈ sorted)
    (isListed : ∀ entry ∈ sorted, ∃ off record,
      segment.BodyRecord off record ∧ entry = entryOf off record)
    (carried : segment.Carries key) :
    segment.has primitives key = .ok true ∧
      ∃ payload, segment.get primitives key = .ok (some payload) ∧
        verifyObject primitives key payload = .ok () := by
  obtain ⟨off, record, isRecord, rfl⟩ := carried
  obtain ⟨scrubbed, member⟩ := listed off record isRecord
  obtain ⟨found, foundMember, sameKey, searched⟩ :=
    isFanout.exists_searchIndex_of_mem ordered member
  -- The row may be of another record of the same key.
  obtain ⟨foundOff, foundRecord, isFound, rfl⟩ := isListed found foundMember
  obtain ⟨foundScrubbed, _⟩ := listed foundOff foundRecord isFound
  obtain ⟨payload, read, verified⟩ :=
    foundScrubbed.readRow (segment.recordFrom_le isFound)
  have hit : segment.fv.lookup segment.mm record.key =
      .ok (some ((entryOf foundOff foundRecord).off,
        (entryOf foundOff foundRecord).slen)) := by
    unfold FooterView.lookup
    rw [rows]
    exact searched
  have isKey : foundRecord.key = record.key := sameKey
  rw [isKey] at verified
  unfold has FooterView.has SealedSegment.get
  rw [scrubbed.filtered]
  refine ⟨by simp [hit], payload, ?_, verified⟩
  simp [hit, read]

end Reads

/-- Reads of a segment that was scrubbed clean are right: a key is found
exactly when some record of the body carries it, what is read is the key's
object, and every record is one that the segment's version allows. -/
theorem reads_right_of_verify
    (unstable : UnstableSort) (cancel : Nat → Bool)
    (verified : segment.verify primitives unstable cancel = .ok ()) :
    (∀ key,
      (segment.has primitives key = .ok true ↔ segment.Carries key) ∧
      (segment.Carries key →
        ∃ payload, segment.get primitives key = .ok (some payload) ∧
          verifyObject primitives key payload = .ok ()) ∧
      (¬segment.Carries key →
        segment.has primitives key = .ok false ∧
          segment.get primitives key = .ok none)) ∧
    ∀ off record, segment.BodyRecord off record →
      versionFor record.key record.flags ≤ segment.version := by
  obtain ⟨entries, walked, isFanout, rows⟩ :=
    segment.exists_entries_of_verify verified
  obtain ⟨listed, isListed⟩ := segment.walk_spec walked
  have sameMembers (entry : IndexEntry) :=
    (unstable.perm entries).mem_iff (a := entry)
  refine ⟨?_, fun off record isRecord => (listed off record isRecord).1.allowed⟩
  intro key
  have isRow : ∀ entry ∈ unstable.sort entries, ∃ off record,
      segment.BodyRecord off record ∧ entry = entryOf off record :=
    fun entry member => isListed entry ((sameMembers entry).mp member)
  have absent (notCarried : ¬segment.Carries key) :=
    segment.reads_of_not_carries isFanout rows isRow notCarried
  have present (carried : segment.Carries key) :=
    segment.reads_of_carries isFanout (unstable.keysSorted entries) rows
      (fun off record isRecord => ⟨(listed off record isRecord).1,
        (sameMembers _).mpr (listed off record isRecord).2⟩) isRow carried
  refine ⟨⟨?_, fun carried => (present carried).1⟩,
    fun carried => (present carried).2, absent⟩
  intro found
  by_contra notCarried
  rw [(absent notCarried).1] at found
  cases found

/-! ## A small segment -/

/-- The order of the index. -/
def KeyLe (left right : IndexEntry) : Prop :=
  ¬right.k.bytes < left.k.bytes

instance instDecidableRelKeyLe : DecidableRel KeyLe := fun left right =>
  inferInstanceAs (Decidable (¬right.k.bytes < left.k.bytes))

instance instTotalKeyLe : Std.Total KeyLe where
  total left right := by
    simp only [KeyLe, Key.bytes_lt_iff]
    omega

instance instIsTransKeyLe : IsTrans IndexEntry KeyLe where
  trans first second third := by
    simp only [KeyLe, Key.bytes_lt_iff]
    omega

/-- Insertion into key order. -/
def insertionSort : UnstableSort where
  sort := List.insertionSort KeyLe
  perm := perm_insertionSort KeyLe
  sorted := pairwise_insertionSort KeyLe

/-- Constant checksums and digests, and a filter that holds everything. -/
def constantPrimitives : Primitives where
  crc32c _ := 0
  hashing :=
    { mix := fun _ _ => 0
      fingerprint := fun _ => 0
      geometry := identityHashing.geometry }
  blake3 _ := ⟨List.replicate 32 1, length_replicate⟩
  sha1 _ := none
  codecs := ⟨fun _ _ => .error "", fun _ _ => .error ""⟩

/-- The key of a blob of two bytes. -/
def sampleKey : Key :=
  Key.newFromHash .blob 2 (constantPrimitives.blake3 [])

/-- A sealed segment of one record. -/
def sampleImage : Bytes :=
  headerAt 2 ++ layout sampleKey codecRaw 2 0 [3, 4] ++ [tagSeal] ++
    (0 :: List.replicate 255 1).flatMap (beBytes 4) ++
    rowBytes ⟨sampleKey, 8, 2⟩ ++
    BinaryFuse.sectionBytes ⟨0, 1, 0, 1, 1, [0, 0, 0]⟩ ++
    trailerFields 56 1068 35 1 ++ [0, 0, 0, 0, 0, 0, 0, 0] ++ magicTrailer

/-- The segment of one record scrubs clean, and the record's object is read
back. -/
theorem reads_right_sampleImage :
    ∃ segment, open_ constantPrimitives.crc32c sampleImage = .ok segment ∧
      segment.verify constantPrimitives insertionSort (fun _ => false) =
        .ok () ∧
      ∃ payload, segment.get constantPrimitives sampleKey =
          .ok (some payload) ∧
        verifyObject constantPrimitives sampleKey payload = .ok () := by
  have evaluated :
      (open_ constantPrimitives.crc32c sampleImage).toOption.map (fun segment =>
        decide (segment.verify constantPrimitives insertionSort
            (fun _ => false) = .ok () ∧
          segment.has constantPrimitives sampleKey = .ok true)) =
        some true := by
    decide +kernel
  obtain ⟨segment, opened, holds⟩ := exists_ok_of_map_toOption evaluated
  obtain ⟨verified, hasKey⟩ := of_decide_eq_true holds
  have reads := segment.reads_right_of_verify insertionSort (fun _ => false)
    verified
  obtain ⟨found, present, _⟩ := reads.1 sampleKey
  exact ⟨segment, opened, verified, present (found.mp hasKey)⟩

end SealedSegment

end AmberStore.Packstore

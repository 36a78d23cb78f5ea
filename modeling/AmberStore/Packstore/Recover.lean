import AmberStore.Packstore.FooterSpec
import AmberStore.Packstore.Log

/-!
# Active-segment recovery by a scan

A scan accepts records until the first bytes that are not one.  Before that it
looks for a footer at the end of the file, which a crash can leave between a
seal and its rename, and walks the records to tell such a footer from a
payload that spells one.
-/

open ByteString List

namespace AmberStore.Packstore

open Amberpack

/-- The outcome of scanning an active segment file. -/
structure ScanResult where
  /-- The valid length; the caller truncates to this. -/
  size : Nat
  /-- The records that lie wholly inside the valid length. -/
  index : Index
  sealed : Bool

section Scan

variable (crc32c : Bytes → UInt32)

/-- The record walk of the scan; each step passes a whole record, so the
length of the file is fuel enough. -/
def scanFrom (bytes : Bytes) : (fuel off : Nat) → Index → Nat × Index
  | 0, off, index => (off, index)
  | fuel + 1, off, index =>
    if off < bytes.length then
      if byteAt bytes off = tagSeal then
        (off, index)
      else
        match parseRecord crc32c (bytes.drop off) with
        | .error _ => (off, index)
        | .ok record =>
          scanFrom bytes fuel (off + record.length)
            (index.insert record.key (locOf off record))
    else
      (off, index)

/-- The walk of `insideRecord` from an offset. -/
def insideFrom (bytes : Bytes) (bodyLen : Nat) : (fuel off : Nat) → Bool
  | 0, off => off > bodyLen
  | fuel + 1, off =>
    if off < bodyLen then
      match parseRecord crc32c (bytes.drop off) with
      | .error _ => false
      | .ok record => insideFrom bytes bodyLen fuel (off + record.length)
    else
      off > bodyLen

/-- Whether a footer that starts at `bodyLen` lies inside a record, which makes
it that record's payload. -/
def insideRecord (bytes : Bytes) (bodyLen : Nat) : Bool :=
  insideFrom crc32c bytes bodyLen bytes.length magicHeader.length

/-- Whether a file carries a complete footer that is not a payload. -/
def carriesFooter (bytes : Bytes) : Bool :=
  match parseFooter crc32c bytes with
  | .error _ => false
  | .ok view => ¬insideRecord crc32c bytes view.bodyLen

/-- Finds the boundary of valid data in an active segment file. -/
def scanActive (bytes : Bytes) : Except FooterError ScanResult := do
  checkVersion bytes
  if bytes.length < magicHeader.length ∨
      ¬isHeader (bytes.take magicHeader.length) then
    .ok ⟨0, .empty, false⟩
  else if carriesFooter crc32c bytes then
    .ok ⟨bytes.length, .empty, true⟩
  else
    let (off, index) :=
      scanFrom crc32c bytes bytes.length magicHeader.length .empty
    .ok ⟨off, index, false⟩

/-! ## The walks over a log -/

/-- Bytes that start like a seal do not start with a record. -/
theorem noRecord_of_tagSeal
    (seals : byteAt bytes 0 = tagSeal) :
    NoRecord crc32c bytes := by
  intro record parsed
  obtain ⟨stored, _, split⟩ := StoredRecord.of_parseRecord_eq_ok crc32c parsed
  rw [split, StoredRecord.byteAt_encode_append] at seals
  exact absurd seals (by decide)

/-- A file has a log at an offset, and other bytes behind it. -/
structure LogAt (bytes : Bytes) (off : Nat) (records : List StoredRecord)
    (rest : Bytes) : Prop where
  inside : off ≤ bytes.length
  drop_eq : bytes.drop off = logBytes crc32c records ++ rest

namespace LogAt

variable {crc32c : Bytes → UInt32} {bytes rest : Bytes} {off fuel : Nat}
  {records : List StoredRecord}

theorem parse_nil
    (log : LogAt crc32c bytes off [] rest) (noMore : NoRecord crc32c rest) :
    ∃ failure, parseRecord crc32c (bytes.drop off) = .error failure := by
  cases parsed : parseRecord crc32c (bytes.drop off) with
  | error failure => exact ⟨failure, rfl⟩
  | ok record =>
    rw [log.drop_eq] at parsed
    exact absurd parsed (noMore record)

/-- What stands where a log has a record. -/
theorem cons
    (log : LogAt crc32c bytes off (stored :: records) rest) :
    off < bytes.length ∧ byteAt bytes off = tagChunk ∧
      parseRecord crc32c (bytes.drop off) = .ok stored.header ∧
      LogAt crc32c bytes (off + stored.header.length) records rest := by
  have inside := log.inside
  have isFront := log.drop_eq
  rw [logBytes_cons, append_assoc] at isFront
  have sized := congrArg List.length isFront
  simp only [length_drop, length_append, StoredRecord.encode_length] at sized
  have positive : 0 < stored.header.length := by
    unfold Record.length recHeaderSize
    omega
  refine ⟨by omega, ?_, ?_, by omega, ?_⟩
  · rw [← Nat.add_zero off, ← byteAt_drop, isFront,
      StoredRecord.byteAt_encode_append]
  · rw [isFront, StoredRecord.parseRecord_encode_append]
  · rw [← drop_drop, isFront, ← StoredRecord.encode_length crc32c, drop_left]

/-- The scan passes the records of a log, and stops where no record
starts. -/
theorem scanFrom_eq
    (log : LogAt crc32c bytes off records rest)
    (noMore : NoRecord crc32c rest) (enough : records.length ≤ fuel)
    (index : Index) :
    scanFrom crc32c bytes fuel off index =
      (off + (logBytes crc32c records).length,
        (indexFrom off records).atop index) := by
  induction records generalizing off fuel index with
  | nil =>
    obtain ⟨failure, stops⟩ := log.parse_nil noMore
    rw [indexFrom, Index.empty_atop]
    cases fuel with
    | zero => rfl
    | succ fuel =>
      rw [scanFrom, stops, ite_self, ite_self]
      rfl
  | cons stored records ih =>
    obtain ⟨inside, isChunk, parsed, next⟩ := log.cons
    cases fuel with
    | zero => simp at enough
    | succ fuel =>
      rw [scanFrom, if_pos inside, if_neg (by rw [isChunk]; decide), parsed,
        indexFrom, Index.atop_assoc, ← Index.insert_eq, length_logBytes_cons,
        ← Nat.add_assoc]
      exact ih next (Nat.le_of_succ_le_succ enough) _

/-- The walk passes the records that end before the footer starts; it finds
the footer inside a record unless it starts where a record would. -/
theorem insideFrom_within
    (log : LogAt crc32c bytes off records rest)
    (enough : records.length ≤ fuel) (fromStart : off ≤ bodyLen)
    (within : bodyLen < off + (logBytes crc32c records).length)
    (notRecord : byteAt bytes bodyLen ≠ tagChunk) :
    insideFrom crc32c bytes bodyLen fuel off = true := by
  induction records generalizing off fuel with
  | nil => simp at within; omega
  | cons stored records ih =>
    obtain ⟨-, isChunk, parsed, next⟩ := log.cons
    cases fuel with
    | zero => simp at enough
    | succ fuel =>
      have strictly : off < bodyLen := by
        refine Nat.lt_of_le_of_ne fromStart ?_
        rintro rfl
        exact notRecord isChunk
      rw [length_logBytes_cons, ← Nat.add_assoc] at within
      rw [insideFrom, if_pos strictly, parsed]
      by_cases passed : off + stored.header.length ≤ bodyLen
      · exact ih next (Nat.le_of_succ_le_succ enough) passed within
      · cases fuel with
        | zero => simpa [insideFrom] using passed
        | succ fuel =>
          dsimp only
          rw [insideFrom, if_neg (by omega)]
          exact decide_eq_true (by omega)

/-- The walk gives no answer for a footer behind bytes that are no record. -/
theorem insideFrom_past
    (log : LogAt crc32c bytes off records rest)
    (noMore : NoRecord crc32c rest) (enough : records.length < fuel)
    (past : off + (logBytes crc32c records).length ≤ bodyLen) :
    insideFrom crc32c bytes bodyLen fuel off = false := by
  induction records generalizing off fuel with
  | nil =>
    obtain ⟨failure, stops⟩ := log.parse_nil noMore
    cases fuel with
    | zero => simp at enough
    | succ fuel =>
      rw [insideFrom, stops]
      split
      · rfl
      · exact decide_eq_false (Nat.not_lt.mpr past)
  | cons stored records ih =>
    obtain ⟨-, -, parsed, next⟩ := log.cons
    cases fuel with
    | zero => simp at enough
    | succ fuel =>
      rw [length_logBytes_cons, ← Nat.add_assoc] at past
      have strictly : off < bodyLen := by
        unfold Record.length recHeaderSize at past
        omega
      rw [insideFrom, if_pos strictly, parsed]
      exact ih next (Nat.lt_of_succ_lt_succ enough) past

end LogAt

/-! ## The scan of a segment -/

/-- A segment whose log is followed by bytes no record starts. -/
def segment (version : UInt8) (records : List StoredRecord) (rest : Bytes) :
    Bytes :=
  headerAt version ++ (logBytes crc32c records ++ rest)

/-- Where the log of a segment ends. -/
def logEnd (records : List StoredRecord) : Nat :=
  magicHeader.length + (logBytes crc32c records).length

/-- A footer is accepted whose start lies at or behind an offset. -/
def SealsFrom (bytes : Bytes) (start : Nat) : Prop :=
  ∃ view, parseFooter crc32c bytes = .ok view ∧ start ≤ view.bodyLen

theorem length_segment
    (version : UInt8) (records : List StoredRecord) (rest : Bytes) :
    (segment crc32c version records rest).length =
      logEnd crc32c records + rest.length := by
  simp only [segment, logEnd, length_append, headerAt_length,
    length_cons, length_nil]
  omega

/-- A segment has its log behind its header. -/
theorem logAt_segment
    (version : UInt8) (records : List StoredRecord) (rest : Bytes) :
    LogAt crc32c (segment crc32c version records rest) magicHeader.length
      records rest := by
  refine ⟨?_, drop_left' (headerAt_length version)⟩
  rw [length_segment, logEnd, Nat.add_assoc]
  exact Nat.le_add_right _ _

theorem isHeader_segment
    (reads : readsVersion version = true)
    (records : List StoredRecord) (rest : Bytes) :
    isHeader ((segment crc32c version records rest).take 8) = true := by
  rw [segment, take_append_of_le_length (by simp),
    take_of_length_le (by simp), isHeader_headerAt, reads]

/-- A file carries a footer exactly when one is accepted that starts where the
log has ended: one that starts earlier is a payload. -/
theorem carriesFooter_segment_iff
    (version : UInt8) (records : List StoredRecord)
    (noMore : NoRecord crc32c rest) :
    carriesFooter crc32c (segment crc32c version records rest) = true ↔
      SealsFrom crc32c (segment crc32c version records rest)
        (logEnd crc32c records) := by
  have fewRecords := length_le_logBytes crc32c records
  have total := length_segment crc32c version records rest
  have log := logAt_segment crc32c version records rest
  have positive : 0 < magicHeader.length := by decide
  unfold logEnd at total
  unfold carriesFooter
  cases parsed : parseFooter crc32c (segment crc32c version records rest) with
  | error failure =>
    refine iff_of_false (by simp) ?_
    rintro ⟨view, other, _⟩
    rw [parsed] at other
    cases other
  | ok view =>
    have looks := looksSealed_of_parseFooter parsed
    have only : SealsFrom crc32c (segment crc32c version records rest)
        (logEnd crc32c records) ↔ logEnd crc32c records ≤ view.bodyLen := by
      refine ⟨?_, fun past => ⟨view, parsed, past⟩⟩
      rintro ⟨other, otherParsed, past⟩
      rw [parsed, Except.ok.injEq] at otherParsed
      rwa [otherParsed]
    rw [only]
    simp only [Bool.not_eq_true, decide_eq_true_eq]
    constructor
    · intro outside
      by_contra within
      have inside := log.insideFrom_within
        (show records.length ≤
          (segment crc32c version records rest).length by omega)
        looks.header_le (Nat.lt_of_not_le within) (by
          rw [looks.seals]
          decide)
      rw [insideRecord, inside] at outside
      cases outside
    · intro past
      exact log.insideFrom_past noMore (by omega) past

/-- A scan passes as sealed a file that carries a footer, and otherwise finds
the log. -/
theorem scanActive_segment
    (reads : readsVersion version = true)
    (records : List StoredRecord)
    (noMore : NoRecord crc32c rest) :
    scanActive crc32c (segment crc32c version records rest) =
      if carriesFooter crc32c (segment crc32c version records rest) then
        .ok ⟨(segment crc32c version records rest).length, .empty, true⟩
      else
        .ok ⟨logEnd crc32c records,
          indexFrom magicHeader.length records, false⟩ := by
  have isSegment := isHeader_segment crc32c reads records rest
  have total := length_segment crc32c version records rest
  have fewRecords := length_le_logBytes crc32c records
  have longEnough : ¬(segment crc32c version records rest).length <
      magicHeader.length := by
    rw [total, logEnd]
    omega
  have scanned := (logAt_segment crc32c version records rest).scanFrom_eq
    noMore (show records.length ≤ (segment crc32c version records rest).length
      by rw [total, logEnd]; omega) .empty
  rw [Index.atop_empty] at scanned
  unfold scanActive
  rw [checkVersion_of_isHeader isSegment]
  simp only [bind, Except.bind]
  rw [if_neg (by
    rintro (short | notHeader)
    · exact longEnough short
    · exact notHeader isSegment), scanned]
  rfl

/-! ## Torn appends -/

/-- A torn record starts like a record. -/
theorem byteAt_torn
    {stored : StoredRecord}
    (isPrefix : torn <+: stored.encode crc32c) (nonempty : torn ≠ []) :
    byteAt torn 0 = tagChunk := by
  obtain ⟨missing, whole⟩ := isPrefix
  have first := StoredRecord.byteAt_encode_append crc32c stored []
  rw [append_nil, ← whole,
    byteAt_append_left _ _ (length_pos_of_ne_nil nonempty)] at first
  exact first

/-- No footer starts where the torn record does. -/
theorem sealsFrom_torn_iff
    (version : UInt8) (records : List StoredRecord) {stored : StoredRecord}
    (isPrefix : torn <+: stored.encode crc32c) :
    SealsFrom crc32c (segment crc32c version records torn)
        (logEnd crc32c records) ↔
      ∃ view, parseFooter crc32c (segment crc32c version records torn) =
        .ok view ∧ logEnd crc32c records < view.bodyLen := by
  constructor
  · rintro ⟨view, parsed, past⟩
    refine ⟨view, parsed, Nat.lt_of_le_of_ne past ?_⟩
    intro atEnd
    have looks := looksSealed_of_parseFooter parsed
    have total := length_segment crc32c version records torn
    have inside := looks.lt_length
    have nonempty : torn ≠ [] := by
      rintro rfl
      rw [length_nil] at total
      omega
    have startsTorn : byteAt (segment crc32c version records torn)
        (logEnd crc32c records) = byteAt torn 0 := by
      unfold segment logEnd
      change byteAt _ ((headerAt version).length + _) = _
      rw [byteAt_append_right _ _ (Nat.le_add_right _ _),
        Nat.add_sub_cancel_left, byteAt_append_right _ _ le_rfl,
        Nat.sub_self]
    have seals := looks.seals
    rw [← atEnd, startsTorn, byteAt_torn crc32c isPrefix nonempty] at seals
    exact absurd seals (by decide)
  · rintro ⟨view, parsed, past⟩
    exact ⟨view, parsed, Nat.le_of_lt past⟩

end Scan

/-- After a torn append the scan finds exactly the whole records, unless the
torn bytes end in a footer that fits where it lies. -/
theorem scanActive_torn_iff
    (crc32c : Bytes → UInt32) (version : UInt8)
    (reads : readsVersion version = true)
    (records : List StoredRecord) (next : StoredRecord) (torn : Bytes)
    (isPrefix : torn <+: next.encode crc32c)
    (strict : torn ≠ next.encode crc32c) :
    scanActive crc32c (segment crc32c version records torn) =
        .ok ⟨logEnd crc32c records,
          indexFrom magicHeader.length records, false⟩ ↔
      ¬∃ view, parseFooter crc32c (segment crc32c version records torn) =
        .ok view ∧ logEnd crc32c records < view.bodyLen := by
  have noMore : NoRecord crc32c torn := by
    obtain ⟨missing, whole⟩ := isPrefix
    refine StoredRecord.parseRecord_torn crc32c next whole ?_
    rintro rfl
    rw [append_nil] at whole
    exact strict whole
  rw [scanActive_segment crc32c reads records noMore,
    ← sealsFrom_torn_iff crc32c version records isPrefix,
    ← carriesFooter_segment_iff crc32c version records noMore]
  split
  case isTrue carries | isFalse carries => simp [carries]

/-- A record of one key, with a payload of two bytes. -/
def shortRecord (byte : UInt8) (canonical : (repeatedKey byte).Canonical) :
    StoredRecord :=
  .raw (repeatedKey byte) canonical [byte, byte] (show 2 ≤ maxPayload by decide)

/-- A first record. -/
def firstRecord : StoredRecord := shortRecord 2 (by decide)

/-- A record of another key. -/
def secondRecord : StoredRecord := shortRecord 7 (by decide)

/-- A whole record and the first two bytes of another are recovered. -/
theorem scanActive_torn_shortRecord :
    scanActive (fun _ => 0) (segment (fun _ => 0) 2
      [firstRecord] [0x01, 0x07]) =
        .ok ⟨56, indexFrom 8 [firstRecord], false⟩ := by
  refine (scanActive_torn_iff (fun _ => 0) 2 (by decide)
    [firstRecord] secondRecord [0x01, 0x07]
    (by decide) (by decide)).mpr ?_
  rintro ⟨view, parsed, _⟩
  have longEnough := (looksSealed_of_parseFooter parsed).longEnough
  exact absurd longEnough (by decide)

/-- Whatever the CRC is, there is a payload that spells a footer, and a torn
append of it makes the file pass as sealed and drops the whole record before
it. -/
theorem exists_torn_sealed (crc32c : Bytes → UInt32) :
    ∃ (next : StoredRecord) (torn : Bytes),
      torn <+: next.encode crc32c ∧ torn ≠ next.encode crc32c ∧
        scanActive crc32c (segment crc32c 2 [firstRecord] torn) =
          .ok ⟨1320, .empty, true⟩ := by
  let head := logBytes crc32c [firstRecord]
  have headLength : head.length = 48 := by
    simp [head, StoredRecord.header, Record.length, firstRecord,
      shortRecord, StoredRecord.raw]
  obtain ⟨footer, built, footerLength⟩ :=
    exists_buildFooter_pairEntries crc32c (show 102 < 2 ^ 63 by decide)
  obtain ⟨parts, footerEq, offsetsFit⟩ := buildFooter_eq_ok built
  -- The next record's payload is the footer of a body that ends with this
  -- record's own header, and one byte that never reaches the file.
  let next := StoredRecord.raw (repeatedKey 7) (by decide) (footer ++ [0])
    (by rw [length_append, footerLength]; decide)
  let lead := (next.encode crc32c).take recHeaderSize
  have whole : next.encode crc32c = (lead ++ footer) ++ [0] := by
    rw [StoredRecord.encode_eq, append_assoc]
    rfl
  have leadLength : lead.length = 46 := by
    rw [length_take, StoredRecord.encode_length]
    exact Nat.min_eq_left (Nat.le_add_right _ _)
  have isPrefix : lead ++ footer <+: next.encode crc32c := ⟨[0], whole.symm⟩
  have strict : lead ++ footer ≠ next.encode crc32c := by
    rw [whole]
    simp
  have bodyLength : (headerAt 2 ++ (head ++ lead)).length = 102 := by
    rw [length_append, length_append, headLength, leadLength]
    rfl
  have isImage : segment crc32c 2 [firstRecord]
      (lead ++ footer) = parts.image crc32c (headerAt 2 ++ (head ++ lead)) := by
    rw [FooterParts.image, bodyLength, ← footerEq, segment]
    simp only [head, append_assoc]
  have parsed : parseFooter crc32c
      (parts.image crc32c (headerAt 2 ++ (head ++ lead))) = _ :=
    parts.parseFooter_headerAt (by decide) (head ++ lead)
      (by rw [bodyLength]; exact offsetsFit)
  have noMore : NoRecord crc32c (lead ++ footer) :=
    StoredRecord.parseRecord_torn crc32c next whole.symm (by simp)
  have carries := (carriesFooter_segment_iff crc32c 2
    [firstRecord] noMore).mpr
    ⟨_, by rw [isImage]; exact parsed, by
      change logEnd crc32c _ ≤ (headerAt 2 ++ (head ++ lead)).length
      rw [bodyLength]
      change 8 + head.length ≤ 102
      omega⟩
  have total : (segment crc32c 2 [firstRecord]
      (lead ++ footer)).length = 1320 := by
    rw [length_segment, length_append, leadLength, footerLength]
    change 8 + head.length + _ = _
    omega
  refine ⟨next, lead ++ footer, isPrefix, strict, ?_⟩
  rw [scanActive_segment crc32c (by decide) _ noMore, if_pos carries, total]

/-- Under the CRC that is always zero, a torn append passes as a seal. -/
theorem scanActive_torn_sealed :
    ∃ (next : StoredRecord) (torn : Bytes),
      torn <+: next.encode (fun _ => 0) ∧ torn ≠ next.encode (fun _ => 0) ∧
        scanActive (fun _ => 0)
          (segment (fun _ => 0) 2 [firstRecord] torn) =
            .ok ⟨1320, .empty, true⟩ :=
  exists_torn_sealed _

end AmberStore.Packstore

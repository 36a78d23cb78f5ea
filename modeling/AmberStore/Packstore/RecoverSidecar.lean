import AmberStore.Packstore.Recover
import AmberStore.Packstore.Sidecar

/-!
# Recovery of an active segment from its sidecar

Entries whose record ends within the data known durable are trusted unread,
later ones are verified against the data until one fails, and what follows is
scanned record by record.  Positions are signed integers, as in the source.
-/

open ByteString Checked List

namespace AmberStore.Packstore

open Amberpack

/-! ## The model -/

/-- Why a recovery failed. -/
inductive RecoverError
  | unexpectedEof
  | footer (error : FooterError)
  deriving DecidableEq

/-- How far an active segment has been read. -/
structure ScanPos where
  pos : Int
  /-- How much of the sidecar was consumed. -/
  sidecarEnd : Int
  /-- The data length known durable. -/
  durable : Int
  deriving DecidableEq

/-- One step of a scan. -/
structure Advanced where
  added : List SidecarRec
  /-- Those among them the sidecar does not list. -/
  missing : List SidecarRec
  next : ScanPos

/-- What an active segment holds. -/
structure Recovered where
  index : Index
  dataEnd : Int
  /-- The leading sidecar bytes that agree with the data. -/
  sidecarEnd : Int
  durable : Int
  /-- Valid records the agreeing part of the sidecar does not list. -/
  missing : List SidecarRec
  sealed : Bool
  fileSize : Int

/-- Reads a range of a data file. -/
def readRange (data : Bytes) (off n : Int) : Except RecoverError Bytes :=
  if off < 0 ∨ n < 0 ∨ data.length < off.toNat + n.toNat then
    .error .unexpectedEof
  else
    .ok (slice data off.toNat (off.toNat + n.toNat))

/-- The durable length after the marks among some records; none when a mark
does not describe a file of this size. -/
def durableAfter (size : Int) : Int → List SidecarRec → Option Int
  | durable, [] => some durable
  | durable, record :: records =>
    if record.kind ≠ .synced then
      durableAfter size durable records
    else if record.offI64 > size ∨ record.offI64 < 0 then
      none
    else
      durableAfter size (max durable record.offI64) records

section Recovery

variable (crc32c : Bytes → UInt32)

/-- Whether a parsed record is the one an entry describes. -/
def describes (entry : SidecarRec) (record : Record) : Bool :=
  record.key = entry.k ∧ record.flags = entry.flags ∧
    record.ulen = entry.ulen ∧ record.slen = entry.slen

/-- Reads the record an entry points at and checks that it is whole and is the
record the entry describes. -/
def verifyEntry (data : Bytes) (entry : SidecarRec) :
    Except RecoverError Bool := do
  let raw ← readRange data entry.offI64 (entry.end_ - entry.offI64)
  match parseRecord crc32c raw with
  | .error _ => .ok false
  | .ok record => .ok (describes entry record)

/-- Whether an entry is good: durable, or verified. -/
def vouched (data : Bytes) (durable : Int) (entry : SidecarRec) :
    Except RecoverError Bool :=
  if entry.end_ > durable then verifyEntry crc32c data entry else .ok true

/-- The state of the loop over the sidecar's records. -/
structure Listed where
  added : List SidecarRec
  /-- The data position they reach. -/
  pos : Int
  consumed : Int

/-- One record of the sidecar was consumed. -/
def Listed.consume (listed : Listed) : Listed :=
  { listed with consumed := listed.consumed + sidecarRecSize }

/-- The loop over the sidecar's records; none when one contradicts the
index. -/
def takeEntries (index : Index) (data : Bytes) (size durable : Int) :
    List SidecarRec → Listed → Except RecoverError (Option Listed)
  | [], listed => .ok (some listed)
  | record :: records, listed =>
    if record.kind = .entry then
      if record.offI64 < listed.pos then
        if index record.k ≠ some record.loc then
          .ok none
        else
          takeEntries index data size durable records listed.consume
      else if record.offI64 = listed.pos ∧ record.end_ ≤ size ∧
          record.end_ > listed.pos then do
        let good ← vouched crc32c data durable record
        if good then
          takeEntries index data size durable records
            (Listed.consume ⟨listed.added ++ [record], record.end_,
              listed.consumed⟩)
        else
          .ok (some listed)
      else
        .ok (some listed)
    else
      takeEntries index data size durable records listed.consume

/-- The scan of what follows the last good entry: the records found, and the
bytes they cover. -/
def tailFrom (rest : Bytes) (pos : Int) :
    (fuel off : Nat) → List SidecarRec × Nat
  | 0, off => ([], off)
  | fuel + 1, off =>
    if off < rest.length ∧ byteAt rest off ≠ tagSeal then
      match parseRecord crc32c (rest.drop off) with
      | .error _ => ([], off)
      | .ok record =>
        let (records, last) :=
          tailFrom rest pos fuel (off + record.length)
        (.entry record.key (locOf ((pos + off) % 2 ^ 64).toNat record) ::
          records, last)
    else
      ([], off)

/-- The tail's records and its end, in a data file of a size. -/
def scanTail (data : Bytes) (size pos : Int) :
    Except RecoverError (List SidecarRec × Int) :=
  if pos < size then do
    let rest ← readRange data pos (size - pos)
    let (records, last) := tailFrom crc32c rest pos rest.length 0
    .ok (records, pos + last)
  else
    .ok ([], pos)

/-- Where a scan that holds nothing yet starts reading: none while the header
has not arrived. -/
def startOf (data : Bytes) (size pos : Int) :
    Except RecoverError (Option Int) :=
  if pos < magicHeader.length then
    if size < magicHeader.length then
      .ok none
    else do
      let header ← readRange data 0 magicHeader.length
      (checkVersion header).mapError .footer
      .ok (if isHeader header then some magicHeader.length else none)
  else
    .ok (some pos)

/-- Takes a scan forward over what was appended since it last ran; none when
sidecar and data contradict what the scan already holds. -/
def advance (index : Index) (start : ScanPos) (data : Bytes) (size : Int)
    (tail : Bytes) : Except RecoverError (Option Advanced) := do
  match ← startOf data size start.pos with
  | none => .ok (some ⟨[], [], start⟩)
  | some pos =>
    let atStart : Bool := start.sidecarEnd = 0
    let (records, valid) := readSidecar crc32c tail atStart
    let consumed : Int :=
      if atStart ∧ valid > 0 then sidecarMagic.length else 0
    match durableAfter size start.durable records with
    | none => .ok none
    | some durable => do
        match ← takeEntries crc32c index data size durable records
            ⟨[], pos, consumed⟩ with
        | none => .ok none
        | some listed => do
            let (missing, last) ← scanTail crc32c data size listed.pos
            .ok (some ⟨listed.added ++ missing, missing,
              ⟨last, start.sidecarEnd + listed.consumed, durable⟩⟩)

/-- Whether a data file ends in the trailer magic, so that the full scan has
to decide whether it is sealed. -/
def endsInTrailer (data : Bytes) (size : Int) : Except RecoverError Bool :=
  if size ≥ magicHeader.length + trailerSize then do
    let last ← readRange data (size - magicTrailer.length)
      magicTrailer.length
    .ok (last = magicTrailer)
  else
    .ok false

/-- Applies the reading rules to a data file of a size and the bytes of its
sidecar; none when the caller has to scan the file whole. -/
def recoverFrom (data : Bytes) (size : Int) (sidecar : Bytes) :
    Except RecoverError (Option Recovered) :=
  if (readSidecar crc32c sidecar true).2 = 0 ∨ size < magicHeader.length then
    .ok none
  else do
    let header ← readRange data 0 magicHeader.length
    if ¬isHeader header then
      .ok none
    else do
      let trailer ← endsInTrailer data size
      if trailer then
        .ok none
      else do
        let advanced ← advance crc32c .empty
          ⟨magicHeader.length, 0, magicHeader.length⟩ data size sidecar
        match advanced with
        | none => .ok none
        | some adv =>
          .ok (some
            { index := adv.added.foldl
                (fun index record => index.insert record.k record.loc) .empty
              dataEnd := adv.next.pos
              sidecarEnd := adv.next.sidecarEnd
              durable := adv.next.durable
              missing := adv.missing
              sealed := false
              fileSize := 0 })

/-- The index's entries in data order, which a walk over the records meets in
that order. -/
def entriesInOrder (bytes : Bytes) (index : Index) :
    (fuel off : Nat) → List SidecarRec
  | 0, _ => []
  | fuel + 1, off =>
    match parseRecord crc32c (bytes.drop off) with
    | .error _ => []
    | .ok record =>
      if index record.key = some (locOf off record) then
        .entry record.key (locOf off record) ::
          entriesInOrder bytes index fuel (off + record.length)
      else
        entriesInOrder bytes index fuel (off + record.length)

/-- Recovery without a sidecar: every record is read and checked. -/
def fullScan (bytes : Bytes) : Except RecoverError Recovered := do
  let scan ← (scanActive crc32c bytes).mapError .footer
  .ok
    { index := scan.index
      dataEnd := scan.size
      sidecarEnd := 0
      durable := magicHeader.length
      missing := entriesInOrder crc32c bytes scan.index bytes.length
        magicHeader.length
      sealed := scan.sealed
      fileSize := 0 }

/-- Recovers an active segment by the sidecar's reading rules, or else by a
full scan of the data. -/
def recoverSegment (data sidecar : Bytes) :
    Except RecoverError Recovered := do
  match ← recoverFrom crc32c data data.length sidecar with
  | some recovered => .ok { recovered with fileSize := data.length }
  | none => do
      let recovered ← fullScan crc32c data
      .ok { recovered with fileSize := data.length }

end Recovery

/-! ## Signed positions -/

theorem wrapI64_of_lt (nonneg : 0 ≤ value)
    (fits : value < 2 ^ 63) : wrapI64 value = value := by
  unfold wrapI64
  refine Int.bmod_eq_of_le ?_ ?_
  all_goals omega

/-- The entries of a log that starts at an offset. -/
def entriesFrom : (off : Nat) → List StoredRecord → List SidecarRec
  | _, [] => []
  | off, stored :: records =>
    .entry stored.key (locOf off stored.header) ::
      entriesFrom (off + stored.header.length) records

/-- Indexing a log's entries gives the log's index. -/
theorem foldl_entriesFrom
    (off : Nat) (records : List StoredRecord) (index : Index) :
    (entriesFrom off records).foldl
        (fun index record => index.insert record.k record.loc) index =
      (indexFrom off records).atop index := by
  induction records generalizing off index with
  | nil => rw [entriesFrom, indexFrom, foldl_nil, Index.empty_atop]
  | cons stored records ih =>
    rw [entriesFrom, indexFrom, foldl_cons, ih,
      Index.atop_assoc, Index.insert_eq]
    rfl

theorem entriesFrom_append
    (crc32c : Bytes → UInt32) (off : Nat) (left right : List StoredRecord) :
    entriesFrom off (left ++ right) = entriesFrom off left ++
      entriesFrom (off + (logBytes crc32c left).length) right := by
  induction left generalizing off with
  | nil => simp [entriesFrom]
  | cons stored left ih =>
    rw [cons_append, entriesFrom, entriesFrom, ih, length_logBytes_cons,
      Nat.add_assoc, cons_append]

section Lemmas

variable (crc32c : Bytes → UInt32)

/-! ## The tail scan -/

/-- The tail scan lists the records of a log, and stops where no record
starts. -/
theorem LogAt.tailFrom_eq
    (pos : Nat) (log : LogAt crc32c bytes off records rest)
    (noMore : NoRecord crc32c rest) (enough : records.length ≤ fuel)
    (fits : pos + off + (logBytes crc32c records).length < 2 ^ 63) :
    tailFrom crc32c bytes pos fuel off =
      (entriesFrom (pos + off) records,
        off + (logBytes crc32c records).length) := by
  induction records generalizing off fuel with
  | nil =>
    obtain ⟨failure, stops⟩ := log.parse_nil noMore
    cases fuel with
    | zero => rfl
    | succ fuel =>
      rw [tailFrom, stops, ite_self]
      rfl
  | cons stored records ih =>
    obtain ⟨inside, isChunk, parsed, next⟩ := log.cons
    cases fuel with
    | zero => simp at enough
    | succ fuel =>
      rw [length_logBytes_cons] at fits
      have here : (((pos : Int) + off) % 2 ^ 64).toNat = pos + off := by omega
      have later := ih next (Nat.le_of_succ_le_succ enough) (by omega)
      rw [tailFrom, if_pos ⟨inside, by rw [isChunk]; decide⟩, parsed]
      simp only [later, here, entriesFrom, length_logBytes_cons,
        ← Nat.add_assoc]
      rfl

/-- What parses inside a range parses at its start. -/
theorem parseRecord_of_take
    (parsed : parseRecord crc32c (bytes.take size) = .ok record) :
    parseRecord crc32c bytes = .ok record := by
  obtain ⟨stored, rfl, split⟩ := StoredRecord.of_parseRecord_eq_ok crc32c parsed
  rw [← take_append_drop size bytes, split, append_assoc]
  exact stored.parseRecord_encode_append crc32c _

/-- The record at the front of a log's bytes is the log's first. -/
theorem log_of_parseRecord
    (noMore : NoRecord crc32c rest)
    (parsed : parseRecord crc32c (logBytes crc32c records ++ rest) =
      .ok record) :
    ∃ stored later, records = stored :: later ∧ stored.header = record := by
  cases records with
  | nil => exact absurd parsed (noMore record)
  | cons stored later =>
    rw [logBytes_cons, append_assoc,
      StoredRecord.parseRecord_encode_append, Except.ok.injEq] at parsed
    exact ⟨stored, later, rfl, parsed⟩

theorem readRange_eq_ok
    {start stop : Nat} (ordered : start ≤ stop)
    (inside : stop ≤ data.length) :
    readRange data start (stop - start) = .ok (slice data start stop) := by
  unfold readRange
  have distance : ((stop : Int) - start).toNat = stop - start := by omega
  rw [if_neg (by omega), Int.toNat_natCast, distance, Nat.add_sub_of_le ordered]

theorem readRange_header (long : 8 ≤ data.length) :
    readRange data 0 8 = .ok (data.take 8) := by
  have range := readRange_eq_ok (Nat.zero_le _) long
  rwa [slice_zero] at range

end Lemmas

/-! ## Logs and trailers -/

section Trailers

variable {crc32c : Bytes → UInt32}

/-- A file that starts with a header is a segment. -/
theorem exists_segment
    (crc32c : Bytes → UInt32)
    (isSegment : isHeader (data.take 8) = true) :
    ∃ version records rest, readsVersion version = true ∧
      NoRecord crc32c rest ∧ data = segment crc32c version records rest := by
  obtain ⟨sized, magic, reads⟩ := isHeader_eq_true_iff.mp isSegment
  obtain ⟨records, rest, split, noMore⟩ := exists_log crc32c (data.drop 8)
  refine ⟨byteAt (data.take 8) 7, records, rest, reads, noMore, ?_⟩
  have header : headerAt (byteAt (data.take 8) 7) = data.take 8 := by
    rw [headerAt, ← magic, ← slice_zero,
      singleton_byteAt (data.take 8) (show 7 < _ by omega),
      slice_append_slice _ (by omega) (by omega), slice_zero,
      take_of_length_le (by omega)]
  rw [segment, ← split, header, take_append_drop]

/-- The scan of what follows the entries lists the rest of the log. -/
theorem scanTail_segment
    (noMore : NoRecord crc32c rest)
    (fits : (segment crc32c version (done ++ later) rest).length < 2 ^ 63) :
    scanTail crc32c (segment crc32c version (done ++ later) rest)
      (segment crc32c version (done ++ later) rest).length
      (logEnd crc32c done : Nat) =
        .ok (entriesFrom (logEnd crc32c done) later,
          (logEnd crc32c (done ++ later) : Nat)) := by
  have total := length_segment crc32c version (done ++ later) rest
  have ends : logEnd crc32c (done ++ later) =
      logEnd crc32c done + (logBytes crc32c later).length := by
    rw [logEnd, logEnd, logBytes_append, length_append, Nat.add_assoc]
  have fewRecords := length_le_logBytes crc32c later
  unfold scanTail
  split
  case isTrue more =>
    have range := @readRange_eq_ok (segment crc32c version (done ++ later) rest)
      (logEnd crc32c done) _ (by omega) le_rfl
    have dropped : slice (segment crc32c version (done ++ later) rest)
        (logEnd crc32c done)
        (segment crc32c version (done ++ later) rest).length =
          logBytes crc32c later ++ rest := by
      have split : segment crc32c version (done ++ later) rest =
          (headerAt version ++ logBytes crc32c done) ++
            ((logBytes crc32c later ++ rest) ++ []) := by
        simp only [segment, logBytes_append, append_assoc, append_nil]
      have startsHere : (headerAt version ++ logBytes crc32c done).length =
          logEnd crc32c done := by
        rw [length_append]
        rfl
      rw [total, split]
      refine slice_field _ _ _ startsHere ?_
      rw [length_append]
      omega
    have log : LogAt crc32c (logBytes crc32c later ++ rest) 0 later rest :=
      ⟨Nat.zero_le _, rfl⟩
    have enough : later.length ≤ (logBytes crc32c later ++ rest).length := by
      rw [length_append]
      omega
    have tail := log.tailFrom_eq crc32c (logEnd crc32c done) noMore enough
      (by omega)
    rw [range, ok_bind, dropped]
    simp only [tail, ends, Nat.zero_add, Nat.add_zero, Int.natCast_add]
  case isFalse whole =>
    have none : later = [] := by
      refine eq_nil_of_length_eq_zero ?_
      omega
    subst none
    rw [append_nil, entriesFrom]

/-- A file that does not end in the trailer magic carries no footer. -/
theorem carriesFooter_of_endsInTrailer
    (noTrailer : endsInTrailer data data.length = .ok false) :
    carriesFooter crc32c data = false := by
  unfold carriesFooter
  cases parsed : parseFooter crc32c data with
  | error failure => rfl
  | ok view =>
    have looks := looksSealed_of_parseFooter parsed
    have longEnough : 1170 ≤ data.length := looks.longEnough
    have magic := looks.magic
    have range := @readRange_eq_ok data (data.length - 8) data.length
      (by omega) le_rfl
    rw [slice, take_of_length_le (by rw [length_drop]), magic] at range
    have back : ((data.length - 8 : Nat) : Int) = data.length - 8 := by omega
    rw [back, Int.sub_sub_self] at range
    unfold endsInTrailer at noTrailer
    rw [if_pos (by
      change (data.length : Int) ≥ 8 + 64
      omega)] at noTrailer
    change (readRange data (data.length - 8) 8 >>= _) = _ at noTrailer
    rw [range, ok_bind] at noTrailer
    simp at noTrailer

theorem endsInTrailer_eq_ok (data : Bytes) :
    ∃ answer, endsInTrailer data data.length = .ok answer := by
  unfold endsInTrailer
  split
  case isFalse => exact ⟨false, rfl⟩
  case isTrue long =>
    change (data.length : Int) ≥ 8 + 64 at long
    have range := @readRange_eq_ok data (data.length - 8) data.length
      (by omega) le_rfl
    have back : ((data.length - 8 : Nat) : Int) = data.length - 8 := by omega
    rw [back, Int.sub_sub_self] at range
    change ∃ answer, (readRange data (data.length - 8) 8 >>= _) = _
    rw [range, ok_bind]
    exact ⟨_, rfl⟩

end Trailers

end AmberStore.Packstore

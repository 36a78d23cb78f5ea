import AmberStore.Packstore.Owner

/-!
# Recovery after failed writes

A record's write can fail after some of its bytes have reached the file.  The
owner goes on, and writes its next record over them, longer or shorter.  What
is left behind the last record is then the end of an earlier one, and recovery
finds exactly the records that were written as long as no step leaves bytes
there that read as a record or as a footer.
-/

open ByteString Checked List

namespace AmberStore.Packstore

open Amberpack

/-! ## The model -/

/-- An owner and its files, where a record is written before it is indexed. -/
structure Writer where
  file : Bytes
  /-- Where the next record goes. -/
  size : Nat
  index : Index
  /-- A record that is written and not indexed yet. -/
  pending : Option StoredRecord
  /-- The records indexed so far, and the sidecar. -/
  owner : Owner

/-- What a writer does. -/
inductive WriterStep
  | write (stored : StoredRecord)
  /-- The written record is indexed and listed in the sidecar. -/
  | publish
  /-- A record's write fails after at most `cut` bytes, and before its last. -/
  | fail (stored : StoredRecord) (cut : Nat)
  /-- The file is synced, marked, or the sidecar's writer stops. -/
  | other (step : OwnerStep) (notAppend : ∀ stored, step ≠ .append stored)

namespace Writer

section Model

variable (crc32c : Bytes → UInt32)

/-- The writer of a new segment. -/
def start (version : UInt8) : Writer :=
  ⟨headerAt version, magicHeader.length, .empty, none, .start⟩

/-- Whether a record would be written: nothing is pending, and its key is not
in the index. -/
def appends (writer : Writer) (stored : StoredRecord) : Bool :=
  writer.pending.isNone && (writer.index stored.key).isNone

/-- The bytes of a record that a failing write leaves. -/
def torn (stored : StoredRecord) (cut : Nat) : Bytes :=
  (stored.encode crc32c).dropLast.take cut

/-- One step of a writer. -/
def step (writer : Writer) : WriterStep → Writer
  | .write stored =>
    if writer.appends stored then
      { writer with
        file := writeAt writer.file writer.size (stored.encode crc32c)
        pending := some stored }
    else
      writer
  | .publish =>
    match writer.pending with
    | none => writer
    | some stored =>
      { writer with
        size := writer.size + stored.header.length
        index := writer.index.insert stored.key
          (locOf writer.size stored.header)
        pending := none
        owner := writer.owner.step crc32c (.append stored) }
  | .fail stored cut =>
    if writer.appends stored then
      { writer with
        file := writeAt writer.file writer.size (torn crc32c stored cut) }
    else
      writer
  | .other action _ =>
    { writer with owner := writer.owner.step crc32c action }

/-- The writer after a run of steps. -/
def run (version : UInt8) (steps : List WriterStep) : Writer :=
  steps.foldl (step crc32c) (start version)

/-- The index of what was written: the owner's, and the record it has not
indexed yet. -/
def written (writer : Writer) : Index :=
  match writer.pending with
  | none => writer.index
  | some stored =>
    writer.index.insert stored.key (locOf writer.size stored.header)

/-- After a crash of the process, recovery finds what was written, with any
part of the sidecar. -/
def Recovers (writer : Writer) : Prop :=
  ∀ cut, ∃ recovered,
    recoverSegment crc32c writer.file
      ((writer.owner.sidecarBytes crc32c).take cut) = .ok recovered ∧
    recovered.sealed = false ∧ recovered.index = writer.written

/-- What a step leaves behind the end of the data reads neither as a record
nor as a footer. -/
def Clean (writer : Writer) : WriterStep → Prop
  | .write stored => writer.appends stored = true →
      NoRecord crc32c (writer.file.drop (writer.size + stored.header.length)) ∧
      ¬SealsFrom crc32c
        (writeAt writer.file writer.size (stored.encode crc32c))
        (writer.size + stored.header.length)
  | .fail stored cut => writer.appends stored = true →
      NoRecord crc32c (torn crc32c stored cut ++
        writer.file.drop (writer.size + (torn crc32c stored cut).length)) ∧
      ¬SealsFrom crc32c
        (writeAt writer.file writer.size (torn crc32c stored cut)) writer.size
  | .publish => True
  | .other _ _ => True

end Model

/-! ## What every run keeps -/

/-- The records of the file: the indexed ones, and a written one that is not
indexed yet. -/
def stored (writer : Writer) : List StoredRecord :=
  writer.owner.records ++ writer.pending.toList

/-- What is in the file and in memory agrees, up to bytes behind the end of
the data. -/
structure Consistent (crc32c : Bytes → UInt32) (version : UInt8)
    (writer : Writer) : Prop where
  size_eq : writer.size = logEnd crc32c writer.owner.records
  index_eq : writer.index = indexFrom magicHeader.length writer.owner.records
  file_eq : ∃ tail, writer.file = segment crc32c version writer.stored tail
  mirrored : Mirrors crc32c writer.owner

section Lemmas

variable {crc32c : Bytes → UInt32} {version : UInt8} {writer : Writer}

/-- Indexing one more record inserts it where the log ended. -/
theorem indexFrom_concat
    (records : List StoredRecord) (stored : StoredRecord) :
    indexFrom magicHeader.length (records ++ [stored]) =
      (indexFrom magicHeader.length records).insert stored.key
        (locOf (logEnd crc32c records) stored.header) := by
  rw [indexFrom_append crc32c, Index.insert_eq]
  rfl

theorem written_eq (consistent : Consistent crc32c version writer) :
    writer.written = indexFrom magicHeader.length writer.stored := by
  unfold written Writer.stored
  cases writer.pending with
  | none => simpa using consistent.index_eq
  | some stored =>
    rw [Option.toList_some, @indexFrom_concat crc32c, ← consistent.index_eq,
      ← consistent.size_eq]

theorem logEnd_concat (records : List StoredRecord) (stored : StoredRecord) :
    logEnd crc32c (records ++ [stored]) =
      logEnd crc32c records + stored.header.length := by
  rw [logEnd, logEnd, logBytes_append, length_append, logBytes_cons,
    logBytes_nil, append_nil, StoredRecord.encode_length, Nat.add_assoc]

/-- Bytes written where the records end replace the start of the tail. -/
theorem writeAt_segment
    (records : List StoredRecord) (tail bytes : Bytes) :
    writeAt (segment crc32c version records tail) (logEnd crc32c records)
      bytes = segment crc32c version records
        (bytes ++ tail.drop bytes.length) := by
  have kept : (headerAt version ++ logBytes crc32c records).length =
      logEnd crc32c records := by
    rw [length_append]
    rfl
  rw [segment, segment, ← append_assoc, ← kept, writeAt_append, append_assoc]

theorem drop_segment
    (records : List StoredRecord) (tail : Bytes) (more : Nat) :
    (segment crc32c version records tail).drop
      (logEnd crc32c records + more) = tail.drop more := by
  have kept : (headerAt version ++ logBytes crc32c records).length =
      logEnd crc32c records := by
    rw [length_append]
    rfl
  rw [segment, ← append_assoc, ← kept, drop_append,
    drop_eq_nil_of_le (Nat.le_add_right _ _), nil_append,
    Nat.add_sub_cancel_left]

theorem segment_concat
    (records : List StoredRecord) (stored : StoredRecord) (tail : Bytes) :
    segment crc32c version records (stored.encode crc32c ++ tail) =
      segment crc32c version (records ++ [stored]) tail := by
  simp only [segment, logBytes_append, logBytes_cons, logBytes_nil,
    append_nil, append_assoc]

variable {stored : StoredRecord}

/-- Where a record would be written, nothing is pending. -/
theorem pending_of_appends
    (appending : writer.appends stored = true) :
    writer.pending = none := by
  unfold appends at appending
  rw [Bool.and_eq_true, Option.isNone_iff_eq_none] at appending
  exact appending.1

theorem stored_of_appends
    (appending : writer.appends stored = true) :
    writer.stored = writer.owner.records := by
  rw [Writer.stored, pending_of_appends appending]
  exact append_nil _

/-- The bytes behind the records after a completed write. -/
theorem file_write
    (consistent : Consistent crc32c version writer)
    (appending : writer.appends stored = true) :
    writeAt writer.file writer.size (stored.encode crc32c) =
      segment crc32c version (writer.owner.records ++ [stored])
        (writer.file.drop (writer.size + stored.header.length)) := by
  obtain ⟨tail, fileEq⟩ := consistent.file_eq
  rw [stored_of_appends appending] at fileEq
  rw [fileEq, consistent.size_eq, writeAt_segment, segment_concat,
    drop_segment, StoredRecord.encode_length]

/-- The bytes behind the records after a failed write. -/
theorem file_fail
    (consistent : Consistent crc32c version writer)
    (appending : writer.appends stored = true) (bytes : Bytes) :
    writeAt writer.file writer.size bytes =
      segment crc32c version writer.owner.records
        (bytes ++ writer.file.drop (writer.size + bytes.length)) := by
  obtain ⟨tail, fileEq⟩ := consistent.file_eq
  rw [stored_of_appends appending] at fileEq
  rw [fileEq, consistent.size_eq, writeAt_segment, drop_segment]

theorem records_other
    {owner : Owner}
    (notAppend : ∀ stored, action ≠ .append stored) :
    (owner.step crc32c action).records = owner.records := by
  cases action with
  | append stored => exact absurd rfl (notAppend stored)
  | fsync => rfl
  | mark =>
    rw [Owner.step, Owner.note]
    split
    · rfl
    · split <;> rfl
  | stop => rfl

theorem records_append (owner : Owner) (stored : StoredRecord) :
    (owner.step crc32c (.append stored)).records =
      owner.records ++ [stored] := by
  rw [Owner.step, Owner.note]
  split <;> rfl

/-- A step keeps the writer consistent. -/
theorem Consistent.step
    (consistent : Consistent crc32c version writer) (action : WriterStep) :
    Consistent crc32c version (writer.step crc32c action) := by
  cases action with
  | write stored =>
    rw [Writer.step]
    split
    case isFalse => exact consistent
    case isTrue appending =>
      exact ⟨consistent.size_eq, consistent.index_eq,
        ⟨_, file_write consistent appending⟩, consistent.mirrored⟩
  | fail stored cut =>
    rw [Writer.step]
    split
    case isFalse => exact consistent
    case isTrue appending =>
      have failed := file_fail consistent appending (torn crc32c stored cut)
      rw [← stored_of_appends appending] at failed
      exact ⟨consistent.size_eq, consistent.index_eq, ⟨_, failed⟩,
        consistent.mirrored⟩
  | publish =>
    rw [Writer.step]
    cases isPending : writer.pending with
    | none => exact consistent
    | some stored =>
      obtain ⟨tail, fileEq⟩ := consistent.file_eq
      refine ⟨?_, ?_, ⟨tail, ?_⟩, consistent.mirrored.append stored⟩
      · rw [records_append, logEnd_concat, ← consistent.size_eq]
      · rw [records_append, @indexFrom_concat crc32c,
          ← consistent.index_eq, ← consistent.size_eq]
      · rw [Writer.stored, isPending] at fileEq
        rw [Writer.stored, records_append, Option.toList_none, append_nil]
        exact fileEq
  | other action notAppend =>
    have same : (writer.owner.step crc32c action).records =
        writer.owner.records := records_other notAppend
    obtain ⟨tail, fileEq⟩ := consistent.file_eq
    refine ⟨?_, ?_, ⟨tail, ?_⟩, consistent.mirrored.step action⟩
    · rw [Writer.step, same]
      exact consistent.size_eq
    · rw [Writer.step, same]
      exact consistent.index_eq
    · rw [Writer.step, Writer.stored, same]
      exact fileEq

theorem consistent_start : Consistent crc32c version (start version) :=
  ⟨rfl, rfl, ⟨[], rfl⟩, Mirrors.start⟩

/-! ## Recovery -/

/-- What lies behind the records reads neither as a record nor as a footer. -/
def TailClean (crc32c : Bytes → UInt32) (writer : Writer) : Prop :=
  NoRecord crc32c (writer.file.drop (logEnd crc32c writer.stored)) ∧
    ¬SealsFrom crc32c writer.file (logEnd crc32c writer.stored)

/-- Where the sidecar is of no use, recovery finds what the scan finds. -/
theorem recoverSegment_of_declined
    (declined : recoverFrom crc32c data data.length sidecar = .ok none)
    (scanned : scanActive crc32c data = .ok scan) :
    ∃ recovered, recoverSegment crc32c data sidecar = .ok recovered ∧
      recovered.sealed = scan.sealed ∧ recovered.index = scan.index := by
  rw [recoverSegment, declined, ok_bind]
  simp only [fullScan, scanned, mapError_ok, ok_bind]
  exact ⟨_, rfl, rfl, rfl⟩

/-- Recovery finds what was written exactly when the tail is clean. -/
theorem recovers_iff_tailClean
    (reads : readsVersion version = true)
    (consistent : Consistent crc32c version writer)
    (fits : writer.file.length < 2 ^ 63) :
    writer.Recovers crc32c ↔ writer.TailClean crc32c := by
  obtain ⟨tail, fileEq⟩ := consistent.file_eq
  have tailEq : writer.file.drop (logEnd crc32c writer.stored) = tail := by
    have dropped := @drop_segment crc32c version writer.stored tail 0
    rwa [← fileEq, drop_zero] at dropped
  have writtenEq := written_eq consistent
  unfold TailClean Recovers
  rw [tailEq, writtenEq]
  constructor
  · intro recovers
    obtain ⟨extra, rest, split, noMore⟩ := exists_log crc32c tail
    have whole : writer.file =
        segment crc32c version (writer.stored ++ extra) rest := by
      rw [fileEq, split]
      simp only [segment, logBytes_append, append_assoc]
    have scanned := scanActive_segment crc32c reads (writer.stored ++ extra)
      noMore
    have carries := carriesFooter_segment_iff crc32c version
      (writer.stored ++ extra) noMore
    rw [← whole] at scanned carries
    -- Without the sidecar, recovery is the scan of the file.
    obtain ⟨recovered, success, notSealed, sameIndex⟩ := recovers 0
    have declined : recoverFrom crc32c writer.file writer.file.length
        ((writer.owner.sidecarBytes crc32c).take 0) = .ok none := by
      unfold recoverFrom
      exact if_pos (Or.inl rfl)
    by_cases isSealed : carriesFooter crc32c writer.file = true
    · rw [if_pos isSealed] at scanned
      obtain ⟨other, otherSuccess, otherSealed, _⟩ :=
        recoverSegment_of_declined declined scanned
      rw [success, Except.ok.injEq] at otherSuccess
      rw [← otherSuccess, notSealed] at otherSealed
      cases otherSealed
    · rw [if_neg isSealed] at scanned
      obtain ⟨other, otherSuccess, _, otherIndex⟩ :=
        recoverSegment_of_declined declined scanned
      rw [success, Except.ok.injEq] at otherSuccess
      rw [← otherSuccess, sameIndex] at otherIndex
      have none := eq_nil_of_indexFrom_append crc32c otherIndex.symm
      subst none
      rw [append_nil] at carries
      rw [logBytes_nil, nil_append] at split
      rw [split]
      exact ⟨noMore, fun seals => isSealed (carries.mpr seals)⟩
  · rintro ⟨noMore, notSeals⟩ cut
    have scanned := scanActive_segment crc32c reads writer.stored noMore
    have carries := carriesFooter_segment_iff crc32c version writer.stored
      noMore
    rw [← fileEq] at scanned carries
    rw [if_neg (fun isSealed => notSeals (carries.mp isSealed))] at scanned
    have total := length_segment crc32c version writer.stored tail
    have shorter := logEnd_mono crc32c
      (prefix_append writer.owner.records writer.pending.toList)
    have shared : (writer.owner.dataBytes crc32c version).take
        writer.owner.synced <+: writer.file := by
      refine (List.take_prefix _ _).trans ?_
      rw [fileEq]
      refine ⟨logBytes crc32c writer.pending.toList ++ tail, ?_⟩
      simp only [Owner.dataBytes, segment, Writer.stored, logBytes_append,
        append_assoc, nil_append]
    rw [← fileEq] at total
    change logEnd crc32c writer.owner.records ≤
      logEnd crc32c writer.stored at shorter
    rcases consistent.mirrored.recoverFrom_cut (by omega) fits shared cut with
      declined |
      ⟨recovered, scan, success, otherScan, notSealed, sameIndex, _, sealed⟩
    · exact recoverSegment_of_declined declined scanned
    · rw [scanned, Except.ok.injEq] at otherScan
      subst otherScan
      refine ⟨{ recovered with fileSize := writer.file.length }, ?_, sealed,
        sameIndex⟩
      rw [recoverSegment, success, ok_bind]

/-- A step keeps the tail clean exactly when it leaves it clean. -/
theorem tailClean_step_iff
    (consistent : Consistent crc32c version writer)
    (tailClean : writer.TailClean crc32c) (action : WriterStep) :
    (writer.step crc32c action).TailClean crc32c ↔
      writer.Clean crc32c action := by
  cases action with
  | write stored =>
    by_cases appending : writer.appends stored = true
    · have file := file_write consistent appending
      have ends := @logEnd_concat crc32c writer.owner.records stored
      rw [← consistent.size_eq] at ends
      have dropped := @drop_segment crc32c version
        (writer.owner.records ++ [stored])
        (writer.file.drop (writer.size + stored.header.length)) 0
      rw [← file, ends, drop_zero, Nat.add_zero] at dropped
      rw [Writer.step, if_pos appending, Clean, TailClean]
      change NoRecord crc32c (List.drop (logEnd crc32c
        (writer.owner.records ++ [stored])) _) ∧ ¬SealsFrom crc32c _
          (logEnd crc32c (writer.owner.records ++ [stored])) ↔ _
      rw [ends, dropped]
      exact (imp_iff_right appending).symm
    · rw [Writer.step, if_neg appending, Clean]
      exact iff_of_true tailClean (absurd · appending)
  | fail stored cut =>
    by_cases appending : writer.appends stored = true
    · have file := file_fail consistent appending (torn crc32c stored cut)
      have dropped := @drop_segment crc32c version writer.owner.records
        (torn crc32c stored cut ++ writer.file.drop
          (writer.size + (torn crc32c stored cut).length)) 0
      rw [← file, drop_zero, Nat.add_zero, ← consistent.size_eq] at dropped
      have same : ∀ bytes, logEnd crc32c
          ({ writer with file := bytes } : Writer).stored = writer.size := by
        intro bytes
        rw [consistent.size_eq, ← stored_of_appends appending]
        rfl
      rw [Writer.step, if_pos appending, Clean, TailClean, same, dropped]
      exact (imp_iff_right appending).symm
    · rw [Writer.step, if_neg appending, Clean]
      exact iff_of_true tailClean (absurd · appending)
  | publish =>
    refine iff_of_true ?_ trivial
    rw [Writer.step]
    cases isPending : writer.pending with
    | none => exact tailClean
    | some stored =>
      rw [TailClean, Writer.stored, isPending] at tailClean
      rw [TailClean, Writer.stored, records_append, Option.toList_none,
        append_nil]
      exact tailClean
  | other action notAppend =>
    refine iff_of_true ?_ trivial
    rw [TailClean, Writer.stored] at tailClean
    rw [Writer.step, TailClean, Writer.stored, records_other notAppend]
    exact tailClean

theorem tailClean_start : (start version).TailClean crc32c := by
  have total : (start version).file.length = 8 := headerAt_length version
  constructor
  · have none : (start version).file.drop
        (logEnd crc32c (start version).stored) = [] :=
      drop_eq_nil_of_le (Nat.le_of_eq total)
    rw [none]
    exact noRecord_nil crc32c
  · rintro ⟨view, parsed, _⟩
    have longEnough := (looksSealed_of_parseFooter parsed).longEnough
    rw [total] at longEnough
    exact absurd longEnough (by decide)

end Lemmas

/-! ## Every run -/

section Runs

variable {crc32c : Bytes → UInt32} {version : UInt8}

theorem run_concat (steps : List WriterStep) (action : WriterStep) :
    run crc32c version (steps ++ [action]) =
      (run crc32c version steps).step crc32c action := by
  simp [run]

theorem consistent_run (steps : List WriterStep) :
    Consistent crc32c version (run crc32c version steps) := by
  induction steps using List.reverseRecOn with
  | nil => exact consistent_start
  | append_singleton steps action ih =>
    rw [run_concat]
    exact ih.step action

/-- While every step leaves the tail clean, the tail is clean. -/
theorem tailClean_run
    (clean : ∀ done action, done ++ [action] <+: steps →
      (run crc32c version done).Clean crc32c action) :
    (run crc32c version steps).TailClean crc32c := by
  induction steps using List.reverseRecOn with
  | nil => exact tailClean_start
  | append_singleton steps action ih =>
    have earlier := ih (fun done action isPrefix =>
      clean done action (isPrefix.trans (prefix_append _ _)))
    rw [run_concat, tailClean_step_iff (consistent_run steps) earlier]
    exact clean steps action prefix_rfl

end Runs

end Writer

/-- In every run of a writer whose writes may fail, recovery finds in every
state what was written exactly when every step leaves behind the data no bytes
that read as a record or a footer. -/
theorem recovers_run_iff
    (crc32c : Bytes → UInt32) (version : UInt8)
    (reads : readsVersion version = true) (steps : List WriterStep)
    (fits : ∀ done, done <+: steps →
      (Writer.run crc32c version done).file.length < 2 ^ 63) :
    (∀ done, done <+: steps →
        (Writer.run crc32c version done).Recovers crc32c) ↔
      ∀ done action, done ++ [action] <+: steps →
        (Writer.run crc32c version done).Clean crc32c action := by
  have atEach : ∀ done, done <+: steps →
      ((Writer.run crc32c version done).Recovers crc32c ↔
        (Writer.run crc32c version done).TailClean crc32c) :=
    fun done isPrefix => Writer.recovers_iff_tailClean reads
      (Writer.consistent_run done) (fits done isPrefix)
  constructor
  · intro recovers done action isPrefix
    have earlier : done <+: steps := (prefix_append _ _).trans isPrefix
    have before := (atEach done earlier).mp (recovers done earlier)
    have after := (atEach _ isPrefix).mp (recovers _ isPrefix)
    rw [Writer.run_concat] at after
    exact (Writer.tailClean_step_iff (Writer.consistent_run done) before
      action).mp after
  · intro clean done isPrefix
    refine (atEach done isPrefix).mpr (Writer.tailClean_run ?_)
    intro earlier action earlierPrefix
    exact clean earlier action (earlierPrefix.trans isPrefix)

/-- A file that is shorter than any sealed one carries no footer. -/
theorem not_sealsFrom_of_short
    (short : file.length < minSealedLen) (start : Nat) :
    ¬SealsFrom crc32c file start := by
  rintro ⟨view, parsed, _⟩
  exact absurd (looksSealed_of_parseFooter parsed).longEnough
    (Nat.not_le.mpr short)

/-- A write that fails after twenty bytes, and one that writes a whole record
over them. -/
def shortWrites : List WriterStep :=
  [.fail secondRecord 20, .write firstRecord]

/-- Recovery finds what the run has written. -/
theorem recovers_run_shortWrites :
    (Writer.run (fun _ => 0) 2 shortWrites).Recovers (fun _ => 0) := by
  refine (recovers_run_iff (fun _ => 0) 2 (by decide) shortWrites ?_).mpr ?_
    shortWrites prefix_rfl
  · intro done isPrefix
    rw [← mem_inits] at isPrefix
    simp only [shortWrites, List.inits, map_cons, map_nil,
      mem_cons, not_mem_nil, or_false] at isPrefix
    rcases isPrefix with rfl | rfl | rfl
    all_goals decide
  · intro done action isPrefix
    cases done with
    | nil =>
      rw [nil_append, shortWrites, cons_prefix_cons] at isPrefix
      obtain ⟨rfl, _⟩ := isPrefix
      intro _
      refine ⟨?_, not_sealsFrom_of_short (by decide) _⟩
      intro record parsed
      cases parsed
    | cons first done =>
      rw [cons_append, shortWrites, cons_prefix_cons] at isPrefix
      obtain ⟨rfl, isPrefix⟩ := isPrefix
      cases done with
      | nil =>
        rw [nil_append, cons_prefix_cons] at isPrefix
        obtain ⟨rfl, _⟩ := isPrefix
        intro _
        exact ⟨noRecord_nil _, not_sealsFrom_of_short (by decide) _⟩
      | cons second done =>
        rw [cons_append, cons_prefix_cons] at isPrefix
        simp at isPrefix

/-- Whatever the CRC is, a failed write can leave a record nobody stored: a
shorter record is written over the start of it, and recovery finds what its
payload spelled. -/
theorem exists_leftover_payload (crc32c : Bytes → UInt32) :
    ∃ (long short : StoredRecord) (cut : Nat),
      let writer := Writer.run crc32c 2
        [.fail long cut, .write short, .publish]
      writer.index = Index.empty.insert short.key (locOf 8 short.header) ∧
        ∃ recovered, recoverSegment crc32c writer.file [] = .ok recovered ∧
          recovered.sealed = false ∧
          recovered.index (repeatedKey 4) = some ⟨54, 0, 2, 2⟩ := by
  let spelled := shortRecord 4 (by decide)
  have spelledLength : (spelled.encode crc32c).length = 48 :=
    StoredRecord.encode_length ..
  let long := StoredRecord.raw (repeatedKey 7) (by decide)
    (spelled.encode crc32c ++ [0])
    (by rw [length_append, spelledLength]; decide)
  let short := StoredRecord.raw (repeatedKey 2) (by decide) [] (by decide)
  let lead := (long.encode crc32c).take recHeaderSize
  have leadLength : lead.length = 46 := by
    rw [length_take, StoredRecord.encode_length]
    exact Nat.min_eq_left (Nat.le_add_right _ _)
  have left : Writer.torn crc32c long 94 = lead ++ spelled.encode crc32c := by
    have whole : long.encode crc32c =
        (lead ++ spelled.encode crc32c) ++ [0] := by
      rw [StoredRecord.encode_eq, append_assoc]
      rfl
    rw [Writer.torn, whole, dropLast_concat, take_of_length_le]
    rw [length_append, leadLength, spelledLength]
  refine ⟨long, short, 94, ?_⟩
  intro writer
  have file : writer.file = segment crc32c 2 [short, spelled] [] := by
    have shortLength : (short.encode crc32c).length = 46 :=
      StoredRecord.encode_length ..
    have written : writer.file = writeAt (writeAt (headerAt 2 ++ [])
        (headerAt 2).length (Writer.torn crc32c long 94))
        (headerAt 2).length (short.encode crc32c) := rfl
    rw [written, left, writeAt_append, writeAt_append, drop_nil,
      append_nil, shortLength, drop_left' leadLength]
    simp only [segment, logBytes_cons, logBytes_nil, append_nil]
  have scanned := scanActive_segment crc32c (show readsVersion 2 = true by rfl)
    [short, spelled] (noRecord_nil crc32c)
  have carries := carriesFooter_segment_iff crc32c 2 [short, spelled]
    (noRecord_nil crc32c)
  have total := length_segment crc32c 2 [short, spelled] []
  have ends : logEnd crc32c [short, spelled] = 102 := by
    rw [logEnd, logBytes_cons, logBytes_cons, logBytes_nil, append_nil,
      length_append, StoredRecord.encode_length, StoredRecord.encode_length]
    rfl
  have notSeals := @not_sealsFrom_of_short crc32c
    (segment crc32c 2 [short, spelled] []) (by rw [total, ends]; decide)
    (logEnd crc32c [short, spelled])
  rw [if_neg (fun isSealed => notSeals (carries.mp isSealed)), ← file]
    at scanned
  have declined : recoverFrom crc32c writer.file writer.file.length [] =
      .ok none := by
    unfold recoverFrom
    exact if_pos (Or.inl rfl)
  obtain ⟨recovered, success, notSealed, sameIndex⟩ :=
    Writer.recoverSegment_of_declined declined scanned
  refine ⟨rfl, recovered, success, notSealed, ?_⟩
  rw [sameIndex]
  rfl

/-- Under the CRC that is always zero, recovery finds a record nobody
stored. -/
theorem recovers_leftover_payload :
    ∃ (long short : StoredRecord) (cut : Nat),
      let writer := Writer.run (fun _ => 0) 2
        [.fail long cut, .write short, .publish]
      writer.index = Index.empty.insert short.key (locOf 8 short.header) ∧
        ∃ recovered,
          recoverSegment (fun _ => 0) writer.file [] = .ok recovered ∧
          recovered.sealed = false ∧
          recovered.index (repeatedKey 4) = some ⟨54, 0, 2, 2⟩ :=
  exists_leftover_payload _

end AmberStore.Packstore

import AmberStore.Packstore.RecoverSidecar

/-!
# Scans that trust a sidecar

A scan takes an entry unread when its record ends within the data a sidecar
marks as durable.  If such entries describe records that lie in the data, then
a scan ends where the log ends and adds the log's entries, whatever else the
sidecar says and wherever in it the scan goes on from.
-/

open ByteString Checked
open List hiding after count

namespace AmberStore.Packstore

open Amberpack

/-! ## Records at the front of a file -/

section Holds

variable (crc32c : Bytes → UInt32)

/-- A file starts with a header this release reads and some records. -/
def Holds (data : Bytes) (records : List StoredRecord) : Prop :=
  ∃ version, readsVersion version = true ∧
    headerAt version ++ logBytes crc32c records <+: data

/-- An entry describes a record that lies in the data. -/
def Lies (data : Bytes) (entry : SidecarRec) : Prop :=
  ∃ done stored, Holds crc32c data (done ++ [stored]) ∧
    entry = .entry stored.key (locOf (logEnd crc32c done) stored.header)

variable {crc32c} {data after : Bytes} {records : List StoredRecord}

theorem length_header_log (version : UInt8) (records : List StoredRecord) :
    (headerAt version ++ logBytes crc32c records).length =
      logEnd crc32c records := by
  rw [length_append]
  rfl

theorem logEnd_append (left right : List StoredRecord) :
    logEnd crc32c (left ++ right) =
      logEnd crc32c left + (logBytes crc32c right).length := by
  rw [logEnd, logEnd, logBytes_append, length_append, Nat.add_assoc]

theorem logEnd_concat (done : List StoredRecord) (stored : StoredRecord) :
    logEnd crc32c (done ++ [stored]) =
      logEnd crc32c done + stored.header.length := by
  rw [logEnd_append, logBytes_cons, logBytes_nil, append_nil,
    StoredRecord.encode_length]

theorem header_le_logEnd (records : List StoredRecord) :
    8 ≤ logEnd crc32c records :=
  Nat.le_add_right _ _

namespace Holds

theorem logEnd_le (holds : Holds crc32c data records) :
    logEnd crc32c records ≤ data.length := by
  obtain ⟨version, -, starts⟩ := holds
  rw [← length_header_log version]
  exact starts.length_le

theorem isHeader (holds : Holds crc32c data records) :
    isHeader (data.take 8) = true := by
  obtain ⟨version, reads, more, rfl⟩ := holds
  rw [append_assoc, take_append_of_le_length (by simp),
    take_of_length_le (by simp), isHeader_headerAt, reads]

/-- A file that starts with the same bytes holds the same records. -/
theorem of_take
    (holds : Holds crc32c data records)
    (within : logEnd crc32c records ≤ size) (kept : data.take size <+: after) :
    Holds crc32c after records := by
  obtain ⟨version, reads, starts⟩ := holds
  refine ⟨version, reads, List.IsPrefix.trans ?_ kept⟩
  exact prefix_take_iff.mpr
    ⟨starts, (length_header_log version records).trans_le within⟩

theorem left
    (holds : Holds crc32c data (records ++ more)) :
    Holds crc32c data records := by
  obtain ⟨version, reads, starts⟩ := holds
  refine ⟨version, reads, List.IsPrefix.trans ?_ starts⟩
  rw [logBytes_append, ← append_assoc]
  exact prefix_append _ _

theorem of_segment
    (reads : readsVersion version = true)
    (records : List StoredRecord) (rest : Bytes) :
    Holds crc32c (segment crc32c version records rest) records := by
  refine ⟨version, reads, rest, ?_⟩
  rw [segment, append_assoc]

end Holds

/-- Records at the front of a log are the log's first. -/
theorem prefix_of_logBytes_prefix
    (noMore : NoRecord crc32c rest)
    (starts : logBytes crc32c records <+: logBytes crc32c log ++ rest) :
    records <+: log := by
  induction records generalizing log with
  | nil => exact nil_prefix
  | cons stored records ih =>
    obtain ⟨more, split⟩ := starts
    rw [logBytes_cons, append_assoc] at split
    have parsed := stored.parseRecord_encode_append crc32c
      (logBytes crc32c records ++ more)
    rw [split] at parsed
    obtain ⟨first, later, rfl, -⟩ := log_of_parseRecord crc32c noMore parsed
    rw [logBytes_cons, append_assoc] at split
    obtain ⟨rfl, sameRest⟩ := StoredRecord.eq_of_append_eq crc32c split
    exact cons_prefix_cons.mpr ⟨rfl, ih ⟨more, sameRest⟩⟩

/-- What a segment holds is at the start of its log. -/
theorem Holds.prefix_of_segment
    (noMore : NoRecord crc32c rest)
    (holds : Holds crc32c (segment crc32c version log rest) records) :
    records <+: log := by
  obtain ⟨other, -, more, split⟩ := holds
  rw [segment, append_assoc] at split
  obtain ⟨-, sameRest⟩ := append_inj split (by simp)
  exact prefix_of_logBytes_prefix noMore ⟨more, sameRest⟩

/-- The ends of a log's prefixes tell them apart. -/
theorem prefix_of_logEnd_le
    (isLeft : left <+: log) (isRight : right <+: log)
    (ordered : logEnd crc32c left ≤ logEnd crc32c right) :
    left <+: right := by
  rcases prefix_or_prefix_of_prefix isLeft isRight with before | after
  · exact before
  · obtain ⟨more, rfl⟩ := after
    rw [logEnd_append] at ordered
    have fewRecords := length_le_logBytes crc32c more
    have none : more = [] := eq_nil_of_length_eq_zero (by omega)
    rw [none, append_nil]

namespace Lies

/-- The entries of the records behind others lie where those end. -/
theorem of_entriesFrom
    (holds : Holds crc32c data (done ++ mid)) :
    ∀ entry ∈ entriesFrom (logEnd crc32c done) mid, Lies crc32c data entry := by
  induction mid generalizing done with
  | nil => exact fun entry absent => absurd absent not_mem_nil
  | cons stored mid ih =>
    rw [← singleton_append, ← append_assoc] at holds
    rw [entriesFrom, forall_mem_cons, ← logEnd_concat]
    exact ⟨⟨done, stored, holds.left, rfl⟩, ih holds⟩

end Lies

end Holds

/-! ## Entries -/

namespace SidecarRec

/-- The data offset just past an entry's record. -/
def stop (record : SidecarRec) : Nat :=
  record.off + (recHeaderSize + record.slen)

/-- A record that is written as it is; the end of an entry is a signed
integer. -/
structure Fits (record : SidecarRec) : Prop where
  formed : record.WellFormed
  stop_lt : record.kind = .entry → record.stop < 2 ^ 63

variable {record : SidecarRec}

theorem Fits.offI64_eq (fits : record.Fits) : record.offI64 = record.off :=
  wrapI64_of_lt (Int.natCast_nonneg _) (by
    have := fits.formed.off_lt
    omega)

theorem Fits.end_eq (fits : record.Fits) (isEntry : record.kind = .entry) :
    record.end_ = record.stop := by
  have below := fits.stop_lt isEntry
  unfold stop at *
  change record.off + (46 + record.slen) < _ at below
  have pastHeader : wrapI64 ((record.off : Int) + (46 : Nat)) =
      record.off + 46 :=
    wrapI64_of_lt (by omega) (by omega)
  change wrapI64 (wrapI64 (record.offI64 + (46 : Nat)) + record.slen) =
    (record.off + (46 + record.slen) : Nat)
  rw [fits.offI64_eq, pastHeader, wrapI64_of_lt (by omega) (by omega)]
  omega

end SidecarRec

section Lies

variable {crc32c : Bytes → UInt32} {data after : Bytes}

theorem Lies.stop_eq
    {done : List StoredRecord} {stored : StoredRecord} {entry : SidecarRec}
    (isEntry : entry =
      .entry stored.key (locOf (logEnd crc32c done) stored.header)) :
    entry.stop = logEnd crc32c (done ++ [stored]) := by
  rw [isEntry, logEnd_concat]
  rfl

/-- An entry goes on to describe its record while the bytes up to its end
stay. -/
theorem Lies.of_take
    (lies : Lies crc32c data entry)
    (within : entry.stop ≤ size) (kept : data.take size <+: after) :
    Lies crc32c after entry := by
  obtain ⟨done, stored, holds, isEntry⟩ := lies
  rw [Lies.stop_eq isEntry] at within
  exact ⟨done, stored, holds.of_take within kept, isEntry⟩

theorem Lies.stop_le (lies : Lies crc32c data entry) :
    entry.stop ≤ data.length := by
  obtain ⟨done, stored, holds, isEntry⟩ := lies
  rw [Lies.stop_eq isEntry]
  exact holds.logEnd_le

theorem Lies.kind_eq (lies : Lies crc32c data entry) :
    entry.kind = .entry := by
  obtain ⟨done, stored, -, rfl⟩ := lies
  rfl

/-- The entry of a record in a file that is shorter than a signed integer. -/
theorem Lies.fits
    (lies : Lies crc32c data entry)
    (small : data.length < 2 ^ 63) : entry.Fits := by
  have below := lies.stop_le
  obtain ⟨done, stored, holds, rfl⟩ := lies
  refine ⟨⟨?_, stored.ulen_lt, stored.payload_length_lt, ?_⟩, fun _ => by omega⟩
  · unfold SidecarRec.stop at below
    omega
  · intro isMark
    cases isMark

/-- The entry that lies where a log goes on describes its next record. -/
theorem Lies.next
    (noMore : NoRecord crc32c rest)
    (lies : Lies crc32c (segment crc32c version (done ++ later) rest) entry)
    (here : entry.off = logEnd crc32c done) :
    ∃ stored more, later = stored :: more ∧
      entry = .entry stored.key (locOf (logEnd crc32c done) stored.header) := by
  obtain ⟨before, stored, holds, rfl⟩ := lies
  have inLog := holds.prefix_of_segment noMore
  have beforeLog := (prefix_append before [stored]).trans inLog
  have doneLog := prefix_append done later
  have sameEnd : logEnd crc32c before = logEnd crc32c done := here
  have left := prefix_of_logEnd_le beforeLog doneLog (Nat.le_of_eq sameEnd)
  have right :=
    prefix_of_logEnd_le doneLog beforeLog (Nat.le_of_eq sameEnd.symm)
  obtain rfl : before = done := left.eq_of_length_le right.length_le
  obtain ⟨more, split⟩ := inLog
  rw [append_assoc, append_cancel_left_eq] at split
  exact ⟨stored, more, split.symm, rfl⟩

/-! ## Where the records end -/

/-- Every record of the data ends before a size. -/
def EndsBy (crc32c : Bytes → UInt32) (data : Bytes) (size : Nat) : Prop :=
  ∀ records, Holds crc32c data records → logEnd crc32c records ≤ size

theorem Lies.of_endsBy
    (lies : Lies crc32c data entry)
    (ends : EndsBy crc32c data size) (kept : data.take size <+: after) :
    Lies crc32c after entry := by
  refine lies.of_take ?_ kept
  obtain ⟨done, stored, holds, isEntry⟩ := lies
  rw [Lies.stop_eq isEntry]
  exact ends _ holds

theorem endsBy_segment
    (noMore : NoRecord crc32c rest) :
    EndsBy crc32c (segment crc32c version records rest)
      (logEnd crc32c records) := by
  intro front holds
  obtain ⟨more, rfl⟩ := holds.prefix_of_segment noMore
  rw [logEnd_append]
  exact Nat.le_add_right _ _

theorem endsBy_of_headless (headless : isHeader (data.take 8) = false) :
    EndsBy crc32c data 0 := by
  intro records holds
  rw [holds.isHeader] at headless
  cases headless

theorem headless_of_short (short : data.length < 8) :
    isHeader (data.take 8) = false := by
  rw [Bool.eq_false_iff]
  intro isSegment
  have sized := (isHeader_eq_true_iff.mp isSegment).1
  rw [length_take] at sized
  omega

end Lies

/-! ## The loop over the sidecar -/

section Loop

variable {crc32c : Bytes → UInt32}

theorem drop_segment_logEnd
    (version : UInt8) (done later : List StoredRecord) (rest : Bytes) :
    (segment crc32c version (done ++ later) rest).drop (logEnd crc32c done) =
      logBytes crc32c later ++ rest := by
  rw [segment, logBytes_append, append_assoc, ← append_assoc,
    ← length_header_log version done, drop_left]

variable (crc32c) in
/-- What a sidecar's records keep: their marks a limit, and entries below it,
which are taken unread, describe records that lie in the data. -/
structure Trusted (data : Bytes) (limit : Nat) (entries : List SidecarRec) :
    Prop where
  fits : ∀ entry ∈ entries, entry.Fits
  marked : ∀ entry ∈ entries, entry.kind = .synced → entry.off ≤ limit
  lies : ∀ entry ∈ entries, entry.kind = .entry → entry.stop ≤ limit →
    Lies crc32c data entry

theorem Trusted.subset
    (trusted : Trusted crc32c data limit entries) (some : kept ⊆ entries) :
    Trusted crc32c data limit kept :=
  ⟨fun entry member => trusted.fits entry (some member),
    fun entry member => trusted.marked entry (some member),
    fun entry member => trusted.lies entry (some member)⟩

/-- An entry that is accepted where the log goes on describes its next
record. -/
theorem next_of_vouched
    {version : UInt8} {done later : List StoredRecord}
    (noMore : NoRecord crc32c rest)
    (fits : entry.Fits) (isEntry : entry.kind = .entry)
    (here : entry.off = logEnd crc32c done)
    (inside : entry.stop ≤ (segment crc32c version (done ++ later) rest).length)
    {durable : Int} {limit : Nat} (lower : durable ≤ max 8 limit)
    (trusted : entry.stop ≤ limit →
      Lies crc32c (segment crc32c version (done ++ later) rest) entry) :
    ∃ good, vouched crc32c (segment crc32c version (done ++ later) rest)
        durable entry = .ok good ∧
      (good = true → ∃ stored more, later = stored :: more ∧
        entry = .entry stored.key
          (locOf (logEnd crc32c done) stored.header)) := by
  have past := @header_le_logEnd crc32c done
  have longer : entry.off < entry.stop := by
    unfold SidecarRec.stop
    change _ < _ + (46 + _)
    omega
  unfold vouched
  rw [fits.end_eq isEntry]
  split
  case isFalse within =>
    have below : entry.stop ≤ limit := by omega
    exact ⟨true, rfl, fun _ => (trusted below).next noMore here⟩
  case isTrue =>
    have range := readRange_eq_ok (Nat.le_of_lt longer) inside
    unfold verifyEntry
    rw [fits.offI64_eq, fits.end_eq isEntry, range, ok_bind]
    cases parsed : parseRecord crc32c
        (slice (segment crc32c version (done ++ later) rest) entry.off
          entry.stop) with
    | error failure => exact ⟨false, rfl, by simp⟩
    | ok record =>
      refine ⟨_, rfl, fun same => ?_⟩
      simp only [describes, decide_eq_true_eq] at same
      obtain ⟨key, flags, ulen, slen⟩ := same
      rw [slice, here, drop_segment_logEnd] at parsed
      obtain ⟨stored, more, rfl, isHeader⟩ := log_of_parseRecord crc32c
        noMore (parseRecord_of_take crc32c parsed)
      refine ⟨stored, more, rfl, ?_⟩
      subst isHeader
      cases entry
      simp only at isEntry here key flags ulen slen
      simp only [isEntry, here, ← key, ← flags, ← ulen, ← slen,
        SidecarRec.entry, locOf]
      rfl

/-- What the loop answers: a contradiction, or the entries of the records that
follow, as far as it got, and how much of the sidecar it consumed. -/
def Answers (index : Index) (data : Bytes) (done later : List StoredRecord)
    (entries : List SidecarRec) (listed : Listed)
    (outcome : Except RecoverError (Option Listed)) : Prop :=
  outcome = .ok none ∨
    ∃ mid more count, later = mid ++ more ∧ count ≤ entries.length ∧
      outcome = .ok (some
        ⟨listed.added ++ entriesFrom (logEnd crc32c done) mid,
          logEnd crc32c (done ++ mid),
          listed.consumed + (count * sidecarRecSize : Nat)⟩) ∧
      ∀ entry ∈ entries.take count, entry.kind = .entry →
        index entry.k = some entry.loc ∨ Lies crc32c data entry

namespace Answers

variable {index : Index} {data : Bytes} {done later : List StoredRecord}
  {entry : SidecarRec} {entries : List SidecarRec} {listed : Listed}
  {outcome : Except RecoverError (Option Listed)}

/-- The loop ends and keeps what it has. -/
theorem stop (here : listed.pos = logEnd crc32c done) :
    @Answers crc32c index data done later entries listed
      (.ok (some listed)) := by
  refine .inr ⟨[], later, 0, rfl, Nat.zero_le _, ?_, by simp⟩
  simp [entriesFrom, ← here]

/-- One record of the sidecar is consumed. -/
theorem consume
    (answers : @Answers crc32c index data done later entries listed.consume
      outcome)
    (known : entry.kind = .entry →
      index entry.k = some entry.loc ∨ Lies crc32c data entry) :
    @Answers crc32c index data done later (entry :: entries) listed
      outcome := by
  rcases answers with contradiction | ⟨mid, more, count, split, few, isSome,
    consumed⟩
  · exact .inl contradiction
  · refine .inr ⟨mid, more, count + 1, split, Nat.succ_le_succ few, ?_, ?_⟩
    · have sum : listed.consumed + (sidecarRecSize : Int) +
          (count * sidecarRecSize : Nat) =
            listed.consumed + ((count + 1) * sidecarRecSize : Nat) := by
        unfold sidecarRecSize
        omega
      rw [isSome, ← sum]
      rfl
    · rw [take_succ_cons, forall_mem_cons]
      exact ⟨known, consumed⟩

/-- One record of the data is accepted. -/
theorem accept
    (answers : @Answers crc32c index data (done ++ [stored]) later entries
      ⟨listed.added ++ [.entry stored.key
        (locOf (logEnd crc32c done) stored.header)],
        logEnd crc32c (done ++ [stored]), listed.consumed⟩ outcome) :
    @Answers crc32c index data done (stored :: later) entries listed
      outcome := by
  rcases answers with contradiction | ⟨mid, more, count, rfl, few, isSome,
    consumed⟩
  · exact .inl contradiction
  · refine .inr ⟨stored :: mid, more, count, rfl, few, ?_, consumed⟩
    rw [isSome, logEnd_concat, entriesFrom, append_assoc, append_assoc]
    rfl

end Answers

/-- The loop over the sidecar accepts records that lie in the data, in their
order, or finds a contradiction. -/
theorem takeEntries_trusted
    (index : Index) {version : UInt8} (reads : readsVersion version = true)
    {log : List StoredRecord} {rest : Bytes} (noMore : NoRecord crc32c rest)
    {durable : Int} {limit : Nat} (lower : durable ≤ max 8 limit)
    (trusted : Trusted crc32c (segment crc32c version log rest) limit entries)
    {done later : List StoredRecord} (isLog : log = done ++ later)
    (added : List SidecarRec) (consumed : Int) :
    @Answers crc32c index (segment crc32c version log rest) done later entries
      ⟨added, logEnd crc32c done, consumed⟩
      (takeEntries crc32c index (segment crc32c version log rest)
        (segment crc32c version log rest).length durable entries
        ⟨added, logEnd crc32c done, consumed⟩) := by
  induction entries generalizing done later added consumed with
  | nil => exact .stop rfl
  | cons entry entries ih =>
    have entryFits := trusted.fits entry mem_cons_self
    have next := @ih (trusted.subset (subset_cons_self entry entries))
    rw [takeEntries]
    split
    case isTrue isEntry =>
      rw [entryFits.offI64_eq, entryFits.end_eq isEntry]
      split
      case isTrue =>
        split
        case isTrue => exact .inl rfl
        case isFalse known =>
          exact (next isLog _ _).consume fun _ => .inl (not_not.mp known)
      case isFalse =>
        split
        case isTrue fitsHere =>
          obtain ⟨here, inside, -⟩ := fitsHere
          have here : entry.off = logEnd crc32c done := Int.ofNat_inj.mp here
          have inside : entry.stop ≤
              (segment crc32c version log rest).length := by
            exact_mod_cast inside
          subst isLog
          obtain ⟨good, decided, describes⟩ :=
            next_of_vouched noMore entryFits isEntry here inside lower
              (trusted.lies entry mem_cons_self isEntry)
          rw [decided, ok_bind]
          split
          case isTrue accepted =>
            obtain ⟨stored, more, rfl, isNext⟩ := describes accepted
            have lies : Lies crc32c (segment crc32c version
                (done ++ stored :: more) rest) entry := by
              rw [append_cons]
              exact ⟨done, stored, (Holds.of_segment reads _ rest).left, isNext⟩
            have stops : entry.stop = logEnd crc32c (done ++ [stored]) :=
              Lies.stop_eq isNext
            rw [stops]
            refine Answers.accept (Answers.consume ?_ fun _ => .inr lies)
            rw [← isNext]
            exact next (append_cons _ _ _) _ _
          case isFalse => exact .stop rfl
        case isFalse => exact .stop rfl
    case isFalse notEntry =>
      exact (next isLog _ _).consume fun isEntry => absurd isEntry notEntry

/-! ## The scan -/

/-- The marks raise the durable length no higher than a limit they keep. -/
theorem durableAfter_le
    {entries : List SidecarRec} {limit : Nat}
    (trusted : Trusted crc32c data limit entries)
    {size durable : Int} (lower : durable ≤ max 8 limit)
    (success : durableAfter size durable entries = some result) :
    result ≤ max 8 limit := by
  induction entries generalizing durable with
  | nil => exact Option.some.inj success ▸ lower
  | cons entry entries ih =>
    have next := @ih (trusted.subset (subset_cons_self entry entries))
    rw [durableAfter, (trusted.fits entry mem_cons_self).offI64_eq] at success
    split at success
    case isTrue => exact next lower success
    case isFalse isMark =>
      have below := trusted.marked entry mem_cons_self (not_not.mp isMark)
      split at success
      case isTrue => cases success
      case isFalse => exact next (by omega) success

/-- A scan goes to the end of the log and adds its entries, or finds a
contradiction. -/
theorem advance_trusted
    (index : Index) {version : UInt8} (reads : readsVersion version = true)
    {log : List StoredRecord} {rest : Bytes} (noMore : NoRecord crc32c rest)
    (small : (segment crc32c version log rest).length < 2 ^ 63)
    {done later : List StoredRecord} (isLog : log = done ++ later)
    {start : ScanPos}
    (started : startOf (segment crc32c version log rest)
      (segment crc32c version log rest).length start.pos =
        .ok (some (logEnd crc32c done)))
    {tail : Bytes} {entries : List SidecarRec} {valid : Nat}
    (read : readSidecar crc32c tail (start.sidecarEnd = 0) = (entries, valid))
    {limit : Nat} (lower : start.durable ≤ max 8 limit)
    (trusted : Trusted crc32c (segment crc32c version log rest) limit entries) :
    let data := segment crc32c version log rest
    let outcome := advance crc32c index start data data.length tail
    outcome = .ok none ∨
      ∃ (mid more : List StoredRecord) (count : Nat) (durable : Int),
        later = mid ++ more ∧
        count ≤ entries.length ∧ durable ≤ (max 8 limit : Nat) ∧
        outcome = .ok (some ⟨entriesFrom (logEnd crc32c done) later,
          entriesFrom (logEnd crc32c (done ++ mid)) more,
          ⟨logEnd crc32c log, start.sidecarEnd +
            ((if start.sidecarEnd = 0 ∧ valid > 0 then
              (sidecarMagic.length : Int) else 0) +
              (count * sidecarRecSize : Nat)), durable⟩⟩) ∧
        ∀ entry ∈ entries.take count, entry.kind = .entry →
          index entry.k = some entry.loc ∨ Lies crc32c data entry := by
  intro data outcome
  simp only [outcome, advance, data, started, ok_bind, read, decide_eq_true_eq]
  cases marks : durableAfter (segment crc32c version log rest).length
      start.durable entries with
  | none => exact .inl rfl
  | some durable =>
    have durableLe := durableAfter_le trusted lower marks
    have taken := takeEntries_trusted index reads noMore durableLe trusted
      isLog [] (if start.sidecarEnd = 0 ∧ valid > 0 then
        (sidecarMagic.length : Int) else 0)
    rcases taken with contradiction | ⟨mid, more, count, split, few, isSome,
      known⟩
    · left
      simp only [contradiction, ok_bind]
    · right
      refine ⟨mid, more, count, durable, split, few, durableLe, ?_, known⟩
      have isLog' : log = (done ++ mid) ++ more := by
        rw [isLog, split, append_assoc]
      have scanned : scanTail crc32c (segment crc32c version log rest)
          (segment crc32c version log rest).length
          (logEnd crc32c (done ++ mid) : Nat) =
            .ok (entriesFrom (logEnd crc32c (done ++ mid)) more,
              (logEnd crc32c log : Nat)) := by
        subst isLog'
        exact scanTail_segment noMore small
      simp only [isSome, ok_bind, scanned, nil_append]
      rw [split, entriesFrom_append crc32c, ← logEnd_append]

/-! ## Sidecar files -/

variable (crc32c) in
/-- The bytes of a sidecar with some records. -/
def sidecarFile (entries : List SidecarRec) : Bytes :=
  sidecarMagic ++ entries.flatMap (SidecarRec.encode crc32c)

variable (crc32c) in
/-- The sidecar's bytes are the front of records that may be trusted. -/
structure Reads (data bytes : Bytes) (entries : List SidecarRec)
    (limit : Nat) : Prop extends Trusted crc32c data limit entries where
  file : bytes <+: sidecarFile crc32c entries

theorem Reads.of_endsBy
    (reads : Reads crc32c data bytes entries limit)
    (ends : EndsBy crc32c data size) (kept : data.take size <+: after) :
    Reads crc32c after bytes entries limit :=
  ⟨⟨reads.fits, reads.marked, fun entry member isEntry below =>
    (reads.lies entry member isEntry below).of_endsBy ends kept⟩, reads.file⟩

/-- Only the first bytes of the sidecar are there. -/
theorem Reads.take
    {sidecar : Option Bytes}
    (reads : Reads crc32c data (sidecar.getD []) entries limit) (size : Nat) :
    Reads crc32c data ((sidecar.map (List.take size)).getD []) entries
      limit := by
  refine ⟨reads.toTrusted, ?_⟩
  have file := reads.file
  cases sidecar with
  | none => exact nil_prefix
  | some bytes => exact (List.take_prefix _ _).trans file

theorem length_flatMap_encode (entries : List SidecarRec) :
    (entries.flatMap (SidecarRec.encode crc32c)).length =
      entries.length * sidecarRecSize := by
  induction entries with
  | nil => simp
  | cons entry entries ih =>
    rw [flatMap_cons, length_append, SidecarRec.encode_length, ih, length_cons,
      Nat.add_mul, Nat.one_mul, Nat.add_comm]

theorem readRecords_le (fuel : Nat) (bytes : Bytes) :
    (readRecords crc32c fuel bytes).2 ≤ bytes.length := by
  induction fuel generalizing bytes with
  | zero => exact Nat.zero_le _
  | succ fuel ih =>
    rw [readRecords]
    split
    case isTrue whole =>
      split
      case h_1 => exact Nat.zero_le _
      case h_2 =>
        have rest := ih (bytes.drop sidecarRecSize)
        rw [length_drop] at rest
        dsimp only
        omega
    case isFalse => exact Nat.zero_le _

/-- What is read from the start of a sidecar are its first records. -/
theorem readSidecar_start
    (file : bytes <+: sidecarFile crc32c entries)
    (fits : ∀ entry ∈ entries, entry.Fits) :
    ∃ kept valid, kept <+: entries ∧
      readSidecar crc32c bytes true = (kept, valid) ∧
      (valid = 0 ∧ kept = [] ∨
        valid = 8 + kept.length * sidecarRecSize ∧ valid ≤ bytes.length) := by
  obtain ⟨kept, isKept, read⟩ := readSidecar_take crc32c
    (fun entry member => (fits entry member).formed) bytes.length
  have same : (sidecarMagic ++ entries.flatMap
      (SidecarRec.encode crc32c)).take bytes.length = bytes :=
    (prefix_iff_eq_take.mp file).symm
  rw [same] at read
  split at read
  case isTrue => exact ⟨[], 0, nil_prefix, read, .inl ⟨rfl, rfl⟩⟩
  case isFalse long =>
    refine ⟨kept, _, isKept, read, .inr ⟨rfl, ?_⟩⟩
    have covered := @readRecords_le crc32c bytes.length (bytes.drop 8)
    rw [length_drop] at covered
    rw [readSidecar, if_pos rfl] at read
    split at read
    case isTrue =>
      have isValid := congrArg Prod.snd read
      change 0 = 8 + _ at isValid
      omega
    case isFalse =>
      have isValid := congrArg Prod.snd read
      change 8 + (readRecords crc32c bytes.length (bytes.drop 8)).2 = _
        at isValid
      change ¬bytes.length < 8 at long
      omega

theorem drop_flatMap_encode (entries : List SidecarRec) (count : Nat) :
    (entries.flatMap (SidecarRec.encode crc32c)).drop
        (count * sidecarRecSize) =
      (entries.drop count).flatMap (SidecarRec.encode crc32c) := by
  rcases Nat.lt_or_ge entries.length count with beyond | inside
  · have total := @length_flatMap_encode crc32c entries
    rw [drop_eq_nil_of_le (Nat.le_of_lt beyond), drop_eq_nil_of_le]
    · rfl
    · unfold sidecarRecSize at *
      omega
  · have front := @length_flatMap_encode crc32c (entries.take count)
    rw [length_take, Nat.min_eq_left inside] at front
    conv_lhs => rw [← take_append_drop count entries]
    rw [flatMap_append, drop_left' front]

/-- The front of a sidecar up to a record boundary is a sidecar. -/
theorem take_of_prefix_sidecarFile
    (file : bytes <+: sidecarFile crc32c entries)
    (few : count ≤ entries.length)
    (inside : 8 + count * sidecarRecSize ≤ bytes.length) :
    bytes.take (8 + count * sidecarRecSize) =
      sidecarFile crc32c (entries.take count) := by
  have front : (sidecarFile crc32c (entries.take count)).length =
      8 + count * sidecarRecSize := by
    rw [sidecarFile, length_append, length_flatMap_encode,
      length_take, Nat.min_eq_left few]
    rfl
  have split : sidecarFile crc32c entries =
      sidecarFile crc32c (entries.take count) ++
        (entries.drop count).flatMap (SidecarRec.encode crc32c) := by
    rw [sidecarFile, sidecarFile, append_assoc, ← flatMap_append,
      take_append_drop]
  obtain ⟨more, whole⟩ := file
  rw [← take_append_of_le_length inside, whole, split, take_left' front]

/-- What is read from a record boundary on are the records that follow. -/
theorem readSidecar_tail
    (file : bytes <+: sidecarFile crc32c entries)
    (fits : ∀ entry ∈ entries, entry.Fits) (count : Nat) :
    ∃ kept, kept <+: entries.drop count ∧
      readSidecar crc32c (bytes.drop (8 + count * sidecarRecSize)) false =
        (kept, kept.length * sidecarRecSize) := by
  have whole : (sidecarFile crc32c entries).drop (8 + count * sidecarRecSize) =
      (entries.drop count).flatMap (SidecarRec.encode crc32c) := by
    rw [sidecarFile, drop_append, drop_eq_nil_of_le (by simp),
      nil_append, ← drop_flatMap_encode]
    congr 1
    exact Nat.add_sub_cancel_left _ _
  have isTail := file.drop (8 + count * sidecarRecSize)
  rw [whole] at isTail
  have same := prefix_iff_eq_take.mp isTail
  obtain ⟨kept, isKept, read⟩ := @readRecords_take crc32c (entries.drop count)
    (bytes.drop (8 + count * sidecarRecSize)).length
    (bytes.drop (8 + count * sidecarRecSize)).length
    (fun entry member => (fits entry (mem_of_mem_drop member)).formed)
    (by unfold sidecarRecSize; omega)
  rw [← same] at read
  exact ⟨kept, isKept, by rw [readSidecar, if_neg (by simp), read]⟩

/-! ## Recovery -/

variable (crc32c) in
/-- What a recovery finds in a segment with a log: all of the log, and how much
of the sidecar agrees with it. -/
structure Recovered.Agrees (recovered : Recovered) (data : Bytes)
    (log : List StoredRecord) (sidecar : Bytes) (entries : List SidecarRec)
    (limit : Nat) : Prop where
  index_eq : recovered.index = indexFrom magicHeader.length log
  dataEnd_eq : recovered.dataEnd = logEnd crc32c log
  durable_le : recovered.durable ≤ (max 8 limit : Nat)
  missing : ∀ entry ∈ recovered.missing, Lies crc32c data entry
  kept : recovered.sidecarEnd = 0 ∨ ∃ count ≤ entries.length,
    recovered.sidecarEnd = (8 + count * sidecarRecSize : Nat) ∧
    8 + count * sidecarRecSize ≤ sidecar.length ∧
    ∀ entry ∈ entries.take count, entry.kind = .entry → Lies crc32c data entry

theorem LogAt.entriesInOrder_subset
    (at_ : LogAt crc32c bytes off log rest)
    (noMore : NoRecord crc32c rest) (index : Index) (fuel : Nat) :
    entriesInOrder crc32c bytes index fuel off ⊆ entriesFrom off log := by
  induction fuel generalizing off log with
  | zero => exact nil_subset _
  | succ fuel ih =>
    rw [entriesInOrder]
    cases log with
    | nil =>
      obtain ⟨failure, stops⟩ := at_.parse_nil noMore
      rw [stops]
      exact nil_subset _
    | cons stored log =>
      obtain ⟨-, -, parsed, next⟩ := at_.cons
      rw [parsed]
      dsimp only
      split
      · exact cons_subset_cons _ (ih next)
      · exact subset_cons_of_subset _ (ih next)

section Recovery

variable {data sidecar : Bytes} {entries : List SidecarRec} {limit : Nat}
  {version : UInt8} {log : List StoredRecord} {rest : Bytes}
  {recovered : Recovered}

/-- Recovery by the sidecar declines a file without a header. -/
theorem recoverFrom_headless
    (headless : isHeader (data.take 8) = false) :
    recoverFrom crc32c data data.length sidecar = .ok none := by
  unfold recoverFrom
  split
  case isTrue => rfl
  case isFalse usable =>
    rw [not_or, Int.not_lt] at usable
    have longEnough : 8 ≤ data.length := Int.ofNat_le.mp usable.2
    change (readRange data 0 8 >>= _) = _
    rw [readRange_header longEnough, ok_bind, if_pos (by rw [headless]; decide)]

/-- Without a header there is nothing to recover. -/
theorem recoverSegment_headless
    (headless : isHeader (data.take 8) = false)
    (success : recoverSegment crc32c data sidecar = .ok recovered) :
    recovered.sealed = false ∧ recovered.index = .empty ∧
      recovered.dataEnd = 0 ∧ recovered.sidecarEnd = 0 ∧
      recovered.durable = 8 ∧ checkVersion data = .ok () := by
  unfold recoverSegment at success
  rw [recoverFrom_headless headless, ok_bind] at success
  obtain ⟨whole, scanned, success⟩ := bind_eq_ok_iff.mp success
  obtain ⟨scan, isScan, scanned⟩ := bind_eq_ok_iff.mp scanned
  obtain ⟨_, checked, isScan⟩ := bind_eq_ok_iff.mp
    (mapError_eq_ok_iff.mp isScan)
  rw [if_pos (.inr (by
    change ¬isHeader (data.take 8) = true
    rw [headless]
    decide))] at isScan
  have isScan := Except.ok.inj isScan
  have isWhole := Except.ok.inj scanned
  have isRecovered := Except.ok.inj success
  subst isRecovered isWhole isScan
  exact ⟨rfl, rfl, rfl, rfl, rfl, checked⟩

variable (side : Reads crc32c data sidecar entries limit)
variable (reads : readsVersion version = true) (noMore : NoRecord crc32c rest)
variable (isSegment : data = segment crc32c version log rest)
variable (small : data.length < 2 ^ 63)
include side reads noMore isSegment small

/-- Recovery by the sidecar declines or finds the log. -/
theorem recoverFrom_trusted :
    recoverFrom crc32c data data.length sidecar = .ok none ∨
      ∃ recovered,
        recoverFrom crc32c data data.length sidecar = .ok (some recovered) ∧
        recovered.sealed = false ∧ carriesFooter crc32c data = false ∧
        recovered.Agrees crc32c data log sidecar entries limit := by
  obtain ⟨kept, valid, isKept, read, validEq⟩ :=
    readSidecar_start side.file side.fits
  subst isSegment
  have longEnough : 8 ≤ (segment crc32c version log rest).length := by
    have := length_segment crc32c version log rest
    have := @header_le_logEnd crc32c log
    omega
  unfold recoverFrom
  split
  case isTrue => exact .inl rfl
  case isFalse usable =>
    change (readRange (segment crc32c version log rest) 0 8 >>= _) = _ ∨
      ∃ recovered, (readRange (segment crc32c version log rest) 0 8 >>= _) =
        _ ∧ _
    obtain ⟨trailer, answered⟩ :=
      endsInTrailer_eq_ok (segment crc32c version log rest)
    rw [readRange_header longEnough, ok_bind, if_neg (not_not.mpr
      (isHeader_segment crc32c reads log rest)), answered, ok_bind]
    cases trailer with
    | true => exact .inl rfl
    | false =>
      rw [if_neg (by decide)]
      have advanced := @advance_trusted crc32c .empty version reads log
        rest noMore small [] log rfl
        ⟨magicHeader.length, 0, magicHeader.length⟩
        (by rw [startOf, if_neg (Int.lt_irrefl _)]; rfl) sidecar kept valid
        read limit
        (by
          change ((8 : Nat) : Int) ≤ _
          omega)
        (side.subset isKept.subset)
      rcases advanced with declined | ⟨mid, more, count, durable,
        split, few, durableLe, isSome, known⟩
      · rw [declined, ok_bind]
        exact .inl rfl
      · rw [isSome, ok_bind]
        refine .inr ⟨_, rfl, rfl, carriesFooter_of_endsInTrailer answered,
          ?_, rfl, durableLe, ?_, ?_⟩
        · change (entriesFrom magicHeader.length log).foldl _ _ = _
          rw [foldl_entriesFrom, Index.atop_empty]
        · refine Lies.of_entriesFrom ?_
          rw [nil_append, ← split]
          exact Holds.of_segment reads log rest
        · right
          have positive : valid ≠ 0 := by
            intro isZero
            exact usable (.inl (by rw [read, isZero]))
          rcases validEq with ⟨isZero, -⟩ | ⟨isValid, inside⟩
          · exact absurd isZero positive
          · have sameTake : entries.take count = kept.take count := by
              obtain ⟨others, rfl⟩ := isKept
              exact take_append_of_le_length few
            refine ⟨count, few.trans isKept.length_le, ?_, ?_, ?_⟩
            · change 0 + ((if 0 = (0 : Int) ∧ valid > 0 then
                ((8 : Nat) : Int) else 0) + _) = _
              rw [if_pos ⟨rfl, Nat.pos_of_ne_zero positive⟩]
              omega
            · unfold sidecarRecSize at *
              omega
            · rw [sameTake]
              intro entry member isEntry
              rcases known entry member isEntry with indexed | lies
              · cases indexed
              · exact lies

/-- Recovery finds the log of a file that it does not take for sealed. -/
theorem recoverSegment_trusted
    (success : recoverSegment crc32c data sidecar = .ok recovered)
    (notSealed : recovered.sealed = false) :
    recovered.Agrees crc32c data log sidecar entries limit := by
  obtain ⟨answer, answered, success⟩ := bind_eq_ok_iff.mp success
  cases answer with
  | some found =>
    have isRecovered := Except.ok.inj success
    rcases recoverFrom_trusted side reads noMore isSegment small with
      declined | ⟨other, isSome, -, -, agrees⟩
    · rw [declined] at answered
      cases answered
    · rw [isSome] at answered
      obtain rfl := Option.some.inj (Except.ok.inj answered)
      subst isRecovered
      exact ⟨agrees.index_eq, agrees.dataEnd_eq, agrees.durable_le,
        agrees.missing, agrees.kept⟩
  | none =>
    obtain ⟨whole, scanned, success⟩ := bind_eq_ok_iff.mp success
    have isRecovered := Except.ok.inj success
    subst isRecovered isSegment
    unfold fullScan at scanned
    rw [scanActive_segment crc32c reads log noMore] at scanned
    split at scanned
    case isTrue =>
      have isWhole := Except.ok.inj scanned
      subst isWhole
      cases notSealed
    case isFalse =>
      have isWhole := Except.ok.inj scanned
      subst isWhole
      refine ⟨rfl, rfl, ?_, ?_, .inl rfl⟩
      · change ((8 : Nat) : Int) ≤ _
        omega
      · intro entry member
        have inLog := (logAt_segment crc32c version log rest
          ).entriesInOrder_subset noMore _ _ member
        have holds : Holds crc32c _ ([] ++ log) :=
          Holds.of_segment reads log rest
        exact Lies.of_entriesFrom holds entry inLog

end Recovery

end Loop

end AmberStore.Packstore

import AmberStore.Packstore.TrustedSidecar

/-!
# The owner of an active segment, and crashes

An owner appends records to the data file, lists each in the sidecar, and marks
in the sidecar the lengths its fsyncs have covered.  The sidecar's writer may
stop for good at any point.  A crash keeps the data below the last synced
length and cuts the sidecar anywhere.
-/

open ByteString List

namespace AmberStore.Packstore

open Amberpack

/-! ## The protocol -/

/-- What an owner has written. -/
structure Owner where
  records : List StoredRecord
  sidecar : List SidecarRec
  stopped : Bool
  /-- The length the last fsync covered; zero before the first. -/
  synced : Nat

/-- What an owner does. -/
inductive OwnerStep
  | append (stored : StoredRecord)
  | fsync
  | mark
  | stop

namespace Owner

variable (crc32c : Bytes → UInt32)

/-- The owner of a new segment. -/
def start : Owner := ⟨[], [], false, 0⟩

/-- Writes a sidecar record, unless the writer has stopped. -/
def note (owner : Owner) (record : SidecarRec) : Owner :=
  if owner.stopped then owner
  else { owner with sidecar := owner.sidecar ++ [record] }

/-- One step of an owner. -/
def step (owner : Owner) : OwnerStep → Owner
  | .append stored =>
    note { owner with records := owner.records ++ [stored] }
      (.entry stored.key (locOf (logEnd crc32c owner.records) stored.header))
  | .fsync => { owner with synced := logEnd crc32c owner.records }
  | .mark => if owner.synced = 0 then owner else note owner (.synced owner.synced)
  | .stop => { owner with stopped := true }

/-- The owner after a run of steps. -/
def run (steps : List OwnerStep) : Owner :=
  steps.foldl (step crc32c) start

/-- The data file's bytes. -/
def dataBytes (version : UInt8) (owner : Owner) : Bytes :=
  segment crc32c version owner.records []

/-- The sidecar file's bytes. -/
def sidecarBytes (owner : Owner) : Bytes :=
  sidecarMagic ++ owner.sidecar.flatMap (SidecarRec.encode crc32c)

end Owner

/-! ## What every run keeps -/

theorem logEnd_mono
    (crc32c : Bytes → UInt32)
    (isPrefix : left <+: right) :
    logEnd crc32c left ≤ logEnd crc32c right := by
  obtain ⟨more, rfl⟩ := isPrefix
  rw [logEnd_append]
  exact Nat.le_add_right _ _

/-- A sidecar record lists a record of the data file, or marks no more than
was synced. -/
inductive Tells (crc32c : Bytes → UInt32) (owner : Owner) : SidecarRec → Prop
  | entry {done : List StoredRecord} {stored : StoredRecord}
      (listed : done ++ [stored] <+: owner.records) :
      Tells crc32c owner
        (.entry stored.key (locOf (logEnd crc32c done) stored.header))
  | mark {dataLen : Nat} (covered : dataLen ≤ owner.synced) :
      Tells crc32c owner (.synced dataLen)

/-- The sidecar mirrors the data file. -/
structure Mirrors (crc32c : Bytes → UInt32) (owner : Owner) : Prop where
  tells : ∀ record ∈ owner.sidecar, Tells crc32c owner record
  synced_le : owner.synced ≤ logEnd crc32c owner.records

/-- What a sidecar record tells of an owner holds of one that has written and
synced more. -/
theorem Tells.mono
    (tells : Tells crc32c owner record)
    (moreRecords : owner.records <+: later.records)
    (moreSynced : owner.synced ≤ later.synced) :
    Tells crc32c later record := by
  cases tells with
  | entry listed => exact .entry (listed.trans moreRecords)
  | mark covered => exact .mark (covered.trans moreSynced)

namespace Mirrors

variable {crc32c : Bytes → UInt32} {owner : Owner}

/-- A record that tells the truth can be written to the sidecar. -/
theorem note
    (mirrors : Mirrors crc32c owner)
    (tells : Tells crc32c owner record) :
    Mirrors crc32c (owner.note record) := by
  rw [Owner.note]
  split
  · exact mirrors
  · refine ⟨fun other member => ?_, mirrors.synced_le⟩
    rcases mem_append.mp member with earlier | last
    · exact (mirrors.tells other earlier).mono prefix_rfl le_rfl
    · rw [mem_singleton.mp last]
      exact tells.mono prefix_rfl le_rfl

theorem append (mirrors : Mirrors crc32c owner) (stored : StoredRecord) :
    Mirrors crc32c (owner.step crc32c (.append stored)) := by
  have more := prefix_append owner.records [stored]
  refine note ⟨fun record member => ?_, ?_⟩ (.entry prefix_rfl)
  · exact (mirrors.tells record member).mono more le_rfl
  · exact mirrors.synced_le.trans (logEnd_mono crc32c more)

theorem step (mirrors : Mirrors crc32c owner) (action : OwnerStep) :
    Mirrors crc32c (owner.step crc32c action) := by
  cases action with
  | append stored => exact mirrors.append stored
  | fsync =>
    exact ⟨fun record member => (mirrors.tells record member).mono
      prefix_rfl mirrors.synced_le, le_rfl⟩
  | mark =>
    rw [Owner.step]
    split
    · exact mirrors
    · exact mirrors.note (.mark le_rfl)
  | stop =>
    exact ⟨fun record member => (mirrors.tells record member).mono
      prefix_rfl le_rfl, mirrors.synced_le⟩

theorem start : Mirrors crc32c Owner.start :=
  ⟨fun _ absent => absurd absent not_mem_nil, Nat.zero_le _⟩

end Mirrors

/-- In every run the sidecar mirrors the data file. -/
theorem mirrors_run (crc32c : Bytes → UInt32) (steps : List OwnerStep) :
    Mirrors crc32c (Owner.run crc32c steps) :=
  List.foldlRecOn steps _ Mirrors.start
    (fun _ mirrors action _ => mirrors.step action)

/-! ## Crash images -/

namespace Tells

variable {crc32c : Bytes → UInt32} {owner : Owner} {record : SidecarRec}

/-- The sidecar of a log that is shorter than a signed integer is written as it
is. -/
theorem fits
    (tells : Tells crc32c owner record)
    (recordsFit : logEnd crc32c owner.records < 2 ^ 63)
    (syncedFits : owner.synced < 2 ^ 63) :
    record.Fits := by
  cases tells with
  | @entry done stored listed =>
    have below := logEnd_mono crc32c listed
    rw [← Lies.stop_eq rfl] at below
    refine ⟨⟨?_, stored.ulen_lt, stored.payload_length_lt, ?_⟩,
      fun _ => Nat.lt_of_le_of_lt below recordsFit⟩
    · unfold SidecarRec.stop at below
      omega
    · intro isMark
      cases isMark
  | mark covered =>
    refine ⟨⟨Nat.lt_of_le_of_lt covered syncedFits, Nat.two_pow_pos 32,
      Nat.two_pow_pos 32, fun _ => ⟨rfl, rfl, rfl, rfl⟩⟩, ?_⟩
    intro isEntry
    cases isEntry

/-- An entry whose record was synced describes it in data that keeps what was
synced. -/
theorem lies
    (tells : Tells crc32c owner record)
    (shared : (owner.dataBytes crc32c version).take owner.synced <+: data)
    (isSegment : isHeader (data.take 8) = true)
    (isEntry : record.kind = .entry) (synced : record.stop ≤ owner.synced) :
    Lies crc32c data record := by
  cases tells with
  | @entry done stored listed =>
    rw [Lies.stop_eq rfl] at synced
    obtain ⟨more, whole⟩ := listed
    have starts : headerAt version ++ logBytes crc32c (done ++ [stored]) <+:
        data := by
      refine List.IsPrefix.trans ?_ shared
      refine prefix_take_iff.mpr ⟨?_, ?_⟩
      · rw [Owner.dataBytes, segment, ← whole,
          logBytes_append crc32c (done ++ [stored]), append_nil]
        exact (prefix_append_right_inj _).mpr (prefix_append _ _)
      · exact (length_header_log version _).trans_le synced
    refine ⟨done, stored, ⟨version, ?_, starts⟩, rfl⟩
    obtain ⟨rest, rfl⟩ := starts
    rwa [append_assoc, take_append_of_le_length (by simp),
      take_of_length_le (by simp), isHeader_headerAt] at isSegment
  | mark covered => cases isEntry

end Tells

/-- A sidecar that mirrors an owner's data recovers, however it is cut, what a
scan finds in data that keeps what was synced. -/
theorem Mirrors.recoverFrom_cut
    (mirrors : Mirrors crc32c owner)
    (fits : logEnd crc32c owner.records < 2 ^ 63)
    (dataFits : data.length < 2 ^ 63)
    (shared : (owner.dataBytes crc32c version).take owner.synced <+: data)
    (cut : Nat) :
    recoverFrom crc32c data data.length
        ((owner.sidecarBytes crc32c).take cut) = .ok none ∨
      ∃ recovered scan,
        recoverFrom crc32c data data.length
          ((owner.sidecarBytes crc32c).take cut) = .ok (some recovered) ∧
        scanActive crc32c data = .ok scan ∧ scan.sealed = false ∧
        recovered.index = scan.index ∧ recovered.dataEnd = scan.size ∧
        recovered.sealed = false := by
  by_cases isSegment : isHeader (data.take 8) = true
  · obtain ⟨other, log, rest, reads, noMore, isData⟩ :=
      exists_segment crc32c isSegment
    have syncedFits := Nat.lt_of_le_of_lt mirrors.synced_le fits
    have marked : ∀ record ∈ owner.sidecar, record.kind = .synced →
        record.off ≤ owner.synced := by
      intro record member isMark
      cases mirrors.tells record member with
      | entry listed => cases isMark
      | mark covered => exact covered
    have side : Reads crc32c data ((owner.sidecarBytes crc32c).take cut)
        owner.sidecar owner.synced :=
      ⟨⟨fun record member =>
          (mirrors.tells record member).fits fits syncedFits, marked,
        fun record member isEntry synced =>
          (mirrors.tells record member).lies shared isSegment isEntry synced⟩,
        take_prefix cut _⟩
    rcases recoverFrom_trusted side reads noMore isData dataFits with declined |
      ⟨recovered, success, notSealed, noFooter, agrees⟩
    · exact .inl declined
    · have scanned := scanActive_segment crc32c reads log noMore
      rw [← isData, if_neg (by rw [noFooter]; decide)] at scanned
      exact .inr ⟨recovered, _, success, scanned, rfl, agrees.index_eq,
        agrees.dataEnd_eq, notSealed⟩
  · exact .inl (recoverFrom_headless (Bool.eq_false_iff.mpr isSegment))

/-- After any run of the owner's protocol and any crash, recovery by the
sidecar declines or finds the index and the data end that a scan of the same
file finds. -/
theorem recoverFrom_crash
    (crc32c : Bytes → UInt32) (version : UInt8) (steps : List OwnerStep)
    (fits : ((Owner.run crc32c steps).dataBytes crc32c version).length < 2 ^ 63)
    (data : Bytes) (dataFits : data.length < 2 ^ 63)
    (kept : ((Owner.run crc32c steps).dataBytes crc32c version).take
      (Owner.run crc32c steps).synced <+: data)
    (cut : Nat) :
    recoverFrom crc32c data data.length
        (((Owner.run crc32c steps).sidecarBytes crc32c).take cut) = .ok none ∨
      ∃ recovered scan,
        recoverFrom crc32c data data.length
          (((Owner.run crc32c steps).sidecarBytes crc32c).take cut) =
            .ok (some recovered) ∧
        scanActive crc32c data = .ok scan ∧ scan.sealed = false ∧
        recovered.index = scan.index ∧ recovered.dataEnd = scan.size := by
  have mirrors := mirrors_run crc32c steps
  rw [Owner.dataBytes, length_segment, length_nil, Nat.add_zero] at fits
  rcases mirrors.recoverFrom_cut fits dataFits kept cut with declined |
    ⟨recovered, scan, success, scanned, notSealed, sameIndex, sameEnd, _⟩
  · exact .inl declined
  · exact .inr ⟨recovered, scan, success, scanned, notSealed, sameIndex,
      sameEnd⟩

/-- A run of an owner that syncs between its two appends. -/
def shortRun : List OwnerStep :=
  [.append firstRecord, .fsync, .mark, .append secondRecord]

/-- The data file of the run, which crashes four bytes into its second
record. -/
def shortData : Bytes :=
  ((Owner.run (fun _ => 0) shortRun).dataBytes (fun _ => 0) 2).take 60

/-- The sidecar of the run, which crashes inside its last entry. -/
def shortSidecar : Bytes :=
  ((Owner.run (fun _ => 0) shortRun).sidecarBytes (fun _ => 0)).take 130

/-- Recovery by this sidecar does not decline. -/
theorem recoverFrom_crash_shortRun :
    ∃ recovered scan,
      recoverFrom (fun _ => 0) shortData shortData.length shortSidecar =
        .ok (some recovered) ∧
      scanActive (fun _ => 0) shortData = .ok scan ∧ scan.sealed = false ∧
      recovered.index = scan.index ∧ recovered.dataEnd = scan.size := by
  have goesOn : (recoverFrom (fun _ => 0) shortData shortData.length
      shortSidecar).toOption.map Option.isSome = some true := by
    decide +kernel
  refine (recoverFrom_crash (fun _ => 0) 2 shortRun (by decide) shortData
    (by decide) (by decide) 130).resolve_left fun declined => ?_
  rw [shortSidecar, declined] at goesOn
  cases goesOn

end AmberStore.Packstore

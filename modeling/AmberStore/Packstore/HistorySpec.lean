import AmberStore.Packstore.History
import AmberStore.Lib.Runs

/-!
# What the history of an active segment keeps

The largest mark ever written to the sidecar is the end of a record and lies
within what an fsync has covered, so nothing that happens to the file changes
what is below it.  Entries whose records end there describe them.  That is all
a reader trusts, and so it always stands at the end of a record, with the index
of the records before it.
-/

open ByteString List Option

namespace AmberStore.Packstore.History

open Amberpack

/-! ## The invariant -/

section Invariant

variable (crc32c : Bytes → UInt32)

/-- A reader stands at the end of a record, with the index of the records
before it, or before the header. -/
structure SegmentScan.Ok (scan : SegmentScan) (data : Bytes) (limit : Nat) :
    Prop where
  durable_le : scan.at_.durable ≤ (max 8 limit : Nat)
  sidecarEnd_eq : scan.at_.sidecarEnd = 0 ∨
    ∃ count : Nat, scan.at_.sidecarEnd = (8 + count * sidecarRecSize : Nat)
  stands : scan.at_.pos = 0 ∧ scan.index = .empty ∨
    ∃ done, Holds crc32c data done ∧ scan.at_.pos = logEnd crc32c done ∧
      scan.index = indexFrom magicHeader.length done

/-- A record that the owner is about to write to the sidecar is true. -/
def IsTrue (world : World) (size : Nat) (record : SidecarRec) : Prop :=
  Lies crc32c world.data record ∨ record = .synced size ∧ size ≤ world.covered

/-- What holds of an owner. -/
structure ActiveWriter.Ok (writer : ActiveWriter) (world : World)
    (entries : List SidecarRec) : Prop where
  isSegment : ∃ version records rest, readsVersion version = true ∧
    NoRecord crc32c rest ∧
    world.data = segment crc32c version records rest ∧
    writer.size = logEnd crc32c records
  listed : writer.writing = true →
    world.sidecar = some (sidecarFile crc32c entries) ∧
    ∀ entry ∈ entries, entry.kind = .entry → Lies crc32c world.data entry
  todo : ∀ record ∈ writer.todo, IsTrue crc32c world writer.size record

/-- What holds of how far the next owner is. -/
def Phase.Ok (world : World) (entries : List SidecarRec) : Phase → Prop
  | .free => True
  | .heading _ version recovered =>
    readsVersion version = true ∧ world.data.length < 8 ∧
      world.covered = 0 ∧ recovered.sidecarEnd = 0 ∧ recovered.missing = []
  | .opening _ fsynced size recovered =>
    (∃ version records, readsVersion version = true ∧
      world.data = segment crc32c version records [] ∧
      size = logEnd crc32c records) ∧
    (fsynced = true → size ≤ world.covered) ∧
    (∀ entry ∈ recovered.missing, Lies crc32c world.data entry) ∧
    (recovered.sidecarEnd = 0 ∨ ∃ count ≤ entries.length,
      recovered.sidecarEnd = (8 + count * sidecarRecSize : Nat) ∧
      (∀ bytes, world.sidecar = some bytes →
        8 + count * sidecarRecSize ≤ bytes.length) ∧
      ∀ entry ∈ entries.take count, entry.kind = .entry →
        Lies crc32c world.data entry)
  | .owned writer => writer.Ok crc32c world entries

/-- The invariant, with the largest mark and the sidecar's records. -/
structure World.Inv (world : World) (marked : Nat)
    (entries : List SidecarRec) : Prop where
  small : world.data.length < 2 ^ 63
  covered_le : world.covered ≤ world.data.length
  marked_le : marked ≤ world.covered
  boundary : marked = 0 ∨
    ∃ records, Holds crc32c world.data records ∧ marked = logEnd crc32c records
  reads : Reads crc32c world.data (world.sidecar.getD []) entries marked
  scan : ∀ scan, world.scan = some scan → scan.Ok crc32c world.data marked
  seen : ∀ sidecar, world.seen = some sidecar → ∃ limit entries,
    limit ≤ marked ∧
    Reads crc32c world.data (sidecar.getD []) entries limit ∧
    ∀ scan, world.scan = some scan → scan.at_.durable ≤ (max 8 limit : Nat)
  phase : world.phase.Ok crc32c world entries

end Invariant

variable {crc32c : Bytes → UInt32} {world after : World} {marked : Nat}
  {entries : List SidecarRec}

variable {phase : Phase}

/-- What holds of the phase depends on the files alone. -/
theorem Phase.Ok.of_files
    (ok : phase.Ok crc32c world entries)
    (data : after.data = world.data) (covered : after.covered = world.covered)
    (sidecar : after.sidecar = world.sidecar) :
    phase.Ok crc32c after entries := by
  cases phase with
  | free => trivial
  | heading sync version recovered =>
    simpa only [Phase.Ok, data, covered] using ok
  | opening sync fsynced size recovered =>
    simpa only [Phase.Ok, data, covered, sidecar] using ok
  | owned writer =>
    refine ⟨?_, ?_, ?_⟩
    · rw [data]
      exact ok.isSegment
    · rw [data, sidecar]
      exact ok.listed
    · unfold IsTrue
      rw [data, covered]
      exact ok.todo

theorem World.IsInitial.inv (isInitial : world.IsInitial) :
    world.Inv crc32c 0 [] where
  small := isInitial.small
  covered_le := isInitial.covered_le
  marked_le := Nat.zero_le _
  boundary := .inl rfl
  reads := by
    rw [isInitial.sidecar]
    exact ⟨⟨nofun, nofun, nofun⟩, nil_prefix⟩
  scan scan isScan := by
    rw [isInitial.scan] at isScan
    cases isScan
  seen sidecar isSeen := by
    rw [isInitial.seen] at isSeen
    cases isSeen
  phase := by
    rw [isInitial.phase]
    trivial

/-! ## What a change of the data keeps -/

section Kept

variable {data data' : Bytes} {size limit : Nat}

theorem SegmentScan.Ok.of_endsBy
    {scan : SegmentScan} (ok : scan.Ok crc32c data limit)
    (ends : EndsBy crc32c data size) (kept : data.take size <+: data') :
    scan.Ok crc32c data' limit := by
  refine ⟨ok.durable_le, ok.sidecarEnd_eq, ok.stands.imp_right ?_⟩
  rintro ⟨done, holds, isPos, isIndex⟩
  exact ⟨done, holds.of_take (ends _ holds) kept, isPos, isIndex⟩

end Kept

/-- The largest mark is below where every record ends. -/
theorem World.Inv.marked_le_of_endsBy
    (inv : world.Inv crc32c marked entries)
    (ends : EndsBy crc32c world.data size) : marked ≤ size := by
  rcases inv.boundary with isZero | ⟨records, holds, isMarked⟩
  · omega
  · rw [isMarked]
    exact ends records holds

/-- The data changes behind its records. -/
theorem World.Inv.rewrite
    (inv : world.Inv crc32c marked entries) {size : Nat}
    (ends : EndsBy crc32c world.data size)
    (kept : world.data.take size <+: after.data)
    (small : after.data.length < 2 ^ 63)
    (covered_le : after.covered ≤ after.data.length)
    (covered_ge : min world.covered size ≤ after.covered)
    (sidecar : after.sidecar = world.sidecar) (scan : after.scan = world.scan)
    (seen : after.seen = world.seen)
    (phase : after.phase.Ok crc32c after entries) :
    after.Inv crc32c marked entries where
  small := small
  covered_le := covered_le
  marked_le := by
    have := inv.marked_le
    have := inv.marked_le_of_endsBy ends
    omega
  boundary := by
    refine inv.boundary.imp_right ?_
    rintro ⟨records, holds, isMarked⟩
    exact ⟨records, holds.of_take (ends _ holds) kept, isMarked⟩
  reads := by
    rw [sidecar]
    exact inv.reads.of_endsBy ends kept
  scan reader isScan := by
    rw [scan] at isScan
    exact (inv.scan reader isScan).of_endsBy ends kept
  seen read isSeen := by
    rw [seen] at isSeen
    obtain ⟨limit, others, below, reads, durable⟩ := inv.seen read isSeen
    refine ⟨limit, others, below, reads.of_endsBy ends kept, ?_⟩
    rw [scan]
    exact durable
  phase := phase

theorem ActiveWriter.Ok.size_le
    {writer : ActiveWriter} (ok : writer.Ok crc32c world entries) :
    writer.size ≤ world.data.length := by
  obtain ⟨version, records, rest, -, -, isData, isSize⟩ := ok.isSegment
  rw [isSize, isData, length_segment]
  exact Nat.le_add_right _ _

/-! ## Taking over -/

theorem take_segment
    (version : UInt8) (records : List StoredRecord) (rest : Bytes) :
    (segment crc32c version records rest).take (logEnd crc32c records) =
      segment crc32c version records [] := by
  rw [segment, segment, ← append_assoc, ← length_header_log version,
    take_left, append_nil]

namespace World.Inv

variable (inv : world.Inv crc32c marked entries)

include inv

/-- A file without a header is started over. -/
theorem adoptHeadless
    (headless : isHeader (world.data.take 8) = false)
    (reads : readsVersion version = true)
    (recovered : Recovered) :
    World.Inv crc32c
      { world with
        data := []
        covered := 0
        phase := .heading sync version
          { recovered with sidecarEnd := 0, missing := [] } }
      marked entries :=
  inv.rewrite (endsBy_of_headless headless) nil_prefix (by simp)
    le_rfl (by simp) rfl rfl rfl
    ⟨reads, by simp, rfl, rfl, rfl⟩

/-- A segment is cut to its log. -/
theorem adoptCut
    (reads : readsVersion version = true)
    (noMore : NoRecord crc32c rest)
    (isSegment : world.data = segment crc32c version log rest)
    (agrees : recovered.Agrees crc32c world.data log (world.sidecar.getD [])
      entries marked) (sync : Bool) :
    World.Inv crc32c
      { world with
        data := world.data.take recovered.dataEnd.toNat
        covered := min world.covered recovered.dataEnd.toNat
        phase := .opening sync false recovered.dataEnd.toNat recovered }
      marked entries := by
  have ends : EndsBy crc32c world.data (logEnd crc32c log) := by
    rw [isSegment]
    exact endsBy_segment noMore
  have isEnd : recovered.dataEnd.toNat = logEnd crc32c log := by
    rw [agrees.dataEnd_eq, Int.toNat_natCast]
  have isCut : world.data.take (logEnd crc32c log) =
      segment crc32c version log [] := by
    rw [isSegment, take_segment]
  have lies : ∀ entry, Lies crc32c world.data entry →
      Lies crc32c (world.data.take (logEnd crc32c log)) entry :=
    fun entry lies => lies.of_endsBy ends prefix_rfl
  have within := inv.small
  rw [isEnd]
  refine inv.rewrite ends prefix_rfl ?_ ?_ le_rfl rfl rfl rfl
    ⟨⟨version, log, reads, isCut, rfl⟩, nofun,
      fun entry member => lies entry (agrees.missing entry member),
      agrees.kept.imp_right ?_⟩
  · rw [length_take]
    omega
  · have := inv.covered_le
    rw [length_take]
    dsimp only
    omega
  · rintro ⟨count, few, isValid, inside, listed⟩
    refine ⟨count, few, isValid, fun bytes isBytes => ?_,
      fun entry member isEntry => lies entry (listed entry member isEntry)⟩
    change world.sidecar = some bytes at isBytes
    rwa [isBytes] at inside

theorem adopt
    (reads : readsVersion version = true)
    (adopted : world.adopt crc32c sync version minVersion = some after) :
    after.Inv crc32c marked entries := by
  unfold World.adopt at adopted
  dsimp only at adopted
  obtain ⟨-, adopted⟩ := ite_none_left_eq_some.mp adopted
  split at adopted
  case h_1 => cases adopted
  case h_2 recovered success =>
    obtain ⟨notSealed, adopted⟩ := ite_none_left_eq_some.mp adopted
    rw [Bool.not_eq_true] at notSealed
    cases headed : isHeader (world.data.take 8) with
    | false =>
      obtain ⟨-, -, isEnd, -⟩ := recoverSegment_headless headed success
      rw [if_pos (by rw [isEnd]; decide)] at adopted
      cases adopted
      exact inv.adoptHeadless headed reads recovered
    | true =>
      obtain ⟨found, log, rest, foundReads, noMore, isSegment⟩ :=
        exists_segment crc32c headed
      have agrees := recoverSegment_trusted inv.reads foundReads noMore
        isSegment inv.small success notSealed
      have past := @header_le_logEnd crc32c log
      rw [if_neg (by
        rw [agrees.dataEnd_eq]
        change ¬(_ : Int) < (8 : Nat)
        omega)] at adopted
      obtain ⟨-, ⟨⟩⟩ := ite_none_left_eq_some.mp adopted
      exact inv.adoptCut foundReads noMore isSegment agrees sync

/-- The header arrives. -/
theorem header
    (isPhase : world.phase = .heading sync version recovered) (size : Nat) :
    World.Inv crc32c
      { world with
        data := (headerAt version).take size
        phase := if size < magicHeader.length then
            .heading sync version recovered
          else .opening sync false magicHeader.length recovered }
      marked entries := by
  have phaseOk := inv.phase
  rw [isPhase] at phaseOk
  obtain ⟨reads, short, uncovered, isZero, none⟩ := phaseOk
  refine inv.rewrite (endsBy_of_headless (headless_of_short short))
    nil_prefix ?_ ?_ ?_ rfl rfl rfl ?_
  · rw [length_take, headerAt_length]
    omega
  · dsimp only
    omega
  · dsimp only
    omega
  · split
    case isTrue early =>
      refine ⟨reads, ?_, uncovered, isZero, none⟩
      change size < 8 at early
      rw [length_take, headerAt_length]
      omega
    case isFalse whole =>
      refine ⟨⟨version, [], reads, ?_, rfl⟩, ?_, ?_, .inl isZero⟩
      · change ¬size < 8 at whole
        rw [take_of_length_le (by rw [headerAt_length]; omega)]
        simp [segment]
      · simp
      · rw [none]
        simp

/-- Only what the new owner is at changes. -/
theorem rephase
    (phaseOk : phase.Ok crc32c { world with phase := phase } entries) :
    World.Inv crc32c { world with phase := phase } marked entries :=
  ⟨inv.small, inv.covered_le, inv.marked_le, inv.boundary, inv.reads, inv.scan,
    inv.seen, phaseOk⟩

/-- An fsync covers the data. -/
theorem cover
    (phaseOk : phase.Ok crc32c
      { world with covered := world.data.length, phase := phase } entries) :
    World.Inv crc32c
      { world with covered := world.data.length, phase := phase } marked
      entries :=
  ⟨inv.small, le_rfl, inv.marked_le.trans inv.covered_le, inv.boundary,
    inv.reads, inv.scan, inv.seen, phaseOk⟩

/-- The sidecar changes, and with it the largest mark may grow. -/
theorem residecar
    {sidecar : Option Bytes}
    (grows : marked ≤ marked') (marked_le : marked' ≤ world.covered)
    (boundary : marked' = 0 ∨ ∃ records, Holds crc32c world.data records ∧
      marked' = logEnd crc32c records)
    (reads : Reads crc32c world.data (sidecar.getD []) entries' marked')
    (phaseOk : phase.Ok crc32c
      { world with sidecar := sidecar, phase := phase } entries') :
    World.Inv crc32c { world with sidecar := sidecar, phase := phase } marked'
      entries' where
  small := inv.small
  covered_le := inv.covered_le
  marked_le := marked_le
  boundary := boundary
  reads := reads
  scan scan isScan := by
    have ok := inv.scan scan isScan
    refine ⟨ok.durable_le.trans ?_, ok.sidecarEnd_eq, ok.stands⟩
    omega
  seen sidecar isSeen := by
    obtain ⟨limit, others, below, reads, durable⟩ := inv.seen sidecar isSeen
    exact ⟨limit, others, below.trans grows, reads, durable⟩
  phase := phaseOk

/-- The segment is the new owner's, and so is the sidecar if it says what the
data holds. -/
theorem own
    (isPhase : world.phase = .opening sync fsynced size recovered)
    {sidecar : Option Bytes}
    (reads : Reads crc32c world.data (sidecar.getD []) entries' marked)
    (listed : writing = true → sidecar = some (sidecarFile crc32c entries') ∧
      ∀ entry ∈ entries', entry.kind = .entry → Lies crc32c world.data entry) :
    World.Inv crc32c
      { world with
        sidecar := sidecar
        phase := .owned ⟨sync, false, size, recovered.index, writing,
          recovered.missing ++ if fsynced then [.synced size] else []⟩ }
      marked entries' := by
  have phaseOk := inv.phase
  rw [isPhase] at phaseOk
  obtain ⟨⟨version, records, readsVersion, isSegment, isSize⟩, covered,
    missing, -⟩ := phaseOk
  refine inv.residecar le_rfl inv.marked_le inv.boundary reads
    ⟨⟨version, records, [], readsVersion, noRecord_nil crc32c, isSegment,
      isSize⟩, listed, ?_⟩
  intro record member
  rcases mem_append.mp member with isMissing | isMark
  · exact .inl (missing record isMissing)
  · cases fsynced with
    | false => cases isMark
    | true => exact .inr ⟨mem_singleton.mp isMark, covered rfl⟩

/-- The new owner brings the sidecar in line. -/
theorem openSidecar
    {recovered : Recovered}
    (isPhase : world.phase = .opening sync fsynced size recovered)
    (opened : World.openAt world.sidecar recovered.sidecarEnd.toNat =
      some bytes) :
    ∃ entries', World.Inv crc32c
      { world with
        sidecar := some bytes
        phase := .owned ⟨sync, false, size, recovered.index, true,
          recovered.missing ++ if fsynced then [.synced size] else []⟩ }
      marked entries' := by
  have phaseOk := inv.phase
  rw [isPhase] at phaseOk
  obtain ⟨-, -, -, kept⟩ := phaseOk
  unfold World.openAt at opened
  split at opened
  case isTrue =>
    obtain rfl := some.inj opened
    have isFile : sidecarMagic = sidecarFile crc32c [] := (append_nil _).symm
    refine ⟨[], inv.own isPhase ⟨⟨nofun, nofun, nofun⟩, ?_⟩
      fun _ => ⟨congrArg some isFile, nofun⟩⟩
    exact isFile ▸ prefix_rfl
  case isFalse long =>
    obtain ⟨old, isOld, rfl⟩ := map_eq_some_iff.mp opened
    rcases kept with isZero | ⟨count, few, isValid, inside, listed⟩
    · rw [isZero] at long
      exact absurd (by decide) long
    · have front := inv.reads.file
      rw [isOld] at front
      have isFile : old.take recovered.sidecarEnd.toNat =
          sidecarFile crc32c (entries.take count) := by
        rw [isValid, Int.toNat_natCast]
        exact take_of_prefix_sidecarFile front few (inside old isOld)
      refine ⟨entries.take count, inv.own isPhase
        ⟨inv.reads.subset (take_subset _ _), ?_⟩
        fun _ => ⟨congrArg some isFile, listed⟩⟩
      exact isFile ▸ prefix_rfl

/-- The steps of taking over keep the invariant. -/
theorem adoptStep
    (acted : world.adoptStep crc32c action = some after) :
    ∃ entries', after.Inv crc32c marked entries' := by
  unfold World.adoptStep at acted
  split at acted <;> try contradiction
  all_goals split at acted <;> try contradiction
  case h_1 =>
    obtain ⟨reads, acted⟩ := ite_none_right_eq_some.mp acted
    exact ⟨entries, inv.adopt reads acted⟩
  case h_1 size _ sync version recovered isPhase =>
    cases acted
    exact ⟨entries, inv.header isPhase size⟩
  case h_1 success _ sync size recovered isPhase =>
    have phaseOk := inv.phase
    rw [isPhase] at phaseOk
    obtain ⟨isSegment, -, missing, kept⟩ := phaseOk
    obtain ⟨-, acted⟩ := ite_none_left_eq_some.mp acted
    cases success with
    | true =>
      cases acted
      refine ⟨entries, inv.cover ⟨isSegment, fun _ => ?_, missing, kept⟩⟩
      obtain ⟨version, records, -, isSegment, isSize⟩ := isSegment
      change size ≤ world.data.length
      rw [isSize, isSegment, length_segment]
      exact Nat.le_add_right _ _
    | false =>
      cases acted
      exact ⟨entries, inv.rephase trivial⟩
  case h_1 success removed _ sync fsynced size recovered isPhase =>
    obtain ⟨-, acted⟩ := ite_none_left_eq_some.mp acted
    dsimp only at acted
    split at acted
    case isTrue =>
      split at acted
      case h_1 bytes opened =>
        cases acted
        exact inv.openSidecar isPhase opened
      case h_2 => cases acted
    case isFalse =>
      cases acted
      refine ⟨entries, inv.own isPhase ?_ nofun⟩
      cases removed with
      | true => exact ⟨inv.reads.toTrusted, nil_prefix⟩
      | false => exact inv.reads

end World.Inv

/-! ## The owner -/

theorem segment_append
    (version : UInt8) (records : List StoredRecord) (rest : Bytes) :
    segment crc32c version records [] ++ rest =
      segment crc32c version records rest := by
  rw [segment, segment, append_nil, append_assoc]

theorem segment_concat
    (version : UInt8) (records : List StoredRecord) (stored : StoredRecord) :
    segment crc32c version records (stored.encode crc32c) =
      segment crc32c version (records ++ [stored]) [] := by
  rw [segment, segment, logBytes_append, logBytes_cons, logBytes_nil,
    append_nil, append_nil]

theorem sidecarFile_concat (entries : List SidecarRec) (record : SidecarRec) :
    sidecarFile crc32c (entries ++ [record]) =
      sidecarFile crc32c entries ++ record.encode crc32c := by
  rw [sidecarFile, sidecarFile, flatMap_append, flatMap_cons,
    flatMap_nil, append_nil, append_assoc]

namespace World.Inv

variable (inv : world.Inv crc32c marked entries)

include inv

/-- A record that is true goes to the sidecar. -/
theorem reads_concat
    (isPhase : world.phase = .owned writer)
    (writing : writer.writing = true)
    (isTrue : IsTrue crc32c world writer.size record) :
    ∃ marked', marked ≤ marked' ∧ marked' ≤ world.covered ∧
      (marked' = 0 ∨ ∃ records, Holds crc32c world.data records ∧
        marked' = logEnd crc32c records) ∧
      Reads crc32c world.data (sidecarFile crc32c (entries ++ [record]))
        (entries ++ [record]) marked' := by
  have ok := inv.phase
  rw [isPhase] at ok
  obtain ⟨version, records, rest, reads, noMore, isSegment, isSize⟩ :=
    ok.isSegment
  have listed := (ok.listed writing).2
  rcases isTrue with lies | ⟨isMark, covered⟩
  · refine ⟨marked, le_rfl, inv.marked_le, inv.boundary,
      ⟨?_, ?_, ?_⟩, prefix_rfl⟩
    · rw [forall_mem_append]
      exact ⟨inv.reads.fits, by simpa using lies.fits inv.small⟩
    · rw [forall_mem_append]
      exact ⟨inv.reads.marked, by simp [lies.kind_eq]⟩
    · refine forall_mem_append.mpr ⟨inv.reads.lies, ?_⟩
      intro entry member _ _
      rwa [mem_singleton.mp member]
  · have holds : Holds crc32c world.data records := by
      rw [isSegment]
      exact Holds.of_segment reads records rest
    have grows : marked ≤ writer.size := by
      rw [isSize]
      refine inv.marked_le_of_endsBy ?_
      rw [isSegment]
      exact endsBy_segment noMore
    have sized : writer.size < 2 ^ 63 := by
      have := inv.small
      have := inv.covered_le
      omega
    refine ⟨writer.size, grows, covered, .inr ⟨records, holds, isSize⟩,
      ⟨?_, ?_, ?_⟩, prefix_rfl⟩
    · rw [forall_mem_append]
      refine ⟨inv.reads.fits, ?_⟩
      intro entry member
      rw [mem_singleton.mp member, isMark]
      exact ⟨⟨sized, Nat.two_pow_pos 32, Nat.two_pow_pos 32,
        fun _ => ⟨rfl, rfl, rfl, rfl⟩⟩, nofun⟩
    · rw [forall_mem_append]
      refine ⟨fun entry member isSynced =>
        (inv.reads.marked entry member isSynced).trans grows, ?_⟩
      simp [isMark, SidecarRec.synced]
    · refine forall_mem_append.mpr
        ⟨fun entry member isEntry _ => listed entry member isEntry, ?_⟩
      intro entry member isEntry
      rw [mem_singleton.mp member, isMark] at isEntry
      cases isEntry

/-- The owner writes to the sidecar, unless it stopped. -/
theorem note
    (isPhase : world.phase = .owned writer)
    (acted : world.ownerStep crc32c writer (.note torn) = some after) :
    ∃ marked' entries', after.Inv crc32c marked' entries' := by
  have ok := inv.phase
  rw [isPhase] at ok
  simp only [World.ownerStep] at acted
  split at acted
  case h_1 => cases acted
  case h_2 record todo isTodo =>
    have rest : ∀ other ∈ todo, IsTrue crc32c world writer.size other :=
      fun other member => ok.todo other
        (isTodo ▸ mem_cons_of_mem record member)
    split at acted
    case isTrue stopped =>
      cases acted
      refine ⟨marked, entries, inv.rephase ⟨ok.isSegment, ?_, rest⟩⟩
      intro writing
      rw [show writer.writing = true from writing] at stopped
      cases stopped
    case isFalse running =>
      have writing : writer.writing = true := by simpa using running
      obtain ⟨marked', grows, below, boundary, reads⟩ :=
        inv.reads_concat isPhase writing
          (ok.todo record (isTodo ▸ mem_cons_self))
      obtain ⟨isFile, listed⟩ := ok.listed writing
      rw [← some.inj acted, isFile, map_some]
      refine ⟨marked', entries ++ [record],
        inv.residecar grows below boundary
          ⟨reads.toTrusted, ?_⟩
          ⟨ok.isSegment, ?_, rest⟩⟩
      · rw [getD_some, sidecarFile_concat]
        refine prefix_append_right_inj _ |>.mpr ?_
        cases torn with
        | none => exact prefix_rfl
        | some size => exact take_prefix _ _
      · intro stillWriting
        cases torn with
        | some size => cases stillWriting
        | none =>
          refine ⟨congrArg some (sidecarFile_concat _ _).symm, ?_⟩
          refine forall_mem_append.mpr ⟨listed, ?_⟩
          intro entry member isEntry
          rw [mem_singleton.mp member] at isEntry ⊢
          rcases ok.todo record (isTodo ▸ mem_cons_self) with lies | ⟨isMark, -⟩
          · exact lies
          · rw [isMark] at isEntry
            cases isEntry

/-- The owner writes behind its records. -/
theorem write
    {writer : ActiveWriter}
    (isPhase : world.phase = .owned writer)
    (sameWriting : writer'.writing = writer.writing)
    (small : writer.size + bytes.length < 2 ^ 63)
    (isSegment : ∀ version records,
      writer.size = logEnd crc32c records →
      ∃ records' rest', NoRecord crc32c rest' ∧
        segment crc32c version records bytes =
          segment crc32c version records' rest' ∧
        writer'.size = logEnd crc32c records')
    (todo : ∀ record ∈ writer'.todo,
      Lies crc32c (world.data.take writer.size ++ bytes) record) :
    World.Inv crc32c
      { world with
        data := world.data.take writer.size ++ bytes
        covered := min world.covered writer.size
        phase := .owned writer' }
      marked entries := by
  have ok := inv.phase
  rw [isPhase] at ok
  obtain ⟨version, records, rest, reads, noMore, isData, isSize⟩ := ok.isSegment
  have ends : EndsBy crc32c world.data writer.size := by
    rw [isData, isSize]
    exact endsBy_segment noMore
  have inside := ok.size_le
  have total : (world.data.take writer.size ++ bytes).length =
      writer.size + bytes.length := by
    rw [length_append, length_take, Nat.min_eq_left inside]
  have kept : world.data.take writer.size <+:
      world.data.take writer.size ++ bytes :=
    prefix_append _ _
  refine inv.rewrite ends kept ?_ ?_ le_rfl rfl rfl rfl
    ⟨?_, ?_, fun record member => .inl (todo record member)⟩
  · exact total.trans_lt small
  · dsimp only
    omega
  · obtain ⟨records', rest', noMore', same, isSize'⟩ :=
      isSegment version records isSize
    refine ⟨version, records', rest', reads, noMore', ?_, isSize'⟩
    dsimp only
    rw [isData, isSize, take_segment, segment_append, same]
  · intro writing
    rw [sameWriting] at writing
    obtain ⟨isFile, listed⟩ := ok.listed writing
    exact ⟨isFile, fun entry member isEntry =>
      (listed entry member isEntry).of_endsBy ends kept⟩

/-- The owner writes what is no record behind its records. -/
theorem writeRest
    (isPhase : world.phase = .owned writer) (noTodo : writer.todo = [])
    (small : writer.size + bytes.length < 2 ^ 63)
    (noMore : NoRecord crc32c bytes) :
    World.Inv crc32c
      { world with
        data := world.data.take writer.size ++ bytes
        covered := min world.covered writer.size }
      marked entries := by
  have written := inv.write isPhase rfl small
    (fun version records isSize => ⟨records, _, noMore, rfl, isSize⟩)
    (by rw [noTodo]; exact nofun)
  rwa [← isPhase] at written

theorem append
    (isPhase : world.phase = .owned writer)
    (acted : world.ownerStep crc32c writer (.append stored) = some after) :
    after.Inv crc32c marked entries := by
  simp only [World.ownerStep, ite_none_right_eq_some,
    some.injEq] at acted
  obtain ⟨⟨-, -, -, small, -⟩, rfl⟩ := acted
  have ok := inv.phase
  rw [isPhase] at ok
  obtain ⟨version, records, rest, reads, noMore, isData, isSize⟩ := ok.isSegment
  refine inv.write isPhase ?_ ?_ ?_ ?_
  · rfl
  · rwa [StoredRecord.encode_length]
  · intro version records isSize
    exact ⟨records ++ [stored], [], noRecord_nil crc32c,
      segment_concat version records stored, by rw [logEnd_concat, isSize]⟩
  · intro record member
    rw [mem_singleton.mp member, isData, isSize, take_segment,
      segment_append, segment_concat]
    exact ⟨records, stored, Holds.of_segment reads _ [], rfl⟩

/-- The owner's steps keep the invariant. -/
theorem ownerStep
    (isPhase : world.phase = .owned writer)
    (acted : world.ownerStep crc32c writer action = some after) :
    ∃ marked' entries', after.Inv crc32c marked' entries' := by
  have ok := inv.phase
  rw [isPhase] at ok
  cases action with
  | note torn => exact inv.note isPhase acted
  | tear stored size =>
    simp only [World.ownerStep, ite_none_right_eq_some,
      some.injEq] at acted
    obtain ⟨⟨-, noTodo, strict, small, -⟩, rfl⟩ := acted
    refine ⟨marked, entries, inv.writeRest isPhase noTodo ?_ ?_⟩
    · rw [length_take]
      omega
    · refine StoredRecord.parseRecord_torn crc32c stored
        (take_append_drop size _) ?_
      rw [Ne, drop_eq_nil_iff]
      omega
  | append stored => exact ⟨marked, entries, inv.append isPhase acted⟩
  | footer bytes =>
    simp only [World.ownerStep, ite_none_right_eq_some,
      some.injEq] at acted
    obtain ⟨⟨-, noTodo, small, isFooter⟩, rfl⟩ := acted
    refine ⟨marked, entries, inv.writeRest isPhase noTodo small ?_⟩
    rcases isFooter with rfl | seals
    · exact noRecord_nil crc32c
    · exact noRecord_of_tagSeal crc32c seals
  | fsync success =>
    refine ⟨marked, entries, ?_⟩
    simp only [World.ownerStep, ite_none_right_eq_some] at acted
    obtain ⟨-, acted⟩ := acted
    cases success with
    | true =>
      cases acted
      exact inv.cover ⟨ok.isSegment, ok.listed, fun record member =>
        .inr ⟨mem_singleton.mp member, ok.size_le⟩⟩
    | false =>
      cases acted
      exact inv.rephase ⟨ok.isSegment, ok.listed, ok.todo⟩
  | fail =>
    cases acted
    exact ⟨marked, entries, inv.rephase ⟨ok.isSegment, ok.listed, ok.todo⟩⟩
  | release =>
    simp only [World.ownerStep, ite_none_right_eq_some,
      some.injEq] at acted
    rw [← acted.2]
    exact ⟨marked, entries, inv.rephase trivial⟩
  | _ => cases acted

/-- A stop keeps the invariant. -/
theorem stopStep
    (acted : world.stopStep action = some after) :
    after.Inv crc32c marked entries := by
  cases action with
  | kill =>
    cases acted
    exact inv.rephase trivial
  | crash data kept =>
    simp only [World.stopStep, ite_none_right_eq_some,
      some.injEq] at acted
    obtain ⟨⟨small, shared⟩, rfl⟩ := acted
    have below := inv.marked_le
    refine ⟨small, ?_, below, ?_, ⟨⟨inv.reads.fits, inv.reads.marked, ?_⟩, ?_⟩,
      nofun, nofun, trivial⟩
    · have := shared.length_le
      have := inv.covered_le
      rw [length_take] at *
      dsimp only
      omega
    · refine inv.boundary.imp_right ?_
      rintro ⟨records, holds, isMarked⟩
      exact ⟨records, holds.of_take (isMarked ▸ below) shared, isMarked⟩
    · intro entry member isEntry stops
      exact (inv.reads.lies entry member isEntry stops).of_take
        (stops.trans below) shared
    · cases kept with
      | none => exact nil_prefix
      | some size => exact (inv.reads.take size).file
  | _ => cases acted

end World.Inv

/-! ## The reader -/

section Reader

variable {scan : SegmentScan} {data : Bytes} {limit bound : Nat}
  {version : UInt8} {log : List StoredRecord} {rest : Bytes}

/-- Where a scan of a segment goes on. -/
theorem SegmentScan.Ok.startOf_eq
    (ok : scan.Ok crc32c data bound) (reads : readsVersion version = true)
    (noMore : NoRecord crc32c rest)
    (isSegment : data = segment crc32c version log rest) :
    ∃ done later, log = done ++ later ∧
      startOf data data.length scan.at_.pos = .ok (some (logEnd crc32c done)) ∧
      scan.index = indexFrom magicHeader.length done := by
  have isHeaded : isHeader (data.take 8) = true := by
    rw [isSegment]
    exact isHeader_segment crc32c reads log rest
  have longEnough : 8 ≤ data.length := by
    have := length_segment crc32c version log rest
    have := @header_le_logEnd crc32c log
    rw [isSegment]
    omega
  rcases ok.stands with ⟨isZero, isEmpty⟩ | ⟨done, holds, isPos, isIndex⟩
  · refine ⟨[], log, rfl, ?_, isEmpty⟩
    have header := readRange_header longEnough
    have versionOk : checkVersion (data.take 8) = .ok () :=
      checkVersion_of_isHeader (by
        rwa [take_take, Nat.min_self])
    unfold startOf
    rw [isZero, if_pos (by decide), if_neg (by
      change ¬(data.length : Int) < (8 : Nat)
      omega)]
    change (readRange data 0 8 >>= _) = _
    rw [header, Checked.ok_bind, versionOk]
    change Except.ok (if isHeader (data.take 8) = true then _ else _) = _
    rw [if_pos isHeaded]
    rfl
  · rw [isSegment] at holds
    obtain ⟨later, rfl⟩ := holds.prefix_of_segment noMore
    refine ⟨done, later, rfl, ?_, isIndex⟩
    have past := @header_le_logEnd crc32c done
    unfold startOf
    rw [isPos, if_neg (by
      change ¬(_ : Int) < (8 : Nat)
      omega)]

/-- The version check looks at the header alone. -/
theorem checkVersion_take (long : 8 ≤ data.length) :
    checkVersion (data.take 8) = checkVersion data := by
  have short : (8 : Nat) ≤ 7 ↔ data.length ≤ 7 := by omega
  unfold checkVersion
  rw [byteAt_take _ (by omega), take_take, length_take, Nat.min_eq_left long]
  simp only [short]
  rfl

namespace SegmentScan

variable (ok : scan.Ok crc32c data bound)
include ok

theorem Ok.stands_headless
    (headless : isHeader (data.take 8) = false) :
    scan.at_.pos = 0 ∧ scan.index = .empty := by
  refine ok.stands.resolve_right ?_
  rintro ⟨done, holds, -⟩
  rw [holds.isHeader] at headless
  cases headless

/-- Without a header a scan stays where it is, unless the version is one this
release does not read. -/
theorem Ok.advance_headless
    (headless : isHeader (data.take 8) = false) (tail : Bytes) :
    (∃ failure, checkVersion data = .error failure) ∧
        (∃ failure, advance crc32c scan.index scan.at_ data data.length tail =
          .error failure) ∨
      advance crc32c scan.index scan.at_ data data.length tail =
        .ok (some ⟨[], [], scan.at_⟩) := by
  obtain ⟨isZero, -⟩ := ok.stands_headless headless
  unfold advance startOf
  rw [isZero, if_pos (by decide)]
  split
  case isTrue => exact .inr rfl
  case isFalse long =>
    have longEnough : 8 ≤ data.length := by
      change ¬(data.length : Int) < (8 : Nat) at long
      omega
    have header := readRange_header longEnough
    change _ ∧ (∃ failure, ((readRange data 0 8 >>= _) >>= _) = _) ∨
      ((readRange data 0 8 >>= _) >>= _) = _
    rw [header, Checked.ok_bind, checkVersion_take longEnough]
    cases checkVersion data with
    | error failure => exact .inl ⟨⟨failure, rfl⟩, _, rfl⟩
    | ok _ =>
      right
      change (Except.ok (if isHeader (data.take 8) = true then _ else _) >>=
        _) = _
      rw [headless, if_neg (by decide)]
      rfl

/-- A poll takes a scan forward over the sidecar's records from where the scan
stands. -/
theorem Ok.poll_eq_advance
    (reads : Reads crc32c data (sidecar.getD []) entries limit) :
    scan.poll crc32c sidecar data = .ok none ∨
      ∃ tail read valid,
        scan.poll crc32c sidecar data =
          advance crc32c scan.index scan.at_ data data.length tail ∧
        readSidecar crc32c tail (scan.at_.sidecarEnd = 0) = (read, valid) ∧
        (valid = 0 → read = []) ∧ read ⊆ entries := by
  cases sidecar with
  | none =>
    refine .inr ⟨[], [], 0, rfl, ?_, fun _ => rfl, nil_subset _⟩
    unfold readSidecar
    split <;> rfl
  | some bytes =>
    have file : bytes <+: sidecarFile crc32c entries := reads.file
    unfold SegmentScan.poll
    dsimp only
    split
    case isTrue => exact .inl rfl
    case isFalse inside =>
      right
      rcases ok.sidecarEnd_eq with isZero | ⟨count, isEnd⟩
      · obtain ⟨read, valid, isPrefix, isRead, covers⟩ :=
          readSidecar_start file reads.fits
        have whole := @readRange_eq_ok bytes 0 bytes.length
          (Nat.zero_le _) le_rfl
        rw [slice_zero, take_length] at whole
        refine ⟨bytes, read, valid, ?_, ?_, ?_, isPrefix.subset⟩
        · rw [isZero]
          exact congrArg (· >>= _) whole
        · simpa [isZero] using isRead
        · intro none
          rcases covers with ⟨-, isNil⟩ | ⟨isValid, -⟩
          · exact isNil
          · omega
      · obtain ⟨read, isPrefix, isRead⟩ :=
          readSidecar_tail file reads.fits count
        have within : 8 + count * sidecarRecSize ≤ bytes.length := by
          rw [isEnd] at inside
          omega
        have part := readRange_eq_ok within le_rfl
        rw [slice, take_of_length_le (by rw [length_drop])] at part
        refine ⟨bytes.drop (8 + count * sidecarRecSize), read,
          read.length * sidecarRecSize, ?_, ?_, ?_,
          fun entry member => mem_of_mem_drop (isPrefix.subset member)⟩
        · rw [isEnd]
          exact congrArg (· >>= _) part
        · rw [isEnd, decide_eq_false (by omega)]
          exact isRead
        · intro none
          exact eq_nil_of_length_eq_zero (by
            unfold sidecarRecSize at none
            omega)

/-- A poll of a segment ends at the end of its log, with the log's index, or
says that it cannot go on. -/
theorem Ok.poll_eq
    (reads : readsVersion version = true)
    (noMore : NoRecord crc32c rest)
    (isSegment : data = segment crc32c version log rest)
    (small : data.length < 2 ^ 63)
    (side : Reads crc32c data (sidecar.getD []) entries limit)
    (lower : scan.at_.durable ≤ (max 8 limit : Nat)) :
    scan.poll crc32c sidecar data = .ok none ∨
      ∃ polled, scan.poll crc32c sidecar data = .ok (some polled) ∧
        (scan.commit polled).Ok crc32c data limit ∧
        (scan.commit polled).index = indexFrom magicHeader.length log ∧
        (scan.commit polled).at_.pos = logEnd crc32c log := by
  rcases ok.poll_eq_advance side with none | ⟨tail, read, valid, isAdvance,
    isRead, nothing, known⟩
  · exact .inl none
  obtain ⟨done, later, isLog, started, isIndex⟩ :=
    ok.startOf_eq reads noMore isSegment
  subst isSegment
  rw [isAdvance]
  rcases advance_trusted scan.index reads noMore small isLog started isRead
    lower (side.subset known) with
    contradiction | ⟨mid, more, count, durable, split, few, durableLe, isSome, -⟩
  · exact .inl contradiction
  · have indexed : (entriesFrom (logEnd crc32c done) later).foldl
        (fun index record => index.insert record.k record.loc) scan.index =
          indexFrom magicHeader.length log := by
      rw [foldl_entriesFrom, isIndex, isLog, indexFrom_append crc32c]
      rfl
    refine .inr ⟨_, isSome, ⟨durableLe, ?_, .inr ⟨log, ?_, rfl, indexed⟩⟩,
      indexed, rfl⟩
    · change scan.at_.sidecarEnd + _ = 0 ∨
        ∃ count : Nat, scan.at_.sidecarEnd + _ = _
      rcases ok.sidecarEnd_eq with isZero | ⟨before, isEnd⟩
      · rcases Nat.eq_zero_or_pos valid with none | positive
        · have noCount : count = 0 := by
            rw [nothing none] at few
            exact Nat.le_zero.mp few
          left
          rw [isZero, noCount, none]
          rfl
        · refine .inr ⟨count, ?_⟩
          rw [isZero, if_pos ⟨rfl, positive⟩]
          change 0 + (((8 : Nat) : Int) + _) = _
          omega
      · refine .inr ⟨before + count, ?_⟩
        rw [isEnd, if_neg (by omega), Nat.add_mul]
        omega
    · exact Holds.of_segment reads log rest

/-- Without a header a poll changes nothing. -/
theorem Ok.poll_headless
    (headless : isHeader (data.take 8) = false)
    (side : Reads crc32c data (sidecar.getD []) entries limit)
    (success : scan.poll crc32c sidecar data = .ok (some polled)) :
    scan.commit polled = scan := by
  rcases ok.poll_eq_advance side with none | ⟨tail, read, valid, isAdvance, -⟩
  · rw [none] at success
    cases success
  · rw [isAdvance] at success
    rcases ok.advance_headless headless tail with ⟨-, failure, failed⟩ | stays
    · rw [failed] at success
      cases success
    · rw [stays] at success
      rw [← some.inj (Except.ok.inj success)]
      rfl

/-- What a poll commits keeps the reader's invariant. -/
theorem Ok.commit
    (small : data.length < 2 ^ 63)
    (side : Reads crc32c data (sidecar.getD []) entries limit)
    (below : limit ≤ bound)
    (lower : scan.at_.durable ≤ (max 8 limit : Nat))
    (success : scan.poll crc32c sidecar data = .ok (some polled)) :
    (scan.commit polled).Ok crc32c data bound := by
  cases headed : isHeader (data.take 8) with
  | false =>
    rw [ok.poll_headless headed side success]
    exact ok
  | true =>
    obtain ⟨version, log, rest, reads, noMore, isSegment⟩ :=
      exists_segment crc32c headed
    rcases ok.poll_eq reads noMore isSegment small side lower with none |
      ⟨other, isOther, commitOk, -⟩
    · rw [none] at success
      cases success
    · rw [success] at isOther
      rw [some.inj (Except.ok.inj isOther)]
      refine ⟨commitOk.durable_le.trans ?_, commitOk.sidecarEnd_eq,
        commitOk.stands⟩
      omega

end SegmentScan

/-- What a recovery gives a reader. -/
theorem scanOf_ok
    (small : data.length < 2 ^ 63)
    (side : Reads crc32c data sidecar entries limit) (below : limit ≤ bound)
    (success : recoverSegment crc32c data sidecar = .ok recovered)
    (notSealed : recovered.sealed = false) :
    (scanOf recovered).Ok crc32c data bound := by
  cases headed : isHeader (data.take 8) with
  | false =>
    obtain ⟨-, isEmpty, isEnd, isZero, isDurable, -⟩ :=
      recoverSegment_headless headed success
    refine ⟨?_, .inl isZero, .inl ⟨isEnd, isEmpty⟩⟩
    change recovered.durable ≤ _
    omega
  | true =>
    obtain ⟨version, log, rest, reads, noMore, isSegment⟩ :=
      exists_segment crc32c headed
    have agrees := recoverSegment_trusted side reads noMore isSegment small
      success notSealed
    refine ⟨?_, agrees.kept.imp_right ?_, .inr ⟨log, ?_, agrees.dataEnd_eq,
      agrees.index_eq⟩⟩
    · have := agrees.durable_le
      change recovered.durable ≤ _
      omega
    · rintro ⟨count, -, isValid, -⟩
      exact ⟨count, isValid⟩
    · rw [isSegment]
      exact Holds.of_segment reads log rest

end Reader

namespace World.Inv

variable (inv : world.Inv crc32c marked entries)

include inv

/-- The reader forgets what it has read of the sidecar. -/
theorem reread
    {scan : Option SegmentScan}
    (ok : ∀ reader, scan = some reader → reader.Ok crc32c world.data marked) :
    World.Inv crc32c { world with scan := scan, seen := none } marked entries :=
  ⟨inv.small, inv.covered_le, inv.marked_le, inv.boundary, inv.reads, ok, nofun,
    inv.phase.of_files rfl rfl rfl⟩

/-- The reader's steps keep the invariant. -/
theorem readerStep
    (acted : world.readerStep crc32c action = some after) :
    after.Inv crc32c marked entries := by
  cases action with
  | look size =>
    cases acted
    refine ⟨inv.small, inv.covered_le, inv.marked_le, inv.boundary, inv.reads,
      inv.scan, ?_, inv.phase.of_files rfl rfl rfl⟩
    intro sidecar isSeen
    cases isSeen
    exact ⟨marked, entries, le_rfl, inv.reads.take size,
      fun scan isScan => (inv.scan scan isScan).durable_le⟩
  | poll =>
    simp only [World.readerStep] at acted
    split at acted
    case h_1 scan sidecar isScan isSeen =>
      obtain ⟨limit, others, below, side, durable⟩ := inv.seen sidecar isSeen
      split at acted
      case h_1 =>
        cases acted
        exact inv.reread inv.scan
      case h_2 =>
        cases acted
        exact inv.reread nofun
      case h_3 polled success =>
        cases acted
        refine inv.reread fun reader isReader => ?_
        cases isReader
        exact (inv.scan scan isScan).commit inv.small side below
          (durable scan isScan) success
    case h_2 => cases acted
  | rebuild =>
    simp only [World.readerStep] at acted
    split at acted
    case h_1 sidecar isSeen =>
      obtain ⟨limit, others, below, side, -⟩ := inv.seen sidecar isSeen
      split at acted
      case h_1 =>
        cases acted
        exact inv.reread inv.scan
      case h_2 recovered success =>
        cases acted
        refine inv.reread fun reader isReader => ?_
        split at isReader
        case isTrue => cases isReader
        case isFalse notSealed =>
          cases isReader
          exact scanOf_ok inv.small side below success
            (by simpa using notSealed)
    case h_2 => cases acted
  | _ => cases acted

/-- Every step keeps the invariant. -/
theorem step
    (acted : world.act crc32c action = some after) :
    ∃ marked' entries', after.Inv crc32c marked' entries' := by
  rcases or_eq_some_iff.mp acted with byStore | ⟨-, acted⟩
  · rcases or_eq_some_iff.mp byStore with byNew | ⟨-, byOwner⟩
    · exact ⟨marked, inv.adoptStep byNew⟩
    · split at byOwner
      case h_1 writer isPhase => exact inv.ownerStep isPhase byOwner
      case h_2 => cases byOwner
  · rcases or_eq_some_iff.mp acted with byReader | ⟨-, byStop⟩
    · exact ⟨marked, entries, inv.readerStep byReader⟩
    · exact ⟨marked, entries, inv.stopStep byStop⟩

end World.Inv

end AmberStore.Packstore.History

import AmberStore.Packstore.HistorySpec

/-!
# Polls and marks

A reader that polls holds what a recovery of the same bytes finds, and what the
sidecar marks as durable is.
-/

open ByteString Option

namespace AmberStore.Packstore.History

open Amberpack

variable {crc32c : Bytes → UInt32}

/-- Something happens to the segment. -/
def World.Step (crc32c : Bytes → UInt32) (world after : World) : Prop :=
  ∃ action, world.act crc32c action = some after

/-- The invariant holds with some largest mark and some sidecar. -/
def World.Ok (crc32c : Bytes → UInt32) (world : World) : Prop :=
  ∃ marked entries, world.Inv crc32c marked entries

/-- The invariant holds in every state of a segment's history. -/
theorem World.ok_of_reachable
    (reached : Runs.Reachable World.IsInitial (World.Step crc32c) world) :
    world.Ok crc32c := by
  refine reached.invariant (fun _ isInitial => ⟨0, [], isInitial.inv⟩) ?_
  rintro state after ⟨marked, entries, inv⟩ ⟨action, acted⟩
  exact inv.step acted

/-! ## A run -/

/-- A new segment, of which only the header is there. -/
def created : World where
  data := headerAt 2
  covered := 8
  sidecar := none
  phase := .free
  scan := none
  seen := none

theorem isInitial_created : created.IsInitial :=
  ⟨by decide, by decide, rfl, rfl, rfl, rfl⟩

/-- An owner appends, syncs and marks one record, which a reader recovers, and
then appends another one, whose entry does not get to the sidecar before the
reader reads it. -/
def shortHistory : List Action :=
  [.adopt true 2 0, .openSidecar true false, .append firstRecord, .note none,
    .fsync true, .note none, .look 1000, .rebuild, .tear secondRecord 10,
    .append secondRecord, .look 1000]

/-- What a run of the new segment reaches is part of its history. -/
theorem reachable_of_run
    (ran : created.run crc32c actions = some world) :
    Runs.Reachable World.IsInitial (World.Step crc32c) world := by
  refine .foldlM ?_ (.start isInitial_created) ran
  intro state action after acted
  exact ⟨action, acted⟩

/-! ## Polls -/

variable {scan : SegmentScan}

/-- Where recovery finds no header, a poll does not fail. -/
theorem SegmentScan.Ok.poll_of_recovered
    (ok : scan.Ok crc32c data bound)
    (headless : isHeader (data.take 8) = false)
    (side : Reads crc32c data (sidecar.getD []) entries limit)
    (checked : checkVersion data = .ok ()) :
    scan.poll crc32c sidecar data = .ok none ∨
      ∃ polled, scan.poll crc32c sidecar data = .ok (some polled) := by
  refine (ok.poll_eq_advance side).imp_right ?_
  rintro ⟨tail, read, valid, isAdvance, -⟩
  rw [isAdvance]
  rcases ok.advance_headless headless tail with ⟨⟨failure, unread⟩, -⟩ | stays
  · rw [checked] at unread
    cases unread
  · exact ⟨_, stays⟩

/-- A poll that goes on commits the index and the end that a recovery of the
same bytes finds, unless that takes the file for sealed. -/
theorem poll_eq_recoverSegment
    {world : World}
    (reached : Runs.Reachable World.IsInitial (World.Step crc32c) world)
    {scan : SegmentScan} (isScan : world.scan = some scan)
    {sidecar : Option Bytes} (isSeen : world.seen = some sidecar)
    {recovered : Recovered}
    (success : recoverSegment crc32c world.data (sidecar.getD []) =
      .ok recovered)
    (notSealed : recovered.sealed = false) :
    scan.poll crc32c sidecar world.data = .ok none ∨
      ∃ polled, scan.poll crc32c sidecar world.data = .ok (some polled) ∧
        (scan.commit polled).index = recovered.index ∧
        (scan.commit polled).at_.pos = recovered.dataEnd := by
  obtain ⟨marked, entries, inv⟩ := World.ok_of_reachable reached
  have ok := inv.scan scan isScan
  obtain ⟨limit, others, below, side, durable⟩ := inv.seen sidecar isSeen
  cases headed : isHeader (world.data.take 8) with
  | true =>
    obtain ⟨version, log, rest, reads, noMore, isSegment⟩ :=
      exists_segment crc32c headed
    have agrees := recoverSegment_trusted side reads noMore isSegment inv.small
      success notSealed
    refine (ok.poll_eq reads noMore isSegment inv.small side
      (durable scan isScan)).imp_right ?_
    rintro ⟨polled, isPolled, -, isIndex, isEnd⟩
    exact ⟨polled, isPolled, isIndex.trans agrees.index_eq.symm,
      isEnd.trans agrees.dataEnd_eq.symm⟩
  | false =>
    obtain ⟨-, isEmpty, isEnd, -, -, checked⟩ :=
      recoverSegment_headless headed success
    refine (ok.poll_of_recovered headed side checked).imp_right ?_
    rintro ⟨polled, isPolled⟩
    refine ⟨polled, isPolled, ?_⟩
    rw [ok.poll_headless headed side isPolled, isEmpty, isEnd]
    exact (ok.stands_headless headed).symm

/-- The reader polls at the end of the run, and goes on. -/
theorem poll_eq_recoverSegment_shortHistory :
    ∃ (world : World) (scan : SegmentScan) (sidecar : Option Bytes)
      (recovered : Recovered) (polled : Advanced),
      Runs.Reachable World.IsInitial (World.Step fun _ => 0) world ∧
      world.scan = some scan ∧ world.seen = some sidecar ∧
      recoverSegment (fun _ => 0) world.data (sidecar.getD []) =
        .ok recovered ∧
      recovered.sealed = false ∧
      scan.poll (fun _ => 0) sidecar world.data = .ok (some polled) ∧
      (scan.commit polled).index = recovered.index ∧
      (scan.commit polled).at_.pos = recovered.dataEnd := by
  have evaluated :
      (created.run (fun _ => 0) shortHistory).map (fun world =>
        (world.seen.isSome,
          (recoverSegment (fun _ => 0) world.data
            ((world.seen.getD none).getD [])).toOption.map Recovered.sealed,
          world.scan.map fun scan => (scan.poll (fun _ => 0)
            (world.seen.getD none) world.data).toOption.map Option.isSome)) =
        some (true, some false, some (some true)) := by
    decide +kernel
  obtain ⟨world, ran, facts⟩ := map_eq_some_iff.mp evaluated
  simp only [Prod.mk.injEq, isSome_iff_exists] at facts
  obtain ⟨⟨sidecar, isSeen⟩, unsealed, goesOn⟩ := facts
  obtain ⟨scan, isScan, goesOn⟩ := map_eq_some_iff.mp goesOn
  rw [isSeen, getD_some] at unsealed goesOn
  obtain ⟨recovered, success, notSealed⟩ :=
    Checked.exists_ok_of_map_toOption unsealed
  have reached := reachable_of_run ran
  obtain declined | ⟨polled, isPolled, sameIndex, sameEnd⟩ :=
    poll_eq_recoverSegment reached isScan isSeen success notSealed
  · rw [declined] at goesOn
    cases goesOn
  · exact ⟨world, scan, sidecar, recovered, polled, reached, isScan, isSeen,
      success, notSealed, isPolled, sameIndex, sameEnd⟩

/-! ## Marks -/

/-- What an index locates is an entry of the log. -/
theorem entry_mem_entriesFrom
    (located : indexFrom off records k = some loc) :
    SidecarRec.entry k loc ∈ entriesFrom off records := by
  induction records generalizing off with
  | nil => cases located
  | cons stored records ih =>
    rw [indexFrom, Index.atop, or_eq_some_iff] at located
    rcases located with later | ⟨_, here⟩
    · exact List.mem_cons_of_mem _ (ih later)
    · by_cases same : k = stored.key
      · subst same
        simp only [Index.insert, Function.update_self, some.injEq] at here
        rw [← here]
        exact List.mem_cons_self
      · simp [Index.insert, Index.empty, same] at here

/-- What a reader has indexed lies in the data. -/
theorem SegmentScan.Ok.lies
    (ok : scan.Ok crc32c data bound)
    (located : scan.index k = some loc) :
    Lies crc32c data (.entry k loc) := by
  rcases ok.stands with ⟨-, isEmpty⟩ | ⟨done, holds, -, isIndex⟩
  · rw [isEmpty] at located
    cases located
  · rw [isIndex] at located
    have holds : Holds crc32c data ([] ++ done) := holds
    exact Lies.of_entriesFrom holds _ (entry_mem_entriesFrom located)

/-- What a reader counts as durable is below the largest mark. -/
theorem SegmentScan.Ok.stop_le
    (ok : scan.Ok crc32c data bound) (small : data.length < 2 ^ 63)
    (durable : scan.durable k = true) :
    ∃ loc, scan.index k = some loc ∧ (SidecarRec.entry k loc).stop ≤ bound := by
  unfold SegmentScan.durable at durable
  split at durable
  case h_1 loc located =>
    refine ⟨loc, located, ?_⟩
    have lies := ok.lies located
    have below := of_decide_eq_true durable
    rw [(lies.fits small).end_eq rfl] at below
    have past : 8 < (SidecarRec.entry k loc).stop := by
      unfold SidecarRec.stop
      change 8 < _ + (46 + _)
      omega
    have := ok.durable_le
    omega
  case h_2 => cases durable

/-- Every mark in the sidecar is within what an fsync has covered, and so is
every record that a reader counts as durable, or that a store which syncs
relies on: whatever a power failure leaves of the data, it is there. -/
theorem synced_le_covered
    {world : World}
    (reached : Runs.Reachable World.IsInitial (World.Step crc32c) world) :
    (∀ record ∈ (readSidecar crc32c (world.sidecar.getD []) true).1,
      record.kind = .synced → record.off ≤ world.covered) ∧
    ∀ scan, world.scan = some scan → ∀ k,
      (scan.durable k = true ∨ scan.reliable true k = true) →
      ∃ loc, scan.index k = some loc ∧
        (SidecarRec.entry k loc).stop ≤ world.covered ∧
        ∀ kept, world.data.take world.covered <+: kept →
          Lies crc32c kept (.entry k loc) := by
  obtain ⟨marked, entries, inv⟩ := World.ok_of_reachable reached
  refine ⟨?_, ?_⟩
  · obtain ⟨kept, valid, isPrefix, read, -⟩ :=
      readSidecar_start inv.reads.file inv.reads.fits
    rw [read]
    intro record member isMark
    exact (inv.reads.marked record (isPrefix.subset member) isMark).trans
      inv.marked_le
  · intro scan isScan k counted
    have durable : scan.durable k = true := by
      rcases counted with durable | reliable
      · exact durable
      · simpa [SegmentScan.reliable] using (Bool.and_eq_true_iff.mp reliable).2
    have ok := inv.scan scan isScan
    obtain ⟨loc, located, below⟩ := ok.stop_le inv.small durable
    have covered := below.trans inv.marked_le
    exact ⟨loc, located, covered,
      fun kept shared => (ok.lies located).of_take covered shared⟩

/-- In the run the sidecar has a mark, and the reader counts the first record
as durable. -/
theorem synced_le_covered_shortHistory :
    ∃ (world : World) (scan : SegmentScan),
      Runs.Reachable World.IsInitial (World.Step fun _ => 0) world ∧
      SidecarRec.synced 56 ∈
        (readSidecar (fun _ => 0) (world.sidecar.getD []) true).1 ∧
      56 ≤ world.covered ∧
      world.scan = some scan ∧ scan.durable firstRecord.key = true ∧
      ∃ loc, scan.index firstRecord.key = some loc ∧
        (SidecarRec.entry firstRecord.key loc).stop ≤ world.covered ∧
        ∀ kept, world.data.take world.covered <+: kept →
          Lies (fun _ => 0) kept (.entry firstRecord.key loc) := by
  have evaluated :
      (created.run (fun _ => 0) shortHistory).map (fun world =>
        (decide (SidecarRec.synced 56 ∈
          (readSidecar (fun _ => 0) (world.sidecar.getD []) true).1),
          world.scan.map fun scan => scan.durable firstRecord.key)) =
        some (true, some true) := by
    decide +kernel
  obtain ⟨world, ran, facts⟩ := map_eq_some_iff.mp evaluated
  simp only [Prod.mk.injEq, decide_eq_true_eq] at facts
  obtain ⟨isMark, durable⟩ := facts
  obtain ⟨scan, isScan, durable⟩ := map_eq_some_iff.mp durable
  have reached := reachable_of_run ran
  obtain ⟨marks, records⟩ := synced_le_covered reached
  exact ⟨world, scan, reached, isMark, marks _ isMark rfl, isScan, durable,
    records scan isScan _ (.inl durable)⟩

end AmberStore.Packstore.History

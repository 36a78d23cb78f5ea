import AmberStore.Packstore.View
import Mathlib.Data.List.Nodup

/-!
# When the view is current

If the directory has the time of the listing that the view is from, then the
names that were listed are the names in the directory, and the refresh looked
at every one of them.  What it found makes up the view, unless this store
changed the view in between: then the refresh keeps what it would have
replaced, and misses what this store let go of.
-/

open List
open Option (ite_none_right_eq_some ite_none_left_eq_some map_eq_some_iff
  bind_eq_some_iff some.inj some.injEq)

namespace AmberStore.Packstore.View

/-! ## The invariant -/

/-- A mapped segment has a name's id and file. -/
def Entry.IsMapped (entry : Entry) (mapped : List Mapped) : Prop :=
  ∃ g ∈ mapped, g.id = entry.id ∧ g.ident = entry.ident

/-- A foreign segment has a name's id and file. -/
def Entry.IsForeign (entry : Entry) (foreign : List Foreign) : Prop :=
  ∃ fa ∈ foreign, fa.id = entry.id ∧ fa.ident = entry.ident

/-- The view shows every name: sealed segments are mapped, and active ones that
this store does not own are foreign, or mapped as crashed seals. -/
structure Shared.Shows (shared : Shared) (sealed active : List Entry) :
    Prop where
  sealed : ∀ entry ∈ sealed, entry.IsMapped shared.mapped
  active : ∀ entry ∈ active, shared.active ≠ some entry.id →
    entry.IsForeign shared.foreign ∨ entry.IsMapped shared.mapped

/-- The ids a refresh looked at or is going to. -/
def Findings.ids (findings : Findings) : List Nat :=
  findings.keepSealed ++ findings.opened.map Mapped.id ++
    findings.keepForeign ++ findings.openedForeign.map Foreign.id ++
    (findings.sealed ++ findings.active).map Entry.id

/-- A refresh keeps a name's mapped segment, or opened it. -/
def Findings.Maps
    (findings : Findings) (refresh : Refresh) (entry : Entry) : Prop :=
  entry.id ∈ findings.keepSealed ∧ entry.IsMapped refresh.have_ ∨
    entry.IsMapped findings.opened

/-- A refresh keeps a name's foreign segment, or opened it. -/
def Findings.Follows
    (findings : Findings) (refresh : Refresh) (entry : Entry) : Prop :=
  entry.id ∈ findings.keepForeign ∧ entry.IsForeign refresh.haveForeign ∨
    entry.IsForeign findings.openedForeign

/-- What a refresh found, while the names are the listed ones. -/
structure Findings.Ok
    (findings : Findings) (refresh : Refresh) (sealed active : List Entry) :
    Prop where
  foundSealed : ∀ entry ∈ sealed, entry ∈ findings.sealed ∨
    findings.Maps refresh entry
  foundActive : ∀ entry ∈ active, entry ∈ findings.active ∨
    refresh.own = some entry.id ∨ findings.Maps refresh entry ∨
    findings.Follows refresh entry
  pendingSealed : findings.sealed ⊆ sealed
  pendingActive : findings.active ⊆ active
  nodup : findings.ids.Nodup

/-- What holds of how far a refresh is. -/
def Stage.Ok (refresh : Refresh) (world : World) : Stage → Prop
  | .starting => True
  | .statted m => m ≤ world.mtime
  | .listed findings =>
    findings.dirMtime ≤ world.mtime ∧
      (findings.dirMtime = world.mtime →
        findings.Ok refresh world.sealed world.active)

/-- What holds of a refresh in progress. -/
structure Refresh.Ok (refresh : Refresh) (world : World) : Prop where
  epoch_le : refresh.epoch ≤ world.shared.structEpoch
  /-- While the epoch is the snapshot's, so is the view. -/
  snapshot : refresh.epoch = world.shared.structEpoch →
    refresh.have_ = world.shared.mapped ∧
    refresh.haveForeign = world.shared.foreign ∧
    refresh.own = world.shared.active
  stage : refresh.stage.Ok refresh world

/-- What holds of what the writer is at. -/
def Writer.Ok (world : World) : Writer → Prop
  | .idle => True
  | .created _ | .adopting _ _ => world.shared.active = none
  | .sealing id _ =>
    world.shared.active = some id ∧ id ∈ world.sealed.map Entry.id
  | .finishing id _ =>
    world.shared.active = none ∧ id ∈ world.sealed.map Entry.id

/-- The invariant of the view. -/
structure World.Ok (world : World) : Prop where
  /-- No two names have one id. -/
  nodup : ((world.sealed ++ world.active).map Entry.id).Nodup
  foreignNodup : (world.shared.foreign.map Foreign.id).Nodup
  past : ∀ m, world.shared.dirMtime = some m → m ≤ world.mtime
  shows : world.shared.dirMtime = some world.mtime →
    world.shared.Shows world.sealed world.active
  refresh : ∀ refresh, world.refresh = some refresh → refresh.Ok world
  writer : world.writer.Ok world

theorem World.IsInitial.ok {world : World} (isInitial : world.IsInitial) :
    world.Ok where
  nodup := isInitial.nodup
  foreignNodup := by simp [isInitial.shared]
  past m isTime := by
    rw [isInitial.shared] at isTime
    cases isTime
  shows isTime := by
    rw [isInitial.shared] at isTime
    cases isTime
  refresh refresh isRefresh := by
    rw [isInitial.refresh] at isRefresh
    cases isRefresh
  writer := by
    rw [isInitial.writer]
    trivial

/-! ## Applying a refresh -/

section AddNew

variable {α : Type*} {id : α → Nat} {blocked : α → Prop}
variable {add : List α → α → List α} {held more : List α} {item : α}

/-- An item is added at the end, unless it is blocked or one with its id is
there. -/
def AddsNew (id : α → Nat) (blocked : α → Prop)
    (add : List α → α → List α) : Prop :=
  ∀ held item,
    add held item = held ∧
        (blocked item ∨ ∃ other ∈ held, id other = id item) ∨
      add held item = held ++ [item] ∧ ∀ other ∈ held, id other ≠ id item

variable (adds : AddsNew id blocked add)
include adds

theorem AddsNew.mem_foldl_of_mem (isThere : item ∈ held) :
    item ∈ more.foldl add held := by
  induction more generalizing held with
  | nil => exact isThere
  | cons first more ih =>
    refine ih ?_
    rcases adds held first with ⟨same, -⟩ | ⟨added, -⟩
    · rwa [same]
    · rw [added]
      exact mem_append_left _ isThere

theorem AddsNew.mem_of_mem_foldl (isThere : item ∈ more.foldl add held) :
    item ∈ held ∨ item ∈ more := by
  induction more generalizing held with
  | nil => exact .inl isThere
  | cons first more ih =>
    obtain wasThere | isMore := ih isThere
    · rcases adds held first with ⟨same, -⟩ | ⟨added, -⟩
      · exact .inl (same ▸ wasThere)
      · rw [added] at wasThere
        exact (mem_append.mp wasThere).imp_right fun isFirst =>
          mem_cons.mpr (.inl (mem_singleton.mp isFirst))
    · exact .inr (mem_cons_of_mem _ isMore)

theorem AddsNew.nodup_foldl (nodup : (held.map id).Nodup) :
    ((more.foldl add held).map id).Nodup := by
  induction more generalizing held with
  | nil => exact nodup
  | cons first more ih =>
    refine ih ?_
    rcases adds held first with ⟨same, -⟩ | ⟨added, isNew⟩
    · rwa [same]
    · rw [added, map_append, nodup_append]
      refine ⟨nodup, nodup_singleton _, ?_⟩
      intro one isThere other isFirst same
      obtain ⟨old, isOld, rfl⟩ := mem_map.mp isThere
      rw [map_singleton, mem_singleton] at isFirst
      exact isNew old isOld (same.trans isFirst)

/-- An item that is not blocked, and whose id nobody else has, is added. -/
theorem AddsNew.mem_foldl
    (free : ¬blocked item) (isMore : item ∈ more)
    (nodup : (more.map id).Nodup)
    (isNew : ∀ other ∈ held, id other ≠ id item) :
    item ∈ more.foldl add held := by
  induction more generalizing held with
  | nil => cases isMore
  | cons first more ih =>
    obtain ⟨notLater, laterNodup⟩ := nodup_cons.mp nodup
    rcases adds held first with ⟨same, taken⟩ | ⟨added, -⟩
    · rw [foldl_cons, same]
      refine ih ?_ laterNodup isNew
      refine (mem_cons.mp isMore).resolve_left ?_
      rintro rfl
      obtain isBlocked | ⟨other, isOther, same⟩ := taken
      · exact free isBlocked
      · exact isNew other isOther same
    · rw [foldl_cons, added]
      obtain rfl | isLater := mem_cons.mp isMore
      · exact adds.mem_foldl_of_mem (mem_append_right _ (mem_singleton_self _))
      · refine ih isLater laterNodup ?_
        rw [forall_mem_append, forall_mem_singleton]
        exact ⟨isNew, fun same => notLater (same ▸ mem_map_of_mem isLater)⟩

end AddNew

theorem World.addsNew_addMapped :
    AddsNew Mapped.id (fun _ => False) World.addMapped := by
  intro mapped g
  unfold World.addMapped
  split
  case isTrue taken => exact .inl ⟨rfl, by simpa using taken⟩
  case isFalse isNew => exact .inr ⟨rfl, by simpa using isNew⟩

theorem World.addsNew_addForeign (own : Option Nat) (mapped : List Mapped) :
    AddsNew Foreign.id
      (fun fa => own = some fa.id ∨ ∃ g ∈ mapped, g.id = fa.id)
      (World.addForeign own mapped) := by
  intro foreign fa
  unfold World.addForeign
  split
  case isTrue taken => exact .inl ⟨rfl, by simpa using taken⟩
  case isFalse isNew =>
    simp only [Bool.or_eq_true, decide_eq_true_eq, any_eq_true,
      not_or, not_exists, not_and] at isNew
    exact .inr ⟨rfl, isNew.2⟩

@[simp] theorem World.id_polled (deltas : List Foreign) (fa : Foreign) :
    (World.polled deltas fa).id = fa.id := by
  unfold World.polled
  split <;> rfl

@[simp] theorem World.ident_polled (deltas : List Foreign) (fa : Foreign) :
    (World.polled deltas fa).ident = fa.ident := by
  unfold World.polled
  split <;> rfl

/-- The ids of the four kinds of findings are apart. -/
structure Findings.Apart (findings : Findings) : Prop where
  opened : (findings.opened.map Mapped.id).Nodup
  openedForeign : (findings.openedForeign.map Foreign.id).Nodup
  keepSealed : ∀ id ∈ findings.keepSealed, id ∉ findings.opened.map Mapped.id
  keepForeign : ∀ id ∈ findings.keepForeign, id ∉ findings.keepSealed ∧
    id ∉ findings.opened.map Mapped.id
  foreign : ∀ id ∈ findings.openedForeign.map Foreign.id,
    id ∉ findings.keepSealed ∧ id ∉ findings.opened.map Mapped.id ∧
      id ∉ findings.keepForeign

theorem Findings.apart_of_nodup
    {findings : Findings} (nodup : findings.ids.Nodup) :
    findings.Apart := by
  unfold Findings.ids at nodup
  simp only [nodup_append, mem_append] at nodup
  obtain ⟨⟨⟨⟨_, opened, one⟩, _, two⟩, openedForeign, three⟩, _, _⟩ := nodup
  refine ⟨opened, openedForeign, ?_, ?_, ?_⟩
  · intro id isKept isOpened
    exact one id isKept id isOpened rfl
  · intro id isKept
    exact ⟨fun isSealed => two id (.inl isSealed) id isKept rfl,
      fun isOpened => two id (.inr isOpened) id isKept rfl⟩
  · intro id isForeign
    exact ⟨fun isSealed => three id (.inl (.inl isSealed)) id isForeign rfl,
      fun isOpened => three id (.inl (.inr isOpened)) id isForeign rfl,
      fun isKept => three id (.inr isKept) id isForeign rfl⟩

section Applied

variable {shared : Shared} {refresh : Refresh} {findings : Findings}

variable {entry : Entry}

/-- What a refresh keeps of the mapped segments is there afterwards. -/
theorem World.isMapped_applied_of_kept
    (isKept : entry.id ∈ findings.keepSealed)
    (isMapped : entry.IsMapped shared.mapped) :
    entry.IsMapped (World.applied shared refresh findings).mapped := by
  obtain ⟨g, isThere, sameId, sameIdent⟩ := isMapped
  refine ⟨g, World.addsNew_addMapped.mem_foldl_of_mem ?_, sameId, sameIdent⟩
  rw [mem_filter]
  exact ⟨isThere, by simp [sameId, isKept]⟩

namespace World

variable (stable : shared.structEpoch = refresh.epoch)
include stable

/-- Every mapped segment was kept or opened, if this store did not change the
view. -/
theorem id_of_mem_applied
    (isThere : g ∈ (World.applied shared refresh findings).mapped) :
    g.id ∈ findings.keepSealed ∨ g.id ∈ findings.opened.map Mapped.id := by
  obtain isKept | isOpened := World.addsNew_addMapped.mem_of_mem_foldl isThere
  · left
    simpa [stable] using (mem_filter.mp isKept).2
  · exact .inr (mem_map_of_mem isOpened)

theorem isMapped_applied_of_opened
    (apart : findings.Apart)
    (isOpened : entry.IsMapped findings.opened) :
    entry.IsMapped (World.applied shared refresh findings).mapped := by
  obtain ⟨g, isThere, sameId, sameIdent⟩ := isOpened
  refine ⟨g, World.addsNew_addMapped.mem_foldl not_false isThere
    apart.opened ?_, sameId, sameIdent⟩
  intro other isKept same
  have kept : other.id ∈ findings.keepSealed := by
    simpa [stable] using (mem_filter.mp isKept).2
  exact apart.keepSealed other.id kept (same ▸ mem_map_of_mem isThere)

theorem isForeign_applied_of_kept
    (apart : findings.Apart)
    (nodup : (shared.foreign.map Foreign.id).Nodup)
    (notOwn : shared.active ≠ some entry.id)
    (isKept : entry.id ∈ findings.keepForeign)
    (isForeign : entry.IsForeign shared.foreign) :
    entry.IsForeign (World.applied shared refresh findings).foreign := by
  obtain ⟨fa, isThere, sameId, sameIdent⟩ := isForeign
  have addsNew := World.addsNew_addForeign shared.active
    (World.applied shared refresh findings).mapped
  refine ⟨World.polled findings.deltas fa,
    addsNew.mem_foldl_of_mem (addsNew.mem_foldl ?_ ?_ ?_
      (fun _ isNone => by cases isNone)), by simpa using sameId,
    by simpa using sameIdent⟩
  · rintro (isOwn | ⟨g, isMapped, same⟩)
    · exact notOwn (by simpa [sameId] using isOwn)
    · have apartFrom := apart.keepForeign entry.id isKept
      rw [World.id_polled, sameId] at same
      obtain isSealed | isOpened := World.id_of_mem_applied stable isMapped
      · exact apartFrom.1 (same ▸ isSealed)
      · exact apartFrom.2 (same ▸ isOpened)
  · rw [mem_filter]
    exact ⟨mem_map_of_mem isThere, by simp [sameId, isKept]⟩
  · refine List.Nodup.sublist (filter_sublist.map Foreign.id) ?_
    rw [map_map]
    simpa [Function.comp_def] using nodup

theorem isForeign_applied_of_opened
    (apart : findings.Apart)
    (notOwn : shared.active ≠ some entry.id)
    (isOpened : entry.IsForeign findings.openedForeign) :
    entry.IsForeign (World.applied shared refresh findings).foreign := by
  obtain ⟨fa, isThere, sameId, sameIdent⟩ := isOpened
  have apartFrom := apart.foreign fa.id (mem_map_of_mem isThere)
  have addsNew := World.addsNew_addForeign shared.active
    (World.applied shared refresh findings).mapped
  refine ⟨fa, addsNew.mem_foldl ?_ isThere apart.openedForeign ?_, sameId,
    sameIdent⟩
  · rintro (isOwn | ⟨g, isMapped, same⟩)
    · exact notOwn (sameId ▸ isOwn)
    · obtain isSealed | isOpened := World.id_of_mem_applied stable isMapped
      · exact apartFrom.1 (same ▸ isSealed)
      · exact apartFrom.2.1 (same ▸ isOpened)
  · intro other isKept same
    obtain isNone | isKept := addsNew.mem_of_mem_foldl isKept
    · cases isNone
    · have kept : other.id ∈ findings.keepForeign := by
        simpa [stable] using (mem_filter.mp isKept).2
      exact apartFrom.2.2 (same ▸ kept)

end World

/-- A refresh that looked at every name shows every name, if this store did
not change the view meanwhile. -/
theorem Findings.Ok.shows
    {sealed active : List Entry} (ok : findings.Ok refresh sealed active)
    (doneSealed : findings.sealed = []) (doneActive : findings.active = [])
    (stable : shared.structEpoch = refresh.epoch)
    (mapped : refresh.have_ = shared.mapped)
    (foreign : refresh.haveForeign = shared.foreign)
    (own : refresh.own = shared.active)
    (nodup : (shared.foreign.map Foreign.id).Nodup) :
    (World.applied shared refresh findings).Shows sealed active := by
  have apart := Findings.apart_of_nodup ok.nodup
  have isMapped {entry : Entry} (maps : findings.Maps refresh entry) :
      entry.IsMapped (World.applied shared refresh findings).mapped := by
    obtain ⟨isKept, isMapped⟩ | isOpened := maps
    · exact World.isMapped_applied_of_kept isKept (mapped ▸ isMapped)
    · exact World.isMapped_applied_of_opened stable apart isOpened
  refine ⟨fun entry isThere => ?_, fun entry isThere notOwn => ?_⟩
  · refine isMapped ((ok.foundSealed entry isThere).resolve_left ?_)
    rw [doneSealed]
    exact not_mem_nil
  · have notOwn : shared.active ≠ some entry.id := notOwn
    obtain isPending | isOwn | maps | ⟨isKept, isForeign⟩ | isOpened :=
      ok.foundActive entry isThere
    · rw [doneActive] at isPending
      cases isPending
    · exact absurd (own ▸ isOwn) notOwn
    · exact .inr (isMapped maps)
    · exact .inl (World.isForeign_applied_of_kept stable apart nodup notOwn
        isKept (foreign ▸ isForeign))
    · exact .inl (World.isForeign_applied_of_opened stable apart notOwn
        isOpened)

end Applied

/-! ## Looking at what is listed -/

theorem find?_eq_of_nodup
    {entries : List Entry} (nodup : (entries.map Entry.id).Nodup)
    (isThere : entry ∈ entries) :
    entries.find? (fun other => other.id = entry.id) = some entry := by
  induction entries with
  | nil => cases isThere
  | cons first entries ih =>
    obtain ⟨notLater, laterNodup⟩ := nodup_cons.mp nodup
    obtain rfl | isLater := mem_cons.mp isThere
    · simp
    · have ne : first.id ≠ entry.id := by
        intro same
        exact notLater (same ▸ mem_map_of_mem isLater)
      rw [find?_cons_of_neg (by simpa using ne)]
      exact ih laterNodup isLater

theorem isMapped_of_find?
    {entry : Entry}
    (found : mapped.find? (fun g => g.id = entry.id) = some g)
    (sameIdent : g.ident = entry.ident) :
    entry.IsMapped mapped :=
  ⟨g, mem_of_find?_eq_some found, by simpa using find?_some found, sameIdent⟩

/-- What was found stays found. -/
structure Findings.Extends (before after : Findings) : Prop where
  keepSealed : before.keepSealed ⊆ after.keepSealed
  opened : before.opened ⊆ after.opened
  keepForeign : before.keepForeign ⊆ after.keepForeign
  openedForeign : before.openedForeign ⊆ after.openedForeign

theorem Findings.Extends.refl (findings : Findings) :
    findings.Extends findings :=
  ⟨List.Subset.refl _, List.Subset.refl _, List.Subset.refl _,
    List.Subset.refl _⟩

section Looks

variable {world : World} {refresh : Refresh} {findings after : Findings}
variable {entry : Entry} {rest : List Entry}

theorem Findings.Extends.maps
    (grows : findings.Extends after) (maps : findings.Maps refresh entry) :
    after.Maps refresh entry := by
  obtain ⟨isKept, isMapped⟩ | ⟨g, isOpened, same⟩ := maps
  · exact .inl ⟨grows.keepSealed isKept, isMapped⟩
  · exact .inr ⟨g, grows.opened isOpened, same⟩

theorem Findings.Extends.follows
    (grows : findings.Extends after) (follows : findings.Follows refresh entry) :
    after.Follows refresh entry := by
  obtain ⟨isKept, isForeign⟩ | ⟨fa, isOpened, same⟩ := follows
  · exact .inl ⟨grows.keepForeign isKept, isForeign⟩
  · exact .inr ⟨fa, grows.openedForeign isOpened, same⟩

/-- The rule of looks: each listed name is still to be looked at, or found. -/
theorem Findings.Ok.of_extends
    {sealed active : List Entry} (ok : findings.Ok refresh sealed active)
    (grows : findings.Extends after)
    (pendingSealed : after.sealed ⊆ findings.sealed)
    (pendingActive : after.active ⊆ findings.active)
    (foundSealed : ∀ entry ∈ findings.sealed, entry ∈ after.sealed ∨
      after.Maps refresh entry)
    (foundActive : ∀ entry ∈ findings.active, entry ∈ after.active ∨
      refresh.own = some entry.id ∨ after.Maps refresh entry ∨
      after.Follows refresh entry)
    (counts : ∀ id, after.ids.count id ≤ findings.ids.count id) :
    after.Ok refresh sealed active where
  foundSealed entry isThere := by
    obtain isPending | maps := ok.foundSealed entry isThere
    · exact foundSealed entry isPending
    · exact .inr (grows.maps maps)
  foundActive entry isThere := by
    obtain isPending | isOwn | maps | follows := ok.foundActive entry isThere
    · exact foundActive entry isPending
    · exact .inr (.inl isOwn)
    · exact .inr (.inr (.inl (grows.maps maps)))
    · exact .inr (.inr (.inr (grows.follows follows)))
  pendingSealed := List.Subset.trans pendingSealed ok.pendingSealed
  pendingActive := List.Subset.trans pendingActive ok.pendingActive
  nodup := nodup_iff_count_le_one.mpr fun id =>
    Nat.le_trans (counts id) (nodup_iff_count_le_one.mp ok.nodup id)

namespace Findings

variable (ok : findings.Ok refresh world.sealed world.active)
include ok

/-- A look at a sealed segment finds it. -/
theorem Ok.of_sealed
    (pending : findings.sealed = entry :: rest)
    (grows : findings.Extends after) (sealed : after.sealed = rest)
    (active : after.active = findings.active)
    (maps : after.Maps refresh entry)
    (counts : ∀ id, after.ids.count id ≤ findings.ids.count id) :
    after.Ok refresh world.sealed world.active := by
  refine ok.of_extends grows ?_ (active ▸ List.Subset.refl _) ?_
    (fun other isPending => .inl (active ▸ isPending)) counts
  · rw [sealed, pending]
    exact subset_cons_self _ _
  · rw [pending, sealed, forall_mem_cons]
    exact ⟨.inr maps, fun other isRest => .inl isRest⟩

/-- A look at an active segment finds it, or it is this store's own. -/
theorem Ok.of_active
    (pending : findings.active = entry :: rest)
    (grows : findings.Extends after) (active : after.active = rest)
    (sealed : after.sealed = findings.sealed)
    (found : refresh.own = some entry.id ∨ after.Maps refresh entry ∨
      after.Follows refresh entry)
    (counts : ∀ id, after.ids.count id ≤ findings.ids.count id) :
    after.Ok refresh world.sealed world.active := by
  refine ok.of_extends grows (sealed ▸ List.Subset.refl _) ?_
    (fun other isPending => .inl (sealed ▸ isPending)) ?_ counts
  · rw [active, pending]
    exact subset_cons_self _ _
  · rw [pending, active, forall_mem_cons]
    exact ⟨.inr found, fun other isRest => .inl isRest⟩

/-- Looking at a sealed segment keeps what holds. -/
theorem Ok.lookSealed
    (nodup : (world.sealed.map Entry.id).Nodup)
    (pending : findings.sealed = entry :: rest) :
    (world.lookSealed refresh { findings with sealed := rest } entry).Ok
      refresh world.sealed world.active := by
  have isThere : entry ∈ world.sealed :=
    ok.pendingSealed (pending ▸ mem_cons_self)
  unfold World.lookSealed
  split
  case isTrue found =>
    refine ok.of_sealed pending
      { Findings.Extends.refl findings with
        keepSealed := subset_cons_self _ _ }
      rfl rfl (.inl ⟨mem_cons_self, isMapped_of_find? found rfl⟩) ?_
    grind [Findings.ids]
  case isFalse =>
    rw [find?_eq_of_nodup nodup isThere]
    refine ok.of_sealed pending
      { Findings.Extends.refl findings with
        opened := subset_cons_self _ _ }
      rfl rfl (.inr ⟨_, mem_cons_self, rfl, rfl⟩) ?_
    grind [Findings.ids]

/-- Opening an active segment finds it. -/
theorem Ok.openForeign
    (nodup : (world.active.map Entry.id).Nodup)
    (pending : findings.active = entry :: rest) :
    (world.openForeign { findings with active := rest } entry).Ok
      refresh world.sealed world.active := by
  have isThere : entry ∈ world.active :=
    ok.pendingActive (pending ▸ mem_cons_self)
  unfold World.openForeign
  rw [find?_eq_of_nodup nodup isThere]
  dsimp only
  split
  case isTrue =>
    refine ok.of_active pending
      { Findings.Extends.refl findings with
        opened := subset_cons_self _ _ }
      rfl rfl (.inr (.inl (.inr ⟨_, mem_cons_self, rfl, rfl⟩))) ?_
    grind [Findings.ids]
  case isFalse =>
    refine ok.of_active pending
      { Findings.Extends.refl findings with
        openedForeign := subset_cons_self _ _ }
      rfl rfl (.inr (.inr (.inr ⟨_, mem_cons_self, rfl, rfl⟩))) ?_
    grind [Findings.ids]

/-- Looking at an active segment keeps what holds. -/
theorem Ok.lookActive
    (nodup : (world.active.map Entry.id).Nodup)
    (pending : findings.active = entry :: rest) (polls : Bool) :
    (world.lookActive refresh polls { findings with active := rest } entry).Ok
      refresh world.sealed world.active := by
  unfold World.lookActive
  split
  case isTrue isOwn =>
    refine ok.of_active pending
      ⟨List.Subset.refl _, List.Subset.refl _, List.Subset.refl _,
        List.Subset.refl _⟩ rfl rfl (.inl isOwn) ?_
    grind [Findings.ids]
  case isFalse =>
    split
    case isTrue found =>
      obtain ⟨g, found, sameIdent⟩ := map_eq_some_iff.mp found
      refine ok.of_active pending
        { Findings.Extends.refl findings with
          keepSealed := subset_cons_self _ _ }
        rfl rfl (.inr (.inl (.inl ⟨mem_cons_self,
          isMapped_of_find? found sameIdent⟩))) ?_
      grind [Findings.ids]
    case isFalse =>
      split
      case isTrue isPolled =>
        obtain ⟨_, _, found⟩ := isPolled
        obtain ⟨fa, found, sameIdent⟩ := map_eq_some_iff.mp found
        refine ok.of_active pending
          { Findings.Extends.refl findings with
            keepForeign := subset_cons_self _ _ }
          rfl rfl (.inr (.inr (.inl ⟨mem_cons_self, fa,
            mem_of_find?_eq_some found,
            by simpa using find?_some found, sameIdent⟩))) ?_
        grind [Findings.ids]
      case isFalse => exact ok.openForeign nodup pending

end Findings

end Looks

/-! ## Steps of a refresh -/

theorem World.dirMtime_lookSealed
    (world : World) (refresh : Refresh) (findings : Findings)
    (entry : Entry) :
    (world.lookSealed refresh findings entry).dirMtime = findings.dirMtime := by
  unfold World.lookSealed
  repeat' split
  all_goals rfl

theorem World.dirMtime_lookActive
    (world : World) (refresh : Refresh) (polls : Bool) (findings : Findings)
    (entry : Entry) :
    (world.lookActive refresh polls findings entry).dirMtime =
      findings.dirMtime := by
  unfold World.lookActive World.openForeign
  repeat' split
  all_goals rfl

/-- The condition on a step: a refresh takes effect only if this store did not
change the view since its snapshot, or the directory changed since it was
listed, and a segment this store sealed is published only if no other file took
its name. -/
def World.steady (world : World) : Action → Bool
  | .refreshApply =>
    match world.refresh with
    | some ⟨epoch, _, _, _, _, _, .listed findings⟩ =>
      world.shared.structEpoch = epoch || findings.dirMtime ≠ world.mtime
    | _ => true
  | .publish =>
    match world.writer with
    | .sealing id ident | .finishing id ident =>
      world.sealed.all fun entry => entry.id ≠ id || entry.ident = ident
    | _ => true
  | _ => true

namespace World.Ok

variable {world after : World}

/-- What holds of the writer stays while sealed names do. -/
theorem writer_of_subset
    (ok : world.writer.Ok world) (writer : after.writer = world.writer)
    (active : after.shared.active = world.shared.active)
    (ids : world.sealed.map Entry.id ⊆ after.sealed.map Entry.id) :
    after.writer.Ok after := by
  rw [writer]
  cases isWriter : world.writer <;> rw [isWriter] at ok
  case idle => trivial
  case created | adopting => exact active.trans ok
  case sealing | finishing => exact ⟨active.trans ok.1, ids ok.2⟩

/-- A refresh comes to another stage. -/
theorem toStage
    (ok : world.Ok) {refresh : Refresh} (isRefresh : world.refresh = some refresh)
    (stageOk : stage.Ok refresh world) :
    (world.toStage refresh stage).Ok where
  nodup := ok.nodup
  foreignNodup := ok.foreignNodup
  past := ok.past
  shows := ok.shows
  refresh other isOther := by
    have refreshOk := ok.refresh refresh isRefresh
    obtain rfl := some.inj isOther
    refine ⟨refreshOk.epoch_le, refreshOk.snapshot, ?_⟩
    cases stage with
    | starting => trivial
    | statted m => exact stageOk
    | listed findings =>
      refine ⟨stageOk.1, fun same => ?_⟩
      have found := stageOk.2 same
      exact ⟨found.foundSealed, found.foundActive, found.pendingSealed,
        found.pendingActive, found.nodup⟩
  writer := writer_of_subset ok.writer rfl rfl (List.Subset.refl _)

/-- The view of a refresh that takes effect. -/
theorem applied
    (ok : world.Ok) {refresh : Refresh}
    (isRefresh : world.refresh = some refresh)
    (isStage : refresh.stage = .listed findings)
    (doneSealed : findings.sealed = []) (doneActive : findings.active = [])
    (condition : world.shared.structEpoch = refresh.epoch ∨
      findings.dirMtime ≠ world.mtime) :
    Ok { world with
      shared := World.applied world.shared refresh findings
      refresh := none } := by
  have refreshOk := ok.refresh refresh isRefresh
  have stageOk := refreshOk.stage
  rw [isStage] at stageOk
  refine ⟨ok.nodup, ?_, ?_, ?_, fun _ isNone => (by cases isNone),
    writer_of_subset ok.writer rfl rfl (List.Subset.refl _)⟩
  · exact (World.addsNew_addForeign _ _).nodup_foldl
      ((World.addsNew_addForeign _ _).nodup_foldl nodup_nil)
  · intro m isTime
    cases isTime
    exact stageOk.1
  · intro isTime
    have same : findings.dirMtime = world.mtime := some.inj isTime
    have stable := condition.resolve_right (not_not.mpr same)
    obtain ⟨mapped, foreign, own⟩ := refreshOk.snapshot stable.symm
    exact (stageOk.2 same).shows doneSealed doneActive stable mapped foreign
      own ok.foreignNodup

theorem refreshStep
    (ok : world.Ok)
    (acted : world.refreshStep action = some after)
    (condition : world.steady action = true) :
    after.Ok := by
  cases action with
  | refreshStart rebuild =>
    simp only [World.refreshStep, ite_none_right_eq_some,
      some.injEq] at acted
    rw [← acted.2]
    refine ⟨ok.nodup, ok.foreignNodup, ok.past, ok.shows, ?_,
      writer_of_subset ok.writer rfl rfl (List.Subset.refl _)⟩
    intro refresh isRefresh
    cases isRefresh
    exact ⟨Nat.le_refl _, fun _ => ⟨rfl, rfl, rfl⟩, trivial⟩
  | refreshStat =>
    obtain ⟨refresh, isRefresh, acted⟩ := bind_eq_some_iff.mp acted
    split at acted
    case h_1 =>
      cases acted
      exact ok.toStage isRefresh (Nat.le_refl world.mtime)
    case h_2 => cases acted
  | refreshList sealed active =>
    obtain ⟨refresh, isRefresh, acted⟩ := bind_eq_some_iff.mp acted
    split at acted
    case h_1 m isStage =>
      simp only [ite_none_right_eq_some, some.injEq] at acted
      obtain ⟨listing, rfl⟩ := acted
      have stageOk := (ok.refresh refresh isRefresh).stage
      rw [isStage] at stageOk
      refine ok.toStage isRefresh ⟨stageOk, ?_⟩
      intro same
      obtain ⟨rfl, rfl⟩ := listing.resolve_left (not_not.mpr same)
      exact ⟨fun _ isThere => .inl isThere,
        fun _ isThere => .inl isThere, List.Subset.refl _,
        List.Subset.refl _, by simpa [Findings.ids] using ok.nodup⟩
    case h_2 => cases acted
  | refreshLook polls =>
    obtain ⟨refresh, isRefresh, acted⟩ := bind_eq_some_iff.mp acted
    have stageOk := (ok.refresh refresh isRefresh).stage
    have nodup := ok.nodup
    rw [map_append, nodup_append] at nodup
    split at acted
    case h_1 findings isStage =>
      rw [isStage] at stageOk
      split at acted
      case h_1 entry rest pending =>
        cases acted
        refine ok.toStage isRefresh ?_
        rw [Stage.Ok, World.dirMtime_lookSealed]
        exact ⟨stageOk.1, fun same =>
          (stageOk.2 same).lookSealed nodup.1 pending⟩
      case h_2 entry rest _ pending =>
        cases acted
        refine ok.toStage isRefresh ?_
        rw [Stage.Ok, World.dirMtime_lookActive]
        exact ⟨stageOk.1, fun same =>
          (stageOk.2 same).lookActive nodup.2.1 pending polls⟩
      case h_3 => cases acted
    case h_2 => cases acted
  | refreshApply =>
    obtain ⟨refresh, isRefresh, acted⟩ := bind_eq_some_iff.mp acted
    split at acted
    case h_1 findings isStage =>
      split at acted
      case isTrue => cases acted
      case isFalse isDone =>
        simp only [not_or, not_not] at isDone
        split at acted
        case isTrue =>
          cases acted
          have refreshOk := ok.refresh refresh isRefresh
          refine ⟨ok.nodup, ok.foreignNodup, ok.past, ok.shows, ?_,
            writer_of_subset ok.writer rfl rfl (List.Subset.refl _)⟩
          intro other isOther
          cases isOther
          exact ⟨refreshOk.epoch_le, refreshOk.snapshot, trivial⟩
        case isFalse =>
          cases acted
          refine ok.applied isRefresh isStage isDone.1 isDone.2 ?_
          cases refresh with
          | mk epoch mapped foreign own rebuild attempt stage =>
            obtain rfl : stage = .listed findings := isStage
            simpa [World.steady, isRefresh] using condition
    case h_2 => cases acted
  | refreshFail =>
    simp only [World.refreshStep, ite_none_right_eq_some,
      some.injEq] at acted
    rw [← acted.2]
    exact ⟨ok.nodup, ok.foreignNodup, ok.past, ok.shows,
      fun _ isNone => (by cases isNone),
      writer_of_subset ok.writer rfl rfl (List.Subset.refl _)⟩
  | _ => cases acted

/-! ## The writer and other stores -/

end World.Ok

namespace Shared

variable (shared : Shared) (segment : Mapped)

@[simp] theorem structEpoch_publishSealed :
    (shared.publishSealed segment).structEpoch = shared.structEpoch + 1 := by
  unfold publishSealed
  dsimp only
  split <;> rfl

@[simp] theorem dirMtime_publishSealed :
    (shared.publishSealed segment).dirMtime = shared.dirMtime := by
  unfold publishSealed
  dsimp only
  split <;> rfl

@[simp] theorem active_publishSealed :
    (shared.publishSealed segment).active = shared.active := by
  unfold publishSealed
  dsimp only
  split <;> rfl

variable {shared segment}

theorem foreign_publishSealed_sublist :
    (shared.publishSealed segment).foreign.Sublist shared.foreign := by
  unfold publishSealed
  dsimp only
  split
  · exact List.Sublist.refl _
  · exact filter_sublist

theorem isForeign_dropForeign {entry : Entry} {id : Nat}
    (isForeign : entry.IsForeign shared.foreign) (ne : entry.id ≠ id) :
    entry.IsForeign (shared.dropForeign id).foreign := by
  obtain ⟨fa, found, isId, isFile⟩ := isForeign
  refine ⟨fa, mem_filter.mpr ⟨found, ?_⟩, isId, isFile⟩
  simpa [isId] using ne

theorem isForeign_publishSealed {entry : Entry}
    (isForeign : entry.IsForeign shared.foreign) (ne : entry.id ≠ segment.id) :
    entry.IsForeign (shared.publishSealed segment).foreign := by
  unfold publishSealed
  dsimp only
  split
  · exact isForeign
  · exact isForeign_dropForeign isForeign ne

theorem isMapped_publishSealed {entry : Entry}
    (isMapped : entry.IsMapped shared.mapped) (ne : entry.id ≠ segment.id) :
    entry.IsMapped (shared.publishSealed segment).mapped := by
  obtain ⟨g, found, isId, isFile⟩ := isMapped
  unfold publishSealed
  dsimp only
  split
  · exact ⟨g, mem_map.mpr ⟨g, found, if_neg (isId ▸ ne)⟩, isId, isFile⟩
  · exact ⟨g, mem_append_left _ found, isId, isFile⟩

theorem mem_mapped_publishSealed :
    segment ∈ (shared.publishSealed segment).mapped := by
  unfold publishSealed
  dsimp only
  split
  case isTrue there =>
    obtain ⟨g, found, isId⟩ := any_eq_true.mp there
    exact mem_map.mpr ⟨g, found, if_pos (by simpa using isId)⟩
  case isFalse => exact mem_append_right _ (mem_singleton_self _)

end Shared

namespace World.Ok

variable {world after : World}

/-- The view does not change, and the names only with the time of the
directory. -/
theorem kept
    (ok : world.Ok)
    (nodup : ((after.sealed ++ after.active).map Entry.id).Nodup)
    (mtime : world.mtime ≤ after.mtime)
    (names : after.mtime = world.mtime →
      after.sealed = world.sealed ∧ after.active = world.active)
    (shared : after.shared = world.shared)
    (refresh : after.refresh = world.refresh)
    (writer : after.writer.Ok after) : after.Ok where
  nodup := nodup
  foreignNodup := by
    rw [shared]
    exact ok.foreignNodup
  past m isTime := Nat.le_trans (ok.past m (shared ▸ isTime)) mtime
  shows isTime := by
    rw [shared] at isTime ⊢
    have same := Nat.le_antisymm (ok.past _ isTime) mtime
    rw [(names same).1, (names same).2]
    exact ok.shows (same ▸ isTime)
  refresh refresh' isRefresh := by
    have refreshOk := ok.refresh refresh' (refresh ▸ isRefresh)
    refine ⟨shared ▸ refreshOk.epoch_le, shared ▸ refreshOk.snapshot, ?_⟩
    have stageOk := refreshOk.stage
    cases isStage : refresh'.stage with
    | starting => trivial
    | statted m =>
      rw [isStage] at stageOk
      exact Nat.le_trans stageOk mtime
    | listed findings =>
      rw [isStage] at stageOk
      refine ⟨Nat.le_trans stageOk.1 mtime, fun isTime => ?_⟩
      have same := Nat.le_antisymm (isTime ▸ stageOk.1) mtime
      rw [(names same).1, (names same).2]
      exact stageOk.2 (isTime.trans same)
  writer := writer

/-- The time of the directory moves, and the view does not change. -/
theorem later
    (ok : world.Ok)
    (nodup : ((after.sealed ++ after.active).map Entry.id).Nodup)
    (mtime : after.mtime = world.mtime + 1)
    (shared : after.shared = world.shared)
    (refresh : after.refresh = world.refresh)
    (writer : after.writer.Ok after) : after.Ok :=
  ok.kept nodup (by omega) (fun same => by omega) shared refresh writer

/-- This store changes the view: a refresh in progress has another epoch. -/
theorem changed
    (ok : world.Ok) {shared : Shared}
    (epoch : shared.structEpoch = world.shared.structEpoch + 1)
    (foreignNodup : (shared.foreign.map Foreign.id).Nodup)
    (past : ∀ m, shared.dirMtime = some m → world.shared.dirMtime = some m)
    (shows : shared.dirMtime = some world.mtime →
      shared.Shows world.sealed world.active) :
    Ok { world with shared := shared, writer := .idle } where
  nodup := ok.nodup
  foreignNodup := foreignNodup
  past m isTime := ok.past m (past m isTime)
  shows := shows
  refresh refresh isRefresh := by
    have refreshOk := ok.refresh refresh isRefresh
    have before := refreshOk.epoch_le
    refine ⟨?_, fun same => ?_, ?_⟩
    · change refresh.epoch ≤ shared.structEpoch
      omega
    · change refresh.epoch = shared.structEpoch at same
      omega
    · have stageOk := refreshOk.stage
      cases isStage : refresh.stage <;> rw [isStage] at stageOk <;> exact stageOk
  writer := trivial

theorem nodup_addActive
    (ok : world.Ok) {id : Nat} (free : world.isTaken id = false) :
    (((world.addActive id).sealed ++ (world.addActive id).active).map
      Entry.id).Nodup := by
  simp only [World.isTaken, any_eq_false, decide_eq_true_eq] at free
  rw [World.addActive, ← append_assoc, map_append, nodup_append']
  refine ⟨ok.nodup, nodup_singleton _, ?_⟩
  rintro other isListed isNew
  obtain ⟨entry, listed, rfl⟩ := mem_map.mp isListed
  exact free entry listed (mem_singleton.mp isNew)

theorem id_mem_of_activeAt {id : Nat}
    (found : world.activeAt id = some ident) :
    id ∈ world.active.map Entry.id := by
  obtain ⟨entry, isFound, -⟩ := map_eq_some_iff.mp found
  have isId : entry.id = id := by simpa using find?_some isFound
  exact mem_map.mpr ⟨entry, mem_of_find?_eq_some isFound, isId⟩

theorem map_id_replace (entries : List Entry) (id ident : Nat) :
    (entries.map fun entry =>
      if entry.id = id then (⟨id, ident⟩ : Entry) else entry).map Entry.id =
      entries.map Entry.id := by
  rw [map_map]
  refine map_congr_left fun entry _ => ?_
  by_cases isId : entry.id = id
  · rw [Function.comp_apply, if_pos isId, isId]
  · rw [Function.comp_apply, if_neg isId]

/-- A sealed segment's id is no active one's. -/
theorem id_ne_of_sealed
    (ok : world.Ok) {id : Nat} (isSealed : id ∈ world.sealed.map Entry.id)
    (isActive : entry ∈ world.active) : entry.id ≠ id := by
  have nodup := ok.nodup
  rw [map_append, nodup_append'] at nodup
  rintro rfl
  exact nodup.2.2 isSealed (mem_map_of_mem isActive)

theorem nodup_renameToSealed
    (ok : world.Ok) {id : Nat} (found : world.activeAt id = some ident) :
    (((world.renameToSealed id ident).sealed ++
      (world.renameToSealed id ident).active).map Entry.id).Nodup := by
  have nodup := ok.nodup
  rw [map_append, nodup_append'] at nodup
  obtain ⟨sealedNodup, activeNodup, apart⟩ := nodup
  have inActive := id_mem_of_activeAt found
  simp only [World.renameToSealed, map_append, map_cons, append_assoc,
    singleton_append, nodup_append', nodup_cons]
  refine ⟨sealedNodup, ⟨?_, ?_⟩, ?_⟩
  · intro isKept
    obtain ⟨entry, kept, isId⟩ := mem_map.mp isKept
    simpa [isId] using (mem_filter.mp kept).2
  · exact activeNodup.sublist (filter_sublist.map _)
  · intro other isSealed isNew
    rcases mem_cons.mp isNew with rfl | isKept
    · exact apart isSealed inActive
    · exact apart isSealed ((filter_sublist.map _).subset isKept)

theorem nodup_filter
    (ok : world.Ok) (keepSealed keepActive : Entry → Bool) :
    ((world.sealed.filter keepSealed ++ world.active.filter keepActive).map
      Entry.id).Nodup :=
  ok.nodup.sublist ((filter_sublist.append filter_sublist).map _)

/-- A sealed segment is published, and the store owns none afterwards. -/
theorem publishSealed
    (ok : world.Ok) {id : Nat}
    (isSealed : id ∈ world.sealed.map Entry.id)
    (owned : ∀ other, world.shared.active = some other → other = id)
    (condition : ∀ entry ∈ world.sealed, entry.id = id → entry.ident = ident) :
    Ok { world with
      shared := { world.shared.publishSealed ⟨id, ident, .sealed⟩ with
        active := none }
      writer := .idle } := by
  refine ok.changed (Shared.structEpoch_publishSealed _ _) ?_ ?_ ?_
  · exact ok.foreignNodup.sublist
      (Shared.foreign_publishSealed_sublist.map Foreign.id)
  · intro m isTime
    exact (Shared.dirMtime_publishSealed _ _).symm.trans isTime
  · intro isTime
    have shows := ok.shows ((Shared.dirMtime_publishSealed _ _).symm.trans isTime)
    refine ⟨fun entry listed => ?_, fun entry listed _ => ?_⟩
    · by_cases isId : entry.id = id
      · exact ⟨_, Shared.mem_mapped_publishSealed, isId.symm,
          (condition entry listed isId).symm⟩
      · exact Shared.isMapped_publishSealed (shows.sealed entry listed) isId
    · have ne := ok.id_ne_of_sealed isSealed listed
      have notOwn : world.shared.active ≠ some entry.id :=
        fun isOwn => ne (owned entry.id isOwn)
      exact (shows.active entry listed notOwn).imp
        (fun isForeign => Shared.isForeign_publishSealed isForeign ne)
        (fun isMapped => Shared.isMapped_publishSealed isMapped ne)

/-- The condition on a publication: the sealed name has the store's file. -/
theorem sealed_of_steady
    (condition : world.steady .publish = true) {id : Nat}
    (isWriter : world.writer = .sealing id ident ∨
      world.writer = .finishing id ident) :
    ∀ entry ∈ world.sealed, entry.id = id → entry.ident = ident := by
  intro entry listed isId
  rcases isWriter with isWriter | isWriter
  all_goals
    simp only [World.steady, isWriter, all_eq_true] at condition
    simpa [isId] using condition entry listed

/-- The writer's change of the view keeps the invariant. -/
theorem publish
    (ok : world.Ok) (condition : world.steady .publish = true)
    (acted : world.writerStep .publish = some after) : after.Ok := by
  have writerOk := ok.writer
  simp only [World.writerStep] at acted
  cases isWriter : world.writer with
  | idle => simp only [isWriter, reduceCtorEq] at acted
  | created id =>
    simp only [isWriter, some.injEq] at acted
    rw [isWriter] at writerOk
    rw [← acted]
    refine ok.changed rfl ok.foreignNodup (fun _ isTime => isTime) ?_
    intro isTime
    have shows := ok.shows isTime
    refine ⟨shows.sealed, fun entry listed _ => ?_⟩
    exact shows.active entry listed (fun isOwn => by
      rw [writerOk] at isOwn
      cases isOwn)
  | adopting id ident =>
    simp only [isWriter, ite_none_left_eq_some,
      some.injEq] at acted
    rw [isWriter] at writerOk
    rw [← acted.2]
    refine ok.changed rfl ?_ (fun _ isTime => isTime) ?_
    · exact ok.foreignNodup.sublist (filter_sublist.map Foreign.id)
    · intro isTime
      have shows := ok.shows isTime
      refine ⟨shows.sealed, fun entry listed notOwn => ?_⟩
      have ne : entry.id ≠ id := fun isId => notOwn (congrArg some isId.symm)
      have unowned : world.shared.active ≠ some entry.id := by
        rw [show world.shared.active = none from writerOk]
        exact nofun
      exact (shows.active entry listed unowned).imp_left
        (fun isForeign => Shared.isForeign_dropForeign isForeign ne)
  | sealing id ident =>
    simp only [isWriter, some.injEq] at acted
    rw [isWriter] at writerOk
    obtain ⟨isOwn, isSealed⟩ := writerOk
    rw [← acted]
    refine ok.publishSealed isSealed (fun other isOther => ?_) ?_
    · exact some.inj (isOther.symm.trans isOwn)
    · exact sealed_of_steady condition (.inl isWriter)
  | finishing id ident =>
    simp only [isWriter, some.injEq] at acted
    rw [isWriter] at writerOk
    obtain ⟨isNone, isSealed⟩ := writerOk
    rw [← acted]
    have published := ok.publishSealed isSealed
      (fun other isOther => by
        rw [isNone] at isOther
        cases isOther)
      (sealed_of_steady condition (.inr isWriter))
    rwa [← isNone, ← Shared.active_publishSealed world.shared
      ⟨id, ident, .sealed⟩] at published

/-- The writer keeps the invariant. -/
theorem writerStep
    (ok : world.Ok) (condition : world.steady action = true)
    (acted : world.writerStep action = some after) : after.Ok := by
  cases action with
  | create id =>
    simp only [World.writerStep, ite_none_right_eq_some,
      some.injEq] at acted
    obtain ⟨⟨-, isNone, free⟩, rfl⟩ := acted
    exact ok.later (ok.nodup_addActive free) rfl rfl rfl isNone
  | adopt id =>
    simp only [World.writerStep] at acted
    split at acted
    case h_1 =>
      simp only [ite_none_right_eq_some, some.injEq] at acted
      rw [← acted.2]
      exact ok.kept ok.nodup (Nat.le_refl _) (fun _ => ⟨rfl, rfl⟩) rfl rfl
        acted.1.2
    case h_2 => cases acted
  | write length hasFooter =>
    simp only [World.writerStep] at acted
    split at acted
    case h_1 =>
      cases acted
      exact ok.kept ok.nodup (Nat.le_refl _) (fun _ => ⟨rfl, rfl⟩) rfl rfl
        (writer_of_subset ok.writer rfl rfl (List.Subset.refl _))
    case h_2 => cases acted
  | sealActive =>
    have writerOk := ok.writer
    simp only [World.writerStep] at acted
    cases isWriter : world.writer with
    | idle =>
      simp only [isWriter] at acted
      split at acted
      case h_1 id isOwn =>
        split at acted
        case h_1 ident found =>
          cases acted
          exact ok.later (ok.nodup_renameToSealed found) rfl rfl rfl
            ⟨isOwn, by simp [World.renameToSealed]⟩
        case h_2 => cases acted
      case h_2 => cases acted
    | adopting id ident =>
      simp only [isWriter] at acted
      rw [isWriter] at writerOk
      split at acted
      case h_1 now found =>
        simp only [ite_none_right_eq_some, some.injEq] at acted
        rw [← acted.2]
        exact ok.later (ok.nodup_renameToSealed found) rfl rfl rfl
          ⟨writerOk, by simp [World.renameToSealed]⟩
      case h_2 => cases acted
    | created id | sealing id ident | finishing id ident =>
      simp only [isWriter, reduceCtorEq] at acted
  | publish => exact ok.publish condition acted
  | writerFail =>
    simp only [World.writerStep] at acted
    cases isWriter : world.writer with
    | idle => simp only [isWriter, reduceCtorEq] at acted
    | created id =>
      simp only [isWriter, some.injEq] at acted
      rw [← acted]
      have nodup := ok.nodup_filter (fun _ => true) (fun entry => entry.id ≠ id)
      rw [filter_true] at nodup
      exact ok.later nodup rfl rfl rfl trivial
    | _ =>
      simp only [isWriter, some.injEq] at acted
      rw [← acted]
      exact ok.kept ok.nodup (Nat.le_refl _) (fun _ => ⟨rfl, rfl⟩) rfl rfl trivial
  | release =>
    simp only [World.writerStep, ite_none_right_eq_some,
      some.injEq] at acted
    obtain ⟨⟨isIdle, -⟩, rfl⟩ := acted
    have released : Ok { world with
        shared := world.shared.releaseActive, writer := .idle } :=
      ok.changed rfl ok.foreignNodup (fun _ isTime => by cases isTime)
        (fun isTime => by cases isTime)
    rwa [← isIdle] at released
  | _ => cases acted

/-- Other stores keep the invariant. -/
theorem otherStep
    (ok : world.Ok)
    (acted : world.otherStep action = some after) : after.Ok := by
  cases action with
  | otherCreate id =>
    simp only [World.otherStep, ite_none_left_eq_some,
      some.injEq, Bool.not_eq_true] at acted
    rw [← acted.2]
    exact ok.later (ok.nodup_addActive acted.1) rfl rfl rfl
      (writer_of_subset ok.writer rfl rfl (List.Subset.refl _))
  | otherWrite id length hasFooter =>
    simp only [World.otherStep] at acted
    split at acted
    case h_1 =>
      simp only [ite_none_left_eq_some, some.injEq] at acted
      rw [← acted.2]
      exact ok.kept ok.nodup (Nat.le_refl _) (fun _ => ⟨rfl, rfl⟩) rfl rfl
        (writer_of_subset ok.writer rfl rfl (List.Subset.refl _))
    case h_2 => cases acted
  | otherSeal id =>
    simp only [World.otherStep] at acted
    split at acted
    case h_1 ident found =>
      simp only [ite_none_left_eq_some, some.injEq] at acted
      rw [← acted.2]
      refine ok.later (ok.nodup_renameToSealed found) rfl rfl rfl
        (writer_of_subset ok.writer rfl rfl ?_)
      simp only [World.renameToSealed, map_append]
      exact subset_append_left _ _
    case h_2 => cases acted
  | otherReplace id =>
    simp only [World.otherStep, ite_none_right_eq_some,
      some.injEq] at acted
    rw [← acted.2]
    have ids := map_id_replace world.sealed id world.fresh
    refine ok.later ?_ rfl rfl rfl
      (writer_of_subset ok.writer rfl rfl (ids ▸ List.Subset.refl _))
    rw [map_append, ids, ← map_append]
    exact ok.nodup
  | otherRemove id =>
    simp only [World.otherStep, ite_none_left_eq_some,
      some.injEq, not_or, not_not] at acted
    obtain ⟨⟨-, isIdle⟩, rfl⟩ := acted
    refine ok.later (ok.nodup_filter _ _) rfl rfl rfl ?_
    dsimp only
    rw [isIdle]
    trivial
  | otherTouch =>
    cases acted
    exact ok.later ok.nodup rfl rfl rfl
      (writer_of_subset ok.writer rfl rfl (List.Subset.refl _))
  | _ => cases acted

/-- A step that meets the condition keeps the invariant. -/
theorem step
    (ok : world.Ok) (condition : world.steady action = true)
    (acted : world.act action = some after) : after.Ok := by
  rcases Option.or_eq_some_iff.mp acted with byRefresh | ⟨-, acted⟩
  · exact ok.refreshStep byRefresh condition
  · rcases Option.or_eq_some_iff.mp acted with byWriter | ⟨-, byOther⟩
    · exact ok.writerStep condition byWriter
    · exact ok.otherStep byOther

end World.Ok

/-! ## The view -/

namespace World

/-- A step of the store or of another one. -/
def Step (world after : World) : Prop :=
  ∃ action, world.act action = some after

/-- A step that meets the condition. -/
def SteadyStep (world after : World) : Prop :=
  ∃ action, world.act action = some after ∧ world.steady action = true

/-- If no refresh takes effect over a view that this store changed meanwhile,
and no other file takes the name of a segment this store seals, then a current
view has every sealed segment, and every active one that this store does not
own, with the length of its file. -/
theorem shows_of_viewIsCurrent
    {world : World}
    (reached : Runs.Reachable World.IsInitial World.SteadyStep world)
    (isCurrent : world.viewIsCurrent = true) :
    (∀ entry ∈ world.sealed, entry.IsMapped world.shared.mapped) ∧
    ∀ entry ∈ world.active, world.shared.active ≠ some entry.id →
      (∃ fa ∈ world.shared.foreign, fa.id = entry.id ∧
        fa.ident = entry.ident ∧ fa.seenSize = world.length entry.ident) ∨
      entry.IsMapped world.shared.mapped := by
  have ok : world.Ok := by
    refine reached.invariant (fun _ isInitial => isInitial.ok) ?_
    rintro state after ok ⟨action, acted, condition⟩
    exact ok.step condition acted
  simp only [World.viewIsCurrent, Bool.and_eq_true, decide_eq_true_eq,
    all_eq_true] at isCurrent
  obtain ⟨isTime, sizes⟩ := isCurrent
  have shows := ok.shows isTime
  refine ⟨shows.sealed, fun entry listed notOwn => ?_⟩
  refine (shows.active entry listed notOwn).imp_left ?_
  rintro ⟨fa, found, isId, isFile⟩
  exact ⟨fa, found, isId, isFile, isFile ▸ (sizes fa found).symm⟩

/-! ## Runs -/

/-- Steps one after another that all meet the condition. -/
def runSteady (world : World) (actions : List Action) : Option World :=
  actions.foldlM
    (fun world action => if world.steady action then world.act action else none)
    world

/-- A store over a directory, before it looked at it. -/
def opened (sealed active : List Entry) (fresh : Nat) : World where
  sealed := sealed
  active := active
  length _ := 8
  hasFooter _ := false
  fresh := fresh
  mtime := 0
  shared := ⟨[], [], none, 0, none⟩
  refresh := none
  writer := .idle

/-- A refresh sees a sealed segment and another store's active one. -/
theorem shows_of_viewIsCurrent_refreshed :
    ∃ world : World,
      Runs.Reachable World.IsInitial World.SteadyStep world ∧
      world.viewIsCurrent = true ∧
      world.sealed = [⟨1, 0⟩] ∧ world.active = [⟨2, 1⟩] ∧
      (∀ entry ∈ world.sealed, entry.IsMapped world.shared.mapped) ∧
      ∀ entry ∈ world.active, world.shared.active ≠ some entry.id →
        (∃ fa ∈ world.shared.foreign, fa.id = entry.id ∧
          fa.ident = entry.ident ∧ fa.seenSize = world.length entry.ident) ∨
        entry.IsMapped world.shared.mapped := by
  have evaluated :
      ((opened [⟨1, 0⟩] [⟨2, 1⟩] 2).runSteady
        [.refreshStart false, .refreshStat,
          .refreshList [⟨1, 0⟩] [⟨2, 1⟩], .refreshLook false,
          .refreshLook false, .refreshApply]).map
        (fun world => (world.viewIsCurrent, world.sealed, world.active)) =
        some (true, [⟨1, 0⟩], [⟨2, 1⟩]) := by
    decide
  obtain ⟨world, ran, same⟩ := map_eq_some_iff.mp evaluated
  simp only [Prod.mk.injEq] at same
  obtain ⟨isCurrent, isSealed, isActive⟩ := same
  have reached :
      Runs.Reachable World.IsInitial World.SteadyStep world := by
    refine .foldlM ?_ (.start ⟨by decide, rfl, rfl, rfl⟩) ran
    intro state action after stepped
    simp only [ite_none_right_eq_some] at stepped
    exact ⟨action, stepped.2, stepped.1⟩
  exact ⟨world, reached, isCurrent, isSealed, isActive,
    shows_of_viewIsCurrent reached isCurrent⟩

/-- A refresh leaves out the segment this store owns when it starts.  The store
lets go of it before the refresh takes effect, and the view counts as current
without it. -/
theorem exists_viewIsCurrent_without_released :
    ∃ world : World,
      Runs.Reachable World.IsInitial World.Step world ∧
      world.viewIsCurrent = true ∧ world.active = [⟨1, 0⟩] ∧
      world.shared.active = none ∧ world.shared.foreign = [] ∧
      world.shared.mapped = [] := by
  have evaluated :
      ((opened [] [] 0).run
        [.create 1, .publish, .refreshStart false, .release, .refreshStat,
          .refreshList [] [⟨1, 0⟩], .refreshLook false, .refreshApply]).map
        (fun world => (world.viewIsCurrent, world.active, world.shared)) =
        some (true, [⟨1, 0⟩], ⟨[], [], none, 2, some 1⟩) := by
    decide
  obtain ⟨world, ran, same⟩ := map_eq_some_iff.mp evaluated
  simp only [Prod.mk.injEq] at same
  obtain ⟨isCurrent, isActive, isShared⟩ := same
  have reached : Runs.Reachable World.IsInitial World.Step world := by
    refine .foldlM ?_ (.start ⟨by decide, rfl, rfl, rfl⟩) ran
    intro state action after stepped
    exact ⟨action, stepped⟩
  refine ⟨world, reached, isCurrent, isActive, ?_⟩
  rw [isShared]
  exact ⟨rfl, rfl, rfl⟩

end World

end AmberStore.Packstore.View

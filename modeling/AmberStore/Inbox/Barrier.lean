import AmberStore.Inbox.Invariant
import Mathlib.Data.Fintype.Basic

/-!
# Waiting for a root is a barrier

Every step of a caller or a worker keeps the invariant, except a commit that
finds an entry on disk.  It returns without counting the entry.  If nobody
counted that entry for the same root yet, waiting for the root does not wait
for it.
-/

open Function Option

namespace AmberStore.Inbox

open ByteString

variable {ι κ : Type} [Fintype κ] {bodies : Bodies}

/-! ## Steps of callers -/

variable {world : World ι κ} {shared : Shared}

section Callers

variable [DecidableEq ι]

namespace World

variable (ok : world.Ok bodies)
include ok

/-- A step of a caller that leaves the queue and the counts alone. -/
theorem Ok.putThread
    (who : ι)
    (grows : world.shared.Grows bodies shared)
    (work : shared.work = world.shared.work)
    (groups : shared.groups = world.shared.groups)
    (named : shared.Named)
    (earlier : world.shared.returned ⊆ shared.returned)
    (returned : ∀ hash root, (hash, root) ∈ shared.returned →
      (hash, root) ∈ world.shared.returned ∨ world.Accounted bodies hash root)
    (threadOk : (∀ hash root, world.Accounted bodies hash root →
        (world.putThread who (shared, thread)).Accounted bodies hash root) →
      (world.putThread who (shared, thread)).ThreadOk bodies thread) :
    (world.putThread who (shared, thread)).Ok bodies := by
  have samePending :
      (world.putThread who (shared, thread)).pending = world.pending := by
    simp only [World.pending, World.putThread, work]
  have accounted : ∀ hash root, world.Accounted bodies hash root →
      (world.putThread who (shared, thread)).Accounted bodies hash root := by
    rintro hash root (isProcessed | isPending)
    · exact .inl (grows.processed hash isProcessed)
    · exact .inr (samePending ▸ isPending)
  refine ok.of_keeps ⟨grows, accounted, earlier⟩ named ?_ ?_ ?_ ?_ ?_
  · intro item isQueued
    exact .inl (work ▸ isQueued)
  · intro one
    exact .inl rfl
  · intro one
    by_cases isWho : one = who
    · subst isWho
      right
      simpa only [World.putThread, update_self] using threadOk accounted
    · left
      simp only [World.putThread, update_of_ne isWho]
  · intro root
    rw [samePending, ← ok.counts root]
    simp only [World.putThread, Shared.count, groups]
  · intro hash root isReturned
    exact (returned hash root isReturned).imp id (accounted hash root)

/-- A step of a caller that touches at most the temporary directory and the
closed flag. -/
theorem Ok.putThread_quiet
    (who : ι)
    (tmp : Bytes → Option Staged) (closed : Bool) {thread : Thread}
    (threadOk : world.ThreadOk bodies thread) :
    (world.putThread who
      ({ world.shared with tmp := tmp, closed := closed }, thread)).Ok
        bodies := by
  have grows : world.shared.Grows bodies
      { world.shared with tmp := tmp, closed := closed } :=
    ⟨fun _ holds => holds, fun _ holds => holds⟩
  refine ok.putThread who grows rfl rfl ok.named (List.Subset.refl _) ?_ ?_
  · intro hash root isReturned
    exact .inl isReturned
  · intro accounted
    exact threadOk.mono ⟨grows, accounted, List.Subset.refl _⟩

theorem Ok.rename
    (who : ι)
    (tmp : Bytes → Option Staged) {file : File} {hash : Bytes} (root : Key)
    (isBody : file.body = hash) :
    (world.putThread who
      ({ world.shared with
          tmp := tmp
          dir := update world.shared.dir (entryName hash) (some file) },
        .renamed hash root)).Ok bodies := by
  refine ok.putThread who ?_ rfl rfl ?_ (List.Subset.refl _) ?_ ?_
  · refine .of_le ?_ (fun _ isFailed => isFailed) (fun _ isStored => isStored)
    intro name isThere
    by_cases isName : name = entryName hash
    · simp [isName]
    · simpa only [update_of_ne isName] using isThere
  · intro other found isThere
    by_cases isName : entryName other = entryName hash
    · simp only [isName, update_self, some.injEq] at isThere
      rw [← isThere, isBody, entryName_inj isName]
    · simp only [update_of_ne isName] at isThere
      exact ok.named other found isThere
  · intro other otherRoot isReturned
    exact .inl isReturned
  · intro _
    left
    simp [World.putThread]

theorem Ok.returnFalse
    (who : ι)
    (tmp : Bytes → Option Staged) {hash : Bytes}
    (isAccounted : world.Accounted bodies hash root) :
    (world.putThread who
      ({ world.shared with
          tmp := tmp
          returned := (hash, root) :: world.shared.returned },
        .idle)).Ok bodies := by
  refine ok.putThread who ⟨fun _ holds => holds, fun _ holds => holds⟩ rfl rfl
    ok.named (List.subset_cons_self _ _) ?_ (fun _ => trivial)
  intro other otherRoot isReturned
  obtain isNew | wasReturned := List.mem_cons.mp isReturned
  · obtain ⟨rfl, rfl⟩ := Prod.mk.inj isNew
    exact .inr isAccounted
  · exact .inl wasReturned

/-- Counting an entry makes it pending. -/
theorem Ok.enqueue
    (who : ι)
    {hash : Bytes} (isLive : world.shared.Live bodies hash) :
    (world.putThread who
      ({ world.shared.enqueue ⟨entryName hash, root⟩ with
          returned := (hash, root) :: world.shared.returned },
        .idle)).Ok bodies := by
  generalize isAfter : world.putThread who
    ({ world.shared.enqueue ⟨entryName hash, root⟩ with
        returned := (hash, root) :: world.shared.returned }, .idle) = after
  have pending : after.pending = ⟨entryName hash, root⟩ ::ₘ world.pending := by
    subst isAfter
    simp only [World.pending, World.putThread, Shared.enqueue,
      ← Multiset.coe_add, Multiset.coe_singleton, ← Multiset.singleton_add]
    ac_rfl
  have grows : world.shared.Grows bodies after.shared := by
    subst isAfter
    exact ⟨fun _ holds => holds, fun _ holds => holds⟩
  have isPending : after.Accounted bodies hash root := by
    right
    rw [pending]
    exact Multiset.mem_cons_self _ _
  refine ok.of_keeps ⟨grows, ?_, ?_⟩ ?_ ?_ ?_ ?_ ?_ ?_
  · rintro other otherRoot (isProcessed | wasPending)
    · exact .inl (grows.processed other isProcessed)
    · right
      rw [pending]
      exact Multiset.mem_cons_of_mem wasPending
  · subst isAfter
    exact List.subset_cons_self _ _
  · subst isAfter
    exact ok.named
  · subst isAfter
    intro item isQueued
    obtain wasQueued | isNew := List.mem_append.mp isQueued
    · exact .inl wasQueued
    · right
      intro other isName
      rw [List.mem_singleton.mp isNew] at isName
      rw [entryName_inj isName]
      exact isLive
  · subst isAfter
    exact fun one => .inl rfl
  · subst isAfter
    intro one
    by_cases isWho : one = who
    · right
      simp [World.putThread, isWho, World.ThreadOk]
    · left
      simp only [World.putThread, update_of_ne isWho]
  · intro other
    rw [pending, Multiset.countP_cons, ← ok.counts other]
    subst isAfter
    by_cases isRoot : root = other
    · simp [World.putThread, Shared.enqueue, Shared.count, isRoot]
    · simp [World.putThread, Shared.enqueue, Shared.count, isRoot,
        update_of_ne (Ne.symm isRoot)]
  · intro other otherRoot isReturned
    subst isAfter
    obtain isNew | wasReturned := List.mem_cons.mp isReturned
    · obtain ⟨rfl, rfl⟩ := Prod.mk.inj isNew
      exact .inr isPending
    · exact .inl wasReturned

/-- Every step of a caller keeps the invariant. -/
theorem Ok.thread
    (who : ι) {thread : Thread}
    (isAt : world.threads who = thread)
    (acted : thread.act world.shared call = some after)
    (condition : world.FindsAccounted bodies (.thread who call)) :
    (world.putThread who after).Ok bodies := by
  have threadOk : world.ThreadOk bodies thread := isAt ▸ ok.threads who
  unfold Thread.act at acted
  split at acted
  case h_1 =>
    obtain ⟨-, ⟨⟩⟩ := ite_none_right_eq_some.mp acted
    exact ok.putThread_quiet who _ _ trivial
  case h_2 | h_3 | h_4 | h_5 | h_12 =>
    cases acted
    exact ok.putThread_quiet who _ _ trivial
  case h_6 tmp hash root =>
    simp only [World.FindsAccounted, isAt] at condition
    split at acted
    case isTrue isThere =>
      cases acted
      exact ok.putThread_quiet who _ _ (condition isThere)
    case isFalse =>
      cases acted
      exact ok.putThread_quiet who _ _ trivial
  case h_7 =>
    cases acted
    exact ok.returnFalse who _ threadOk
  case h_8 tmp hash root =>
    split at acted
    case h_1 =>
      obtain ⟨isBody, ⟨⟩⟩ := ite_none_right_eq_some.mp acted
      exact ok.rename who _ root isBody
    case h_2 => cases acted
    case h_3 =>
      -- The staged file is gone, and `commit` returns an error.
      cases acted
      exact ok.putThread_quiet who _ _ trivial
  case h_9 =>
    cases acted
    exact ok.enqueue who threadOk
  case h_10 =>
    cases acted
    exact ok.putThread_quiet who _ _ (List.Subset.refl _)
  case h_11 =>
    obtain ⟨-, ⟨⟩⟩ := ite_none_right_eq_some.mp acted
    exact ok.putThread_quiet who _ _ trivial
  case h_13 => cases acted

end World

end Callers

/-! ## Steps of workers -/

section Workers

variable [DecidableEq κ]

/-- A step of a worker that keeps its entry and leaves the queue and the counts
alone. -/
theorem World.Ok.putWorker
    (ok : world.Ok bodies) (who : κ)
    (items : worker.items = (world.workers who).items)
    (grows : world.shared.Grows bodies shared)
    (work : shared.work = world.shared.work)
    (groups : shared.groups = world.shared.groups)
    (returned : shared.returned = world.shared.returned)
    (named : shared.Named)
    (workerOk : worker.Ok bodies shared) :
    (world.putWorker who (shared, worker)).Ok bodies := by
  have samePending :
      (world.putWorker who (shared, worker)).pending = world.pending := by
    have sums := sum_items_update world.workers who worker
    rw [items] at sums
    simp only [World.pending, World.putWorker, work]
    rw [add_right_cancel sums]
  refine ok.of_keeps ⟨grows, ?_, ?_⟩ named ?_ ?_ ?_ ?_ ?_
  · rintro hash root (isProcessed | isPending)
    · exact .inl (grows.processed hash isProcessed)
    · exact .inr (samePending ▸ isPending)
  · exact returned ▸ List.Subset.refl _
  · intro item isQueued
    exact .inl (work ▸ isQueued)
  · intro one
    by_cases isWho : one = who
    · subst isWho
      right
      simpa only [World.putWorker, update_self] using workerOk
    · left
      simp only [World.putWorker, update_of_ne isWho]
  · intro one
    exact .inl rfl
  · intro root
    rw [samePending, ← ok.counts root]
    simp only [World.putWorker, Shared.count, groups]
  · intro hash root isReturned
    exact .inl (returned ▸ isReturned)

/-- Taking an entry off the queue keeps it pending. -/
theorem World.Ok.pop
    (ok : world.Ok bodies) (who : κ)
    (isIdle : world.workers who = .idle)
    (queued : world.shared.work = item :: rest) :
    (world.putWorker who
      ({ world.shared with work := rest }, .opening item)).Ok bodies := by
  have samePending :
      (world.putWorker who
        ({ world.shared with work := rest }, .opening item)).pending =
          world.pending := by
    have sums := sum_items_update world.workers who (.opening item)
    rw [isIdle, Worker.items_idle, add_zero] at sums
    simp only [World.pending, World.putWorker, sums, queued,
      ← Multiset.cons_coe, ← Multiset.singleton_add]
    rw [Worker.items]
    ac_rfl
  have grows : world.shared.Grows bodies { world.shared with work := rest } :=
    ⟨fun _ holds => holds, fun _ holds => holds⟩
  refine ok.of_keeps ⟨grows, ?_, List.Subset.refl _⟩ ok.named ?_ ?_ ?_ ?_ ?_
  · rintro hash root (isProcessed | isPending)
    · exact .inl isProcessed
    · exact .inr (samePending ▸ isPending)
  · intro other isQueued
    left
    rw [queued]
    exact List.mem_cons_of_mem _ isQueued
  · intro one
    by_cases isWho : one = who
    · subst isWho
      right
      simp only [World.putWorker, update_self]
      exact (ok.work item (queued ▸ List.mem_cons_self)).mono grows
    · left
      simp only [World.putWorker, update_of_ne isWho]
  · intro one
    exact .inl rfl
  · intro root
    rw [samePending, ← ok.counts root]
    rfl
  · intro hash root isReturned
    exact .inl isReturned

/-- Releasing a count takes one off. -/
theorem Shared.count_release
    (shared : Shared) (root other : Key) :
    (shared.release root).count other =
      shared.count other - if other = root then 1 else 0 := by
  cases isCounted : shared.groups root with
  | none =>
    by_cases isRoot : other = root <;>
      simp [Shared.release, Shared.count, isCounted, isRoot]
  | some n =>
    by_cases isRoot : other = root
    · subst isRoot
      by_cases isMore : 1 < n
      · simp [Shared.release, Shared.count, isCounted, isMore]
      · simp [Shared.release, Shared.count, isCounted, isMore]
        omega
    · simp [Shared.release, Shared.count, isCounted, isRoot]

theorem Shared.release_eq (shared : Shared) (root : Key) :
    shared.release root =
      { shared with groups := (shared.release root).groups } := by
  unfold Shared.release
  split <;> rfl

/-- A worker releases the count of an entry whose body is processed. -/
theorem World.Ok.release
    (ok : world.Ok bodies) (who : κ)
    (isReleasing : world.workers who = .releasing item) :
    (world.putWorker who
      (world.shared.release item.root, .idle)).Ok bodies := by
  have done := ok.workers who
  rw [isReleasing] at done
  have counts := world.shared.count_release item.root
  rw [Shared.release_eq] at counts ⊢
  generalize (world.shared.release item.root).groups = groups at counts ⊢
  have pending :
      item ::ₘ (world.putWorker who
        ({ world.shared with groups := groups }, .idle)).pending =
          world.pending := by
    have sums := sum_items_update world.workers who .idle
    rw [isReleasing, Worker.items_idle, add_zero, Worker.items] at sums
    rw [World.pending, World.pending, ← sums, ← Multiset.singleton_add]
    simp only [World.putWorker]
    ac_rfl
  refine ok.of_keeps ⟨⟨fun _ holds => holds, fun _ holds => holds⟩, ?_,
    List.Subset.refl _⟩ ok.named (fun _ isQueued => .inl isQueued) ?_
    (fun _ => .inl rfl) ?_ (fun _ _ isReturned => .inl isReturned)
  · rintro hash root (isProcessed | isPending)
    · exact .inl isProcessed
    · rw [← pending] at isPending
      obtain isItem | stillPending := Multiset.mem_cons.mp isPending
      · -- The entry is no longer pending, but its body is processed.
        exact .inl (done hash (congrArg WorkItem.name isItem))
      · exact .inr stillPending
  · intro one
    by_cases isWho : one = who
    · right
      simp [World.putWorker, isWho, Worker.Ok]
    · left
      simp only [World.putWorker, update_of_ne isWho]
  · intro root
    have before := ok.counts root
    rw [← pending, Multiset.countP_cons] at before
    refine (counts root).trans ?_
    rw [before]
    by_cases isRoot : root = item.root
    · simp [isRoot]
    · simp [isRoot, Ne.symm isRoot]

theorem Shared.Named.take
    {before after : Shared} (named : before.Named)
    (dir : after.dir = update before.dir name none) :
    after.Named := by
  intro hash file isThere
  rw [dir] at isThere
  by_cases isName : entryName hash = name
  · simp [isName] at isThere
  · rw [update_of_ne isName] at isThere
    exact named hash file isThere

theorem Shared.Named.quarantine
    (named : shared.Named) (name : Bytes) :
    (shared.quarantine name).Named := by
  cases isThere : shared.dir name with
  | none => simpa only [Shared.quarantine, isThere] using named
  | some file =>
    simp only [Shared.quarantine, isThere]
    exact named.take rfl

theorem Shared.quarantine_eq (shared : Shared) (name : Bytes) :
    shared.quarantine name =
      { shared with
        dir := (shared.quarantine name).dir
        failed := (shared.quarantine name).failed } := by
  unfold Shared.quarantine
  split <;> rfl

/-- Moving an entry to the failed ones processes its body. -/
theorem Shared.NameLive.quarantine
    (isLive : shared.NameLive bodies name) :
    (shared.quarantine name).NameDone bodies name := by
  intro hash isName
  cases isThere : shared.dir name with
  | none =>
    obtain present | isProcessed := isLive hash isName
    · rw [isName, isThere] at present
      cases present
    · simpa only [Shared.quarantine, isThere] using isProcessed
  | some file =>
    left
    simp [Shared.quarantine, isThere, isName]

theorem Shared.Grows.quarantine (shared : Shared) (name : Bytes) :
    shared.Grows bodies (shared.quarantine name) := by
  cases isThere : shared.dir name with
  | none =>
    simp only [Shared.quarantine, isThere]
    exact .refl shared
  | some file =>
    have isLive : shared.NameLive bodies name := by
      intro hash isName
      left
      rw [isName, isThere]
      rfl
    have done := isLive.quarantine
    simp only [Shared.quarantine, isThere] at done ⊢
    refine .of_taken name rfl ?_ rfl done
    intro other isFailed
    by_cases isName : other = name
    · simp [isName]
    · simpa only [update_of_ne isName] using isFailed

/-- A step of a worker that changes nothing but where the worker is. -/
theorem World.Ok.putWorker_quiet
    (ok : world.Ok bodies) (who : κ)
    (items : worker.items = (world.workers who).items)
    (workerOk : worker.Ok bodies world.shared) :
    (world.putWorker who (world.shared, worker)).Ok bodies :=
  ok.putWorker who items (.refl _) rfl rfl rfl ok.named workerOk

/-- Every step of a worker keeps the invariant. -/
theorem World.Ok.worker
    (ok : world.Ok bodies) (who : κ) {worker : Worker}
    (isAt : world.workers who = worker)
    (acted : worker.act bodies world.shared progress = some after) :
    (world.putWorker who after).Ok bodies := by
  have workerOk : worker.Ok bodies world.shared := isAt ▸ ok.workers who
  unfold Worker.act at acted
  split at acted
  case h_1 =>
    split at acted
    case h_1 item rest queued =>
      cases acted
      exact ok.pop who isAt queued
    case h_2 =>
      obtain ⟨-, ⟨⟩⟩ := ite_none_right_eq_some.mp acted
      exact ok.putWorker_quiet who (by rw [isAt]; rfl) trivial
  case h_2 item =>
    split at acted
    case h_1 file isThere =>
      cases acted
      refine ok.putWorker_quiet who (by rw [isAt]; rfl) ⟨workerOk, ?_⟩
      intro hash isName
      exact ok.named hash file (isName ▸ isThere)
    case h_2 isGone =>
      -- Somebody took the file away after processing its body.
      cases acted
      refine ok.putWorker_quiet who (by rw [isAt]; rfl) ?_
      intro hash isName
      obtain present | isProcessed := workerOk hash isName
      · rw [isName, isGone] at present
        cases present
      · exact isProcessed
  case h_3 item file =>
    split at acted
    case isTrue =>
      cases acted
      exact ok.putWorker_quiet who (by rw [isAt]; rfl) workerOk
    case isFalse =>
      cases acted
      exact ok.putWorker_quiet who (by rw [isAt]; rfl) workerOk.1
  case h_4 item body key =>
    obtain ⟨-, ⟨⟩⟩ := ite_none_right_eq_some.mp acted
    have grows : world.shared.Grows bodies
        { world.shared with
          stored := update world.shared.stored key true } := by
      refine .of_le (fun _ isThere => isThere) (fun _ isFailed => isFailed) ?_
      intro other isStored
      by_cases isKey : other = key
      · simp [isKey]
      · simpa only [update_of_ne isKey] using isStored
    exact ok.putWorker who (by rw [isAt]) grows rfl rfl rfl ok.named
      ⟨workerOk.1.mono grows, workerOk.2⟩
  case h_5 item body =>
    obtain ⟨isStored, ⟨⟩⟩ := ite_none_right_eq_some.mp acted
    refine ok.putWorker_quiet who (by rw [isAt]; rfl) ?_
    intro hash isName
    exact .inr (workerOk.2 hash isName ▸ isStored)
  case h_6 =>
    cases acted
    exact ok.putWorker_quiet who (by rw [isAt]; rfl) workerOk.1
  case h_7 item =>
    cases acted
    exact ok.putWorker who (by rw [isAt]; rfl)
      (.of_taken item.name rfl (fun _ isFailed => isFailed) rfl workerOk)
      rfl rfl rfl (ok.named.take rfl) workerOk
  case h_8 item =>
    cases acted
    exact ok.putWorker who (by rw [isAt]; rfl) (.quarantine _ _)
      (by rw [Shared.quarantine_eq]) (by rw [Shared.quarantine_eq])
      (by rw [Shared.quarantine_eq]) (ok.named.quarantine _) workerOk.quarantine
  case h_9 =>
    cases acted
    exact ok.release who isAt
  case h_10 => cases acted

end Workers

/-! ## Runs -/

variable (bodies) in
/-- What holds while an opened inbox takes up the entries on disk. -/
structure Shared.Recovering (shared : Shared) : Prop where
  named : shared.Named
  work : ∀ item ∈ shared.work, shared.NameLive bodies item.name
  counts : ∀ root, shared.count root =
    shared.work.countP fun item => item.root = root
  returned : shared.returned = []

theorem Shared.Recovering.enqueue
    (recovering : shared.Recovering bodies)
    (isLive : shared.NameLive bodies item.name) :
    (shared.enqueue item).Recovering bodies where
  named := recovering.named
  work other isQueued := by
    obtain wasQueued | isNew := List.mem_append.mp isQueued
    · exact recovering.work other wasQueued
    · rw [List.mem_singleton.mp isNew]
      exact isLive
  counts root := by
    have before := recovering.counts root
    by_cases isRoot : item.root = root
    · simp_all [Shared.enqueue, Shared.count]
    · simp_all [Shared.enqueue, Shared.count, update_of_ne (Ne.symm isRoot)]
  returned := recovering.returned

theorem Shared.Recovering.recoverEntry
    (recovering : shared.Recovering bodies)
    (name : Bytes) :
    (shared.recoverEntry name).Recovering bodies := by
  unfold Shared.recoverEntry
  split
  case isFalse => exact recovering
  case isTrue =>
    split
    case h_1 root isRoot =>
      refine recovering.enqueue ?_
      obtain ⟨file, isThere, _⟩ := bind_eq_some_iff.mp isRoot
      intro hash isName
      left
      rw [isName, isThere]
      rfl
    case h_2 =>
      have named := recovering.named.quarantine name
      have grows : shared.Grows bodies (shared.quarantine name) :=
        .quarantine shared name
      rw [Shared.quarantine_eq] at named grows ⊢
      exact ⟨named,
        fun item isQueued => (recovering.work item isQueued).mono grows,
        recovering.counts, recovering.returned⟩

theorem Shared.Recovering.recover
    (recovering : shared.Recovering bodies)
    (names : List Bytes) :
    (names.foldl Shared.recoverEntry shared).Recovering bodies := by
  induction names generalizing shared with
  | nil => exact recovering
  | cons name names ih =>
    exact ih (recovering.recoverEntry name)

theorem World.IsInitial.ok
    (isInitial : world.IsInitial) : world.Ok bodies := by
  obtain ⟨left, names, opened, _, _, noWork, noGroups, noReturned, named⟩ :=
    isInitial.opened
  have recovering : world.shared.Recovering bodies := by
    rw [opened]
    have start : Shared.Recovering bodies
        { left with tmp := fun _ => none } := by
      refine ⟨named, ?_, ?_, noReturned⟩
      · simp [noWork]
      · simp [noWork, noGroups, Shared.count]
    exact start.recover names
  have pending : world.pending = world.shared.work := by
    simp [World.pending, isInitial.workers, Worker.items_idle]
  refine ⟨recovering.named, recovering.work, ?_, ?_, ?_, ?_⟩
  · intro who
    rw [isInitial.workers who]
    trivial
  · intro who
    rw [isInitial.threads who]
    trivial
  · intro root
    rw [pending, Multiset.coe_countP, recovering.counts root]
  · simp [recovering.returned]

variable [DecidableEq ι] [DecidableEq κ]

theorem World.Ok.step
    (ok : world.Ok bodies)
    (acted : world.act bodies action = some after)
    (condition : world.FindsAccounted bodies action) :
    after.Ok bodies := by
  cases action with
  | thread who call =>
    obtain ⟨outcome, isOutcome, rfl⟩ := map_eq_some_iff.mp acted
    exact ok.thread who rfl isOutcome condition
  | worker who progress =>
    obtain ⟨outcome, isOutcome, rfl⟩ := map_eq_some_iff.mp acted
    exact ok.worker who rfl isOutcome

variable (bodies) in
/-- A step of any caller or worker. -/
def World.Step (world after : World ι κ) : Prop :=
  ∃ action, world.act bodies action = some after

variable (bodies) in
/-- A step that meets the condition. -/
def World.AccountedStep (world after : World ι κ) : Prop :=
  ∃ action, world.act bodies action = some after ∧
    world.FindsAccounted bodies action

/-- If every entry that a commit finds is covered under the root of the commit,
then `wait_for` returns only when the body of each commit for its root that
returned before the call is processed. -/
theorem World.returnWait_processed
    {world : World ι κ}
    (reached : Runs.Reachable World.IsInitial (World.AccountedStep bodies)
      world)
    {who : ι} {root : Key} {before : List (Bytes × Key)}
    (isWaiting : world.threads who = .waiting root before)
    (returns : (world.act bodies (.thread who .returnWait)).isSome = true)
    {hash : Bytes} (committed : (hash, root) ∈ before) :
    world.shared.Processed bodies hash := by
  have ok : world.Ok bodies := by
    refine reached.invariant (fun _ isInitial => isInitial.ok) ?_
    rintro state after ok ⟨action, acted, condition⟩
    exact ok.step acted condition
  have isZero : world.shared.count root = 0 := by
    by_contra notZero
    simp [World.act, isWaiting, Thread.act, notZero] at returns
  have earlier := ok.threads who
  rw [isWaiting] at earlier
  obtain isProcessed | isPending := ok.returned hash root (earlier committed)
  · exact isProcessed
  · -- The entry would be counted.
    rw [ok.counts root, Multiset.countP_eq_zero] at isZero
    exact absurd rfl (isZero _ isPending)

/-! ## Two runs -/

/-- Whether an entry that a commit finds is queued under its root. -/
def World.findsQueued (world : World ι κ) : Action ι κ → Bool
  | .thread who .stat =>
    match world.threads who with
    | .checking _ hash root =>
      (world.shared.dir (entryName hash)).isNone ||
        world.shared.work.contains ⟨entryName hash, root⟩
    | _ => true
  | _ => true

omit [DecidableEq ι] [DecidableEq κ] in
theorem World.findsAccounted_of_findsQueued
    (queued : world.findsQueued action = true) :
    world.FindsAccounted bodies action := by
  unfold World.FindsAccounted
  split
  case h_1 who =>
    simp only [World.findsQueued] at queued
    split
    case h_1 tmp hash root isChecking =>
      intro isThere
      rw [isChecking] at queued
      simp only [Bool.or_eq_true, isNone_iff_eq_none,
        List.contains_iff_mem] at queued
      obtain isGone | isQueued := queued
      · rw [isGone] at isThere
        cases isThere
      · right
        exact Multiset.mem_add.mpr (.inl isQueued)
    case h_2 => trivial
  case h_2 => trivial

variable (bodies) in
/-- Steps one after another, each commit finding no entry or a queued one. -/
def World.runQueued (world : World ι κ) (actions : List (Action ι κ)) :
    Option (World ι κ) :=
  actions.foldlM
    (fun world action =>
      if world.findsQueued action then world.act bodies action else none)
    world

theorem World.reachable_of_runQueued
    (reached : Runs.Reachable World.IsInitial (World.AccountedStep bodies)
      world)
    (ran : world.runQueued bodies actions = some after) :
    Runs.Reachable World.IsInitial (World.AccountedStep bodies) after := by
  refine reached.foldlM ?_ ran
  intro state action next stepped
  simp only [ite_none_right_eq_some] at stepped
  exact ⟨action, stepped.2, World.findsAccounted_of_findsQueued stepped.1⟩

/-- Every body has one object. -/
def sampleBodies : Bodies :=
  fun _ => some [Key.repeated 9]

/-- An empty inbox with two callers and one worker. -/
def emptyInbox : World (Fin 2) (Fin 1) where
  shared :=
    { tmp := fun _ => none, dir := fun _ => none, failed := fun _ => none,
      stored := fun _ => false, work := [], groups := fun _ => none,
      closed := false, returned := [] }
  threads _ := .idle
  workers _ := .idle

theorem isInitial_emptyInbox : emptyInbox.IsInitial where
  opened := ⟨emptyInbox.shared, [], rfl, List.Pairwise.nil, by
    intro name
    simp [emptyInbox], rfl, rfl, rfl, by
    intro hash file isThere
    cases isThere⟩
  threads _ := rfl
  workers _ := rfl

/-- A caller stages a body, commits it and goes on with these calls. -/
def commits (who : Fin 2) (tmp : Bytes) (root : Key) (calls : List Call) :
    List (Action (Fin 2) (Fin 1)) :=
  (.createTemp tmp :: .stageInto ⟨some [], [7]⟩ :: .commit tmp [7] root ::
    .stat :: calls).map (.thread who)

/-- One body is committed twice under one root.  The second caller waits until
the worker is done, and the body is processed. -/
theorem World.returnWait_processed_sameRoot :
    ∃ world : World (Fin 2) (Fin 1),
      Runs.Reachable World.IsInitial (World.AccountedStep sampleBodies) world ∧
      world.shared.Processed sampleBodies [7] := by
  have evaluated :
      (emptyInbox.runQueued sampleBodies
        (commits 0 [1] (Key.repeated 1) [.rename, .enqueue] ++
          commits 1 [2] (Key.repeated 1) [.returnFalse] ++
          [.thread 1 (.waitFor (Key.repeated 1)), .worker 0 .next,
            .worker 0 .next, .worker 0 .next, .worker 0 (.put (Key.repeated 9)),
            .worker 0 .next, .worker 0 .next, .worker 0 .next])).map
        (fun world =>
          (world.threads 1,
            (world.act sampleBodies (.thread 1 .returnWait)).isSome)) =
        some (.waiting (Key.repeated 1)
          [([7], Key.repeated 1), ([7], Key.repeated 1)], true) := by
    decide +kernel
  obtain ⟨world, ran, facts⟩ := map_eq_some_iff.mp evaluated
  obtain ⟨isWaiting, returns⟩ := Prod.mk.inj facts
  have reached := World.reachable_of_runQueued (.start isInitial_emptyInbox) ran
  exact ⟨world, reached, World.returnWait_processed reached isWaiting returns
    List.mem_cons_self⟩

/-- One body is committed under two roots.  The second commit counts nothing,
so waiting for its root ends at once, with the body unprocessed. -/
theorem World.exists_returnWait_unprocessed :
    ∃ world : World (Fin 2) (Fin 1),
      Runs.Reachable World.IsInitial (World.Step sampleBodies) world ∧
      world.threads 1 = .waiting (Key.repeated 2)
        [([7], Key.repeated 2), ([7], Key.repeated 1)] ∧
      (world.act sampleBodies (.thread 1 .returnWait)).isSome = true ∧
      ¬world.shared.Processed sampleBodies [7] := by
  have evaluated :
      (emptyInbox.run sampleBodies
        (commits 0 [1] (Key.repeated 1) [.rename, .enqueue] ++
          commits 1 [2] (Key.repeated 2) [.returnFalse] ++
          [.thread 1 (.waitFor (Key.repeated 2))])).map
        (fun world =>
          (world.threads 1,
            (world.act sampleBodies (.thread 1 .returnWait)).isSome,
            (world.shared.failed (entryName [7])).isSome,
            world.shared.isStored sampleBodies [7])) =
        some (.waiting (Key.repeated 2) [([7], Key.repeated 2),
          ([7], Key.repeated 1)], true, false, false) := by
    decide +kernel
  obtain ⟨world, ran, facts⟩ := map_eq_some_iff.mp evaluated
  simp only [Prod.mk.injEq] at facts
  obtain ⟨isWaiting, returns, notFailed, notStored⟩ := facts
  have reached : Runs.Reachable World.IsInitial (World.Step sampleBodies)
      world :=
    .foldlM (fun _ action _ stepped => ⟨action, stepped⟩)
      (.start isInitial_emptyInbox) ran
  refine ⟨world, reached, isWaiting, returns, ?_⟩
  rintro (isFailed | isStored)
  · rw [notFailed] at isFailed
    cases isFailed
  · rw [notStored] at isStored
    cases isStored

end AmberStore.Inbox

import AmberStore.Inbox.Protocol
import Mathlib.Algebra.BigOperators.Group.Finset.Basic
import Mathlib.Algebra.Order.Group.Multiset

/-!
# What holds in an inbox

An entry is pending from the moment its commit counts it to the moment a worker
releases it, and the count of a root is the number of its pending entries.  A
worker releases an entry only when its body is processed: a file leaves its
name only after that, and a worker that finds no file relies on whoever took
it away.
-/

open Function

namespace AmberStore.Inbox

open ByteString

/-! ## The names of entries -/

theorem hexDigit_inj
    (mSmall : m < 16) (nSmall : n < 16)
    (same : hexDigit m = hexDigit n) :
    m = n := by
  have all : ∀ m n : Fin 16, hexDigit m = hexDigit n → m = n := by decide
  exact congrArg Fin.val (all ⟨m, mSmall⟩ ⟨n, nSmall⟩ same)

theorem hexByte_inj
    (same : hexByte x = hexByte y) :
    x = y := by
  have xSmall := x.toNat_lt
  have ySmall := y.toNat_lt
  injection same with high rest
  injection rest with low _
  have sameHigh := hexDigit_inj (by omega) (by omega) high
  have sameLow := hexDigit_inj (by omega) (by omega) low
  apply UInt8.toNat_inj.mp
  omega

theorem hexString_inj
    (same : hexString left = hexString right) :
    left = right := by
  induction left generalizing right with
  | nil =>
    cases right with
    | nil => rfl
    | cons y right => simp [hexString, hexByte] at same
  | cons x left ih =>
    cases right with
    | nil => simp [hexString, hexByte] at same
    | cons y right =>
      have split :
          hexByte x ++ hexString left = hexByte y ++ hexString right := by
        simpa only [hexString, List.flatMap_cons] using same
      obtain ⟨sameByte, sameRest⟩ := List.append_inj split rfl
      rw [hexByte_inj sameByte, ih sameRest]

theorem entryName_inj
    (same : entryName left = entryName right) :
    left = right :=
  hexString_inj (List.append_cancel_right same)

/-! ## What is pending -/

/-- The entry a worker has not released. -/
def Worker.items : Worker → Multiset WorkItem
  | .opening item | .reading item _ | .writing item _ | .removing item
  | .quarantining item | .releasing item => {item}
  | .idle | .exited => 0

theorem Worker.items_idle : Worker.idle.items = 0 := rfl

variable {ι κ : Type} [DecidableEq ι] [DecidableEq κ] [Fintype κ]
variable (bodies : Bodies)

/-- The entries that were counted and not released. -/
def World.pending (world : World ι κ) : Multiset WorkItem :=
  (world.shared.work : Multiset WorkItem) + ∑ who, (world.workers who).items

/-- Waiting for a root covers a body: it is processed, or an entry of it is
pending under the root. -/
def World.Accounted (world : World ι κ) (hash : Bytes) (root : Key) : Prop :=
  world.shared.Processed bodies hash ∨ ⟨entryName hash, root⟩ ∈ world.pending

theorem sum_items_update
    (workers : κ → Worker) (who : κ) (worker : Worker) :
    ∑ one, (update workers who worker one).items +
        (workers who).items =
      ∑ one, (workers one).items + worker.items := by
  rw [← Finset.add_sum_erase _ _ (Finset.mem_univ who),
    ← Finset.add_sum_erase _ (fun one => (workers one).items)
      (Finset.mem_univ who)]
  have others :
      ∑ one ∈ Finset.univ.erase who,
          (update workers who worker one).items =
        ∑ one ∈ Finset.univ.erase who, (workers one).items := by
    refine Finset.sum_congr rfl ?_
    intro one isOther
    rw [update_of_ne (Finset.ne_of_mem_erase isOther)]
  rw [others, update_self]
  ac_rfl

/-- The condition on a step: the entry a commit finds is covered under the
root of the commit. -/
def World.FindsAccounted (world : World ι κ) : Action ι κ → Prop
  | .thread who .stat =>
    match world.threads who with
    | .checking _ hash root =>
      (world.shared.dir (entryName hash)).isSome = true →
        world.Accounted bodies hash root
    | _ => True
  | _ => True

/-! ## The invariant -/

/-- A body is on disk under its name, or processed. -/
def Shared.Live (shared : Shared) (hash : Bytes) : Prop :=
  (shared.dir (entryName hash)).isSome = true ∨ shared.Processed bodies hash

/-- The body with a name is on disk or processed. -/
def Shared.NameLive (shared : Shared) (name : Bytes) : Prop :=
  ∀ hash, entryName hash = name → shared.Live bodies hash

/-- The body with a name is processed. -/
def Shared.NameDone (shared : Shared) (name : Bytes) : Prop :=
  ∀ hash, entryName hash = name → shared.Processed bodies hash

/-- What holds of a worker. -/
def Worker.Ok (shared : Shared) : Worker → Prop
  | .opening item | .quarantining item => shared.NameLive bodies item.name
  | .reading item file =>
    shared.NameLive bodies item.name ∧
      ∀ hash, entryName hash = item.name → file.body = hash
  | .writing item body =>
    shared.NameLive bodies item.name ∧
      ∀ hash, entryName hash = item.name → body = hash
  | .removing item | .releasing item => shared.NameDone bodies item.name
  | .idle | .exited => True

/-- What holds of a caller. -/
def World.ThreadOk (world : World ι κ) : Thread → Prop
  | .found _ hash root => world.Accounted bodies hash root
  | .renamed hash _ => world.shared.Live bodies hash
  | .waiting _ before => before ⊆ world.shared.returned
  | _ => True

/-- The invariant of the inbox. -/
structure World.Ok (world : World ι κ) : Prop where
  named : world.shared.Named
  work : ∀ item ∈ world.shared.work, world.shared.NameLive bodies item.name
  workers : ∀ who, (world.workers who).Ok bodies world.shared
  threads : ∀ who, world.ThreadOk bodies (world.threads who)
  /-- A root's count is the number of its pending entries. -/
  counts : ∀ root, world.shared.count root =
    world.pending.countP fun item => item.root = root
  returned : ∀ hash root, (hash, root) ∈ world.shared.returned →
    world.Accounted bodies hash root

/-! ## What a step keeps -/

/-- Nothing processed or live is lost. -/
structure Shared.Grows (before after : Shared) : Prop where
  processed : ∀ hash, before.Processed bodies hash → after.Processed bodies hash
  live : ∀ hash, before.Live bodies hash → after.Live bodies hash

/-- What a step keeps for the parties that do not take it. -/
structure World.Keeps (before after : World ι κ) : Prop where
  grows : before.shared.Grows bodies after.shared
  accounted : ∀ hash root, before.Accounted bodies hash root →
    after.Accounted bodies hash root
  returned : before.shared.returned ⊆ after.shared.returned

variable {bodies}

variable {before : Shared}

/-- A step that takes no entry, failed entry or object away. -/
theorem Shared.Grows.of_le
    (dir : ∀ name, (before.dir name).isSome = true →
      (after.dir name).isSome = true)
    (failed : ∀ name, (before.failed name).isSome = true →
      (after.failed name).isSome = true)
    (stored : ∀ key, before.stored key = true → after.stored key = true) :
    before.Grows bodies after := by
  have processed : ∀ hash, before.Processed bodies hash →
      after.Processed bodies hash := by
    rintro hash (isFailed | isStored)
    · exact .inl (failed _ isFailed)
    · right
      cases isPack : bodies hash with
      | none => simp [Shared.isStored, isPack] at isStored
      | some keys =>
        simp only [Shared.isStored, isPack, List.all_eq_true] at isStored ⊢
        exact fun key isObject => stored key (isStored key isObject)
  refine ⟨processed, ?_⟩
  rintro hash (isThere | isProcessed)
  · exact .inl (dir _ isThere)
  · exact .inr (processed hash isProcessed)

theorem Shared.Grows.refl (shared : Shared) : shared.Grows bodies shared :=
  ⟨fun _ holds => holds, fun _ holds => holds⟩

/-- Taking an entry's file away loses nothing if its body is processed
afterwards. -/
theorem Shared.Grows.of_taken
    (name : Bytes)
    (dir : after.dir = update before.dir name none)
    (failed : ∀ name, (before.failed name).isSome = true →
      (after.failed name).isSome = true)
    (stored : after.stored = before.stored)
    (done : after.NameDone bodies name) :
    before.Grows bodies after := by
  have processed : ∀ hash, before.Processed bodies hash →
      after.Processed bodies hash := by
    rintro hash (isFailed | isStored)
    · exact .inl (failed _ isFailed)
    · right
      simpa only [Shared.isStored, stored] using isStored
  refine ⟨processed, ?_⟩
  rintro hash (isThere | isProcessed)
  · by_cases isName : entryName hash = name
    · exact .inr (done hash isName)
    · left
      rwa [dir, update_of_ne isName]
  · exact .inr (processed hash isProcessed)

theorem Shared.NameLive.mono
    (live : before.NameLive bodies name) (grows : before.Grows bodies after) :
    after.NameLive bodies name :=
  fun hash isName => grows.live hash (live hash isName)

theorem Shared.NameDone.mono
    (done : before.NameDone bodies name) (grows : before.Grows bodies after) :
    after.NameDone bodies name :=
  fun hash isName => grows.processed hash (done hash isName)

theorem Worker.Ok.mono
    {worker : Worker}
    (ok : worker.Ok bodies before) (grows : before.Grows bodies after) :
    worker.Ok bodies after := by
  cases worker with
  | idle | exited => trivial
  | opening item | quarantining item => exact Shared.NameLive.mono ok grows
  | reading item file | writing item body => exact ⟨ok.1.mono grows, ok.2⟩
  | removing item | releasing item => exact Shared.NameDone.mono ok grows

omit [DecidableEq ι] [DecidableEq κ] in
theorem World.ThreadOk.mono
    {before : World ι κ}
    (ok : before.ThreadOk bodies thread)
    (keeps : before.Keeps bodies after) :
    after.ThreadOk bodies thread := by
  cases thread with
  | found tmp hash root => exact keeps.accounted hash root ok
  | renamed hash root => exact keeps.grows.live hash ok
  | waiting root earlier => exact List.Subset.trans ok keeps.returned
  | _ => trivial

omit [DecidableEq ι] [DecidableEq κ] in
/-- The rule of steps: whoever did not take the step keeps what holds. -/
theorem World.Ok.of_keeps
    {before after : World ι κ} (ok : before.Ok bodies)
    (keeps : before.Keeps bodies after)
    (named : after.shared.Named)
    (work : ∀ item ∈ after.shared.work,
      item ∈ before.shared.work ∨ after.shared.NameLive bodies item.name)
    (workers : ∀ who, after.workers who = before.workers who ∨
      (after.workers who).Ok bodies after.shared)
    (threads : ∀ who, after.threads who = before.threads who ∨
      after.ThreadOk bodies (after.threads who))
    (counts : ∀ root, after.shared.count root =
      after.pending.countP fun item => item.root = root)
    (returned : ∀ hash root, (hash, root) ∈ after.shared.returned →
      (hash, root) ∈ before.shared.returned ∨
        after.Accounted bodies hash root) :
    after.Ok bodies where
  named := named
  work item isQueued := by
    obtain wasQueued | isLive := work item isQueued
    · exact (ok.work item wasQueued).mono keeps.grows
    · exact isLive
  workers who := by
    obtain same | isOk := workers who
    · rw [same]
      exact (ok.workers who).mono keeps.grows
    · exact isOk
  threads who := by
    obtain same | isOk := threads who
    · rw [same]
      exact (ok.threads who).mono keeps
    · exact isOk
  counts := counts
  returned hash root isReturned := by
    obtain wasReturned | isAccounted := returned hash root isReturned
    · exact keeps.accounted hash root (ok.returned hash root wasReturned)
    · exact isAccounted

end AmberStore.Inbox

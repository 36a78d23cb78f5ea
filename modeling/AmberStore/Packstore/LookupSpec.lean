import AmberStore.Packstore.Lookup

/-!
# What a lookup may report absent

A refresh that lists the directory after a record was published brings the
record into the view.  So a lookup may rely on a refresh that changed the
sequence number it read, if that refresh listed the directory after the number
was read, and it may do without a second search, if the view is the one it
searched.
-/

open Function Option

namespace AmberStore.Packstore.Lookup

variable {ι : Type}

/-! ## The invariant -/

/-- The key a refresh is done for, and who held it. -/
def Job.asks : Job → Option (Key × List Nat)
  | .refresh => none
  | .lookup k holders _ => some (k, holders)

/-- The key a thread looks up, and who held it. -/
def Thread.asks : Thread → Option (Key × List Nat)
  | .idle => none
  | .searching k holders | .missed k holders _ | .loading k holders _
  | .again k holders | .absent k holders => some (k, holders)
  | .waiting job _ | .locked job _ | .reading job _ _ _ _ | .applied job
  | .counted job => job.asks

/-- The key for which a thread relies on the refreshes of others. -/
def Thread.relies : Thread → Option (Key × List Nat)
  | .waiting job (some _) | .locked job (some _) => job.asks
  | .again k holders => some (k, holders)
  | _ => none

/-- Whether a thread holds the refresh lock. -/
def Thread.hasLock : Thread → Bool
  | .locked _ _ | .reading _ _ _ _ _ | .applied _ | .counted _ => true
  | _ => false

/-- Whether a thread's refresh listed the directory and is not counted. -/
def Thread.hasListed : Thread → Bool
  | .reading _ _ _ _ _ | .applied _ => true
  | _ => false

theorem Thread.asks_of_relies
    {thread : Thread}
    (relies : thread.relies = some (k, holders)) :
    thread.asks = some (k, holders) := by
  cases thread with
  | waiting job seq | locked job seq =>
    cases seq with
    | none => cases relies
    | some seq => exact relies
  | again k holders => exact relies
  | _ => cases relies

namespace World

/-- The refresh a thread is at brings a key into the view. -/
def Covers (world : World ι) (k : Key) (holders : List Nat) : Thread → Prop
  | .reading _ pending got _ _ =>
    ∀ id ∈ holders, id ∈ pending ∨ ∃ keys, (id, keys) ∈ got ∧ k ∈ keys
  | .applied _ => holders ≠ [] → world.has k = true
  | _ => True

/-- What holds of a thread. -/
def ThreadOk (world : World ι) (thread : Thread) : Prop :=
  match thread with
  | .missed k _ seen =>
    seen ≤ world.refreshes ∧ (seen = world.refreshes → world.has k = false)
  | .waiting job (some seq) | .locked job (some seq) =>
    ∀ k holders, job.asks = some (k, holders) →
      seq ≠ world.refreshSeq → holders ≠ [] → world.has k = true
  | .reading job _ _ _ _ | .applied job =>
    ∀ k holders, job.asks = some (k, holders) → world.Covers k holders thread
  | .counted job =>
    ∀ k holders, job.asks = some (k, holders) →
      holders ≠ [] → world.has k = true
  | .again k holders => holders ≠ [] → world.has k = true
  | .absent _ holders => holders = []
  | _ => True

/-- The invariant of the store. -/
structure Ok (world : World ι) : Prop where
  mutex : ∀ who, world.refreshMu = some who ↔ (world.threads who).hasLock = true
  /-- The segments a lookup remembers still hold its key. -/
  live : ∀ who k holders, (world.threads who).asks = some (k, holders) →
    ∀ id ∈ holders, id ∈ world.ids ∧ k ∈ world.keys id
  threads : ∀ who, world.ThreadOk (world.threads who)
  /-- The refreshes a lookup relies on bring its key into the view. -/
  covers : ∀ who other k holders, who ≠ other →
    (world.threads who).relies = some (k, holders) →
    world.Covers k holders (world.threads other)

theorem IsInitial.ok {world : World ι} (isInitial : world.IsInitial) :
    world.Ok where
  mutex who := by
    simp [isInitial.unlocked, isInitial.idle, Thread.hasLock]
  live who k holders asks := by
    rw [isInitial.idle] at asks
    cases asks
  threads who := by
    rw [isInitial.idle]
    trivial
  covers who other k holders _ relies := by
    rw [isInitial.idle] at relies
    cases relies

/-- The parts of the store that other threads look at are the same. -/
structure SameView (world after : World ι) : Prop where
  view : after.view = world.view
  refreshes : after.refreshes = world.refreshes
  refreshSeq : after.refreshSeq = world.refreshSeq

namespace SameView

variable {world after : World ι} (same : world.SameView after)
include same

theorem has (k : Key) : after.has k = world.has k := by
  rw [World.has, World.has, same.view]

theorem covers
    {holders : List Nat} (covers : world.Covers k holders thread) :
    after.Covers k holders thread := by
  cases thread with
  | reading job pending got vanished attempt => exact covers
  | applied job => simpa only [World.Covers, same.has] using covers
  | _ => trivial

theorem threadOk (ok : world.ThreadOk thread) : after.ThreadOk thread := by
  cases thread with
  | idle | searching | loading => trivial
  | absent k holders => exact ok
  | missed k holders seen =>
    simpa only [World.ThreadOk, same.has, same.refreshes] using ok
  | again | counted => simpa only [World.ThreadOk, same.has] using ok
  | waiting job seq | locked job seq =>
    cases seq with
    | none => trivial
    | some seq =>
      simpa only [World.ThreadOk, same.has, same.refreshSeq] using ok
  | reading job pending got vanished attempt | applied job =>
    exact fun k holders asks => same.covers (ok k holders asks)

end SameView

/-! ## Steps of threads -/

/-- One thread moves, and the directory stays. -/
structure Moves [DecidableEq ι] (world : World ι) (who : ι) (thread : Thread)
    (after : World ι) : Prop where
  threads : after.threads = update world.threads who thread
  ids : after.ids = world.ids
  keys : after.keys = world.keys
  mutex : after.refreshMu = some who ↔ thread.hasLock = true
  mutexOther : ∀ one, one ≠ who →
    (after.refreshMu = some one ↔ world.refreshMu = some one)
  live : ∀ k holders, thread.asks = some (k, holders) →
    ∀ id ∈ holders, id ∈ world.ids ∧ k ∈ world.keys id

/-- A thread's next state in the view there is: what it needs holds, and so does
what it and the others rely on. -/
structure Fits (world : World ι) (who : ι) (thread : Thread) : Prop where
  ok : world.ThreadOk thread
  mine : ∀ other k holders, other ≠ who →
    thread.relies = some (k, holders) →
    world.Covers k holders (world.threads other)
  theirs : ∀ one k holders, one ≠ who →
    (world.threads one).relies = some (k, holders) →
    world.Covers k holders thread

namespace Ok

variable {world : World ι} {who : ι} {before thread : Thread}

section Rules

variable [DecidableEq ι]

/-- The rule of steps of a thread that leave the directory alone. -/
theorem put
    (ok : world.Ok) (moves : world.Moves who thread after)
    (threadOk : after.ThreadOk thread)
    (others : ∀ one, one ≠ who → after.ThreadOk (world.threads one))
    (mine : ∀ other k holders, other ≠ who →
      thread.relies = some (k, holders) →
      after.Covers k holders (world.threads other))
    (theirs : ∀ one k holders, one ≠ who →
      (world.threads one).relies = some (k, holders) →
      after.Covers k holders thread)
    (between : ∀ one other k holders, one ≠ who → other ≠ who →
      one ≠ other → (world.threads one).relies = some (k, holders) →
      after.Covers k holders (world.threads other)) :
    after.Ok where
  mutex one := by
    rw [moves.threads, update_apply]
    split
    case isTrue isWho => exact isWho ▸ moves.mutex
    case isFalse isOther =>
      exact (moves.mutexOther one isOther).trans (ok.mutex one)
  live one k holders asks id isHolder := by
    rw [moves.threads, update_apply] at asks
    rw [moves.ids, moves.keys]
    split at asks
    · exact moves.live k holders asks id isHolder
    · exact ok.live one k holders asks id isHolder
  threads one := by
    rw [moves.threads, update_apply]
    split
    case isTrue => exact threadOk
    case isFalse isOther => exact others one isOther
  covers one other k holders different relies := by
    rw [moves.threads, update_apply] at relies ⊢
    split at relies
    case isTrue isWho =>
      subst isWho
      rw [if_neg different.symm]
      exact mine other k holders different.symm relies
    case isFalse isOther =>
      split
      case isTrue => exact theirs one k holders isOther relies
      case isFalse otherIsOther =>
        exact between one other k holders isOther otherIsOther different relies

/-- A step of a thread that leaves the view alone. -/
theorem quiet
    (ok : world.Ok) (same : world.SameView after)
    (moves : world.Moves who thread after) (fits : world.Fits who thread) :
    after.Ok := by
  refine ok.put moves (same.threadOk fits.ok) ?_ ?_ ?_ ?_
  · intro one _
    exact same.threadOk (ok.threads one)
  · intro other k holders isOther relies
    exact same.covers (fits.mine other k holders isOther relies)
  · intro one k holders isOther relies
    exact same.covers (fits.theirs one k holders isOther relies)
  · intro one other k holders _ _ different relies
    exact same.covers (ok.covers one other k holders different relies)

end Rules

section At

variable (ok : world.Ok) (isAt : world.threads who = before)
include ok isAt

theorem live_of_asks
    (asks : thread.asks = none ∨ thread.asks = before.asks)
    (k : Key) (holders : List Nat) (isAsked : thread.asks = some (k, holders))
    (id : Nat) (isHolder : id ∈ holders) :
    id ∈ world.ids ∧ k ∈ world.keys id := by
  obtain isNone | same := asks
  · rw [isNone] at isAsked
    cases isAsked
  · rw [same, ← isAt] at isAsked
    exact ok.live who k holders isAsked id isHolder

/-- Two threads do not hold the refresh lock at once. -/
theorem not_hasLock
    (hasLock : before.hasLock = true) (isOther : one ≠ who) :
    (world.threads one).hasLock = false := by
  have held := (ok.mutex who).mpr (isAt ▸ hasLock)
  rw [Bool.eq_false_iff]
  intro alsoLock
  have alsoHeld := (ok.mutex one).mpr alsoLock
  rw [held] at alsoHeld
  exact isOther (some.inj alsoHeld).symm

/-- While a thread holds the refresh lock, no other refresh has listed. -/
theorem covers_of_lock
    (hasLock : before.hasLock = true) (other : ι) (k : Key)
    (holders : List Nat) (isOther : other ≠ who) :
    world.Covers k holders (world.threads other) := by
  have noLock := ok.not_hasLock isAt hasLock isOther
  cases isThread : world.threads other <;>
    simp_all [World.Covers, Thread.hasLock]

variable [DecidableEq ι]

/-- A step that moves one thread only. -/
theorem move
    (lock : thread.hasLock = before.hasLock)
    (asks : thread.asks = none ∨ thread.asks = before.asks)
    (fits : world.Fits who thread) :
    (world.put who thread).Ok := by
  refine ok.quiet ⟨rfl, rfl, rfl⟩ ⟨rfl, rfl, rfl, ?_, fun _ _ => Iff.rfl,
    ok.live_of_asks isAt asks⟩ fits
  rw [lock, ← isAt]
  exact ok.mutex who

/-- A step after which a thread neither relies on a refresh nor is at one. -/
theorem moveAlone
    (lock : thread.hasLock = before.hasLock)
    (asks : thread.asks = none ∨ thread.asks = before.asks)
    (relies : thread.relies = none) (notListed : thread.hasListed = false)
    (threadOk : world.ThreadOk thread) :
    (world.put who thread).Ok := by
  refine ok.move isAt lock asks ⟨threadOk, ?_, ?_⟩
  · intro _ _ _ _ isSome
    rw [relies] at isSome
    cases isSome
  · intro _ k holders _ _
    cases thread <;> simp_all [World.Covers, Thread.hasListed]

/-- The end of a refresh, or of waiting for one. -/
theorem unlock
    (hasLock : before.hasLock = true) (noLock : thread.hasLock = false)
    (asks : thread.asks = none ∨ thread.asks = before.asks)
    (threadOk : world.ThreadOk thread) :
    ({ world with refreshMu := none }.put who thread).Ok := by
  have held := (ok.mutex who).mpr (isAt ▸ hasLock)
  refine ok.quiet ⟨rfl, rfl, rfl⟩ ⟨rfl, rfl, rfl, ?_, ?_,
    ok.live_of_asks isAt asks⟩ ⟨threadOk, ?_, ?_⟩
  · simp [World.put, noLock]
  · intro one isOther
    simp [World.put, held, Ne.symm isOther]
  · intro other k holders isOther _
    exact ok.covers_of_lock isAt hasLock other k holders isOther
  · intro one k holders _ _
    cases thread <;> simp_all [World.Covers, Thread.hasLock]

/-- A thread lists the directory. -/
theorem list
    (hasLock : before.hasLock = true) (asks : job.asks = before.asks)
    (attempt : Nat) :
    (world.list who job attempt).Ok := by
  refine ok.move isAt hasLock.symm (.inr asks) ⟨?_,
    fun _ _ _ _ relies => (by cases relies), ?_⟩
  · intro k holders asked id isHolder
    rw [asks, ← isAt] at asked
    exact .inl (ok.live who k holders asked id isHolder).1
  · intro one k holders _ relies id isHolder
    exact .inl (ok.live one k holders (Thread.asks_of_relies relies) id
      isHolder).1

end At

/-- A thread after it read a listed segment. -/
def afterRead (world : World ι) (job : Job) (id : Nat) (pending : List Nat)
    (got : List (Nat × List Key)) (vanished : Bool) (attempt : Nat) : Thread :=
  if id ∈ world.ids then
    .reading job pending (got ++ [(id, world.keys id)]) vanished attempt
  else .reading job pending got true attempt

/-- Reading a listed segment keeps what a refresh covers. -/
theorem covers_read
    (ok : world.Ok) {holders : List Nat} {id : Nat}
    (asks : (world.threads one).asks = some (k, holders))
    (covers : world.Covers k holders
      (.reading job (id :: pending) got vanished attempt)) :
    world.Covers k holders
      (afterRead world job id pending got vanished attempt) := by
  unfold afterRead
  split
  case isTrue =>
    intro holder isHolder
    obtain isPending | ⟨keys, isGot, isKey⟩ := covers holder isHolder
    · obtain rfl | isPending := List.mem_cons.mp isPending
      · exact .inr ⟨world.keys holder, by simp,
          (ok.live one k holders asks holder isHolder).2⟩
      · exact .inl isPending
    · exact .inr ⟨keys, by simp [isGot], isKey⟩
  case isFalse isGone =>
    intro holder isHolder
    obtain isPending | isGot := covers holder isHolder
    · obtain rfl | isPending := List.mem_cons.mp isPending
      · exact absurd (ok.live one k holders asks holder isHolder).1 isGone
      · exact .inl isPending
    · exact .inr isGot

/-- A refresh that read everything it listed brings a key into the view. -/
theorem has_of_covers
    {holders : List Nat}
    (covers : world.Covers k holders (.reading job [] got vanished attempt))
    (isHeld : holders ≠ []) :
    got.any (fun segment => segment.2.contains k) = true := by
  obtain ⟨id, isHolder⟩ := List.exists_mem_of_ne_nil holders isHeld
  obtain isPending | ⟨keys, isGot, isKey⟩ := covers id isHolder
  · cases isPending
  · rw [List.any_eq_true]
    exact ⟨(id, keys), isGot, by simpa using isKey⟩

variable [DecidableEq ι]

/-- A thread reads a listed segment. -/
theorem read
    (ok : world.Ok) {id : Nat}
    (isAt : world.threads who =
      .reading job (id :: pending) got vanished attempt) :
    (world.put who (afterRead world job id pending got vanished attempt)).Ok := by
  have threadOk := ok.threads who
  rw [isAt] at threadOk
  have mine : ∀ k holders, job.asks = some (k, holders) →
      world.Covers k holders
        (afterRead world job id pending got vanished attempt) := by
    intro k holders asks
    have asked : (world.threads who).asks = some (k, holders) := by
      rw [isAt]
      exact asks
    exact ok.covers_read asked (threadOk k holders asks)
  have theirs : ∀ one k holders, one ≠ who →
      (world.threads one).relies = some (k, holders) →
      world.Covers k holders
        (afterRead world job id pending got vanished attempt) := by
    intro one k holders isOther relies
    have covers := ok.covers one who k holders isOther relies
    rw [isAt] at covers
    exact ok.covers_read (Thread.asks_of_relies relies) covers
  obtain ⟨gotNow, vanishedNow, isNow⟩ : ∃ gotNow vanishedNow,
      afterRead world job id pending got vanished attempt =
        .reading job pending gotNow vanishedNow attempt := by
    unfold afterRead
    split <;> exact ⟨_, _, rfl⟩
  rw [isNow] at mine theirs ⊢
  exact ok.move isAt rfl (.inr rfl)
    ⟨mine, fun _ _ _ _ relies => (by cases relies), theirs⟩

/-- A thread replaces the view by what it read. -/
theorem apply
    (ok : world.Ok)
    (isAt : world.threads who = .reading job [] got vanished attempt) :
    ({ world with
        view := got
        refreshes := world.refreshes + 1 }.put who (.applied job)).Ok := by
  have threadOk := ok.threads who
  rw [isAt] at threadOk
  have relied : ∀ one k holders, one ≠ who →
      (world.threads one).relies = some (k, holders) → holders ≠ [] →
      got.any (fun segment => segment.2.contains k) = true := by
    intro one k holders isOther relies isHeld
    have covers := ok.covers one who k holders isOther relies
    rw [isAt] at covers
    exact has_of_covers covers isHeld
  refine ok.put ⟨rfl, rfl, rfl, ?_, fun _ _ => Iff.rfl,
    ok.live_of_asks isAt (.inr rfl)⟩ ?_ ?_
    (fun _ _ _ _ relies => by cases relies) ?_ ?_
  · have mutex := ok.mutex who
    rw [isAt] at mutex
    exact mutex
  · intro k holders asks isHeld
    exact has_of_covers (threadOk k holders asks) isHeld
  · intro one isOther
    have oneOk := ok.threads one
    have noLock := ok.not_hasLock isAt rfl isOther
    have oneRelied := relied one
    cases isOne : world.threads one with
    | idle | searching | loading => trivial
    | absent k holders =>
      rw [isOne] at oneOk
      exact oneOk
    | missed k holders seen =>
      rw [isOne] at oneOk
      refine ⟨Nat.le_succ_of_le oneOk.1, ?_⟩
      intro same
      exact absurd (same ▸ oneOk.1) (Nat.not_succ_le_self _)
    | again k holders =>
      rw [isOne] at oneRelied
      exact oneRelied k holders isOther rfl
    | waiting job seq =>
      cases seq with
      | none => trivial
      | some seq =>
        rw [isOne] at oneRelied
        intro k holders asks _
        exact oneRelied k holders isOther asks
    | locked | reading | applied | counted =>
      rw [isOne] at noLock
      cases noLock
  · intro one k holders isOther relies isHeld
    exact relied one k holders isOther relies isHeld
  · intro one other k holders _ isOther _ _
    have noLock := ok.not_hasLock isAt rfl isOther
    cases isThread : world.threads other <;>
      simp_all [World.Covers, Thread.hasLock]

/-- A thread moves the sequence number on. -/
theorem count
    (ok : world.Ok) (isAt : world.threads who = .applied job) :
    ({ world with refreshSeq := world.refreshSeq + 1 }.put who
      (.counted job)).Ok := by
  have threadOk := ok.threads who
  rw [isAt] at threadOk
  refine ok.put ⟨rfl, rfl, rfl, ?_, fun _ _ => Iff.rfl,
    ok.live_of_asks isAt (.inr rfl)⟩ threadOk ?_
    (fun _ _ _ _ relies => by cases relies) (fun _ _ _ _ _ => trivial) ?_
  · have mutex := ok.mutex who
    rw [isAt] at mutex
    exact mutex
  · intro one isOther
    have oneOk := ok.threads one
    have noLock := ok.not_hasLock isAt rfl isOther
    have covers := ok.covers one who
    rw [isAt] at covers
    cases isOne : world.threads one with
    | waiting job seq =>
      cases seq with
      | none => trivial
      | some seq =>
        rw [isOne] at covers
        intro k holders asks _ isHeld
        exact covers k holders isOther asks isHeld
    | locked | reading | applied | counted =>
      rw [isOne] at noLock
      cases noLock
    | _ =>
      rw [isOne] at oneOk
      exact oneOk
  · intro one other k holders _ _ different relies
    have covers := ok.covers one other k holders different relies
    cases isOther : world.threads other <;> rw [isOther] at covers <;>
      exact covers

/-- A thread takes the refresh lock. -/
theorem lock
    (ok : world.Ok)
    (isAt : world.threads who = .waiting job seq)
    (isFree : world.refreshMu = none) :
    ({ world with refreshMu := some who }.put who (.locked job seq)).Ok := by
  have threadOk := ok.threads who
  have mine := ok.covers who
  rw [isAt] at threadOk mine
  refine ok.quiet ⟨rfl, rfl, rfl⟩ ⟨rfl, rfl, rfl, ?_, ?_,
    ok.live_of_asks isAt (.inr rfl)⟩ ⟨?_, ?_, fun _ _ _ _ _ => trivial⟩
  · simp [World.put, Thread.hasLock]
  · intro one isOther
    simp [World.put, isFree, Ne.symm isOther]
  · cases seq <;> exact threadOk
  · intro other k holders isOther relies
    refine mine other k holders isOther.symm ?_
    cases seq <;> exact relies

/-- A thread is done with the refresh lock. -/
theorem finish
    (ok : world.Ok) (isAt : world.threads who = before)
    (hasLock : before.hasLock = true) (asks : job.asks = before.asks)
    (holds : ∀ k holders, job.asks = some (k, holders) → holders ≠ [] →
      world.has k = true) :
    (world.finish who job).Ok := by
  cases job with
  | refresh => exact ok.unlock isAt hasLock rfl (.inl rfl) trivial
  | lookup k holders rebuild =>
    exact ok.unlock isAt hasLock rfl (.inr asks) (holds k holders rfl)

end Ok

/-- The condition on a step: a lookup takes its failed search for the answer
only if no refresh took effect since, and reads the sequence number only when
no refresh is past listing the directory. -/
def undisturbed (world : World ι) : Action ι → Bool
  | .current who =>
    match world.threads who with
    | .missed _ _ seen => seen = world.refreshes
    | _ => true
  | .next who =>
    match world.threads who with
    | .loading _ _ false =>
      match world.refreshMu with
      | some holder => !(world.threads holder).hasListed
      | none => true
    | _ => true
  | _ => true

namespace Ok

variable {world : World ι} {who : ι}

/-- When no refresh is past listing the directory, all bring everything into
the view. -/
theorem covers_of_undisturbed
    (ok : world.Ok) {holders : List Nat}
    (isAt : world.threads who = .loading k holders false)
    (condition : world.undisturbed (.next who) = true)
    (other : ι) (key : Key) (others : List Nat) :
    world.Covers key others (world.threads other) := by
  simp only [World.undisturbed, isAt] at condition
  have notListed : (world.threads other).hasListed = false := by
    rw [Bool.eq_false_iff]
    intro hasListed
    have hasLock : (world.threads other).hasLock = true := by
      cases isOther : world.threads other <;>
        simp_all [Thread.hasListed, Thread.hasLock]
    rw [(ok.mutex other).mpr hasLock] at condition
    simp [hasListed] at condition
  cases isOther : world.threads other <;>
    simp_all [World.Covers, Thread.hasListed]

variable [DecidableEq ι]

/-- The next step of a thread keeps the invariant. -/
theorem next
    (ok : world.Ok) (acted : world.next who = some after)
    (condition : world.undisturbed (.next who) = true) :
    after.Ok := by
  have threadOk := ok.threads who
  unfold World.next at acted
  split at acted
  case h_1 => cases acted
  case h_2 k holders isAt =>
    -- The first search.
    split at acted <;> cases acted
    case isTrue =>
      exact ok.moveAlone isAt rfl (.inl rfl) rfl rfl trivial
    case isFalse notFound =>
      exact ok.moveAlone isAt rfl (.inr rfl) rfl rfl
        ⟨le_rfl, fun _ => by simpa using notFound⟩
  case h_3 k holders seen isAt =>
    cases acted
    exact ok.moveAlone isAt rfl (.inr rfl) rfl rfl trivial
  case h_4 k holders rebuild isAt =>
    cases acted
    cases rebuild with
    | true =>
      exact ok.moveAlone isAt rfl (.inr rfl) rfl rfl trivial
    | false =>
      refine ok.move isAt rfl (.inr rfl) ⟨?_, ?_, fun _ _ _ _ _ => trivial⟩
      · intro _ _ _ changed
        exact absurd rfl changed
      · intro other key others _ _
        exact ok.covers_of_undisturbed isAt condition other key others
  case h_5 job seq isAt =>
    simp only [ite_none_right_eq_some, some.injEq] at acted
    rw [← acted.2]
    exact ok.lock isAt acted.1
  case h_6 job seq isAt =>
    split at acted <;> cases acted
    case isTrue => exact ok.list isAt rfl rfl 1
    case isFalse changed =>
      -- Another refresh ended while this thread waited.
      refine ok.finish isAt rfl rfl ?_
      rw [isAt] at threadOk
      cases seq with
      | none => simp at changed
      | some seq =>
        intro k holders asks
        exact threadOk k holders asks (by simpa using changed)
  case h_7 job id pending got vanished attempt isAt =>
    have kept := ok.read isAt
    unfold afterRead at kept
    split at acted <;> cases acted <;> rename_i isThere
    · rwa [if_pos isThere] at kept
    · rwa [if_neg isThere] at kept
  case h_8 job got vanished attempt isAt =>
    split at acted <;> cases acted
    case isTrue => exact ok.list isAt rfl rfl (attempt + 1)
    case isFalse => exact ok.apply isAt
  case h_9 job isAt =>
    cases acted
    exact ok.count isAt
  case h_10 job isAt =>
    cases acted
    rw [isAt] at threadOk
    exact ok.finish isAt rfl rfl threadOk
  case h_11 k holders isAt =>
    -- The second search.
    rw [isAt] at threadOk
    split at acted <;> cases acted
    case isTrue =>
      exact ok.moveAlone isAt rfl (.inl rfl) rfl rfl trivial
    case isFalse notFound =>
      refine ok.moveAlone isAt rfl (.inr rfl) rfl rfl ?_
      by_contra isHeld
      exact notFound (threadOk isHeld)
  case h_12 k holders isAt =>
    cases acted
    exact ok.moveAlone isAt rfl (.inl rfl) rfl rfl trivial

end Ok

end World

/-! ## Steps of others -/

section Forget

variable (id : Nat) (thread : Thread)

theorem Job.asks_forget (job : Job) :
    (Thread.forget.forgetJob id job).asks =
      job.asks.map fun asked => (asked.1, asked.2.filter (· ≠ id)) := by
  cases job <;> rfl

theorem Thread.asks_forget :
    (thread.forget id).asks =
      thread.asks.map fun asked => (asked.1, asked.2.filter (· ≠ id)) := by
  cases thread <;> simp [Thread.forget, Thread.asks, Job.asks_forget]

theorem Thread.relies_forget :
    (thread.forget id).relies =
      thread.relies.map fun asked => (asked.1, asked.2.filter (· ≠ id)) := by
  cases thread with
  | waiting job seq | locked job seq =>
    cases seq <;> simp [Thread.forget, Thread.relies, Job.asks_forget]
  | _ => simp [Thread.forget, Thread.relies]

theorem Thread.hasLock_forget :
    (thread.forget id).hasLock = thread.hasLock := by
  cases thread <;> rfl

end Forget

namespace World

theorem ne_nil_of_filter
    {holders : List Nat}
    (isHeld : holders.filter keep ≠ []) :
    holders ≠ [] := by
  rintro rfl
  exact isHeld rfl

theorem Covers.forget
    {world : World ι} {holders : List Nat}
    (covers : world.Covers k holders thread) (id : Nat) :
    world.Covers k (holders.filter (· ≠ id)) (thread.forget id) := by
  cases thread with
  | reading job pending got vanished attempt =>
    intro holder isHolder
    exact covers holder (List.mem_filter.mp isHolder).1
  | applied job =>
    intro isHeld
    exact covers (ne_nil_of_filter isHeld)
  | _ => trivial

/-- What holds for the holders of a key holds for some of them. -/
theorem of_asks_forget
    {holds : Key → List Nat → Prop} {id : Nat}
    (all : ∀ k holders, job.asks = some (k, holders) → holds k holders)
    (fewer : ∀ k holders, holds k holders → holds k (holders.filter (· ≠ id)))
    (k : Key) (holders : List Nat)
    (asks : (Thread.forget.forgetJob id job).asks = some (k, holders)) :
    holds k holders := by
  rw [Job.asks_forget] at asks
  obtain ⟨asked, isAsked, same⟩ := map_eq_some_iff.mp asks
  obtain ⟨rfl, rfl⟩ := Prod.mk.inj same
  exact fewer _ _ (all _ _ isAsked)

theorem ThreadOk.forget
    {world : World ι} {thread : Thread} (ok : world.ThreadOk thread)
    (id : Nat) :
    world.ThreadOk (thread.forget id) := by
  cases thread with
  | idle | searching | loading => trivial
  | missed k holders seen => exact ok
  | again k holders => exact fun isHeld => ok (ne_nil_of_filter isHeld)
  | absent k holders =>
    change holders.filter (· ≠ id) = []
    have isEmpty : holders = [] := ok
    rw [isEmpty]
    rfl
  | counted job =>
    refine of_asks_forget ok ?_
    exact fun k holders holds isHeld => holds (ne_nil_of_filter isHeld)
  | waiting job seq | locked job seq =>
    cases seq with
    | none => trivial
    | some seq =>
      refine of_asks_forget ok ?_
      exact fun k holders holds changed isHeld =>
        holds changed (ne_nil_of_filter isHeld)
  | reading job pending got vanished attempt | applied job =>
    refine of_asks_forget ok ?_
    exact fun k holders covers => covers.forget id

namespace Ok

variable {world : World ι} {who : ι}

/-- The directory grows. -/
theorem grow
    (ok : world.Ok) {ids : List Nat} {keys : Nat → List Key}
    (kept : ∀ id ∈ world.ids, id ∈ ids ∧ world.keys id ⊆ keys id) :
    Ok { world with ids := ids, keys := keys } where
  mutex := ok.mutex
  live who k holders asks id isHolder := by
    obtain ⟨isThere, isKey⟩ := ok.live who k holders asks id isHolder
    exact ⟨(kept id isThere).1, (kept id isThere).2 isKey⟩
  threads one := SameView.threadOk ⟨rfl, rfl, rfl⟩ (ok.threads one)
  covers one other k holders different relies :=
    SameView.covers ⟨rfl, rfl, rfl⟩
      (ok.covers one other k holders different relies)

/-- A segment is removed, and every lookup forgets it. -/
theorem remove (ok : world.Ok) (id : Nat) :
    Ok { world with
      ids := world.ids.filter (· ≠ id)
      threads := fun one => (world.threads one).forget id } where
  mutex one := by
    rw [Thread.hasLock_forget]
    exact ok.mutex one
  live one k holders asks holder isHolder := by
    rw [Thread.asks_forget] at asks
    obtain ⟨asked, isAsked, same⟩ := map_eq_some_iff.mp asks
    obtain ⟨rfl, rfl⟩ := Prod.mk.inj same
    obtain ⟨isHolder, notRemoved⟩ := List.mem_filter.mp isHolder
    obtain ⟨isThere, isKey⟩ := ok.live one _ _ isAsked holder isHolder
    exact ⟨List.mem_filter.mpr ⟨isThere, notRemoved⟩, isKey⟩
  threads one := SameView.threadOk ⟨rfl, rfl, rfl⟩ ((ok.threads one).forget id)
  covers one other k holders different relies := by
    rw [Thread.relies_forget] at relies
    obtain ⟨relied, isRelied, isSame⟩ := map_eq_some_iff.mp relies
    obtain ⟨rfl, rfl⟩ := Prod.mk.inj isSame
    exact SameView.covers ⟨rfl, rfl, rfl⟩
      ((ok.covers one other _ _ different isRelied).forget id)

/-- A view that holds everything in the directory and not the key that a lookup
searched for: nobody held the key when the lookup started. -/
theorem holders_eq_nil
    (ok : world.Ok) {holders : List Nat}
    (isAt : world.threads who = .missed k holders seen)
    (isCovered : world.isCovered = true)
    (condition : world.undisturbed (.current who) = true) :
    holders = [] := by
  have threadOk := ok.threads who
  have live := ok.live who k holders
  rw [isAt] at threadOk live
  simp only [World.undisturbed, isAt, decide_eq_true_eq] at condition
  have notFound := threadOk.2 condition
  by_contra isHeld
  obtain ⟨id, isHolder⟩ := List.exists_mem_of_ne_nil holders isHeld
  obtain ⟨isThere, isKey⟩ := live rfl id isHolder
  have isInView := List.all_eq_true.mp isCovered id isThere
  rw [World.has, List.any_eq_false] at notFound
  exact notFound (id, world.keys id) (by simpa using isInView)
    (by simpa using isKey)

variable [DecidableEq ι]

/-- A lookup starts, and remembers who holds its key. -/
theorem get
    (ok : world.Ok) (isIdle : world.threads who = .idle) (k : Key) :
    (world.put who (.searching k (world.holders k))).Ok := by
  refine ok.quiet ⟨rfl, rfl, rfl⟩ ⟨rfl, rfl, rfl, ?_, fun _ _ => Iff.rfl,
    ?_⟩ ⟨trivial, fun _ _ _ _ relies => (by cases relies),
    fun _ _ _ _ _ => trivial⟩
  · have mutex := ok.mutex who
    rw [isIdle] at mutex
    exact mutex
  · intro key holders asks id isHolder
    obtain ⟨rfl, rfl⟩ := Prod.mk.inj (some.inj asks)
    obtain ⟨isThere, isKey⟩ := List.mem_filter.mp isHolder
    exact ⟨isThere, by simpa using isKey⟩

/-- Every step that meets the condition keeps the invariant. -/
theorem step
    (ok : world.Ok)
    (acted : world.act action = some after)
    (condition : world.undisturbed action = true) :
    after.Ok := by
  cases action with
  | get who k =>
    simp only [World.act] at acted
    split at acted <;> cases acted
    exact ok.get ‹_› k
  | refresh who =>
    simp only [World.act] at acted
    split at acted <;> cases acted
    rename_i isIdle
    exact ok.moveAlone isIdle rfl (.inl rfl) rfl rfl trivial
  | next who => exact ok.next acted condition
  | current who =>
    simp only [World.act] at acted
    split at acted <;> try contradiction
    rename_i k holders seen isAt
    obtain ⟨isCovered, ⟨⟩⟩ := ite_none_right_eq_some.mp acted
    exact ok.moveAlone isAt rfl (.inr rfl) rfl rfl
      (ok.holders_eq_nil isAt isCovered condition)
  | stale who =>
    simp only [World.act] at acted
    split at acted <;> try contradiction
    · rename_i isAt
      obtain ⟨-, ⟨⟩⟩ := ite_none_right_eq_some.mp acted
      exact ok.moveAlone isAt rfl (.inr rfl) rfl rfl trivial
    · rename_i isAt
      obtain ⟨-, ⟨⟩⟩ := ite_none_right_eq_some.mp acted
      exact ok.moveAlone isAt rfl (.inl rfl) rfl rfl trivial
  | fail who =>
    simp only [World.act] at acted
    split at acted <;> cases acted <;> rename_i isAt <;>
      exact ok.unlock isAt rfl rfl (.inl rfl) trivial
  | create id =>
    obtain ⟨isNew, ⟨⟩⟩ := ite_none_left_eq_some.mp acted
    refine ok.grow ?_
    intro one isThere
    have notNew : one ≠ id := by
      rintro rfl
      exact isNew isThere
    exact ⟨List.mem_append_left _ isThere, by simp [update_of_ne notNew]⟩
  | append id k =>
    obtain ⟨-, ⟨⟩⟩ := ite_none_right_eq_some.mp acted
    refine ok.grow ?_
    intro one isThere
    refine ⟨isThere, ?_⟩
    by_cases isAppended : one = id
    · simp [isAppended]
    · simp [update_of_ne isAppended]
  | remove id =>
    cases acted
    exact ok.remove id

end Ok

variable [DecidableEq ι]

/-- A step that meets the condition. -/
def UndisturbedStep (world after : World ι) : Prop :=
  ∃ action, world.act action = some after ∧ world.undisturbed action = true

/-- If no lookup is disturbed by a refresh that started too early, then a
lookup that reports its key absent did not have a record of it, in a segment
that is still there, published when it started. -/
theorem absent_unheld
    {world : World ι}
    (reached : Runs.Reachable World.IsInitial World.UndisturbedStep world)
    {who : ι} {k : Key} {holders : List Nat}
    (isAbsent : world.threads who = .absent k holders) :
    holders = [] := by
  have ok : world.Ok := by
    refine reached.invariant (fun _ isInitial => isInitial.ok) ?_
    rintro state after ok ⟨action, acted, condition⟩
    exact ok.step acted condition
  have threadOk := ok.threads who
  rw [isAbsent] at threadOk
  exact threadOk

/-! ## Runs -/

/-- Steps one after another that all meet the condition. -/
def runUndisturbed (world : World ι) (actions : List (Action ι)) :
    Option (World ι) :=
  actions.foldlM
    (fun world action =>
      if world.undisturbed action then world.act action else none)
    world

/-- A store with two threads, whose view has the one segment in the directory,
which is empty. -/
def oneSegment : World (Fin 2) where
  ids := [1]
  keys _ := []
  view := [(1, [])]
  refreshes := 0
  refreshSeq := 0
  refreshMu := none
  threads _ := .idle

theorem isInitial_oneSegment : oneSegment.IsInitial where
  unlocked := rfl
  idle _ := rfl

/-- Several next steps of a thread. -/
def steps (who : ι) (count : Nat) : List (Action ι) :=
  List.replicate count (.next who)

/-- A key is looked up that nobody holds while another is published, and is
reported absent after a refresh. -/
theorem absent_unheld_oneSegment :
    ∃ (world : World (Fin 2)) (holders : List Nat),
      Runs.Reachable World.IsInitial World.UndisturbedStep world ∧
      world.threads 1 = .absent (Key.repeated 2) holders ∧ holders = [] := by
  have evaluated :
      (oneSegment.runUndisturbed
        (.append 1 (Key.repeated 1) :: .get 1 (Key.repeated 2) ::
          steps 1 10)).map (fun world => world.threads 1) =
        some (.absent (Key.repeated 2) []) := by
    decide
  obtain ⟨world, ran, isAbsent⟩ := map_eq_some_iff.mp evaluated
  have reached :
      Runs.Reachable World.IsInitial World.UndisturbedStep world := by
    refine .foldlM ?_ (.start isInitial_oneSegment) ran
    intro state action after stepped
    simp only [ite_none_right_eq_some] at stepped
    exact ⟨action, stepped.2, stepped.1⟩
  exact ⟨world, [], reached, isAbsent, absent_unheld reached isAbsent⟩

/-- A thread lists and reads before the record is published, another one misses
and reads the sequence number, and the refresh that changes it is the old
one. -/
def waitsForOld (refresher reader : ι) : List (Action ι) :=
  .refresh refresher :: steps refresher 3 ++ .append 1 (Key.repeated 1) ::
    .get reader (Key.repeated 1) :: steps reader 3 ++ steps refresher 3 ++
    steps reader 3

/-- A thread misses, another one refreshes, and then the view is current. -/
def currentTooLate (refresher reader : ι) : List (Action ι) :=
  .append 1 (Key.repeated 1) :: .get reader (Key.repeated 1) ::
    steps reader 1 ++ .refresh refresher :: steps refresher 6 ++
    [.current reader]

/-- Both runs report a key absent that was published in segment 1 before the
lookup started. -/
theorem absent_though_held :
    oneSegment.IsInitial ∧
      (oneSegment.run (waitsForOld 0 1)).map (fun world => world.threads 1) =
        some (.absent (Key.repeated 1) [1]) ∧
      (oneSegment.run (currentTooLate 0 1)).map (fun world => world.threads 1) =
        some (.absent (Key.repeated 1) [1]) := by
  refine ⟨isInitial_oneSegment, ?_, ?_⟩
  · decide
  · decide

end World
end AmberStore.Packstore.Lookup

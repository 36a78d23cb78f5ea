import AmberStore.Lib.GenerationLock
import AmberStore.Packstore.Gate

/-!
# The gate keeps writers and sweeps apart

Each store's counts say what it holds of the file lock, so the stores follow
the protocol of a lock that carries a generation.  What holds of that protocol
then holds of them: a sweep is alone, and whoever writes has looked at the
directory after the last change of any other store, unless the counter has gone
all the way round since it last looked.
-/

open Function Option

namespace AmberStore.Packstore.Gate

open GenerationLock (Phase Party)

/-- Generations with one word are the same if the counter has not gone round
between them. -/
theorem Generation.count_eq
    {left right : Generation} (same : left.word = right.word)
    (notBefore : left.count ≤ right.count)
    (close : right.count < left.count + 2 ^ 64) :
    left.count = right.count := by
  have wraps := left.wraps
  rw [same, right.wraps] at wraps
  omega

/-! ## What a store is doing -/

namespace Store

/-- How far a busy step is with the file lock. -/
def busyPhase (behind : Bool) : BusyStep → Phase
  | .lockedShared _ _ | .refreshShared _ => .reading
  | .doneShared (some _) => if behind then .reading else .current
  | .lockedExclusive => .claiming
  | .refreshExclusive _ => .claimed
  | .doneExclusive (some _) => .sweeping
  | _ => .away

/-- How far a store is with the file lock. -/
def phase (store : Store) : Phase :=
  if store.flocked then if store.behind then .reading else .current
  else if 0 < store.exclusive then .sweeping
  else match store.busy with
    | some busyStep => busyPhase store.behind busyStep
    | none => .away

/-- The generation a store's view is good for, or will be once its busy step
is done. -/
def known (store : Store) : Option Generation :=
  match store.busy with
  | some (.doneShared (some generation))
  | some (.doneExclusive (some generation)) => some generation
  | _ => if store.looked then some store.generation else none

/-- The store as a party to the lock. -/
def party (store : Store) : Party :=
  ⟨store.phase, store.known.map Generation.count, store.refreshedAt,
    store.changedAt⟩

/-- What a phase means for the file lock. -/
def modeOf : Phase → Mode
  | .away => .unlocked
  | .reading | .current => .shared
  | .claiming | .claimed | .sweeping => .exclusive

theorem modeOf_doneShared (behind : Bool) (read : Generation) :
    modeOf (busyPhase behind (.doneShared (some read))) = .shared := by
  cases behind <;> rfl

/-- What a busy step finds in `blocked`, that what a span saw before it polled
has not changed, and that what was read of the generation is still there. -/
def BusyOk (generation : Generation) (store : Store) : BusyStep → Prop
  | .pollShared known looked | .lockedShared known looked =>
    store.blocked = none ∧ known = store.generation ∧ looked = store.looked
  | .refreshShared read => store.blocked = none ∧ read = generation
  | .doneShared _ => store.blocked = none
  | .pollExclusive | .lockedExclusive | .doneExclusive _ =>
    store.blocked = some .sweeping
  | .refreshExclusive read =>
    store.blocked = some .sweeping ∧ read = generation
  | .unwinding => store.blocked = none ∨ store.blocked = some .sweeping

/-- What holds of every gate, given the generation in the lock file. -/
inductive Ok (generation : Generation) (store : Store) : Prop
  /-- Nobody is busy: spans in flight run under the file lock, which is held
  shared only for them. -/
  | idle
      (notBusy : store.busy = none)
      (spans : 0 < store.shared → store.flocked = true ∨ 0 < store.exclusive)
      (flocked : store.flocked = true → 0 < store.shared ∧ store.exclusive = 0)
      (sweeping : store.blocked ≠ some .sweeping)
      (draining : store.blocked = some .draining → store.exclusive = 0)
      (mode : store.mode = modeOf store.phase)
  /-- A busy thread finds nothing held and no span in flight. -/
  | busy (busyStep : BusyStep)
      (isBusy : store.busy = some busyStep)
      (shared : store.shared = 0)
      (exclusive : store.exclusive = 0)
      (flocked : store.flocked = false)
      (busyOk : store.BusyOk generation busyStep)
      (mode : store.mode = modeOf store.phase)

attribute [grind] busyPhase phase known party modeOf

theorem Ok.opened (generation : Generation) : Ok generation .opened := by
  apply Ok.idle <;> simp [Store.opened, phase, modeOf]

/-- A change that keeps the gate in order, and leaves the file lock alone or
lets go of it. -/
def Keeps (generation : Generation) (store after : Store) : Prop :=
  after.Ok generation ∧ (after.party = store.party ∨
    after.party = { store.party with phase := .away })

section Mutex

variable {generation : Generation} {store after : Store}
variable (ok : store.Ok generation)
include ok

theorem Ok.beginShared (stepped : store.beginShared = some after) :
    store.Keeps generation after := by
  obtain ⟨free, stepped⟩ := ite_none_left_eq_some.mp stepped
  cases ok with
  | busy busyStep isBusy => simp [isBusy] at free
  | idle notBusy spans flocked sweeping draining mode =>
    split at stepped
    case isTrue held =>
      cases stepped
      refine ⟨.idle notBusy (fun _ => held.symm) ?_ sweeping draining mode,
        .inl rfl⟩
      intro isFlocked
      exact ⟨Nat.succ_pos _, (flocked isFlocked).2⟩
    case isFalse unheld =>
      cases stepped
      have noSpan : store.shared = 0 := by grind
      have unblocked : store.blocked = none := by
        simpa [noSpan, notBusy] using free
      refine ⟨.busy _ rfl noSpan ?_ ?_ ⟨unblocked, rfl, rfl⟩ ?_, .inl ?_⟩
      all_goals grind

theorem Ok.endShared (stepped : store.endShared = some after) :
    store.Keeps generation after := by
  obtain ⟨someSpan, stepped⟩ := ite_none_left_eq_some.mp stepped
  cases ok with
  | busy busyStep isBusy noSpan => exact absurd noSpan someSpan
  | idle notBusy spans flocked sweeping draining mode =>
    split at stepped
    case isTrue last =>
      cases stepped
      refine ⟨.idle notBusy ?_ ?_ sweeping draining ?_, .inr ?_⟩
      all_goals grind
    case isFalse notLast =>
      cases stepped
      refine ⟨.idle notBusy (fun _ => spans ?_) ?_ sweeping draining mode,
        .inl rfl⟩
      · exact Nat.pos_of_ne_zero someSpan
      · intro isFlocked
        have held := flocked isFlocked
        exact ⟨by grind, held.2⟩

theorem Ok.beginExclusive (stepped : store.beginExclusive = some after) :
    store.Keeps generation after := by
  obtain ⟨free, stepped⟩ := ite_none_left_eq_some.mp stepped
  cases ok with
  | busy busyStep isBusy => simp [isBusy] at free
  | idle notBusy spans flocked sweeping draining mode =>
    split at stepped
    case isTrue held =>
      cases stepped
      refine ⟨.idle notBusy (fun _ => .inr (Nat.succ_pos _)) ?_ sweeping ?_
        ?_, .inl ?_⟩
      all_goals grind
    case isFalse unheld =>
      cases stepped
      exact ⟨.idle notBusy spans flocked (by simp)
        (fun _ => Nat.eq_zero_of_not_pos unheld) mode, .inl rfl⟩

theorem Ok.drained (stepped : store.drained = some after) :
    store.Keeps generation after := by
  obtain ⟨⟨isDraining, noSpan⟩, ⟨⟩⟩ := ite_none_right_eq_some.mp stepped
  cases ok with
  | busy busyStep isBusy _ _ _ busyOk =>
    cases busyStep <;> simp [BusyOk, isDraining] at busyOk
  | idle notBusy spans flocked sweeping draining mode =>
    have unheld := draining isDraining
    refine ⟨.busy _ rfl noSpan unheld ?_ rfl ?_, .inl ?_⟩
    all_goals grind

/-- A change of who keeps spans out, while nobody is busy. -/
theorem Ok.block
    (notBusy : store.busy = none)
    {blocked : Option Blocker} (sweeping : blocked ≠ some .sweeping)
    (draining : blocked ≠ some .draining) (sweeps enders : Nat) :
    store.Keeps generation { store with
      blocked := blocked
      sweeps := sweeps
      enders := enders } := by
  cases ok with
  | busy busyStep isBusy => simp [isBusy] at notBusy
  | idle _ spans flocked _ _ mode =>
    exact ⟨.idle notBusy spans flocked sweeping
      (fun isDraining => absurd isDraining draining) mode, .inl rfl⟩

/-- Whoever keeps spans out, short of taking the file lock, is not busy. -/
theorem Ok.not_busy
    (isBlocked : store.blocked = some blocker)
    (notSweeping : blocker ≠ .sweeping) :
    store.busy = none := by
  cases ok with
  | idle notBusy => exact notBusy
  | busy busyStep isBusy _ _ _ busyOk =>
    cases busyStep <;> simp [BusyOk, isBlocked, notSweeping] at busyOk

theorem Ok.cancelDrain (stepped : store.cancelDrain = some after) :
    store.Keeps generation after := by
  obtain ⟨isDraining, ⟨⟩⟩ := ite_none_right_eq_some.mp stepped
  exact ok.block (ok.not_busy isDraining (by decide)) (by decide) (by decide)
    _ _

theorem Ok.endExclusive (stepped : store.endExclusive = some after) :
    store.Keeps generation after := by
  obtain ⟨_, stepped⟩ := ite_none_left_eq_some.mp stepped
  split at stepped
  case isTrue nested =>
    cases stepped
    cases ok with
    | busy busyStep isBusy _ unheld => omega
    | idle notBusy spans flocked sweeping draining mode =>
      refine ⟨.idle notBusy ?_ ?_ sweeping ?_ ?_, .inl ?_⟩
      all_goals grind
  case isFalse =>
    split at stepped
    case isTrue =>
      cases stepped
      refine ⟨?_, .inl rfl⟩
      cases ok with
      | idle notBusy spans flocked sweeping draining mode =>
        exact .idle notBusy spans flocked sweeping draining mode
      | busy busyStep isBusy shared exclusive flocked busyOk mode =>
        refine .busy busyStep isBusy shared exclusive flocked ?_ mode
        cases busyStep <;> exact busyOk
    case isFalse free =>
      cases stepped
      exact ok.block (by simpa using (not_or.mp free).1) (by decide)
        (by decide) _ _

theorem Ok.startEnding (stepped : store.startEnding = some after) :
    store.Keeps generation after := by
  obtain ⟨free, ⟨⟩⟩ := ite_none_left_eq_some.mp stepped
  simp only [not_or, not_isSome_iff_eq_none] at free
  exact ok.block free.2.1 (by decide) (by decide) _ _

theorem Ok.finishEnding (stepped : store.finishEnding = some after) :
    store.Keeps generation after := by
  obtain ⟨⟨isEnding, noSpan⟩, ⟨⟩⟩ := ite_none_right_eq_some.mp stepped
  have notBusy := ok.not_busy isEnding (by decide)
  cases ok with
  | busy busyStep isBusy => simp [isBusy] at notBusy
  | idle _ spans flocked _ _ _ =>
    refine ⟨.idle notBusy ?_ ?_ (by simp) (by simp) ?_, .inr ?_⟩
    all_goals grind

theorem Ok.pauseLocal (stepped : store.pauseLocal = some after) :
    store.Keeps generation after := by
  obtain ⟨free, ⟨⟩⟩ := ite_none_left_eq_some.mp stepped
  simp only [not_or, not_isSome_iff_eq_none] at free
  exact ok.block free.1 (by decide) (by decide) _ _

theorem Ok.pauseDrained (stepped : store.pauseDrained = some after) :
    store.Keeps generation after := by
  obtain ⟨⟨isPausing, _⟩, ⟨⟩⟩ := ite_none_right_eq_some.mp stepped
  exact ok.block (ok.not_busy isPausing (by decide)) (by decide) (by decide) _ _

theorem Ok.resumeLocal (stepped : store.resumeLocal = some after) :
    store.Keeps generation after := by
  obtain ⟨isPaused, ⟨⟩⟩ := ite_none_right_eq_some.mp stepped
  exact ok.block (ok.not_busy isPaused (by decide)) (by decide) (by decide) _ _

theorem Ok.giveUp (stepped : store.giveUp = some after) :
    store.Keeps generation after := by
  unfold Store.giveUp at stepped
  cases ok with
  | idle notBusy => simp [notBusy] at stepped
  | busy busyStep isBusy shared exclusive flocked busyOk mode =>
    rw [isBusy] at stepped
    cases busyStep with
    | pollShared known looked =>
      cases stepped
      refine ⟨.busy _ rfl shared exclusive flocked busyOk.1 ?_, .inl ?_⟩
      all_goals grind
    | pollExclusive =>
      cases stepped
      refine ⟨.busy _ rfl shared exclusive flocked busyOk ?_, .inl ?_⟩
      all_goals grind
    | _ => cases stepped

theorem Ok.publish (stepped : store.publish = some after) :
    store.Keeps generation after := by
  unfold Store.publish at stepped
  cases ok with
  | idle notBusy => simp [notBusy] at stepped
  | busy busyStep isBusy shared exclusive flocked busyOk mode =>
    rw [isBusy] at stepped
    cases busyStep with
    | doneShared result =>
      have unblocked : store.blocked = none := busyOk
      cases result <;> cases stepped <;>
        refine ⟨.idle rfl ?_ ?_ ?_ ?_ ?_, .inl ?_⟩
      all_goals grind
    | doneExclusive result =>
      cases result <;> cases stepped <;>
        refine ⟨.idle rfl ?_ ?_ ?_ ?_ ?_, .inl ?_⟩
      all_goals grind
    | unwinding =>
      cases stepped
      refine ⟨.idle rfl ?_ ?_ ?_ ?_ ?_, .inl ?_⟩
      all_goals grind
    | _ => cases stepped

theorem Ok.act (stepped : store.act action = some after) :
    store.Keeps generation after := by
  cases action with
  | beginShared => exact ok.beginShared stepped
  | endShared => exact ok.endShared stepped
  | beginExclusive => exact ok.beginExclusive stepped
  | drained => exact ok.drained stepped
  | cancelDrain => exact ok.cancelDrain stepped
  | endExclusive => exact ok.endExclusive stepped
  | startEnding => exact ok.startEnding stepped
  | finishEnding => exact ok.finishEnding stepped
  | pauseLocal => exact ok.pauseLocal stepped
  | pauseDrained => exact ok.pauseDrained stepped
  | resumeLocal => exact ok.resumeLocal stepped
  | giveUp => exact ok.giveUp stepped
  | publish => exact ok.publish stepped
  | _ => cases stepped

end Mutex

end Store

/-! ## The stores as parties -/

variable {n : Nat}

/-- The stores as parties to a lock that carries a generation. -/
def World.image (world : World n) : GenerationLock.System (Fin n) where
  parties who := (world.stores who).party
  generation := world.generation.count
  clock := world.clock

/-- What holds in every run. -/
structure World.Ok (world : World n) : Prop where
  store : ∀ who, (world.stores who).Ok world.generation
  image : GenerationLock.Invariant world.image

/-- When a span reads the generation, the counter has not gone round since the
store last looked. -/
def World.InTime (world : World n) (who : Fin n) : Action → Prop
  | .readGeneration _ => (world.stores who).looked = true →
      world.generation.count < (world.stores who).generation.count + 2 ^ 64
  | _ => True

instance (world : World n) (who : Fin n) (action : Action) :
    Decidable (world.InTime who action) := by
  unfold World.InTime
  split <;> infer_instance

theorem Store.behind_act
    {store : Store} (stepped : store.act action = some after) :
    after.behind = store.behind := by
  cases action <;> grind [Store.act, Store.beginShared, Store.endShared,
    Store.beginExclusive, Store.drained, Store.cancelDrain, Store.endExclusive,
    Store.startEnding, Store.finishEnding, Store.pauseLocal,
    Store.pauseDrained, Store.resumeLocal, Store.giveUp, Store.publish]

/-- How a step changes its own store: under the mutex, or with the file lock,
where the counts stay as they are. -/
inductive Effect (inTime : Prop) (store after : Store) (action : Action) : Prop
  | mutex (changed : store.act action = some after)
  | fileLock
      (enders : after.enders = store.enders)
      (exclusive : after.exclusive = store.exclusive)
      (sweeps : after.sweeps = store.sweeps)
      (blocked : after.blocked = store.blocked)
      (mode : after.mode = store.mode ∨ after.mode = .unlocked ∨
        ∃ busyStep, store.busy = some busyStep ∧
          Store.busyPhase store.behind busyStep = .away)
      (behind : inTime → after.behind = true → store.behind = true)

/-- A step changes its own store only, in one of these ways, and keeps the
invariant. -/
def World.Moves (world : World n) (who : Fin n) (action : Action)
    (after : World n) : Prop :=
  after.Ok ∧ ∃ store, after.stores = update world.stores who store ∧
    Effect (world.InTime who action) (world.stores who) store action

theorem World.image_update (world : World n) (who : Fin n) (store : Store)
    (generation : Generation) (clock : Nat) :
    World.image ⟨update world.stores who store, generation, clock⟩ =
      ⟨update world.image.parties who store.party, generation.count, clock⟩ := by
  unfold World.image
  congr
  funext other
  by_cases isWho : other = who
  · subst isWho
    simp
  · simp [isWho]

section Store

variable {generation : Generation} {store : Store} (ok : store.Ok generation)
include ok

theorem Store.Ok.mode_eq : store.mode = Store.modeOf store.phase := by
  cases ok <;> assumption

theorem Store.Ok.phase_eq (isBusy : store.busy = some busyStep) :
    store.phase = Store.busyPhase store.behind busyStep := by
  cases ok with
  | idle notBusy => simp [notBusy] at isBusy
  | busy _ _ _ exclusive flocked => simp [Store.phase, exclusive, flocked, isBusy]

theorem Store.Ok.busyOk (isBusy : store.busy = some busyStep) :
    store.BusyOk generation busyStep := by
  cases ok with
  | idle notBusy => simp [notBusy] at isBusy
  | busy other isOther _ _ _ busyOk =>
    rw [isBusy] at isOther
    cases isOther
    exact busyOk

theorem Store.Ok.mode_busy (isBusy : store.busy = some busyStep) :
    store.mode = Store.modeOf (Store.busyPhase store.behind busyStep) := by
  rw [ok.mode_eq, ok.phase_eq isBusy]

/-- The next step of a busy thread finds the gate in order. -/
theorem Store.Ok.next
    {next : BusyStep} (isBusy : store.busy = some busyStep)
    {refreshedAt changedAt : Nat} {mode : Mode} {behind : Bool}
    (busyOk : store.BusyOk newGeneration next)
    (modeEq : mode = Store.modeOf (Store.busyPhase behind next)) :
    let after := { store with
      busy := some next
      mode := mode
      behind := behind
      refreshedAt := refreshedAt
      changedAt := changedAt }
    after.Ok newGeneration ∧ after.party =
      ⟨Store.busyPhase behind next, (Store.known { store with
        busy := some next }).map Generation.count, refreshedAt, changedAt⟩ := by
  cases ok with
  | idle notBusy => simp [notBusy] at isBusy
  | busy _ _ shared exclusive flocked =>
    refine ⟨.busy next rfl shared exclusive flocked ?_ ?_, ?_⟩
    · cases next <;> exact busyOk
    · simp [Store.phase, exclusive, flocked, modeEq]
    · simp only [Store.party, Store.phase, exclusive, flocked]
      rfl

/-- A store that holds nothing does not depend on the generation. -/
theorem Store.Ok.of_away
    (isAway : store.phase = .away) (newGeneration : Generation) :
    store.Ok newGeneration := by
  cases ok with
  | idle notBusy spans flocked sweeping draining mode =>
    exact .idle notBusy spans flocked sweeping draining mode
  | busy busyStep isBusy shared exclusive flocked busyOk mode =>
    refine .busy busyStep isBusy shared exclusive flocked ?_ mode
    simp only [Store.phase, exclusive, flocked, isBusy] at isAway
    cases busyStep with
    | refreshShared read | refreshExclusive read => cases isAway
    | _ => exact busyOk

end Store

namespace World

variable {world after : World n} {who : Fin n}

/-- A step of one store keeps the invariant if it keeps its clauses. -/
theorem ok_of_update
    {generation : Generation} {clock : Nat}
    (storeOk : store.Ok generation)
    (others : ∀ other, other ≠ who → (world.stores other).Ok generation)
    (image : GenerationLock.Invariant
      ⟨update world.image.parties who store.party, generation.count, clock⟩) :
    Ok ⟨update world.stores who store, generation, clock⟩ := by
  refine ⟨?_, by rwa [image_update]⟩
  intro other
  by_cases isWho : other = who
  · subst isWho
    simpa using storeOk
  · simpa [isWho] using others other isWho

/-- The generation a store knows while its busy thread has not settled
anything. -/
theorem known_eq
    (isBusy : (world.stores who).busy = some busyStep)
    (unsettled : (Store.busyPhase false busyStep).isSettled = false) :
    (world.stores who).known =
      if (world.stores who).looked then some (world.stores who).generation
      else none := by
  unfold Store.known
  rw [isBusy]
  cases busyStep with
  | doneShared result | doneExclusive result =>
    cases result with
    | none => rfl
    | some read => cases unsettled
  | _ => rfl

section Steps

variable (ok : world.Ok)
include ok

/-- A party whose phase is written again stays the same. -/
theorem Ok.image_same (isPhase : (world.image.parties who).phase = phase) :
    GenerationLock.Invariant (world.image.put who
      { world.image.parties who with phase := phase }) := by
  subst isPhase
  have same := update_eq_self who world.image.parties
  unfold GenerationLock.System.put
  rw [same]
  exact ok.image

theorem Ok.act
    (stepped : ((world.stores who).act action).map (world.put who) =
      some after) :
    world.Moves who action after := by
  obtain ⟨store, changed, rfl⟩ := map_eq_some_iff.mp stepped
  obtain ⟨storeOk, same⟩ := (ok.store who).act changed
  refine ⟨ok_of_update storeOk (fun other _ => ok.store other) ?_, store, rfl,
    .mutex changed⟩
  obtain same | released := same
  · rw [same]
    exact ok.image_same rfl
  · rw [released]
    exact ok.image.step (.unlock who)

theorem Ok.isAway_of_unlocked
    (unlocked : (world.stores who).mode = .unlocked) :
    (world.image.parties who).phase = .away := by
  have mode := (ok.store who).mode_eq
  rw [unlocked] at mode
  change (world.stores who).phase = .away
  cases phase : (world.stores who).phase <;> rw [phase] at mode <;>
    first | rfl | cases mode

theorem Ok.not_isExclusive
    (notExclusive : (world.stores who).mode ≠ .exclusive) :
    (world.image.parties who).phase.isExclusive = false := by
  have mode := (ok.store who).mode_eq
  change (world.stores who).phase.isExclusive = false
  cases phase : (world.stores who).phase <;> rw [phase] at mode <;>
    first | rfl | exact absurd mode notExclusive

theorem Ok.phase_busy (isBusy : (world.stores who).busy = some busyStep) :
    (world.image.parties who).phase =
      Store.busyPhase (world.stores who).behind busyStep :=
  (ok.store who).phase_eq isBusy

/-- A busy thread goes on, and may change the generation. -/
theorem Ok.turn
    {generation : Generation} {clock : Nat}
    (isBusy : (world.stores who).busy = some busyStep)
    (busyOk : (world.stores who).BusyOk generation next)
    (modeEq : mode = Store.modeOf (Store.busyPhase behind next))
    (converts : mode = (world.stores who).mode ∨ mode = .unlocked ∨
      Store.busyPhase (world.stores who).behind busyStep = .away)
    (inTime : world.InTime who action → behind = true →
      (world.stores who).behind = true)
    (others : ∀ other, other ≠ who → (world.stores other).Ok generation)
    (knows : Store.known { world.stores who with busy := some next } = known)
    (image : GenerationLock.Invariant ⟨update world.image.parties who
      ⟨Store.busyPhase behind next, known.map Generation.count, refreshedAt,
        changedAt⟩, generation.count, clock⟩) :
    world.Moves who action ⟨update world.stores who
      { world.stores who with
        busy := some next
        mode := mode
        behind := behind
        refreshedAt := refreshedAt
        changedAt := changedAt }, generation, clock⟩ := by
  obtain ⟨storeOk, party⟩ := (ok.store who).next isBusy busyOk modeEq
  refine ⟨ok_of_update storeOk others ?_, _, rfl,
    .fileLock rfl rfl rfl rfl ?_ inTime⟩
  · rw [party, knows]
    exact image
  · exact converts.imp_right (.imp_right fun isAway => ⟨_, isBusy, isAway⟩)

theorem Ok.flock (stepped : world.flock who = some after) :
    world.Moves who action after := by
  simp only [World.flock] at stepped
  split at stepped
  case h_1 known looked isBusy =>
    obtain ⟨granted, ⟨⟩⟩ := ite_none_right_eq_some.mp stepped
    have free := of_decide_eq_true granted
    have busyOk := (ok.store who).busyOk isBusy
    exact ok.turn isBusy busyOk rfl (.inr (.inr rfl)) (fun _ => id)
      (fun other _ => ok.store other) (known_eq isBusy rfl).symm
      (ok.image.step (.lockShared who (ok.phase_busy isBusy)
        fun other different => ok.not_isExclusive (free other different)))
  case h_2 isBusy =>
    obtain ⟨granted, ⟨⟩⟩ := ite_none_right_eq_some.mp stepped
    have free := of_decide_eq_true granted
    have busyOk := (ok.store who).busyOk isBusy
    exact ok.turn isBusy busyOk rfl (.inr (.inr rfl)) (fun _ => id)
      (fun other _ => ok.store other) (known_eq isBusy rfl).symm
      (ok.image.step (.lockExclusive who (ok.phase_busy isBusy)
        fun other different => ok.isAway_of_unlocked (free other different)))
  case h_3 => cases stepped

/-- A busy thread that holds the file lock lets go of it. -/
theorem Ok.release
    (isBusy : (world.stores who).busy = some busyStep)
    (busyOk : (world.stores who).BusyOk world.generation next)
    (isAway : ∀ behind, Store.busyPhase behind next = .away)
    (knows : Store.known { world.stores who with busy := some next } =
      (world.stores who).known) :
    world.Moves who action (world.put who { world.stores who with
      busy := some next
      mode := .unlocked }) := by
  refine ok.turn isBusy busyOk (by rw [isAway]; rfl) (.inr (.inl rfl))
    (fun _ => id) (fun other _ => ok.store other) knows ?_
  rw [isAway]
  exact ok.image.step (.unlock who)

theorem Ok.readGeneration
    (stepped : world.readGeneration who isOk = some after) :
    world.Moves who (.readGeneration isOk) after := by
  simp only [World.readGeneration] at stepped
  split at stepped
  case h_1 known looked isBusy =>
    obtain ⟨unblocked, rfl, rfl⟩ := (ok.store who).busyOk isBusy
    have phase := ok.phase_busy isBusy
    have known := known_eq isBusy rfl
    have mode := (ok.store who).mode_busy isBusy
    split at stepped
    case isTrue =>
      cases stepped
      exact ok.release isBusy unblocked (fun _ => rfl) known.symm
    case isFalse =>
      split at stepped
      case isTrue =>
        cases stepped
        exact ok.turn isBusy ⟨unblocked, rfl⟩ mode (.inl rfl) (fun _ => id)
          (fun other _ => ok.store other) known.symm (ok.image_same phase)
      case isFalse current =>
        simp only [ne_eq, not_or, not_not] at current
        rw [if_pos current.2] at known
        cases stepped
        have isKnown : (world.image.parties who).known =
            some (world.stores who).generation.count :=
          congrArg (Option.map Generation.count) known
        refine ok.turn isBusy unblocked
          (mode.trans (Store.modeOf_doneShared _ _).symm) (.inl rfl)
          (fun inTime missed => absurd (Generation.count_eq current.1.symm
            ((ok.image.party who).known_le _ isKnown) (inTime current.2))
            (of_decide_eq_true missed))
          (fun other _ => ok.store other) known.symm ?_
        by_cases same :
            (world.stores who).generation.count = world.generation.count
        · rw [same] at isKnown
          rw [decide_eq_false (not_not.mpr same)]
          exact ok.image.step (.keep who phase isKnown)
        · rw [decide_eq_true same]
          exact ok.image_same phase
  case h_2 => cases stepped

/-- The others do not notice that an exclusive holder changes the
generation. -/
theorem Ok.others
    (isExclusive : (world.image.parties who).phase.isExclusive = true)
    (generation : Generation) (other : Fin n) (different : other ≠ who) :
    (world.stores other).Ok generation :=
  (ok.store other).of_away
    ((ok.image.pair who other different).alone isExclusive) generation

theorem Ok.bump (stepped : world.bump who outcome = some after) :
    world.Moves who action after := by
  cases outcome with
  | written =>
    obtain ⟨isBusy, ⟨⟩⟩ := ite_none_right_eq_some.mp stepped
    have phase := ok.phase_busy isBusy
    have mode := (ok.store who).mode_busy isBusy
    exact ok.turn isBusy ⟨(ok.store who).busyOk isBusy, rfl⟩ mode (.inl rfl)
      (fun _ => id) (ok.others (by rw [phase]; rfl) _)
      (known_eq isBusy rfl).symm
      (ok.image.step (.move who phase))
  | failed size =>
    obtain ⟨isBusy, ⟨⟩⟩ := ite_none_right_eq_some.mp stepped
    have phase := ok.phase_busy isBusy
    have skewed := ok.image.step (.skew who (world.generation.torn size).count
      phase (Nat.le_add_right _ _))
    exact ok.turn isBusy ((ok.store who).busyOk isBusy) rfl
      (.inr (.inl rfl)) (fun _ => id) (ok.others (by rw [phase]; rfl) _)
      (known_eq isBusy rfl).symm (skewed.step (.unlock who))

theorem Ok.refresh (stepped : world.refresh who outcome = some after) :
    world.Moves who action after := by
  have storeOk := ok.store who
  simp only [World.refresh] at stepped
  split at stepped
  case h_1 read isBusy =>
    obtain ⟨unblocked, rfl⟩ := storeOk.busyOk isBusy
    have mode := storeOk.mode_busy isBusy
    cases stepped
    exact ok.turn isBusy unblocked mode (.inl rfl) nofun
      (fun other _ => ok.store other) rfl
      (ok.image.step (.lookShared who (ok.phase_busy isBusy)))
  case h_2 read isBusy =>
    cases stepped
    exact ok.release isBusy (storeOk.busyOk isBusy).1 (fun _ => rfl)
      (known_eq isBusy rfl).symm
  case h_3 read isBusy =>
    obtain ⟨blocked, rfl⟩ := storeOk.busyOk isBusy
    have mode := storeOk.mode_busy isBusy
    cases stepped
    exact ok.turn isBusy blocked mode (.inl rfl) nofun
      (fun other _ => ok.store other) rfl
      (ok.image.step (.lookExclusive who (ok.phase_busy isBusy)))
  case h_4 read isBusy =>
    cases stepped
    exact ok.release isBusy (storeOk.busyOk isBusy).1 (fun _ => rfl)
      (known_eq isBusy rfl).symm
  case h_5 read isBusy =>
    have unblocked := (storeOk.busyOk isBusy).1
    cases stepped
    exact ok.release isBusy (Or.inl unblocked) (fun _ => rfl)
      (known_eq isBusy rfl).symm
  case h_6 read isBusy =>
    have blocked := (storeOk.busyOk isBusy).1
    cases stepped
    exact ok.release isBusy (Or.inr blocked) (fun _ => rfl)
      (known_eq isBusy rfl).symm
  case h_7 => cases stepped

theorem Ok.phase_of_exclusive (held : 0 < (world.stores who).exclusive) :
    (world.image.parties who).phase = .sweeping := by
  change (world.stores who).phase = .sweeping
  cases ok.store who with
  | busy _ _ _ unheld => omega
  | idle _ _ flocked => grind

theorem Ok.phase_of_span (span : 0 < (world.stores who).shared) :
    (world.image.parties who).phase ≠ .away ∧
      ((world.stores who).behind = false →
        (world.image.parties who).phase.isSettled = true) := by
  change (world.stores who).phase ≠ .away ∧
    (_ → (world.stores who).phase.isSettled = true)
  cases ok.store who with
  | busy _ _ noSpan => omega
  | idle _ spans => grind

theorem Ok.removeSegment (stepped : world.removeSegment who = some after) :
    world.Moves who action after := by
  obtain ⟨held, ⟨⟩⟩ := ite_none_right_eq_some.mp stepped
  refine ⟨ok_of_update ?_ (fun other _ => ok.store other)
    (ok.image.step (.change who (ok.phase_of_exclusive held))), _, rfl,
    .fileLock rfl rfl rfl rfl (.inl rfl) fun _ => id⟩
  cases ok.store who with
  | busy _ _ _ unheld => omega
  | idle notBusy spans flocked sweeping draining mode =>
    exact .idle notBusy spans flocked sweeping draining mode

/-- Every step keeps the invariant, and changes its own store only. -/
theorem Ok.step (stepped : world.step who action = some after) :
    world.Moves who action after := by
  cases action with
  | flock => exact ok.flock stepped
  | readGeneration isOk => exact ok.readGeneration stepped
  | bump outcome => exact ok.bump stepped
  | refresh outcome => exact ok.refresh stepped
  | removeSegment => exact ok.removeSegment stepped
  | _ => exact ok.act stepped

end Steps

theorem IsInitial.ok (isInitial : world.IsInitial) : world.Ok := by
  constructor
  · intro who
    rw [isInitial who]
    exact .opened world.generation
  · refine GenerationLock.IsInitial.invariant ?_
    intro who
    simp only [image, isInitial who]
    decide

/-- The worlds that calls of any stores' threads lead to, in any order, as long
as each step is allowed. -/
def ReachedBy (allowed : World n → Fin n → Action → Prop) : World n → Prop :=
  Runs.Reachable IsInitial fun world after => ∃ who action,
    allowed world who action ∧ world.step who action = some after

/-- The worlds that any calls lead to. -/
def Reached : World n → Prop :=
  ReachedBy fun _ _ _ => True

theorem ReachedBy.reached (reached : ReachedBy allowed world) :
    Reached world := by
  refine Runs.Reachable.mono ?_ reached
  rintro state after ⟨who, action, -, stepped⟩
  exact ⟨who, action, trivial, stepped⟩

theorem Reached.ok (reached : Reached world) : world.Ok := by
  refine Runs.Reachable.invariant ?_ ?_ reached
  · intro state isInitial
    exact isInitial.ok
  · rintro state next ok ⟨who, action, -, stepped⟩
    exact (ok.step stepped).1

/-- What holds of a store that is opened, and is kept by what a step does to
its own store, holds of every store. -/
theorem ReachedBy.each
    {holds : Store → Prop} (opened : holds .opened)
    (kept : ∀ (world : World n) who action store, world.Ok →
      allowed world who action →
      Effect (world.InTime who action) (world.stores who) store action →
      holds (world.stores who) → holds store)
    (reached : ReachedBy allowed world) (who : Fin n) :
    holds (world.stores who) := by
  induction reached generalizing who with
  | start isInitial =>
    rw [isInitial who]
    exact opened
  | next earlier stepped ih =>
    obtain ⟨mover, action, isAllowed, stepped⟩ := stepped
    have ok := (ReachedBy.reached earlier).ok
    obtain ⟨_, store, stores, effect⟩ := ok.step stepped
    rw [stores]
    by_cases isMover : who = mover
    · subst isMover
      rw [update_self]
      exact kept _ who action store ok isAllowed effect (ih who)
    · rw [update_of_ne isMover]
      exact ih who

end World

/-! ## Callers that hold the gate -/

/-- A caller pauses local spans only while it holds the gate, and does not give
the gate back before it resumes them, as `compact` does. -/
def Bracketed (store : Store) : Action → Prop
  | .pauseLocal => 0 < store.sweeps
  | .endExclusive => 1 < store.sweeps ∨
      (store.blocked ≠ some .pausing ∧ store.blocked ≠ some .paused)
  | _ => True

/-- The depth counts the callers that hold the gate, and the one that is about
to let go of the file lock. -/
structure Store.Counted (store : Store) : Prop where
  /-- Nobody has to wait before it keeps spans out to let go. -/
  enders : store.enders = 0
  /-- Without a caller that is letting go, the depth is exact. -/
  depth : store.blocked ≠ some .ending → store.exclusive = store.sweeps
  /-- Whoever lets go is the last one. -/
  ending : store.blocked = some .ending → store.exclusive = 1 ∧ store.sweeps = 0
  /-- Whoever pauses spans holds the gate. -/
  paused : store.blocked = some .pausing ∨ store.blocked = some .paused →
    0 < store.sweeps

/-- The worlds that such calls lead to. -/
def World.ReachedBracketed : World n → Prop :=
  ReachedBy fun world who => Bracketed (world.stores who)

section Counted

variable {generation : Generation} {store after : Store}

theorem Store.Counted.beginExclusive
    (counted : store.Counted)
    (stepped : store.beginExclusive = some after) :
    after.Counted := by
  obtain ⟨enders, depth, ending, paused⟩ := counted
  unfold Store.beginExclusive at stepped
  constructor <;> grind

/-- The last caller that gives the gate back finds it neither busy nor
blocked. -/
theorem Store.Counted.endExclusive
    (counted : store.Counted) (ok : store.Ok generation)
    (bracketed : Bracketed store .endExclusive)
    (stepped : store.endExclusive = some after) :
    after.Counted := by
  obtain ⟨enders, depth, ending, paused⟩ := counted
  unfold Store.endExclusive at stepped
  split at stepped
  case isTrue => cases stepped
  case isFalse someSweep =>
    have notEnding : store.blocked ≠ some .ending := by grind
    have exact_ := depth notEnding
    split at stepped
    case isTrue nested =>
      cases stepped
      constructor <;> grind
    case isFalse last =>
      cases ok with
      | busy _ _ _ unheld => omega
      | idle notBusy spans flocked sweeping draining mode =>
        have unblocked : store.blocked = none := by
          cases isBlocked : store.blocked with
          | none => rfl
          | some blocker =>
            unfold Bracketed at bracketed
            cases blocker <;> grind
        rw [if_neg (by simp [notBusy, unblocked])] at stepped
        cases stepped
        constructor <;> grind

theorem Store.Counted.act
    (counted : store.Counted) (ok : store.Ok generation)
    (bracketed : Bracketed store action)
    (stepped : store.act action = some after) :
    after.Counted := by
  have ⟨enders, depth, ending, paused⟩ := counted
  cases action with
  | beginExclusive => exact counted.beginExclusive stepped
  | endExclusive => exact counted.endExclusive ok bracketed stepped
  | beginShared => constructor <;> grind [Store.act, Store.beginShared]
  | endShared => constructor <;> grind [Store.act, Store.endShared]
  | drained => constructor <;> grind [Store.act, Store.drained]
  | cancelDrain => constructor <;> grind [Store.act, Store.cancelDrain]
  | startEnding => grind [Store.act, Store.startEnding]
  | finishEnding => constructor <;> grind [Store.act, Store.finishEnding]
  | pauseLocal =>
    constructor <;> grind [Store.act, Store.pauseLocal, Bracketed]
  | pauseDrained => constructor <;> grind [Store.act, Store.pauseDrained]
  | resumeLocal => constructor <;> grind [Store.act, Store.resumeLocal]
  | giveUp => constructor <;> grind [Store.act, Store.giveUp]
  | publish =>
    unfold Store.act Store.publish at stepped
    cases ok with
    | idle notBusy => simp [notBusy] at stepped
    | busy busyStep isBusy _ unheld _ busyOk _ =>
      rw [isBusy] at stepped
      cases busyStep with
      | doneShared result | doneExclusive result =>
        have blocked := busyOk
        cases result <;> cases stepped <;> constructor <;> grind
      | unwinding =>
        cases stepped
        obtain blocked | blocked := busyOk <;> constructor <;> grind
      | _ => cases stepped
  | _ => cases stepped

end Counted

namespace World

variable {world : World n}

theorem ReachedBracketed.counted
    (reached : ReachedBracketed world) (who : Fin n) :
    (world.stores who).Counted := by
  refine ReachedBy.each (by constructor <;> simp [Store.opened]) ?_ reached who
  intro world who action store ok bracketed effect counted
  cases effect with
  | mutex changed => exact counted.act (ok.store who) bracketed changed
  | fileLock enders exclusive sweeps blocked =>
    obtain ⟨noEnders, depth, ending, paused⟩ := counted
    constructor <;> grind

/-- The worlds that are reached in time. -/
def ReachedInTime : World n → Prop :=
  ReachedBy InTime

/-- A counter that has not gone round is not missed. -/
theorem ReachedInTime.not_behind
    (reached : ReachedInTime world) (who : Fin n) :
    (world.stores who).behind = false := by
  refine @ReachedBy.each _ _ _ (fun store => store.behind = false) rfl ?_
    reached who
  intro world who action store ok inTime effect notBehind
  cases effect with
  | mutex changed => rw [Store.behind_act changed, notBehind]
  | fileLock _ _ _ _ _ behind => grind

/-- A step never turns a lock that is held into one of the other mode. -/
theorem Reached.not_converted
    (reached : Reached world)
    (stepped : world.step who action = some after)
    (store : Fin n) :
    (after.stores store).mode = (world.stores store).mode ∨
      (after.stores store).mode = .unlocked ∨
      (world.stores store).mode = .unlocked := by
  have ok := reached.ok.store who
  obtain ⟨_, changed, stores, effect⟩ := reached.ok.step stepped
  rw [stores]
  by_cases isWho : store = who
  · subst isWho
    rw [update_self]
    cases effect with
    | fileLock _ _ _ _ mode =>
      obtain same | unlocked | ⟨busyStep, isBusy, isAway⟩ := mode
      · exact .inl same
      · exact .inr (.inl unlocked)
      · right; right
        rw [ok.mode_busy isBusy, isAway]
        rfl
    | mutex acted =>
      obtain ⟨changedOk, same | released⟩ := ok.act acted
      · left
        have phase : changed.phase = (world.stores store).phase :=
          congrArg Party.phase same
        rw [changedOk.mode_eq, ok.mode_eq, phase]
      · right; left
        have phase : changed.phase = .away := congrArg Party.phase released
        rw [changedOk.mode_eq, phase]
        rfl
  · rw [update_of_ne isWho]
    exact .inl rfl

/-- The gate is safe, whatever the stores' threads call and in whatever order:
no store holds it exclusively while another has a span in flight, no step
converts a lock that is held, and a span runs on a view that was refreshed
after every generation and every removal of the other stores, where the counter
has not gone round since the store last looked.  Where local spans are only
paused inside a sweep, whoever got the gate holds it until it is given back. -/
theorem gate_safe
    (world : World n) (reached : Reached world) :
    (∀ who other, other ≠ who → 0 < (world.stores who).exclusive →
      (world.stores other).shared = 0) ∧
    (∀ who action after, world.step who action = some after →
      ∀ store, (after.stores store).mode = (world.stores store).mode ∨
        (after.stores store).mode = .unlocked ∨
        (world.stores store).mode = .unlocked) ∧
    (ReachedInTime world → ∀ who other, other ≠ who →
      0 < (world.stores who).shared →
      (world.stores other).changedAt < (world.stores who).refreshedAt) ∧
    (ReachedBracketed world → ∀ who, 0 < (world.stores who).sweeps →
      0 < (world.stores who).exclusive) := by
  have ok := reached.ok
  refine ⟨?_, ?_, ?_, ?_⟩
  · intro who other different held
    by_contra span
    exact (ok.phase_of_span (Nat.pos_of_ne_zero span)).1
      ((ok.image.pair who other different).alone
        (by rw [ok.phase_of_exclusive held]; rfl))
  · intro who action after stepped
    exact reached.not_converted stepped
  · intro inTime who other different span
    exact (ok.image.pair who other different).settled_fresh
      ((ok.phase_of_span span).2 (inTime.not_behind who))
  · intro bracketed who sweep
    have counted := bracketed.counted who
    by_cases ending : (world.stores who).blocked = some .ending
    · have last := counted.ending ending
      omega
    · rw [counted.depth ending]
      exact sweep

/-- A run, if every step is allowed and possible. -/
def run (allowed : World n → Fin n → Action → Prop)
    [∀ world who action, Decidable (allowed world who action)]
    (world : World n) (steps : List (Fin n × Action)) : Option (World n) :=
  steps.foldlM (fun world step => if allowed world step.1 step.2 then
    world.step step.1 step.2 else none) world

theorem ReachedBy.run
    [∀ world who action, Decidable (allowed world who action)]
    (reached : ReachedBy allowed world)
    (ran : world.run allowed steps = some after) :
    ReachedBy allowed after := by
  refine Runs.Reachable.foldlM ?_ reached ran
  intro state step after stepped
  obtain ⟨isAllowed, stepped⟩ := ite_none_right_eq_some.mp stepped
  exact ⟨step.1, step.2, isAllowed, stepped⟩

/-- A sweep of the first store. -/
def sweep : List (Fin 2 × Action) :=
  [(0, .beginExclusive), (0, .drained), (0, .flock), (0, .bump .written),
    (0, .refresh .ok), (0, .publish), (0, .endExclusive), (0, .finishEnding)]

/-- A span of the second store that has to look. -/
def firstSpan : List (Fin 2 × Action) :=
  [(1, .beginShared), (1, .flock), (1, .readGeneration true),
    (1, .refresh .ok), (1, .publish)]

/-- Two stores that have just been opened. -/
def twoOpened : World 2 :=
  ⟨fun _ => .opened, Store.opened.generation, 0⟩

/-- After a sweep, a span's view is newer than it. -/
theorem gate_safe_sweepThenSpan :
    ∃ world : World 2, ReachedInTime world ∧ 0 < (world.stores 0).changedAt ∧
      0 < (world.stores 1).shared ∧
      (world.stores 0).changedAt < (world.stores 1).refreshedAt := by
  have evaluated : (run InTime twoOpened (sweep ++ firstSpan)).map
      (fun world => decide (0 < (world.stores 0).changedAt ∧
        0 < (world.stores 1).shared)) = some true := by
    decide
  obtain ⟨world, ran, facts⟩ := map_eq_some_iff.mp evaluated
  obtain ⟨changed, span⟩ := of_decide_eq_true facts
  have reached : ReachedInTime world := ReachedBy.run (.start fun _ => rfl) ran
  exact ⟨world, reached, changed, span,
    (gate_safe world reached.reached).2.2.1 reached 1 0 (by decide) span⟩

/-! ## A counter that goes round -/

/-- A store at rest, after calls that are over. -/
def atRest (generation : Generation) (looked : Bool)
    (refreshedAt changedAt : Nat) : Store :=
  { Store.opened with generation, looked, refreshedAt, changedAt }

/-- Two stores. -/
def pair (first second : Store) : Fin 2 → Store :=
  fun who => if who = 0 then first else second

/-- What a run of two stores reaches. -/
theorem Reached.runPair
    {world after : World 2} (reached : Reached world)
    (ran : world.run (fun _ _ _ => True) steps = some after) :
    Reached ⟨pair (after.stores 0) (after.stores 1), after.generation,
      after.clock⟩ := by
  have same : pair (after.stores 0) (after.stores 1) = after.stores :=
    funext fun
      | 0 => rfl
      | 1 => rfl
  rw [same]
  exact ReachedBy.run reached ran

/-- The first store sweeps any number of times, while the second one is at rest
after a span. -/
theorem exists_sweeps (count : Nat) :
    ∃ first looked refreshedAt changedAt current clock,
      Reached ⟨pair (atRest first looked refreshedAt changedAt)
        (atRest ⟨0, 0, rfl⟩ true 1 0), current, clock⟩ ∧
      current.count = count ∧ 1 ≤ clock ∧ (0 < count → 1 < changedAt) := by
  induction count with
  | zero =>
    have reached := @Reached.runPair (firstSpan ++ [(1, .endShared)]) twoOpened
      _ (.start fun _ => rfl) rfl
    exact ⟨⟨0, 0, rfl⟩, false, 0, 0, _, 1, reached, rfl, Nat.le_refl 1, nofun⟩
  | succ count ih =>
    obtain ⟨first, looked, refreshedAt, changedAt, current, clock, earlier,
      isCount, later, -⟩ := ih
    have reached := @Reached.runPair sweep _ _ earlier rfl
    exact ⟨current.next, true, clock + 2, clock + 1, current.next, clock + 2,
      reached, congrArg (· + 1) isCount, by omega, by omega⟩

/-- After `2 ^ 64` sweeps of another store, a span finds the word that it knows,
and runs on the view from before all of them. -/
theorem span_behind :
    ∃ world : World 2, Reached world ∧ 0 < (world.stores 1).shared ∧
      ¬(world.stores 0).changedAt < (world.stores 1).refreshedAt := by
  obtain ⟨first, looked, refreshedAt, changedAt, ⟨word, count, wraps⟩, clock,
    earlier, isCount, -, changed⟩ := exists_sweeps (2 ^ 64)
  obtain rfl : word = 0 := by
    rw [← UInt64.toNat_inj, wraps, show count = 2 ^ 64 from isCount]
    rfl
  have reached := @Reached.runPair [(1, .beginShared), (1, .flock),
    (1, .readGeneration true), (1, .publish)] _ _ earlier rfl
  exact ⟨_, reached, Nat.one_pos, Nat.not_lt.mpr (changed (by decide)).le⟩

end World

end AmberStore.Packstore.Gate

import AmberStore.Lib.Runs
import AmberStore.Packstore.Versions

/-!
# What segment versions keep

A store owns a segment whose header has the version the store takes it to have,
and nobody else changes a segment that a store holds.  A segment that a store
takes for an append is of the store's version, or gets it, so that the append
leaves at most one segment.
-/

open Option

namespace AmberStore.Packstore.Versions

variable {ι : Type}

/-! ## The invariant -/

/-- A segment holds what its header allows. -/
def Content.Ok (content : Content) : Prop :=
  ∀ record ∈ content.records, record.need ≤ content.version

/-- An append left at most one segment, and the next one takes its record. -/
def LoopOk (store : Store) (record : Rec) (leaves : Nat) : Prop :=
  record.need ≤ store.segVersion ∧ leaves ≤ 1 ∧
    (leaves ≠ 0 → ∀ id version, store.own = some (id, version) →
      record.need ≤ version)

/-- What holds of what a store is at. -/
def Task.Ok (world : World ι) (who : ι) (store : Store) : Task → Prop
  | .idle => True
  | .appending record leaves => LoopOk store record leaves
  | .adopting caller id =>
    store.own = none ∧ ∃ segment, world.segments id = some segment ∧
      segment.holder = some who ∧ segment.sealed = false ∧
      ∀ record leaves, caller = some (record, leaves) →
        LoopOk store record leaves ∧
        ∀ content, segment.content = some content →
          store.segVersion ≤ content.version

/-- What holds of a store. -/
structure Store.Ok (world : World ι) (who : ι) (store : Store) : Prop where
  own : ∀ id version, store.own = some (id, version) →
    ∃ segment records, world.segments id = some segment ∧
      segment.holder = some who ∧ segment.sealed = false ∧
      segment.content = some ⟨version, records⟩
  task : store.task.Ok world who store

/-- The invariant of the directory and the stores. -/
structure World.Ok (world : World ι) : Prop where
  holds : ∀ id segment content, world.segments id = some segment →
    segment.content = some content → content.Ok
  files : ∀ id segment, world.segments id = some segment →
    segment.ident < world.fresh
  stores : ∀ who, (world.stores who).Ok world who

theorem World.IsInitial.ok {world : World ι} (isInitial : world.IsInitial) :
    world.Ok where
  holds id segment content isSegment isContent :=
    isInitial.holds id segment content isSegment isContent
  files id segment isSegment := (isInitial.files id segment isSegment).1
  stores who := by
    obtain ⟨noOwn, isIdle⟩ := isInitial.idle who
    refine ⟨fun id version isOwn => ?_, ?_⟩
    · rw [noOwn] at isOwn
      cases isOwn
    · rw [isIdle]
      trivial

/-! ## Files over time -/

/-- One file at two times: its header does not change. -/
def Segment.Follows (segment later : Segment ι) : Prop :=
  later.ident = segment.ident ∧
    ∀ content, segment.content = some content →
      ∃ records, later.content = some ⟨content.version, records⟩

/-- Every file is an earlier one under its id, or a new one. -/
def World.Follows (world after : World ι) : Prop :=
  world.fresh ≤ after.fresh ∧
    ∀ id later, after.segments id = some later →
      later.ident = world.fresh ∨
        ∃ segment, world.segments id = some segment ∧ segment.Follows later

theorem Segment.Follows.of_content
    {segment : Segment ι} (ident : later.ident = segment.ident)
    (content : later.content = segment.content) : segment.Follows later :=
  ⟨ident, fun content' isContent =>
    ⟨content'.records, content.trans isContent⟩⟩

/-! ## The rule of a step -/

section Step

variable {world after : World ι} {who : ι} {id : Nat} {segment : Segment ι}

/-- What holds of a store stays while the segments it holds do. -/
theorem Store.Ok.of_others
    {store : Store} (ok : store.Ok world other)
    (kept : ∀ id segment, world.segments id = some segment →
      segment.sealed = false → segment.holder = some other →
      after.segments id = some segment) :
    store.Ok after other := by
  refine ⟨fun id version isOwn => ?_, ?_⟩
  · obtain ⟨segment, records, isSegment, held, active, isContent⟩ :=
      ok.own id version isOwn
    exact ⟨segment, records, kept id segment isSegment active held, held,
      active, isContent⟩
  · have taskOk := ok.task
    cases isTask : store.task with
    | idle => trivial
    | appending record leaves =>
      rw [isTask] at taskOk
      exact taskOk
    | adopting caller id =>
      rw [isTask] at taskOk
      obtain ⟨noOwn, segment, isSegment, held, active, loop⟩ := taskOk
      exact ⟨noOwn, segment, kept id segment isSegment active held, held,
        active, loop⟩

namespace World.Ok

/-- A segment that may be adopted is nobody's, and of the version asked for. -/
theorem of_adoptable
    (adoptable : World.adoptable minVersion segment = true) :
    segment.sealed = false ∧ segment.holder = none ∧
      ∀ content, segment.content = some content →
        minVersion ≤ content.version := by
  simp only [World.adoptable, Bool.and_eq_true, Bool.not_eq_true',
    isNone_iff_eq_none] at adoptable
  obtain ⟨⟨active, free⟩, late⟩ := adoptable
  refine ⟨active, free, fun content isContent => ?_⟩
  rw [isContent] at late
  simpa using late

theorem isWho_of_held
    (held : segment.holder = some who) (other : ι)
    (isHeld : segment.holder = some other) : other = who :=
  some.inj (isHeld.symm.trans held)

theorem loop_of_resume
    (ok : world.Ok)
    (isTask : (world.stores who).task = .adopting caller id) (later : World ι) :
    (World.resume caller).Ok later who
      ⟨(world.stores who).segVersion, none, World.resume caller⟩ := by
  have taskOk := (ok.stores who).task
  rw [isTask] at taskOk
  obtain ⟨-, segment, -, -, -, loop⟩ := taskOk
  cases caller with
  | none => trivial
  | some pair =>
    obtain ⟨⟨need, few, -⟩, -⟩ := loop pair.1 pair.2 rfl
    exact ⟨need, few, fun _ other version isOwn => (by cases isOwn)⟩

/-- What an adoption locked. -/
theorem held_of_adopting
    (ok : world.Ok)
    (isTask : (world.stores who).task = .adopting caller id) :
    (world.stores who).own = none ∧
      ∃ segment, world.segments id = some segment ∧
        segment.holder = some who := by
  have taskOk := (ok.stores who).task
  rw [isTask] at taskOk
  obtain ⟨noOwn, segment, isSegment, held, -⟩ := taskOk
  exact ⟨noOwn, segment, isSegment, held⟩

/-- What a store owns. -/
theorem held_of_own
    (ok : world.Ok)
    (isOwn : (world.stores who).own = some (id, version)) :
    ∃ segment, world.segments id = some segment ∧
      segment.holder = some who := by
  obtain ⟨segment, -, isSegment, held, -⟩ := (ok.stores who).own id version isOwn
  exact ⟨segment, isSegment, held⟩

/-- The greater of two versions is at least either. -/
theorem le_max (left right : UInt8) :
    left ≤ max left right ∧ right ≤ max left right := by
  change left ≤ (if left ≤ right then right else left) ∧
    right ≤ (if left ≤ right then right else left)
  split
  case isTrue isLe => exact ⟨isLe, UInt8.le_refl _⟩
  case isFalse isGt =>
    exact ⟨UInt8.le_refl _, UInt8.le_of_lt (UInt8.not_le.1 isGt)⟩

/-- A repaired segment's header allows the new record as well. -/
theorem content_repaired
    (old : content.Ok) (record : Rec) :
    (World.repaired content record).Ok := by
  intro later member
  obtain ⟨before, isBefore, rfl⟩ := List.mem_map.1 member
  change _ ≤ max content.version record.need
  split
  · exact (le_max content.version record.need).2
  · exact UInt8.le_trans (old before isBefore) (le_max _ _).1

end World.Ok

variable [DecidableEq ι]

/-- A step keeps the invariant, and every header. -/
def World.Goes (world after : World ι) : Prop :=
  after.Ok ∧ world.Follows after

/-- A store changes its own state alone. -/
theorem World.Ok.put
    (ok : world.Ok) (mine : store.Ok world who) :
    world.Goes (world.put who store) := by
  refine ⟨⟨ok.holds, ok.files, fun other => ?_⟩, le_rfl,
    fun id later isLater => .inr ⟨later, isLater, .of_content rfl rfl⟩⟩
  dsimp only [World.put]
  rw [Function.update_apply]
  split
  case isTrue same =>
    subst same
    exact mine.of_others fun _ _ isSegment _ _ => isSegment
  case isFalse =>
    exact (ok.stores other).of_others fun _ _ isSegment _ _ => isSegment

/-- A store changes its own state and a segment that nobody else holds. -/
theorem World.Ok.change
    (ok : world.Ok) {fresh : Nat} {segment : Option (Segment ι)}
    (mayChange : ∀ old, world.segments id = some old → old.sealed = false →
      ∀ other, old.holder = some other → other = who)
    (freshLe : world.fresh ≤ fresh)
    (newOk : ∀ later, segment = some later → later.ident < fresh ∧
      (∀ content, later.content = some content → content.Ok) ∧
      (later.ident = world.fresh ∨
        ∃ old, world.segments id = some old ∧ old.Follows later))
    (mine : store.Ok ⟨Function.update world.segments id segment, fresh,
      Function.update world.stores who store⟩ who) :
    world.Goes ⟨Function.update world.segments id segment, fresh,
      Function.update world.stores who store⟩ := by
  refine ⟨⟨fun other later content isLater isContent => ?_,
    fun other later isLater => ?_, fun other => ?_⟩, freshLe,
    fun other later isLater => ?_⟩
  · simp only [Function.update_apply] at isLater
    split at isLater
    · exact (newOk later isLater).2.1 content isContent
    · exact ok.holds other later content isLater isContent
  · simp only [Function.update_apply] at isLater
    split at isLater
    · exact (newOk later isLater).1
    · exact Nat.lt_of_lt_of_le (ok.files other later isLater) freshLe
  · dsimp only
    by_cases same : other = who
    · subst same
      rw [Function.update_self]
      exact mine
    · rw [Function.update_of_ne same]
      refine (ok.stores other).of_others ?_
      intro at_ old isOld active held
      have elsewhere : at_ ≠ id := by
        rintro rfl
        exact same (mayChange old isOld active other held)
      exact (Function.update_of_ne elsewhere _ _).trans isOld
  · simp only [Function.update_apply] at isLater
    split at isLater
    case isTrue same => exact same ▸ (newOk later isLater).2.2
    case isFalse => exact .inr ⟨later, isLater, .of_content rfl rfl⟩

/-- A store changes its own state and a file that is free or that it holds. -/
theorem World.Ok.update
    (ok : world.Ok)
    (isSegment : world.segments id = some segment)
    (free : ∀ other, segment.holder = some other → other = who)
    (follows : segment.Follows later)
    (contentOk : ∀ content, later.content = some content → content.Ok)
    (mine : store.Ok ((world.set id (some later)).put who store) who) :
    world.Goes ((world.set id (some later)).put who store) := by
  refine ok.change ?_ le_rfl ?_ mine
  · intro old isOld _
    exact some.inj (isSegment.symm.trans isOld) ▸ free
  · intro other isLater
    cases isLater
    exact ⟨follows.1 ▸ ok.files id segment isSegment, contentOk,
      .inr ⟨segment, isSegment, follows⟩⟩

namespace World.Ok

/-- A store locks a segment to take it over. -/
theorem lock
    (ok : world.Ok)
    (isSegment : world.segments id = some segment)
    (noOwn : (world.stores who).own = none)
    (adoptable : World.adoptable minVersion segment = true)
    (loop : ∀ record leaves, caller = some (record, leaves) →
      LoopOk (world.stores who) record leaves ∧
      minVersion = (world.stores who).segVersion) :
    world.Goes ((world.set id (some { segment with holder := some who })).put
      who { world.stores who with task := .adopting caller id }) := by
  obtain ⟨active, free, late⟩ := of_adoptable adoptable
  refine ok.update isSegment ?_ (.of_content rfl rfl)
    (fun content => ok.holds id segment content isSegment) ?_
  · intro other held
    rw [free] at held
    cases held
  · refine ⟨fun other version isOwn => ?_, noOwn,
      { segment with holder := some who }, Function.update_self .., rfl, active,
      fun record leaves isCaller => ?_⟩
    · change (world.stores who).own = _ at isOwn
      rw [noOwn] at isOwn
      cases isOwn
    · obtain ⟨loopOk, isMin⟩ := loop record leaves isCaller
      exact ⟨loopOk, fun content isContent => isMin ▸ late content isContent⟩

/-- A store owns the segment it locked. -/
theorem adopt
    (ok : world.Ok)
    (isTask : (world.stores who).task = .adopting caller id)
    (isSegment : world.segments id = some segment) :
    let store := world.stores who
    let content := World.headed store.segVersion segment.content
    world.Goes ((world.set id (some { segment with
      content := some content })).put who
      { store with
        own := some (id, content.version), task := World.resume caller }) := by
  have taskOk := (ok.stores who).task
  rw [isTask] at taskOk
  obtain ⟨noOwn, found, isFound, held, active, loop⟩ := taskOk
  rw [isSegment] at isFound
  obtain rfl := some.inj isFound
  refine ok.update isSegment (isWho_of_held held)
    ⟨rfl, fun content isContent => ?_⟩ (fun content isContent => ?_) ?_
  · rw [isContent]
    exact ⟨content.records, rfl⟩
  · cases isContent
    cases old : segment.content with
    | none => exact fun record absent => absurd absent List.not_mem_nil
    | some content => exact ok.holds id segment content isSegment old
  · refine ⟨fun other version isOwn => ?_, ?_⟩
    · obtain ⟨rfl, rfl⟩ := Prod.mk.inj (some.inj isOwn)
      exact ⟨_, _, Function.update_self .., held, active, rfl⟩
    · cases caller with
      | none => trivial
      | some pair =>
        obtain ⟨record, leaves⟩ := pair
        obtain ⟨⟨need, few, -⟩, late⟩ := loop record leaves rfl
        refine ⟨need, few, fun _ other version isOwn => ?_⟩
        obtain ⟨-, rfl⟩ := Prod.mk.inj (some.inj isOwn)
        cases old : segment.content with
        | none => exact need
        | some content => exact UInt8.le_trans need (late content old)

/-- A store lets go of a segment, sealed or not. -/
theorem letGo
    (ok : world.Ok)
    (isSegment : world.segments id = some segment)
    (held : segment.holder = some who) (isSealed : Bool)
    (taskOk : ∀ later : World ι,
      task.Ok later who ⟨(world.stores who).segVersion, none, task⟩) :
    world.Goes ((world.set id (some { segment with
      sealed := isSealed, holder := none })).put who
      ⟨(world.stores who).segVersion, none, task⟩) :=
  ok.update isSegment (isWho_of_held held) (.of_content rfl rfl)
    (fun content => ok.holds id segment content isSegment)
    ⟨fun _ _ isOwn => (by cases isOwn), taskOk _⟩

/-- A store writes a new segment's header. -/
theorem create
    (ok : world.Ok) (absent : world.segments id = none)
    {record : Rec}
    (isTask : (world.stores who).task = .appending record leaves) :
    let store := world.stores who
    world.Goes { (world.set id (some ⟨world.fresh, false,
        some ⟨store.segVersion, []⟩, some who⟩)).put who
        { store with
          own := some (id, store.segVersion)
          task := .appending record leaves } with
      fresh := world.fresh + 1 } := by
  have taskOk := (ok.stores who).task
  rw [isTask] at taskOk
  obtain ⟨need, few, -⟩ := taskOk
  refine ok.change ?_ (Nat.le_succ _) ?_ ?_
  · intro old isOld
    rw [absent] at isOld
    cases isOld
  · intro later isLater
    cases isLater
    refine ⟨Nat.lt_succ_self _, fun content isContent => ?_, .inl rfl⟩
    cases isContent
    exact fun record absent => absurd absent List.not_mem_nil
  · refine ⟨fun other version isOwn => ?_, need, few,
      fun _ other version isOwn => ?_⟩
    · obtain ⟨rfl, rfl⟩ := Prod.mk.inj (some.inj isOwn)
      exact ⟨_, [], Function.update_self .., rfl, rfl, rfl⟩
    · obtain ⟨-, rfl⟩ := Prod.mk.inj (some.inj isOwn)
      exact need

/-- A record goes to the end of the segment that the store owns. -/
theorem write
    (ok : world.Ok)
    (isOwn : (world.stores who).own = some (id, version))
    (isSegment : world.segments id = some segment)
    (isContent : segment.content = some content)
    {record : Rec} (fits : record.need ≤ version) :
    world.Goes ((world.set id (some ⟨segment.ident, segment.sealed,
      some { content with records := content.records ++ [record] },
      segment.holder⟩)).put who { world.stores who with task := .idle }) := by
  obtain ⟨found, records, isFound, held, active, hasContent⟩ :=
    (ok.stores who).own id version isOwn
  rw [isSegment] at isFound
  obtain rfl := some.inj isFound
  rw [isContent] at hasContent
  obtain rfl := some.inj hasContent
  refine ok.update isSegment (isWho_of_held held)
    ⟨rfl, fun content isOld => ?_⟩ (fun content isLater => ?_) ?_
  · rw [isContent] at isOld
    cases isOld
    exact ⟨_, rfl⟩
  · cases isLater
    intro old member
    rcases List.mem_append.1 member with before | added
    · exact ok.holds id segment _ isSegment isContent old before
    · rw [List.mem_singleton.1 added]
      exact fits
  · refine ⟨fun other later isLater => ?_, trivial⟩
    obtain ⟨rfl, rfl⟩ := Prod.mk.inj (some.inj (isOwn.symm.trans isLater))
    exact ⟨_, _, Function.update_self .., held, active, rfl⟩

/-- A sealed segment is removed, or a new file takes its place. -/
theorem rewrite
    (ok : world.Ok) {fresh : Nat}
    (isSegment : world.segments id = some segment)
    (isSealed : segment.sealed = true)
    (freshLe : world.fresh ≤ fresh)
    (newOk : ∀ later, new = some later → later.ident < fresh ∧
      (∀ content, later.content = some content → content.Ok) ∧
      later.ident = world.fresh) (who : ι) :
    world.Goes { world.set id new with fresh := fresh } := by
  have notActive : ∀ old, world.segments id = some old →
      old.sealed ≠ false := by
    intro old isOld
    rw [← some.inj (isSegment.symm.trans isOld), isSealed]
    exact Bool.noConfusion
  have changed : world.Goes ⟨Function.update world.segments id new, fresh,
      Function.update world.stores who (world.stores who)⟩ := by
    refine ok.change ?_ freshLe ?_ ?_
    · exact fun old isOld active => absurd active (notActive old isOld)
    · intro later isLater
      obtain ⟨old, holds, isNew⟩ := newOk later isLater
      exact ⟨old, holds, .inl isNew⟩
    · refine (ok.stores who).of_others fun at_ old isOld active _ => ?_
      have elsewhere : at_ ≠ id := by
        rintro rfl
        exact notActive old isOld active
      exact (Function.update_of_ne elsewhere _ _).trans isOld
  rw [Function.update_eq_self] at changed
  exact changed

/-- A killed store holds nothing. -/
theorem kill (ok : world.Ok) :
    world.Goes ((world.unlockAll who).put who
      { world.stores who with own := none, task := .idle }) := by
  have old : ∀ id later, (world.unlockAll who).segments id = some later →
      ∃ segment, world.segments id = some segment ∧
        later.ident = segment.ident ∧ later.content = segment.content := by
    intro id later isLater
    obtain ⟨segment, isSegment, rfl⟩ := map_eq_some_iff.1 isLater
    refine ⟨segment, isSegment, ?_⟩
    split
    · exact ⟨rfl, rfl⟩
    · exact ⟨rfl, rfl⟩
  refine ⟨⟨fun id later content isLater isContent => ?_,
    fun id later isLater => ?_, fun other => ?_⟩, le_rfl,
    fun id later isLater => ?_⟩
  · obtain ⟨segment, isSegment, -, same⟩ := old id later isLater
    exact ok.holds id segment content isSegment (same.symm.trans isContent)
  · obtain ⟨segment, isSegment, same, -⟩ := old id later isLater
    exact same ▸ ok.files id segment isSegment
  · dsimp only [World.put]
    by_cases same : other = who
    · rw [same, Function.update_self]
      exact ⟨fun id version isOwn => (by cases isOwn), trivial⟩
    · rw [Function.update_of_ne same]
      refine (ok.stores other).of_others fun id segment isSegment _ held => ?_
      have notMine : segment.holder ≠ some who := by
        rw [held]
        exact fun isWho => same (some.inj isWho)
      simp only [World.unlockAll, isSegment, map_some, if_neg notMine]
  · obtain ⟨segment, isSegment, ident, content⟩ := old id later isLater
    exact .inr ⟨segment, isSegment, .of_content ident content⟩

/-! ## Steps -/

theorem adoptStep
    (ok : world.Ok) (acted : world.adoptStep who action = some after) :
    world.Goes after := by
  have taskOk := (ok.stores who).task
  cases action <;> simp only [World.adoptStep, reduceCtorEq] at acted
  case lock id =>
    split at acted <;> try contradiction
    rename_i segment noOwn isSegment
    split at acted
    case h_1 record leaves isTask =>
      rw [isTask] at taskOk
      obtain ⟨adoptable, ⟨⟩⟩ := ite_none_right_eq_some.mp acted
      refine ok.lock isSegment noOwn adoptable ?_
      intro record' leaves' same
      cases same
      exact ⟨taskOk, rfl⟩
    case h_2 =>
      obtain ⟨adoptable, ⟨⟩⟩ := ite_none_right_eq_some.mp acted
      refine ok.lock isSegment noOwn adoptable ?_
      intro record leaves none
      cases none
    case h_3 => cases acted
  case adopt =>
    split at acted <;> try contradiction
    rename_i caller id isTask
    split at acted <;> cases acted
    exact ok.adopt isTask ‹_›
  case finishSeal =>
    split at acted <;> try contradiction
    rename_i caller id isTask
    split at acted <;> try contradiction
    rename_i segment isSegment
    obtain ⟨noOwn, found, isFound, held⟩ := ok.held_of_adopting isTask
    rw [isSegment] at isFound
    rw [← some.inj isFound] at held
    rw [noOwn] at acted
    cases acted
    exact ok.letGo isSegment held true (ok.loop_of_resume isTask)
  case create id =>
    split at acted <;> cases acted
    exact ok.create ‹_› ‹_›

theorem loopStep
    (ok : world.Ok) (acted : world.loopStep who action = some after) :
    world.Goes after := by
  cases action <;> simp only [World.loopStep, reduceCtorEq] at acted
  case found =>
    split at acted <;> try contradiction
    obtain ⟨-, ⟨⟩⟩ := ite_none_right_eq_some.mp acted
    exact ok.put ⟨(ok.stores who).own, trivial⟩
  case write =>
    split at acted <;> try contradiction
    rename_i id version record leaves isOwn isTask
    split at acted <;> try contradiction
    rename_i isSegment
    obtain ⟨fits, ⟨⟩⟩ := ite_none_right_eq_some.mp acted
    exact ok.write isOwn isSegment rfl fits.2
  case leave =>
    split at acted <;> try contradiction
    rename_i id version record leaves isOwn isTask
    split at acted <;> try contradiction
    rename_i segment isSegment
    obtain ⟨tooOld, ⟨⟩⟩ := ite_none_right_eq_some.mp acted
    obtain ⟨found, isFound, held⟩ := ok.held_of_own isOwn
    rw [isSegment] at isFound
    rw [← some.inj isFound] at held
    have taskOk := (ok.stores who).task
    rw [isTask] at taskOk
    obtain ⟨need, -, next⟩ := taskOk
    have first : leaves = 0 := by
      by_contra later
      exact absurd (next later id version isOwn) (UInt8.not_le.2 tooOld.2)
    refine ok.letGo isSegment held _ fun _ => ⟨need, ?_, ?_⟩
    · rw [first]
    · exact fun _ other version isOwn => (by cases isOwn)

theorem storeStep
    (ok : world.Ok) (acted : world.storeStep who action = some after) :
    world.Goes after := by
  cases action <;> unfold World.storeStep at acted <;> try contradiction
  all_goals dsimp only at acted
  case openStore flags =>
    obtain ⟨-, ⟨⟩⟩ := ite_none_right_eq_some.mp acted
    exact ok.put ⟨fun id version isOwn => (by cases isOwn), trivial⟩
  case append record =>
    obtain ⟨-, ⟨⟩⟩ := ite_none_right_eq_some.mp acted
    refine ok.put ⟨(ok.stores who).own, (le_max _ _).2, Nat.zero_le _, ?_⟩
    exact fun absurd => (absurd rfl).elim
  case fail =>
    -- A failed call gives an adopted segment back.
    split at acted
    case h_1 => cases acted
    case h_2 =>
      cases acted
      exact ok.put ⟨(ok.stores who).own, trivial⟩
    case h_3 caller id isTask =>
      obtain ⟨noOwn, segment, isSegment, held⟩ := ok.held_of_adopting isTask
      rw [isSegment, map_some, noOwn] at acted
      cases acted
      exact ok.letGo isSegment held segment.sealed fun _ => trivial
  case sealActive =>
    split at acted <;> try contradiction
    rename_i id version isOwn isTask
    obtain ⟨segment, isSegment, held⟩ := ok.held_of_own isOwn
    obtain ⟨-, acted⟩ := ite_none_left_eq_some.mp acted
    rw [isSegment, map_some, isTask] at acted
    cases acted
    exact ok.letGo isSegment held true fun _ => trivial
  case release =>
    split at acted <;> try contradiction
    rename_i id version isOwn isTask
    obtain ⟨segment, isSegment, held⟩ := ok.held_of_own isOwn
    rw [isSegment, map_some, isTask] at acted
    cases acted
    exact ok.letGo isSegment held segment.sealed fun _ => trivial
  case repair id record =>
    split at acted <;> cases acted
    rename_i content holder isTask isSegment
    refine ok.rewrite isSegment rfl (Nat.le_succ _) ?_ who
    intro later isLater
    cases isLater
    refine ⟨Nat.lt_succ_self _, fun content' isContent => ?_, rfl⟩
    cases isContent
    exact content_repaired (ok.holds id _ content isSegment rfl) record
  case remove id =>
    split at acted <;> cases acted
    exact ok.rewrite ‹_› rfl le_rfl
      (fun later isLater => (by cases isLater)) who
  case kill =>
    cases acted
    exact ok.kill

theorem step
    (ok : world.Ok) (acted : world.act who action = some after) :
    world.Goes after := by
  rcases or_eq_some_iff.1 acted with stepped | ⟨-, rest⟩
  · exact ok.adoptStep stepped
  · rcases or_eq_some_iff.1 rest with stepped | ⟨-, stepped⟩
    · exact ok.loopStep stepped
    · exact ok.storeStep stepped

end World.Ok

end Step

/-! ## Versions over a run -/

/-- How many segments the append that a store is at has left. -/
def Task.leaves : Task → Nat
  | .appending _ leaves => leaves
  | .adopting (some (_, leaves)) _ => leaves
  | _ => 0

section Runs

variable [DecidableEq ι]

/-- Some store takes a step. -/
def World.Step (world after : World ι) : Prop :=
  ∃ who action, world.act who action = some after

/-- The file that had an id keeps its header while it is there. -/
def World.Keeps (id ident : Nat) (version : UInt8) (world : World ι) : Prop :=
  world.Ok ∧ ident < world.fresh ∧
    ∀ segment, world.segments id = some segment → segment.ident = ident →
      ∃ records, segment.content = some ⟨version, records⟩

theorem World.Keeps.step
    {world : World ι} {id : Nat}
    (keeps : world.Keeps id ident version) (stepped : world.Step after) :
    after.Keeps id ident version := by
  obtain ⟨ok, old, kept⟩ := keeps
  obtain ⟨who, action, acted⟩ := stepped
  obtain ⟨afterOk, freshLe, follows⟩ := ok.step acted
  refine ⟨afterOk, Nat.lt_of_lt_of_le old freshLe,
    fun later isLater isIdent => ?_⟩
  rcases follows id later isLater with isNew | ⟨segment, isSegment, follows⟩
  · omega
  · obtain ⟨records, isContent⟩ :=
      kept segment isSegment (follows.1.symm.trans isIdent)
    exact follows.2 _ isContent

end Runs

end AmberStore.Packstore.Versions

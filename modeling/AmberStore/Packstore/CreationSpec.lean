import AmberStore.Packstore.Creation

/-!
# What a creation may touch

A creator holds its temporary name from the check that follows its lock to the
rename, so nobody else gets as far with the same id, and the names of the
active and the sealed segment stay free once they were seen free.  All of this
rests on the temporary name: it must not be taken from a creator.  Stores that
clear away or give up remove a temporary file by its name, after they made sure
whose it is but without a lock that would keep it so.
-/

open Function Option

namespace AmberStore.Packstore.Creation

variable {ι : Type}

/-! ## The invariant -/

/-- What holds of a store. -/
def Proc.Ok (disk : Disk ι) : Proc → Prop
  | .held id file => disk.names (.tmp id) = some file
  | .notActive id file =>
    disk.names (.tmp id) = some file ∧ disk.names (.active id) = none
  | .notSealed id file | .written id file =>
    disk.names (.tmp id) = some file ∧ disk.names (.active id) = none ∧
      disk.names (.sealed id) = none
  | .failing id file =>
    (disk.names (.tmp id) = some file ∧ disk.names (.active id) = none) ∨
      disk.names (.active id) = some file
  | .renamed id file | .adoptChecked id file | .owner id file =>
    disk.names (.active id) = some file
  | _ => True

/-- The file a store works on. -/
def Proc.file : Proc → Option Nat
  | .idle | .claiming _ => none
  | .staleOpened _ file | .staleLocked _ file | .staleChecked _ file
  | .created _ file | .locked _ file | .held _ file | .notActive _ file
  | .notSealed _ file | .written _ file | .renamed _ file | .failing _ file
  | .abandoning _ file _ | .dropped _ file _ | .adoptOpened _ file
  | .adoptLocked _ file | .adoptChecked _ file | .owner _ file
  | .closing file => some file

namespace World

/-- The invariant of the stores. -/
structure Ok (world : World ι) : Prop where
  /-- A lock is held by the store that is past taking it. -/
  locks : ∀ who file, world.disk.locks file = some who ↔
    (world.procs who).lock = some file
  named : ∀ name file, world.disk.names name = some file →
    file < world.disk.fresh
  old : ∀ who file, (world.procs who).file = some file → file < world.disk.fresh
  /-- Two creations made different files. -/
  made : ∀ who other file, (world.procs who).made = some file →
    (world.procs other).made = some file → who = other
  procs : ∀ who, (world.procs who).Ok world.disk

end World

/-! ## What a step leaves to the others -/

/-- What another store relies on: the names of a file it has locked, and, if
it made the file, that the final names of its id stay free. -/
structure Disk.Leaves (before after : Disk ι) (file : Nat) (isMade : Prop) :
    Prop where
  tmp : isMade → ∀ id, before.names (.tmp id) = some file →
    after.names (.tmp id) = some file
  active : ∀ id, before.names (.active id) = some file →
    after.names (.active id) = some file
  notActive : isMade → ∀ id, before.names (.tmp id) = some file →
    before.names (.active id) = none → after.names (.active id) = none
  notSealed : isMade → ∀ id, before.names (.tmp id) = some file →
    before.names (.active id) = none → before.names (.sealed id) = none →
    after.names (.sealed id) = none

variable {proc : Proc}

theorem Proc.Ok.of_leaves
    (ok : proc.Ok before)
    (leaves : ∀ file, proc.lock = some file →
      before.Leaves after file (proc.made = some file)) :
    proc.Ok after := by
  cases proc with
  | held id file =>
    exact (leaves file rfl).tmp rfl id ok
  | notActive id file =>
    exact ⟨(leaves file rfl).tmp rfl id ok.1,
      (leaves file rfl).notActive rfl id ok.1 ok.2⟩
  | notSealed id file | written id file =>
    obtain ⟨tmp, active, isFree⟩ := ok
    exact ⟨(leaves file rfl).tmp rfl id tmp,
      (leaves file rfl).notActive rfl id tmp active,
      (leaves file rfl).notSealed rfl id tmp active isFree⟩
  | failing id file =>
    obtain ⟨tmp, active⟩ | active := ok
    · exact .inl ⟨(leaves file rfl).tmp rfl id tmp,
        (leaves file rfl).notActive rfl id tmp active⟩
    · exact .inr ((leaves file rfl).active id active)
  | renamed id file | adoptChecked id file | owner id file =>
    exact (leaves file rfl).active id ok
  | _ => trivial

theorem Disk.Leaves.of_names
    {before : Disk ι} (same : after.names = before.names) (file : Nat)
    (isMade : Prop) :
    before.Leaves after file isMade := by
  constructor <;> simp only [same] <;> intros <;> assumption

@[grind =] theorem Disk.names_bind
    (disk : Disk ι) (target : Name) (file : Option Nat) (name : Name) :
    (disk.bind target file).names name =
      if name = target then file else disk.names name :=
  update_apply _ _ _ _

@[grind =] theorem Disk.names_createNew
    (disk : Disk ι) (target name : Name) :
    (disk.createNew target).names name =
      if name = target then some disk.fresh else disk.names name :=
  update_apply _ _ _ _

@[grind =] theorem Disk.names_rename
    (disk : Disk ι) (source target name : Name) :
    (disk.rename source target).names name =
      if name = source then none
      else if name = target then disk.names source
      else disk.names name := by
  simp [Disk.rename, Disk.names_bind]

section Leaves

variable {disk : Disk ι} {id own file : Nat} {isMade : Prop}

/-- A temporary name is removed that is not another creator's. -/
theorem Disk.Leaves.bind_tmp
    (notTheirs : isMade → disk.names (.tmp id) ≠ some file) :
    disk.Leaves (disk.bind (.tmp id) none) file isMade := by
  constructor <;> grind

/-- A file is created under a free temporary name. -/
theorem Disk.Leaves.createNew
    (isFree : disk.names (.tmp id) = none) :
    disk.Leaves (disk.createNew (.tmp id)) file isMade := by
  constructor <;> grind

/-- A creator gives its file the final name. -/
theorem Disk.Leaves.rename_tmp
    (isTmp : disk.names (.tmp id) = some own)
    (isFree : disk.names (.active id) = none)
    (notOwn : file ≠ own) :
    disk.Leaves (disk.rename (.tmp id) (.active id)) file isMade := by
  constructor <;> grind

/-- A creator removes the final name of its file. -/
theorem Disk.Leaves.bind_active
    (isOwn : disk.names (.active id) = none ∨
      disk.names (.active id) = some own)
    (notOwn : file ≠ own) :
    disk.Leaves (disk.bind (.active id) none) file isMade := by
  constructor <;> grind

/-- An owner gives its segment the sealed name. -/
theorem Disk.Leaves.rename_active
    (isActive : disk.names (.active id) = some own)
    (notOwn : file ≠ own) :
    disk.Leaves (disk.rename (.active id) (.sealed id)) file isMade := by
  constructor <;> grind

end Leaves

/-- A name is given to an old file, or to none. -/
theorem Disk.named_bind
    {disk : Disk ι}
    (named : ∀ name file, disk.names name = some file → file < bound)
    (isOld : ∀ one, file = some one → one < bound) (target name : Name)
    (one : Nat) (isNamed : (disk.bind target file).names name = some one) :
    one < bound := by
  by_cases isTarget : name = target
  · simp only [Disk.bind, isTarget, update_self] at isNamed
    exact isOld one isNamed
  · simp only [Disk.bind, update_of_ne isTarget] at isNamed
    exact named name one isNamed

theorem Disk.named_rename
    {disk : Disk ι}
    (named : ∀ name file, disk.names name = some file → file < bound)
    (source target name : Name) (one : Nat)
    (isNamed : (disk.rename source target).names name = some one) :
    one < bound := by
  refine Disk.named_bind ?_ (fun _ isNone => by cases isNone) source name one
    isNamed
  intro other file isOther
  exact Disk.named_bind named (named source) target other file isOther

namespace World.Ok

variable {world : World ι} {who : ι} {before proc : Proc}

section Rules

variable [DecidableEq ι]

theorem procs_put (one : ι) (after : Disk ι × Proc) :
    (world.put who after).procs one =
      if one = who then after.2 else world.procs one :=
  update_apply _ _ _ _

/-- The rule of steps: what one store did leaves to the others what they rely
on. -/
theorem put
    (ok : world.Ok) {disk : Disk ι}
    (own : ∀ file, disk.locks file = some who ↔ proc.lock = some file)
    (others : ∀ file other, other ≠ who →
      (disk.locks file = some other ↔ world.disk.locks file = some other))
    (later : world.disk.fresh ≤ disk.fresh)
    (named : ∀ name file, disk.names name = some file → file < disk.fresh)
    (old : ∀ file, proc.file = some file → file < disk.fresh)
    (made : ∀ other file, other ≠ who → proc.made = some file →
      (world.procs other).made ≠ some file)
    (leaves : ∀ other file, other ≠ who →
      (world.procs other).lock = some file →
      world.disk.Leaves disk file ((world.procs other).made = some file))
    (procOk : proc.Ok disk) :
    (world.put who (disk, proc)).Ok where
  locks one file := by
    rw [procs_put]
    split
    case isTrue isWho => exact isWho ▸ own file
    case isFalse isOther =>
      exact (others file one isOther).trans (ok.locks one file)
  named := named
  old one file isFile := by
    rw [procs_put] at isFile
    split at isFile
    · exact old file isFile
    · exact Nat.lt_of_lt_of_le (ok.old one file isFile) later
  made one other file isMade alsoMade := by
    rw [procs_put] at isMade alsoMade
    split at isMade <;> split at alsoMade
    case isTrue.isTrue isWho alsoWho => rw [isWho, alsoWho]
    case isTrue.isFalse _ isOther =>
      exact absurd alsoMade (made other file isOther isMade)
    case isFalse.isTrue isOther _ =>
      exact absurd isMade (made one file isOther alsoMade)
    case isFalse.isFalse => exact ok.made one other file isMade alsoMade
  procs one := by
    rw [procs_put]
    split
    case isTrue => exact procOk
    case isFalse isOther => exact (ok.procs one).of_leaves (leaves one · isOther)

end Rules

section At

variable (ok : world.Ok) (isAt : world.procs who = before)
include ok isAt

/-- A creation keeps the file it made, or has none. -/
theorem made_other
    (made : proc.made = none ∨ proc.made = before.made)
    (other : ι) (file : Nat) (isOther : other ≠ who)
    (isMade : proc.made = some file) :
    (world.procs other).made ≠ some file := by
  intro alsoMade
  obtain isNone | same := made
  · rw [isNone] at isMade
    cases isMade
  · rw [same, ← isAt] at isMade
    exact isOther (ok.made other who file alsoMade isMade)

theorem file_lt
    (same : proc.file = none ∨ proc.file = before.file)
    (file : Nat) (isFile : proc.file = some file) :
    file < world.disk.fresh := by
  obtain isNone | same := same
  · rw [isNone] at isFile
    cases isFile
  · rw [same, ← isAt] at isFile
    exact ok.old who file isFile

theorem lock_iff
    (lock : proc.lock = before.lock) (file : Nat) :
    world.disk.locks file = some who ↔ proc.lock = some file := by
  rw [lock, ← isAt]
  exact ok.locks who file

variable [DecidableEq ι]

/-- A step that changes at most the names of files. -/
theorem rebind
    (names : Name → Option Nat)
    (lock : proc.lock = before.lock)
    (made : proc.made = none ∨ proc.made = before.made)
    (file : proc.file = none ∨ proc.file = before.file)
    (named : ∀ name file, names name = some file → file < world.disk.fresh)
    (leaves : ∀ other file, other ≠ who →
      (world.procs other).lock = some file →
      world.disk.Leaves { world.disk with names := names } file
        ((world.procs other).made = some file))
    (procOk : proc.Ok { world.disk with names := names }) :
    (world.put who ({ world.disk with names := names }, proc)).Ok :=
  ok.put (ok.lock_iff isAt lock) (fun _ _ _ => Iff.rfl) (Nat.le_refl _)
    named (ok.file_lt isAt file) (ok.made_other isAt made) leaves procOk

/-- A step that changes nothing on disk. -/
theorem quiet
    (lock : proc.lock = before.lock)
    (made : proc.made = none ∨ proc.made = before.made)
    (file : proc.file = none ∨ proc.file = before.file)
    (procOk : proc.Ok world.disk) :
    (world.put who (world.disk, proc)).Ok :=
  ok.rebind isAt world.disk.names lock made file ok.named
    (fun _ _ _ _ => .of_names rfl _ _) procOk

/-- A store locks a file that nobody has locked. -/
theorem lock
    {file : Nat}
    (isFree : world.disk.locks file = none)
    (hadNone : before.lock = none) (hasLock : proc.lock = some file)
    (made : proc.made = none ∨ proc.made = before.made)
    (sameFile : proc.file = none ∨ proc.file = before.file)
    (procOk : proc.Ok (world.disk.lock file who)) :
    (world.put who (world.disk.lock file who, proc)).Ok := by
  refine ok.put ?_ ?_ (Nat.le_refl _) ok.named (ok.file_lt isAt sameFile)
    (ok.made_other isAt made) (fun _ _ _ _ =>
      Disk.Leaves.of_names (by rfl) _ _) procOk
  · intro one
    by_cases isFile : one = file
    · simp [Disk.lock, isFile, hasLock]
    · have notBefore := ok.locks who one
      rw [isAt, hadNone] at notBefore
      simp [Disk.lock, isFile, hasLock, notBefore, Ne.symm isFile]
  · intro one other isOther
    by_cases isFile : one = file
    · simp [Disk.lock, isFile, isFree, Ne.symm isOther]
    · simp [Disk.lock, isFile]

/-- A store lets go of the file it has locked. -/
theorem unlock
    (hadLock : before.lock = some file) (hasNone : proc.lock = none)
    (made : proc.made = none ∨ proc.made = before.made)
    (sameFile : proc.file = none ∨ proc.file = before.file)
    (procOk : proc.Ok (world.disk.unlock file)) :
    (world.put who (world.disk.unlock file, proc)).Ok := by
  have isHeld : world.disk.locks file = some who :=
    (ok.locks who file).mpr (isAt ▸ hadLock)
  refine ok.put ?_ ?_ (Nat.le_refl _) ok.named (ok.file_lt isAt sameFile)
    (ok.made_other isAt made) (fun _ _ _ _ =>
      Disk.Leaves.of_names (by rfl) _ _) procOk
  · intro one
    by_cases isFile : one = file
    · simp [Disk.unlock, isFile, hasNone]
    · have notBefore := ok.locks who one
      rw [isAt, hadLock] at notBefore
      simp [Disk.unlock, isFile, hasNone, notBefore, Ne.symm isFile]
  · intro one other isOther
    by_cases isFile : one = file
    · simp [Disk.unlock, isFile, isHeld, Ne.symm isOther]
    · simp [Disk.unlock, isFile]

end At

/-- No other store has a locked file locked. -/
theorem lock_unique
    (ok : world.Ok)
    (oneHas : (world.procs one).lock = some file)
    (otherHas : (world.procs other).lock = some file) :
    one = other := by
  have first := (ok.locks one file).mpr oneHas
  rw [(ok.locks other file).mpr otherHas] at first
  exact (some.inj first).symm

theorem ne_of_lock
    (ok : world.Ok)
    (isOwn : (world.procs who).lock = some own) (other : ι)
    (isOther : other ≠ who)
    (isTheirs : (world.procs other).lock = some file) :
    file ≠ own := by
  rintro rfl
  exact isOther (ok.lock_unique isTheirs isOwn)

end World.Ok

theorem World.IsInitial.ok
    {world : World ι} (isInitial : world.IsInitial) : world.Ok where
  locks who file := by
    simp [isInitial.unlocked, isInitial.idle, Proc.lock]
  named := isInitial.fresh
  old who file isFile := by
    rw [isInitial.idle] at isFile
    cases isFile
  made who other file isMade := by
    rw [isInitial.idle] at isMade
    cases isMade
  procs who := by
    rw [isInitial.idle]
    trivial

/-! ## Steps -/

variable [DecidableEq ι]

/-- The condition on a step: a temporary name that a store removes is the one
of the file it made or locked, or nobody's. -/
def World.cleansOwn (world : World ι) (who : ι) : Move → Bool
  | .next =>
    match world.procs who with
    | .staleChecked id file | .dropped id file _ =>
      world.disk.names (.tmp id) = none ||
        world.disk.names (.tmp id) = some file
    | _ => true
  | _ => true

namespace World.Ok

variable {world : World ι} {who : ι} {after : Disk ι × Proc}

/-- Creating a file under a free temporary name. -/
theorem claim
    (ok : world.Ok) {id : Nat} (isAt : world.procs who = .claiming id)
    (isFree : world.disk.names (.tmp id) = none) :
    (world.put who
      (world.disk.createNew (.tmp id), .created id world.disk.fresh)).Ok := by
  refine ok.put (ok.lock_iff isAt rfl) (fun _ _ _ => Iff.rfl) (Nat.le_succ _)
    ?_ ?_ ?_ (fun _ _ _ _ => .createNew isFree) trivial
  · refine Disk.named_bind ?_ ?_ _
    · intro name file isNamed
      exact Nat.lt_succ_of_lt (ok.named name file isNamed)
    · intro one isFresh
      cases isFresh
      exact Nat.lt_succ_self _
  · intro file isFresh
    cases isFresh
    exact Nat.lt_succ_self _
  · intro other file isOther isFresh isMade
    rw [← some.inj isFresh] at isMade
    -- Whoever made a file works on it, and the new one is newer.
    have isFile : (world.procs other).file = some world.disk.fresh := by
      cases isOther : world.procs other <;> simp_all [Proc.made, Proc.file]
    exact Nat.lt_irrefl _ (ok.old other _ isFile)

/-- Removing a temporary name of one's own. -/
theorem removeTmp
    (ok : world.Ok) {id : Nat}
    (isAt : world.procs who = before)
    (isOwn : before.lock = some file ∨ before.made = some file)
    (cleans : world.disk.names (.tmp id) = none ∨
      world.disk.names (.tmp id) = some file)
    (lock : proc.lock = before.lock) (made : proc.made = none)
    (sameFile : proc.file = none ∨ proc.file = before.file)
    (procOk : proc.Ok (world.disk.bind (.tmp id) none)) :
    (world.put who (world.disk.bind (.tmp id) none, proc)).Ok := by
  refine ok.rebind isAt _ lock (.inl made) sameFile
    (Disk.named_bind ok.named (fun _ isNone => by cases isNone) _) ?_ procOk
  intro other theirs isOther isLocked
  refine Disk.Leaves.bind_tmp ?_
  intro isMade isTmp
  obtain isNone | isFile := cleans
  · rw [isNone] at isTmp
    cases isTmp
  · obtain rfl : file = theirs := some.inj (isFile.symm.trans isTmp)
    subst isAt
    obtain isLock | isMine := isOwn
    · exact isOther (ok.lock_unique isLocked isLock)
    · exact isOther (ok.made other who file isMade isMine)

/-- An operation with two outcomes. -/
theorem of_ite
    [Decidable condition]
    (acted : (if condition then some one else some other) = some after)
    (isTrue : condition → (world.put who one).Ok)
    (isFalse : ¬condition → (world.put who other).Ok) :
    (world.put who after).Ok := by
  split at acted
  case isTrue holds => exact some.inj acted ▸ isTrue holds
  case isFalse fails => exact some.inj acted ▸ isFalse fails

theorem next
    (ok : world.Ok) (isAt : world.procs who = proc)
    (acted : proc.next world.disk who = some after)
    (condition : world.cleansOwn who .next = true) :
    (world.put who after).Ok := by
  have procOk : proc.Ok world.disk := isAt ▸ ok.procs who
  cases proc with
  | idle | owner => cases acted
  | staleOpened id file | adoptOpened id file =>
    exact of_ite acted
      (fun isFree => ok.lock isAt isFree rfl rfl (.inl rfl) (.inr rfl)
        trivial)
      fun _ => ok.quiet isAt rfl (.inl rfl) (.inl rfl) trivial
  | staleLocked id file =>
    exact of_ite acted
      (fun _ => ok.quiet isAt rfl (.inl rfl) (.inr rfl) trivial)
      fun _ => ok.quiet isAt rfl (.inl rfl) (.inr rfl) trivial
  | staleChecked id file =>
    simp only [World.cleansOwn, isAt, Bool.or_eq_true,
      decide_eq_true_eq] at condition
    cases acted
    exact ok.removeTmp isAt (.inl rfl) condition rfl rfl (.inr rfl) trivial
  | claiming id =>
    exact of_ite acted (ok.claim isAt)
      fun _ => ok.quiet isAt rfl (.inl rfl) (.inl rfl) trivial
  | created id file =>
    exact of_ite acted
      (fun isFree => ok.lock isAt isFree rfl rfl (.inr rfl) (.inr rfl)
        trivial)
      fun _ => ok.quiet isAt rfl (.inl rfl) (.inl rfl) trivial
  | locked id file =>
    exact of_ite acted
      (fun isFile => ok.quiet isAt rfl (.inr rfl) (.inr rfl) isFile)
      fun _ => ok.unlock isAt rfl rfl (.inl rfl) (.inl rfl) trivial
  | held id file =>
    exact of_ite acted
      (fun _ => ok.quiet isAt rfl (.inr rfl) (.inr rfl) trivial)
      fun isFree => ok.quiet isAt rfl (.inr rfl) (.inr rfl)
        ⟨procOk, by simpa using isFree⟩
  | notActive id file =>
    exact of_ite acted
      (fun _ => ok.quiet isAt rfl (.inr rfl) (.inr rfl) trivial)
      fun isFree => ok.quiet isAt rfl (.inr rfl) (.inr rfl)
        ⟨procOk.1, procOk.2, by simpa using isFree⟩
  | notSealed id file =>
    cases acted
    exact ok.quiet isAt rfl (.inr rfl) (.inr rfl) procOk
  | written id file =>
    obtain ⟨isTmp, isFree, _⟩ := procOk
    simp only [Proc.next, isTmp, isSome_some, if_true] at acted
    cases acted
    refine ok.rebind isAt _ rfl (.inr rfl) (.inr rfl)
      (Disk.named_rename ok.named _ _) ?_ ?_
    · intro other theirs isOther isLocked
      exact Disk.Leaves.rename_tmp isTmp isFree
        (ok.ne_of_lock (by rw [isAt]; rfl) other isOther isLocked)
    · simp [Proc.Ok, Disk.names_bind, isTmp]
  | renamed id file | adoptChecked id file =>
    cases acted
    exact ok.quiet isAt rfl (.inl rfl) (.inr rfl) procOk
  | failing id file =>
    cases acted
    refine ok.rebind isAt _ rfl (.inr rfl) (.inr rfl)
      (Disk.named_bind ok.named (fun _ isNone => by cases isNone) _) ?_
      trivial
    intro other theirs isOther isLocked
    exact Disk.Leaves.bind_active (procOk.imp_left And.right)
      (ok.ne_of_lock (by rw [isAt]; rfl) other isOther isLocked)
  | abandoning id file goOn =>
    cases acted
    exact ok.unlock isAt rfl rfl (.inr rfl) (.inr rfl) trivial
  | dropped id file goOn =>
    simp only [World.cleansOwn, isAt, Bool.or_eq_true,
      decide_eq_true_eq] at condition
    cases acted
    cases goOn <;>
      exact ok.removeTmp isAt (.inr rfl) condition rfl rfl (.inl rfl) trivial
  | adoptLocked id file =>
    exact of_ite acted
      (fun isFile => ok.quiet isAt rfl (.inl rfl) (.inr rfl) isFile)
      fun _ => ok.quiet isAt rfl (.inl rfl) (.inr rfl) trivial
  | closing file =>
    cases acted
    exact ok.unlock isAt rfl rfl (.inl rfl) (.inl rfl) trivial

theorem fail
    (ok : world.Ok) (isAt : world.procs who = proc)
    (acted : proc.fail world.disk = some after) :
    (world.put who after).Ok := by
  have procOk : proc.Ok world.disk := isAt ▸ ok.procs who
  cases proc <;> cases acted
  case staleOpened | adoptOpened | claiming | created =>
    exact ok.quiet isAt rfl (.inl rfl) (.inl rfl) trivial
  case staleLocked | staleChecked | adoptLocked | adoptChecked =>
    exact ok.quiet isAt rfl (.inl rfl) (.inr rfl) trivial
  case locked => exact ok.unlock isAt rfl rfl (.inl rfl) (.inl rfl) trivial
  case held | notActive | failing =>
    exact ok.quiet isAt rfl (.inr rfl) (.inr rfl) trivial
  case notSealed | written =>
    exact ok.quiet isAt rfl (.inr rfl) (.inr rfl) (.inl ⟨procOk.1, procOk.2.1⟩)
  case renamed =>
    exact ok.quiet isAt rfl (.inr rfl) (.inr rfl) (.inr procOk)
  case dropped id file goOn =>
    cases goOn <;> exact ok.quiet isAt rfl (.inl rfl) (.inl rfl) trivial

/-- The holder of an active segment gives it the sealed name. -/
theorem renameActive
    (ok : world.Ok) {id : Nat}
    (isAt : world.procs who = before) (hasLock : before.lock = some file)
    (sameFile : before.file = some file)
    (isActive : world.disk.names (.active id) = some file) :
    (world.put who
      (world.disk.rename (.active id) (.sealed id), .closing file)).Ok := by
  refine ok.rebind isAt _ hasLock.symm (.inl rfl) (.inr sameFile.symm)
    (Disk.named_rename ok.named _ _) ?_ trivial
  intro other theirs isOther isLocked
  exact Disk.Leaves.rename_active isActive
    (ok.ne_of_lock (isAt ▸ hasLock) other isOther isLocked)

theorem sealSegment
    (ok : world.Ok) (isAt : world.procs who = proc)
    (acted : proc.sealSegment world.disk = some after) :
    (world.put who after).Ok := by
  have procOk : proc.Ok world.disk := isAt ▸ ok.procs who
  cases proc with
  | owner id file | adoptChecked id file =>
    have isActive : world.disk.names (.active id) = some file := procOk
    simp only [Proc.sealSegment, isActive, isSome_some, if_true] at acted
    cases acted
    exact ok.renameActive isAt rfl rfl isActive
  | _ => cases acted

/-- Opening a file under a name that is listed. -/
theorem opened
    (ok : world.Ok) (isIdle : world.procs who = .idle)
    (isNamed : world.disk.names name = some file)
    (lock : proc.lock = none) (made : proc.made = none)
    (isFile : proc.file = some file) (procOk : proc.Ok world.disk) :
    (world.put who (world.disk, proc)).Ok := by
  refine ok.put (ok.lock_iff isIdle lock) (fun _ _ _ => Iff.rfl)
    (Nat.le_refl _) ok.named ?_ (ok.made_other isIdle (.inl made))
    (fun _ _ _ _ => .of_names rfl _ _) procOk
  intro one isOne
  rw [isFile] at isOne
  exact some.inj isOne ▸ ok.named name file isNamed

/-- Every step that meets the condition keeps the invariant. -/
theorem step
    (ok : world.Ok) {next : World ι}
    (acted : world.act who move = some next)
    (condition : world.cleansOwn who move = true) :
    next.Ok := by
  obtain ⟨after, isAfter, rfl⟩ := map_eq_some_iff.mp acted
  cases move with
  | next => exact ok.next rfl isAfter condition
  | fail => exact ok.fail rfl isAfter
  | sealActive => exact ok.sealSegment rfl isAfter
  | removeStale id | adopt id =>
    simp only [Proc.act] at isAfter
    split at isAfter <;> cases isAfter
    rename_i file isIdle isNamed
    exact ok.opened isIdle isNamed rfl rfl rfl trivial
  | create id =>
    simp only [Proc.act] at isAfter
    split at isAfter <;> cases isAfter
    rename_i isIdle
    exact ok.quiet isIdle rfl (.inl rfl) (.inl rfl) trivial
  | release =>
    simp only [Proc.act] at isAfter
    split at isAfter <;> cases isAfter
    rename_i file isOwner
    exact ok.quiet isOwner rfl (.inl rfl) (.inr rfl) trivial
  | crash =>
    simp only [Proc.act] at isAfter
    split at isAfter <;> cases isAfter
    · rename_i file hasLock
      exact ok.unlock rfl hasLock rfl (.inl rfl) (.inl rfl) trivial
    · rename_i hasNone
      exact ok.quiet rfl hasNone.symm (.inl rfl) (.inl rfl) trivial

omit [DecidableEq ι] in
/-- A successful operation of a creation takes no segment's name away from a
file that it did not make. -/
theorem next_keeps
    (ok : world.Ok) (isAt : world.procs who = proc)
    (isCreating : proc.isCreating = true)
    (acted : proc.next world.disk who = some after)
    (isSegment : name.isSegment = true)
    (isNamed : world.disk.names name = some file) :
    after.1.names name = some file ∨ proc.made = some file := by
  have procOk : proc.Ok world.disk := isAt ▸ ok.procs who
  have notTmp : ∀ id, name ≠ .tmp id := by
    rintro id rfl
    cases isSegment
  cases proc with
  | claiming id =>
    simp only [Proc.next] at acted
    split at acted <;> cases acted <;> left
    · simpa [Disk.names_createNew, notTmp] using isNamed
    · exact isNamed
  | written id own =>
    obtain ⟨isTmp, isFree, _⟩ := procOk
    simp only [Proc.next, isTmp, isSome_some, if_true] at acted
    cases acted
    have notActive : name ≠ .active id := by
      rintro rfl
      rw [isFree] at isNamed
      cases isNamed
    left
    simpa [Disk.names_rename, notTmp, notActive] using isNamed
  | failing id own =>
    cases acted
    by_cases isActive : name = .active id
    · subst isActive
      obtain ⟨_, isFree⟩ | isOwn := procOk
      · rw [isFree] at isNamed
        cases isNamed
      · exact .inr (isOwn.symm.trans isNamed)
    · left
      simpa [Disk.names_bind, isActive] using isNamed
  | dropped id own goOn =>
    cases acted
    left
    simpa [Disk.names_bind, notTmp] using isNamed
  | created | locked | held | notActive =>
    simp only [Proc.next] at acted
    split at acted <;> cases acted <;> exact .inl isNamed
  | notSealed | renamed | abandoning =>
    cases acted
    exact .inl isNamed
  | _ => cases isCreating

end World.Ok

omit [DecidableEq ι] in
theorem Proc.names_of_fail
    (acted : proc.fail disk = some after) :
    after.1.names = disk.names := by
  cases proc <;> simp only [Proc.fail, reduceCtorEq, some.injEq] at acted
    <;> exact acted ▸ rfl

namespace World

theorem Ok.act_keeps
    {world next : World ι} (ok : world.Ok)
    (isCreating : (world.procs who).isCreating = true)
    (acted : world.act who move = some next)
    (isSegment : name.isSegment = true)
    (isNamed : world.disk.names name = some file) :
    next.disk.names name = some file ∨ (world.procs who).made = some file := by
  obtain ⟨after, isAfter, rfl⟩ := map_eq_some_iff.mp acted
  cases move with
  | next => exact ok.next_keeps rfl isCreating isAfter isSegment isNamed
  | fail =>
    left
    simpa only [World.put, Proc.names_of_fail isAfter] using isNamed
  | crash =>
    simp only [Proc.act] at isAfter
    split at isAfter <;> rw [← some.inj isAfter] <;> exact .inl isNamed
  | _ =>
    cases isAt : world.procs who <;> simp [isAt, Proc.isCreating] at isCreating
      <;> simp [isAt, Proc.act, Proc.sealSegment] at isAfter

/-- A step of any store. -/
def Step (world after : World ι) : Prop :=
  ∃ who move, world.act who move = some after

/-- A step that meets the condition. -/
def CleanStep (world after : World ι) : Prop :=
  ∃ who move, world.act who move = some after ∧ world.cleansOwn who move = true

/-- If every temporary name that a store removes is the one of its own file or
nobody's, then every owner's file is the one at its path, no two stores own one
segment, and a step of a creation takes no segment's name away from a file that
the creation did not make. -/
theorem creation_safe
    {world : World ι}
    (reached : Runs.Reachable World.IsInitial World.CleanStep world) :
    (∀ who id file, world.procs who = .owner id file →
      world.disk.names (.active id) = some file) ∧
    (∀ one other id file otherFile, world.procs one = .owner id file →
      world.procs other = .owner id otherFile → one = other) ∧
    ∀ who move after, world.act who move = some after →
      (world.procs who).isCreating = true →
      ∀ name file, name.isSegment = true →
        world.disk.names name = some file →
        after.disk.names name = some file ∨
          (world.procs who).made = some file := by
  have ok : world.Ok := by
    refine reached.invariant (fun _ isInitial => isInitial.ok) ?_
    rintro state after ok ⟨who, move, acted, condition⟩
    exact ok.step acted condition
  have isAtPath : ∀ who id file, world.procs who = .owner id file →
      world.disk.names (.active id) = some file := by
    intro who id file isOwner
    have procOk := ok.procs who
    rwa [isOwner] at procOk
  refine ⟨isAtPath, ?_, ?_⟩
  · intro one other id file otherFile isOwner alsoOwner
    have same := isAtPath one id file isOwner
    rw [isAtPath other id otherFile alsoOwner] at same
    obtain rfl := some.inj same
    exact ok.lock_unique (by rw [isOwner]; rfl) (by rw [alsoOwner]; rfl)
  · intro who move after acted isCreating name file isSegment isNamed
    exact ok.act_keeps isCreating acted isSegment isNamed

/-! ## Two runs -/

/-- Steps one after another that all meet the condition. -/
def runClean (world : World ι) (moves : List (ι × Move)) :
    Option (World ι) :=
  moves.foldlM
    (fun world move =>
      if world.cleansOwn move.1 move.2 then world.act move.1 move.2 else none)
    world

/-- Three stores over an empty directory. -/
def emptyDirectory : World (Fin 3) where
  disk := ⟨fun _ => none, fun _ => none, 0⟩
  procs _ := .idle

theorem isInitial_emptyDirectory : emptyDirectory.IsInitial where
  fresh _ _ isNamed := by cases isNamed
  unlocked _ := rfl
  idle _ := rfl

/-- Several operations of a store that succeed. -/
def succeed (who : Fin 3) (count : Nat) : List (Fin 3 × Move) :=
  List.replicate count (who, .next)

/-- Store 0 dies at a creation, and store 1 clears its temporary file away.
Then both create: store 1 finds the id of store 0 taken, removes the file it
made for it, and goes on with the next id. -/
theorem creation_safe_twoStores :
    ∃ world : World (Fin 3),
      Runs.Reachable World.IsInitial World.CleanStep world ∧
      world.procs 0 = .owner 1 1 ∧ world.disk.names (.active 1) = some 1 ∧
      world.procs 1 = .owner 2 3 ∧ world.disk.names (.active 2) = some 3 := by
  have evaluated :
      (emptyDirectory.runClean
        ((0, .create 1) :: succeed 0 2 ++ [(0, .crash)] ++
          (1, .removeStale 1) :: succeed 1 4 ++
          (0, .create 1) :: succeed 0 8 ++
          (1, .create 1) :: succeed 1 14)).map
        (fun world => (world.procs 0, world.procs 1)) =
      some (.owner 1 1, .owner 2 3) := by
    decide
  obtain ⟨world, ran, areOwners⟩ := map_eq_some_iff.mp evaluated
  obtain ⟨isOwner, alsoOwner⟩ := Prod.mk.inj areOwners
  have reached : Runs.Reachable World.IsInitial World.CleanStep world := by
    refine .foldlM ?_ (.start isInitial_emptyDirectory) ran
    intro state move after stepped
    simp only [ite_none_right_eq_some] at stepped
    exact ⟨move.1, move.2, stepped.2, stepped.1⟩
  have isAtPath := (creation_safe reached).1
  exact ⟨world, reached, isOwner, isAtPath 0 1 1 isOwner, alsoOwner,
    isAtPath 1 2 3 alsoOwner⟩

/-- Store 0 fails to sync the directory and removes the segment it renamed.
Store 1 claims the same id, and loses its temporary file to the clean-up of
store 0.  So store 2 can claim the id, and owns it, when the rename of store 1
fails and store 1 removes the segment at the final name. -/
theorem exists_creation_unlinks :
    ∃ world after : World (Fin 3),
      Runs.Reachable World.IsInitial World.Step world ∧
      world.act 1 .next = some after ∧
      (world.procs 1).isCreating = true ∧
      (world.procs 1).made ≠ some 2 ∧
      world.disk.names (.active 1) = some 2 ∧
      world.procs 2 = .owner 1 2 ∧
      after.procs 2 = .owner 1 2 ∧
      after.disk.names (.active 1) = none := by
  have evaluated :
      (emptyDirectory.run
        ((0, .create 1) :: succeed 0 7 ++ [(0, .fail)] ++ succeed 0 2 ++
          (1, .create 1) :: succeed 1 5 ++ succeed 0 1 ++
          (2, .create 1) :: succeed 2 8 ++ succeed 1 2)).bind
        (fun world => (world.act 1 .next).map fun after =>
          ((world.procs 1, world.disk.names (.active 1), world.procs 2),
            after.procs 2, after.disk.names (.active 1))) =
        some ((.failing 1 1, some 2, .owner 1 2), .owner 1 2, none) := by
    decide
  obtain ⟨world, ran, stepped⟩ := bind_eq_some_iff.mp evaluated
  obtain ⟨after, acted, facts⟩ := map_eq_some_iff.mp stepped
  simp only [Prod.mk.injEq] at facts
  obtain ⟨⟨isFailing, isNamed, isOwner⟩, staysOwner, isGone⟩ := facts
  have reached : Runs.Reachable World.IsInitial World.Step world :=
    .foldlM (fun _ move _ stepped => ⟨move.1, move.2, stepped⟩)
      (.start isInitial_emptyDirectory) ran
  refine ⟨world, after, reached, acted, ?_, ?_, isNamed, isOwner, staysOwner,
    isGone⟩
  · rw [isFailing]
    rfl
  · rw [isFailing]
    decide

end World

end AmberStore.Packstore.Creation

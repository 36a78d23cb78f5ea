import AmberStore.Lib.Runs
import Mathlib.Algebra.Group.Nat.Defs
import Mathlib.Logic.Function.Basic

/-!
# Creating and adopting active segments

A store creates an active segment under a temporary name, which it claims by
an exclusive create.  It locks the file, checks that the name still is that
file's, looks whether the id is taken, writes the header, and renames the file
to the name other stores look for.  A creation that fails removes what it made.
Stores clear away temporary files that nobody has locked, and take over active
segments that nobody has locked.

A file is its inode.  Every step is one file operation, which may fail, and a
store may stop at any point, which lets go of its lock.
-/

open Function

namespace AmberStore.Packstore.Creation

/-- The names of a segment. -/
inductive Name
  /-- The name of a creation in progress. -/
  | tmp (id : Nat)
  | active (id : Nat)
  | sealed (id : Nat)
  deriving DecidableEq

/-- Whether a name is one that other stores look for. -/
def Name.isSegment : Name → Bool
  | .tmp _ => false
  | .active _ | .sealed _ => true

/-- The id after another one. -/
def nextId (id : Nat) : Nat :=
  (id + 1) % 2 ^ 64

/-- The directory and the locks on its files. -/
structure Disk (ι : Type) where
  names : Name → Option Nat
  locks : Nat → Option ι
  /-- No file has this number or a larger one. -/
  fresh : Nat

variable {ι : Type}

namespace Disk

/-- Give a name to a file, or to none. -/
def bind (disk : Disk ι) (name : Name) (file : Option Nat) : Disk ι :=
  { disk with names := update disk.names name file }

/-- Lock a file that nobody has locked. -/
def lock (disk : Disk ι) (file : Nat) (who : ι) : Disk ι :=
  { disk with locks := update disk.locks file (some who) }

/-- Let go of a file. -/
def unlock (disk : Disk ι) (file : Nat) : Disk ι :=
  { disk with locks := update disk.locks file none }

/-- Create a file under a name. -/
def createNew (disk : Disk ι) (name : Name) : Disk ι :=
  { disk.bind name (some disk.fresh) with fresh := disk.fresh + 1 }

/-- Give a file another name, whatever that name stood for. -/
def rename (disk : Disk ι) (source target : Name) : Disk ι :=
  (disk.bind target (disk.names source)).bind source none

end Disk

/-- Where a store is. -/
inductive Proc
  | idle
  /-- Clearing away: it opened a temporary file. -/
  | staleOpened (id file : Nat)
  /-- Clearing away: it locked the file. -/
  | staleLocked (id file : Nat)
  /-- Clearing away: the name was the file's. -/
  | staleChecked (id file : Nat)
  /-- Creating: it is about to claim an id. -/
  | claiming (id : Nat)
  /-- Creating: the file exists under its temporary name. -/
  | created (id file : Nat)
  /-- Creating: it locked the file. -/
  | locked (id file : Nat)
  /-- Creating: the name was the file's. -/
  | held (id file : Nat)
  /-- Creating: no active segment had the id. -/
  | notActive (id file : Nat)
  /-- Creating: no sealed segment had the id either. -/
  | notSealed (id file : Nat)
  /-- Creating: the header is written and synced. -/
  | written (id file : Nat)
  /-- Creating: the file has its final name. -/
  | renamed (id file : Nat)
  /-- Creating: the header, the rename or the sync failed. -/
  | failing (id file : Nat)
  /-- Giving up a creation, to go on with the next id or to fail. -/
  | abandoning (id file : Nat) (goOn : Bool)
  /-- Giving up a creation: the file is closed. -/
  | dropped (id file : Nat) (goOn : Bool)
  /-- Adopting: it opened an active segment. -/
  | adoptOpened (id file : Nat)
  /-- Adopting: it locked the file. -/
  | adoptLocked (id file : Nat)
  /-- Adopting: the name was the file's. -/
  | adoptChecked (id file : Nat)
  | owner (id file : Nat)
  | closing (file : Nat)
  deriving DecidableEq

namespace Proc

/-- The file a store has locked. -/
def lock : Proc → Option Nat
  | staleLocked _ file | staleChecked _ file | locked _ file | held _ file
  | notActive _ file | notSealed _ file | written _ file | renamed _ file
  | failing _ file | abandoning _ file _ | adoptLocked _ file
  | adoptChecked _ file | owner _ file | closing file => some file
  | _ => none

/-- The file that the creation a store is at made. -/
def made : Proc → Option Nat
  | created _ file | locked _ file | held _ file | notActive _ file
  | notSealed _ file | written _ file | renamed _ file | failing _ file
  | abandoning _ file _ | dropped _ file _ => some file
  | _ => none

/-- Whether a store is creating a segment. -/
def isCreating : Proc → Bool
  | claiming _ | created _ _ | locked _ _ | held _ _ | notActive _ _
  | notSealed _ _ | written _ _ | renamed _ _ | failing _ _
  | abandoning _ _ _ | dropped _ _ _ => true
  | _ => false

/-- A creation goes on with the next id, or has failed. -/
def afterAbandon (id : Nat) : Bool → Proc
  | true => .claiming (nextId id)
  | false => .idle

end Proc

/-- What a store does next. -/
inductive Move
  /-- Take up a temporary file of a listing. -/
  | removeStale (id : Nat)
  | create (id : Nat)
  /-- Take up an active segment of a listing. -/
  | adopt (id : Nat)
  | next
  | fail
  | sealActive
  | release
  | crash
  deriving DecidableEq

variable [DecidableEq ι]

namespace Proc

/-- The next operation of a store, when it succeeds. -/
def next (disk : Disk ι) (who : ι) : Proc → Option (Disk ι × Proc)
  | staleOpened id file =>
    if disk.locks file = none then
      some (disk.lock file who, .staleLocked id file)
    else some (disk, .idle)
  | staleLocked id file =>
    if disk.names (.tmp id) = some file then
      some (disk, .staleChecked id file)
    else some (disk, .closing file)
  | staleChecked id file => some (disk.bind (.tmp id) none, .closing file)
  | claiming id =>
    if disk.names (.tmp id) = none then
      some (disk.createNew (.tmp id), .created id disk.fresh)
    else some (disk, .claiming (nextId id))
  | created id file =>
    if disk.locks file = none then
      some (disk.lock file who, .locked id file)
    else some (disk, .claiming (nextId id))
  | locked id file =>
    if disk.names (.tmp id) = some file then some (disk, .held id file)
    else some (disk.unlock file, .claiming (nextId id))
  | held id file =>
    if (disk.names (.active id)).isSome then
      some (disk, .abandoning id file true)
    else some (disk, .notActive id file)
  | notActive id file =>
    if (disk.names (.sealed id)).isSome then
      some (disk, .abandoning id file true)
    else some (disk, .notSealed id file)
  | notSealed id file => some (disk, .written id file)
  | written id file =>
    if (disk.names (.tmp id)).isSome then
      some (disk.rename (.tmp id) (.active id), .renamed id file)
    else some (disk, .failing id file)
  | renamed id file => some (disk, .owner id file)
  | failing id file =>
    some (disk.bind (.active id) none, .abandoning id file false)
  | abandoning id file goOn =>
    some (disk.unlock file, .dropped id file goOn)
  | dropped id _ goOn => some (disk.bind (.tmp id) none, afterAbandon id goOn)
  | adoptOpened id file =>
    if disk.locks file = none then
      some (disk.lock file who, .adoptLocked id file)
    else some (disk, .idle)
  | adoptLocked id file =>
    if disk.names (.active id) = some file then
      some (disk, .adoptChecked id file)
    else some (disk, .closing file)
  | adoptChecked id file => some (disk, .owner id file)
  | closing file => some (disk.unlock file, .idle)
  | idle | owner _ _ => none

/-- The next operation of a store, when it fails.  A file whose identity cannot
be read is not taken for the one at the name, and a name that cannot be removed
stays. -/
def fail (disk : Disk ι) : Proc → Option (Disk ι × Proc)
  | staleOpened _ _ | adoptOpened _ _ | claiming _ | created _ _ =>
    some (disk, .idle)
  | staleLocked _ file | staleChecked _ file | adoptLocked _ file
  | adoptChecked _ file => some (disk, .closing file)
  | locked id file => some (disk.unlock file, .claiming (nextId id))
  | held id file | notActive id file => some (disk, .abandoning id file false)
  | notSealed id file | written id file | renamed id file =>
    some (disk, .failing id file)
  | failing id file => some (disk, .abandoning id file false)
  | dropped id _ goOn => some (disk, afterAbandon id goOn)
  | idle | abandoning _ _ _ | owner _ _ | closing _ => none

/-- A seal, or the end of a seal that a crash interrupted. -/
def sealSegment (disk : Disk ι) : Proc → Option (Disk ι × Proc)
  | owner id file | adoptChecked id file =>
    if (disk.names (.active id)).isSome then
      some (disk.rename (.active id) (.sealed id), .closing file)
    else some (disk, .closing file)
  | _ => none

/-- One step of a store. -/
def act (disk : Disk ι) (who : ι) (proc : Proc) :
    Move → Option (Disk ι × Proc)
  | .removeStale id =>
    match proc, disk.names (.tmp id) with
    | .idle, some file => some (disk, .staleOpened id file)
    | _, _ => none
  | .create id =>
    match proc with
    | .idle => some (disk, .claiming id)
    | _ => none
  | .adopt id =>
    match proc, disk.names (.active id) with
    | .idle, some file => some (disk, .adoptOpened id file)
    | _, _ => none
  | .next => proc.next disk who
  | .fail => proc.fail disk
  | .sealActive => proc.sealSegment disk
  | .release =>
    match proc with
    | .owner _ file => some (disk, .closing file)
    | _ => none
  | .crash =>
    match proc.lock with
    | some file => some (disk.unlock file, .idle)
    | none => some (disk, .idle)

end Proc

/-- The stores of one directory. -/
structure World (ι : Type) where
  disk : Disk ι
  procs : ι → Proc

namespace World

/-- The stores after a step of one of them. -/
def put (world : World ι) (who : ι) (after : Disk ι × Proc) : World ι where
  disk := after.1
  procs := update world.procs who after.2

/-- One step of a store, if it can be taken. -/
def act (world : World ι) (who : ι) (move : Move) : Option (World ι) :=
  ((world.procs who).act world.disk who move).map (world.put who)

/-- Steps one after another. -/
def run (world : World ι) (moves : List (ι × Move)) : Option (World ι) :=
  moves.foldlM (fun world move => world.act move.1 move.2) world

/-- Any directory, with no store at work. -/
structure IsInitial (world : World ι) : Prop where
  fresh : ∀ name file, world.disk.names name = some file →
    file < world.disk.fresh
  unlocked : ∀ file, world.disk.locks file = none
  idle : ∀ who, world.procs who = .idle

end World
end AmberStore.Packstore.Creation

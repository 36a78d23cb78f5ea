import AmberStore.Key
import AmberStore.Lib.Runs
import Mathlib.Logic.Function.Basic

/-!
# The inbox: stage, commit, wait and the workers

A received pack is staged in a temporary file, and a commit renames it to the
name its body's hash gives.  The commit then counts the entry for its root and
queues it.  Workers take entries off the queue, write their objects to the
store, remove the file or move it to the failed ones, and release the count.
Waiting for a root ends when its count is zero.

Every call is cut into the steps that another thread can come between: a file
operation, or what happens under the lock.  A body is written as its hash.
File operations on files that exist succeed.
-/

open Function

namespace AmberStore.Inbox

open ByteString

/-! ## Files -/

/-- A lower-case hexadecimal digit. -/
def hexDigit (n : Nat) : UInt8 :=
  if n < 10 then .ofNat (48 + n) else .ofNat (87 + n)

/-- A byte as two hexadecimal digits. -/
def hexByte (x : UInt8) : Bytes :=
  [hexDigit (x.toNat / 16), hexDigit (x.toNat % 16)]

/-- Bytes in hexadecimal. -/
def hexString (b : Bytes) : Bytes :=
  b.flatMap hexByte

/-- The bytes of `.pack`. -/
def packSuffix : Bytes :=
  [0x2e, 0x70, 0x61, 0x63, 0x6b]

/-- The name under which a body is committed. -/
def entryName (bodyHash : Bytes) : Bytes :=
  hexString bodyHash ++ packSuffix

/-- A staged or committed file. -/
structure File where
  /-- The root in the meta header, if the header can be read. -/
  metaRoot : Option Bytes
  /-- The hash of the body. -/
  body : Bytes
  deriving DecidableEq

/-- The root key of an entry. -/
def readRoot (file : File) : Option Key := do
  let root ← file.metaRoot
  (Key.parse root).toOption

/-- A file of the temporary directory. -/
inductive Staged
  | unfinished
  | file (file : File)
  deriving DecidableEq

/-- An entry of the queue. -/
structure WorkItem where
  name : Bytes
  root : Key
  deriving DecidableEq

/-- The directories, the store, and what the lock guards. -/
structure Shared where
  tmp : Bytes → Option Staged
  dir : Bytes → Option File
  failed : Bytes → Option File
  stored : Key → Bool
  work : List WorkItem
  /-- How many entries of a root are unprocessed. -/
  groups : Key → Option Nat
  closed : Bool
  /-- The commits that returned, with the hash and the root they were given.
  No code reads this history. -/
  returned : List (Bytes × Key)

namespace Shared

/-- The number of unprocessed entries of a root. -/
def count (shared : Shared) (root : Key) : Nat :=
  (shared.groups root).getD 0

/-- Count an entry and queue it. -/
def enqueue (shared : Shared) (item : WorkItem) : Shared :=
  { shared with
    groups := update shared.groups item.root (some (shared.count item.root + 1))
    work := shared.work ++ [item] }

/-- Release the count of an entry. -/
def release (shared : Shared) (root : Key) : Shared :=
  match shared.groups root with
  | some n =>
    { shared with
      groups := update shared.groups root
        (if 1 < n then some (n - 1) else none) }
  | none => shared

/-- Move an entry to the failed ones. -/
def quarantine (shared : Shared) (name : Bytes) : Shared :=
  match shared.dir name with
  | some file =>
    { shared with
      dir := update shared.dir name none
      failed := update shared.failed name (some file) }
  | none => shared

/-- Take up one entry that an earlier run left. -/
def recoverEntry (shared : Shared) (name : Bytes) : Shared :=
  if packSuffix.isSuffixOf name then
    match (shared.dir name).bind readRoot with
    | some root => shared.enqueue ⟨name, root⟩
    | none => shared.quarantine name
  else shared

/-- Take up the entries of a listing. -/
def recover (shared : Shared) (names : List Bytes) : Shared :=
  names.foldl recoverEntry { shared with tmp := fun _ => none }

end Shared

/-! ## Callers -/

/-- Where a caller is. -/
inductive Thread
  | idle
  /-- In `stage`, with its temporary file created. -/
  | staging (tmp : Bytes)
  /-- In `commit`, before it looks for the entry. -/
  | checking (tmp hash : Bytes) (root : Key)
  /-- In `commit`, which found an entry. -/
  | found (tmp hash : Bytes) (root : Key)
  /-- In `commit`, which found none. -/
  | absent (tmp hash : Bytes) (root : Key)
  /-- In `commit`, with the file renamed. -/
  | renamed (hash : Bytes) (root : Key)
  /-- In `wait_for`, with the commits that had returned when it was called. -/
  | waiting (root : Key) (before : List (Bytes × Key))
  deriving DecidableEq

/-- What a caller does next. -/
inductive Call
  /-- `stage` creates a file under a free name. -/
  | createTemp (tmp : Bytes)
  /-- `stage` writes the file and returns. -/
  | stageInto (file : File)
  | stageFail
  | discard (tmp : Bytes)
  | commit (tmp hash : Bytes) (root : Key)
  /-- `commit` looks for the entry. -/
  | stat
  | returnFalse
  | rename
  /-- `commit` counts and queues the entry, and returns true. -/
  | enqueue
  | waitFor (root : Key)
  /-- `wait_for` finds the count at zero and returns. -/
  | returnWait
  | close
  deriving DecidableEq

/-- One step of a caller.  A caller passes the hash that `stage` returned for
the file, so a rename of another body is no step. -/
def Thread.act (shared : Shared) : Thread → Call → Option (Shared × Thread)
  | .idle, .createTemp tmp =>
    if shared.tmp tmp = none then
      some ({ shared with
        tmp := update shared.tmp tmp (some .unfinished) },
        .staging tmp)
    else none
  | .staging tmp, .stageInto file =>
    some ({ shared with
      tmp := update shared.tmp tmp (some (.file file)) }, .idle)
  | .staging tmp, .stageFail =>
    some ({ shared with tmp := update shared.tmp tmp none }, .idle)
  | .idle, .discard tmp =>
    some ({ shared with tmp := update shared.tmp tmp none }, .idle)
  | .idle, .commit tmp hash root => some (shared, .checking tmp hash root)
  | .checking tmp hash root, .stat =>
    if (shared.dir (entryName hash)).isSome then
      some (shared, .found tmp hash root)
    else some (shared, .absent tmp hash root)
  | .found tmp hash root, .returnFalse =>
    some ({ shared with
      tmp := update shared.tmp tmp none
      returned := (hash, root) :: shared.returned }, .idle)
  | .absent tmp hash root, .rename =>
    match shared.tmp tmp with
    | some (.file file) =>
      if file.body = hash then
        some ({ shared with
          tmp := update shared.tmp tmp none
          dir := update shared.dir (entryName hash)
            (some file) }, .renamed hash root)
      else none
    | some .unfinished => none
    | none => some (shared, .idle)
  | .renamed hash root, .enqueue =>
    some ({ shared.enqueue ⟨entryName hash, root⟩ with
      returned := (hash, root) :: shared.returned }, .idle)
  | .idle, .waitFor root => some (shared, .waiting root shared.returned)
  | .waiting root _, .returnWait =>
    if shared.count root = 0 then some (shared, .idle) else none
  | .idle, .close => some ({ shared with closed := true }, .idle)
  | _, _ => none

/-! ## Workers -/

/-- Where a worker is. -/
inductive Worker
  | idle
  /-- It took an entry off the queue. -/
  | opening (item : WorkItem)
  /-- It opened a file, and keeps it open whatever happens to the name. -/
  | reading (item : WorkItem) (file : File)
  /-- It writes the objects of a body to the store. -/
  | writing (item : WorkItem) (body : Bytes)
  /-- The store has them all. -/
  | removing (item : WorkItem)
  /-- The header, the body or the store failed. -/
  | quarantining (item : WorkItem)
  /-- It is done with the entry. -/
  | releasing (item : WorkItem)
  | exited
  deriving DecidableEq

/-- What a worker does next. -/
inductive Progress
  | next
  /-- The store gets an object of the body. -/
  | put (key : Key)
  | fail
  deriving DecidableEq

/-- The objects of each body, if it is a pack. -/
abbrev Bodies :=
  Bytes → Option (List Key)

/-- Whether every object of a body is stored. -/
def Shared.isStored (bodies : Bodies) (shared : Shared) (hash : Bytes) : Bool :=
  match bodies hash with
  | some keys => keys.all shared.stored
  | none => false

/-- One step of a worker. -/
def Worker.act (bodies : Bodies) (shared : Shared) :
    Worker → Progress → Option (Shared × Worker)
  | .idle, .next =>
    match shared.work with
    | item :: rest => some ({ shared with work := rest }, .opening item)
    | [] => if shared.closed then some (shared, .exited) else none
  | .opening item, .next =>
    match shared.dir item.name with
    | some file => some (shared, .reading item file)
    | none => some (shared, .releasing item)
  | .reading item file, .next =>
    if file.metaRoot.isSome then some (shared, .writing item file.body)
    else some (shared, .quarantining item)
  | .writing item body, .put key =>
    if key ∈ (bodies body).getD [] then
      some ({ shared with
        stored := update shared.stored key true },
        .writing item body)
    else none
  | .writing item body, .next =>
    if shared.isStored bodies body then some (shared, .removing item)
    else none
  | .writing item _, .fail => some (shared, .quarantining item)
  | .removing item, .next =>
    some ({ shared with dir := update shared.dir item.name none },
      .releasing item)
  | .quarantining item, .next =>
    some (shared.quarantine item.name, .releasing item)
  | .releasing item, .next => some (shared.release item.root, .idle)
  | _, _ => none

/-! ## The whole inbox -/

/-- Any number of callers and workers of one inbox. -/
structure World (ι κ : Type) where
  shared : Shared
  threads : ι → Thread
  workers : κ → Worker

/-- A step of a caller or a worker. -/
inductive Action (ι κ : Type)
  | thread (who : ι) (call : Call)
  | worker (who : κ) (progress : Progress)

variable {ι κ : Type} [DecidableEq ι] [DecidableEq κ] (bodies : Bodies)

/-- The inbox after a step of a caller. -/
def World.putThread
    (world : World ι κ) (who : ι) (after : Shared × Thread) : World ι κ :=
  { world with
    shared := after.1
    threads := update world.threads who after.2 }

/-- The inbox after a step of a worker. -/
def World.putWorker
    (world : World ι κ) (who : κ) (after : Shared × Worker) : World ι κ :=
  { world with
    shared := after.1
    workers := update world.workers who after.2 }

/-- One step, if it can be taken. -/
def World.act (world : World ι κ) : Action ι κ → Option (World ι κ)
  | .thread who call =>
    ((world.threads who).act world.shared call).map (world.putThread who)
  | .worker who progress =>
    ((world.workers who).act bodies world.shared progress).map
      (world.putWorker who)

/-- Steps one after another. -/
def World.run (world : World ι κ) (actions : List (Action ι κ)) :
    Option (World ι κ) :=
  actions.foldlM (World.act bodies) world

/-- Every entry has the name of its body. -/
def Shared.Named (shared : Shared) : Prop :=
  ∀ hash file, shared.dir (entryName hash) = some file → file.body = hash

/-- An inbox that was just opened over the directories an earlier run left. -/
structure World.IsInitial (world : World ι κ) : Prop where
  opened : ∃ (left : Shared) (names : List Bytes),
    world.shared = left.recover names ∧ names.Pairwise (· < ·) ∧
    (∀ name, name ∈ names ↔ (left.dir name).isSome = true) ∧
    left.work = [] ∧ left.groups = (fun _ => none) ∧ left.returned = [] ∧
    left.Named
  threads : ∀ who, world.threads who = .idle
  workers : ∀ who, world.workers who = .idle

/-- A body is processed: the store has its objects, or its entry is
quarantined. -/
def Shared.Processed (shared : Shared) (hash : Bytes) : Prop :=
  (shared.failed (entryName hash)).isSome = true ∨
    shared.isStored bodies hash = true

end AmberStore.Inbox

import AmberStore.Key
import AmberStore.Lib.Runs
import Mathlib.Logic.Function.Basic

/-!
# Lookups and refreshes of one store

A lookup searches the store's view.  If it finds nothing it asks whether the
view is current, and if not it refreshes the view and searches once more.
Refreshes take turns under a lock, and a caller that had to wait for the lock
relies on a refresh that ended meanwhile, which it notices by a sequence number
read before it waited.

Meanwhile another store creates segments and appends to them, and segments are
removed.  A segment is its id and the keys of its records, and the store does
not write.  A lookup remembers which segments held its key when it started, as
long as they are not removed.  No code reads this history, nor the number of
refreshes that took effect.
-/

open Function

namespace AmberStore.Packstore.Lookup

/-- What a refresh is done for. -/
inductive Job
  | refresh
  /-- A lookup found nothing, or found an index out of step with its data. -/
  | lookup (k : Key) (holders : List Nat) (rebuild : Bool)
  deriving DecidableEq

/-- Where a thread is. -/
inductive Thread
  | idle
  | searching (k : Key) (holders : List Nat)
  /-- The search found nothing, in the view after so many refreshes. -/
  | missed (k : Key) (holders : List Nat) (seen : Nat)
  | loading (k : Key) (holders : List Nat) (rebuild : Bool)
  /-- Waiting for the refresh lock.  It relies on a refresh that changes the
  sequence number. -/
  | waiting (job : Job) (seq : Option Nat)
  | locked (job : Job) (seq : Option Nat)
  /-- It listed the directory, and reads the listed segments. -/
  | reading (job : Job) (pending : List Nat) (got : List (Nat × List Key))
      (vanished : Bool) (attempt : Nat)
  | applied (job : Job)
  | counted (job : Job)
  | again (k : Key) (holders : List Nat)
  | absent (k : Key) (holders : List Nat)
  deriving DecidableEq

/-- How often a refresh lists the directory at most. -/
def maxRelist : Nat := 3

/-- The directory, the store's view of it, and the store's threads. -/
structure World (ι : Type) where
  ids : List Nat
  keys : Nat → List Key
  /-- The segments in the view, with the records it knows. -/
  view : List (Nat × List Key)
  refreshes : Nat
  refreshSeq : Nat
  refreshMu : Option ι
  threads : ι → Thread

variable {ι : Type} [DecidableEq ι]

namespace World

/-- Whether the view holds a key. -/
def has (world : World ι) (k : Key) : Bool :=
  world.view.any fun segment => segment.2.contains k

/-- The segments that hold a key. -/
def holders (world : World ι) (k : Key) : List Nat :=
  world.ids.filter fun id => (world.keys id).contains k

/-- The view holds everything in the directory. -/
def isCovered (world : World ι) : Bool :=
  world.ids.all fun id => world.view.contains (id, world.keys id)

/-- The world with one thread moved. -/
def put (world : World ι) (who : ι) (thread : Thread) : World ι :=
  { world with threads := update world.threads who thread }

/-- The end of `refresh_after_miss` or `refresh`, which lets go of the lock. -/
def finish (world : World ι) (who : ι) (job : Job) : World ι :=
  { world with refreshMu := none }.put who
    (match job with
    | .refresh => .idle
    | .lookup k holders _ => .again k holders)

/-- List the directory. -/
def list (world : World ι) (who : ι) (job : Job) (attempt : Nat) : World ι :=
  world.put who (.reading job world.ids [] false attempt)

/-- The next step of a thread.  A search that fails is followed by
`view_is_current`, which may say no at any time. -/
def next (world : World ι) (who : ι) : Option (World ι) :=
  match world.threads who with
  | .idle => none
  | .searching k holders =>
    if world.has k then some (world.put who .idle)
    else some (world.put who (.missed k holders world.refreshes))
  | .missed k holders _ => some (world.put who (.loading k holders false))
  | .loading k holders rebuild =>
    some (world.put who (.waiting (.lookup k holders rebuild)
      (if rebuild then none else some world.refreshSeq)))
  | .waiting job seq =>
    if world.refreshMu = none then
      some ({ world with refreshMu := some who }.put who (.locked job seq))
    else none
  | .locked job seq =>
    if seq = none ∨ seq = some world.refreshSeq then
      some (world.list who job 1)
    else some (world.finish who job)
  | .reading job (id :: pending) got vanished attempt =>
    if id ∈ world.ids then
      some (world.put who (.reading job pending
        (got ++ [(id, world.keys id)]) vanished attempt))
    else some (world.put who (.reading job pending got true attempt))
  | .reading job [] got vanished attempt =>
    if vanished = true ∧ attempt ≠ maxRelist then
      some (world.list who job (attempt + 1))
    else
      some ({ world with
        view := got
        refreshes := world.refreshes + 1 }.put who (.applied job))
  | .applied job =>
    some ({ world with refreshSeq := world.refreshSeq + 1 }.put who
      (.counted job))
  | .counted job => some (world.finish who job)
  | .again k holders =>
    if world.has k then some (world.put who .idle)
    else some (world.put who (.absent k holders))
  | .absent _ _ => some (world.put who .idle)

end World

/-- A thread forgets a segment that is removed. -/
def Thread.forget (id : Nat) : Thread → Thread
  | .searching k holders => .searching k (holders.filter (· ≠ id))
  | .missed k holders seen => .missed k (holders.filter (· ≠ id)) seen
  | .loading k holders rebuild => .loading k (holders.filter (· ≠ id)) rebuild
  | .waiting job seq => .waiting (forgetJob job) seq
  | .locked job seq => .locked (forgetJob job) seq
  | .reading job pending got vanished attempt =>
    .reading (forgetJob job) pending got vanished attempt
  | .applied job => .applied (forgetJob job)
  | .counted job => .counted (forgetJob job)
  | .again k holders => .again k (holders.filter (· ≠ id))
  | .absent k holders => .absent k (holders.filter (· ≠ id))
  | .idle => .idle
where
  forgetJob : Job → Job
    | .refresh => .refresh
    | .lookup k holders rebuild => .lookup k (holders.filter (· ≠ id)) rebuild

/-- A step of a thread, or of another store. -/
inductive Action (ι : Type)
  | get (who : ι) (k : Key)
  | refresh (who : ι)
  | next (who : ι)
  /-- `view_is_current` says yes. -/
  | current (who : ι)
  /-- A search finds an index out of step with its data. -/
  | stale (who : ι)
  | fail (who : ι)
  | create (id : Nat)
  | append (id : Nat) (k : Key)
  | remove (id : Nat)

namespace World

/-- One step, if it can be taken. -/
def act (world : World ι) : Action ι → Option (World ι)
  | .get who k =>
    match world.threads who with
    | .idle => some (world.put who (.searching k (world.holders k)))
    | _ => none
  | .refresh who =>
    match world.threads who with
    | .idle => some (world.put who (.waiting .refresh none))
    | _ => none
  | .next who => world.next who
  | .current who =>
    match world.threads who with
    | .missed k holders _ =>
      if world.isCovered then some (world.put who (.absent k holders))
      else none
    | _ => none
  | .stale who =>
    match world.threads who with
    | .searching k holders =>
      if world.has k then some (world.put who (.loading k holders true))
      else none
    | .again k _ => if world.has k then some (world.put who .idle) else none
    | _ => none
  | .fail who =>
    match world.threads who with
    | .locked _ _ | .reading _ _ _ _ _ =>
      some ({ world with refreshMu := none }.put who .idle)
    | _ => none
  | .create id =>
    if id ∈ world.ids then none
    else some { world with
      ids := world.ids ++ [id]
      keys := update world.keys id [] }
  | .append id k =>
    if id ∈ world.ids then
      some { world with
        keys := update world.keys id (world.keys id ++ [k]) }
    else none
  | .remove id =>
    some { world with
      ids := world.ids.filter (· ≠ id)
      threads := fun who => (world.threads who).forget id }

/-- Steps one after another. -/
def run (world : World ι) (actions : List (Action ι)) : Option (World ι) :=
  actions.foldlM act world

/-- Any directory and any view of it, with no thread at work. -/
structure IsInitial (world : World ι) : Prop where
  unlocked : world.refreshMu = none
  idle : ∀ who, world.threads who = .idle

end World
end AmberStore.Packstore.Lookup

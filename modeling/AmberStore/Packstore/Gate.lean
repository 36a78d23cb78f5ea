import AmberStore.Lib.ByteString
import Mathlib.Data.Fintype.Basic
import Mathlib.Logic.Function.Basic

/-!
# The gate between writers and sweeps

`gc.lock` keeps the writers of one store apart from the sweeps of another.  A
store holds the file lock shared while any of its write spans is in flight, and
exclusively for a sweep.  Threads of one store meet at a mutex: what a call does
under it is one step here, which is taken at the moment the call has nothing
left to wait for, and a call that lets go of the mutex to change the file lock
says so in `busy`.  So a call that waits has done nothing, and any number of
threads may be waiting.

The file lock is advisory, and asking for a mode that is granted replaces the
mode a store holds.  The generation in the lock file is a counter of eight bytes
that wraps, and a write of it that fails may have replaced the first of them.
-/

open ByteString

namespace AmberStore.Packstore.Gate

/-- What a store holds of the file lock. -/
inductive Mode
  | unlocked
  | shared
  | exclusive
  deriving DecidableEq, Repr

/-- A generation: the eight bytes of the lock file as a word, and how far the
counter has been moved in all to get there, which no code sees. -/
structure Generation where
  word : UInt64
  count : Nat
  wraps : word.toNat = count % 2 ^ 64
  deriving DecidableEq, Repr

namespace Generation

/-- What `bump` writes. -/
def next (generation : Generation) : Generation where
  word := generation.word + 1
  count := generation.count + 1
  wraps := by
    have wraps := generation.wraps
    rw [UInt64.toNat_add]
    change (_ + 1) % _ = _
    omega

/-- The counter is moved to a word. -/
def moveTo (generation : Generation) (word : UInt64) : Generation where
  word
  count := generation.count + (word - generation.word).toNat
  wraps := by
    have wraps := generation.wraps
    have small := word.toNat_lt
    rw [UInt64.toNat_sub]
    omega

/-- What is left if only the first bytes are written. -/
def torn (generation : Generation) (size : Fin 8) : Generation :=
  generation.moveTo (UInt64.ofNat (beNat
    ((beBytes 8 generation.next.word.toNat).take size ++
      (beBytes 8 generation.word.toNat).drop size)))

end Generation

/-- How far the thread is that is changing the file lock's state. -/
inductive BusyStep
  /-- `begin_shared` polls for the lock, with the generation and the flag it
  saw. -/
  | pollShared (known : Generation) (looked : Bool)
  | lockedShared (known : Generation) (looked : Bool)
  | refreshShared (generation : Generation)
  /-- `begin_shared` has a result, a generation or an error. -/
  | doneShared (result : Option Generation)
  | pollExclusive
  | lockedExclusive
  | refreshExclusive (generation : Generation)
  /-- `begin_exclusive` has a result, a generation or an error. -/
  | doneExclusive (result : Option Generation)
  /-- The refresh panicked, and the file lock is let go. -/
  | unwinding
  deriving DecidableEq, Repr

/-- Which call keeps new spans out. -/
inductive Blocker
  /-- `begin_exclusive` waits for the spans in flight. -/
  | draining
  /-- `begin_exclusive` is changing the file lock. -/
  | sweeping
  | ending
  | pausing
  | paused
  deriving DecidableEq, Repr

/-- One store: its gate, what it holds of the file lock, and the calls that
have returned or wait in the middle. -/
structure Store where
  /-- Local write spans in flight. -/
  shared : Nat
  /-- The file lock is held shared on their behalf. -/
  flocked : Bool
  /-- Depth: this store holds the file lock exclusively. -/
  exclusive : Nat
  busy : Option BusyStep
  /-- New local spans wait. -/
  blocked : Option Blocker
  /-- The generation this store's view is good for. -/
  generation : Generation
  /-- The view was brought up to date under the file lock at least once. -/
  looked : Bool
  /-- What the store's descriptor holds of the file lock. -/
  mode : Mode
  /-- Calls of `end_exclusive` that wait for a busy or blocked gate. -/
  enders : Nat
  /-- Calls of `begin_exclusive` that returned and were not ended. -/
  sweeps : Nat
  /-- A span found the word it knew although the counter had been moved. -/
  behind : Bool
  /-- When the view was last refreshed under the file lock. -/
  refreshedAt : Nat
  /-- When the store last moved the generation or removed a segment. -/
  changedAt : Nat
  deriving DecidableEq, Repr

/-- The gate of a store that has just been opened. -/
def Store.opened : Store where
  shared := 0
  flocked := false
  exclusive := 0
  busy := none
  blocked := none
  generation := ⟨0, 0, rfl⟩
  looked := false
  mode := .unlocked
  enders := 0
  sweeps := 0
  behind := false
  refreshedAt := 0
  changedAt := 0

/-- Some stores over one directory. -/
structure World (n : Nat) where
  stores : Fin n → Store
  generation : Generation
  /-- The time of the last refresh or change. -/
  clock : Nat

variable {n : Nat}

/-- The world with one store replaced. -/
def World.put (world : World n) (who : Fin n) (store : Store) : World n :=
  { world with stores := Function.update world.stores who store }

/-- Whether the file lock can be granted to a store, which depends on what the
others hold. -/
def World.grants (world : World n) (who : Fin n) : Mode → Bool
  | .unlocked => true
  | .shared => ∀ other, other ≠ who → (world.stores other).mode ≠ .exclusive
  | .exclusive => ∀ other, other ≠ who →
      (world.stores other).mode = .unlocked

/-- How a refresh of the view ends. -/
inductive Refreshed
  | ok
  | failed
  | panicked
  deriving DecidableEq, Repr

/-- How moving the generation on ends.  A write that fails may have replaced
the first bytes of the counter. -/
inductive Bumped
  | written
  | failed (size : Fin 8)
  deriving DecidableEq, Repr

/-- The steps of a store's threads. -/
inductive Action
  | beginShared
  | endShared
  | beginExclusive
  | drained
  | cancelDrain
  | endExclusive
  | startEnding
  | finishEnding
  | pauseLocal
  | pauseDrained
  | resumeLocal
  /-- The polling thread is granted the file lock. -/
  | flock
  /-- The polling thread gives up: an error, or its caller canceled. -/
  | giveUp
  /-- The span reads the generation, which may fail. -/
  | readGeneration (isOk : Bool)
  | bump (outcome : Bumped)
  | refresh (outcome : Refreshed)
  /-- The busy thread makes its result known. -/
  | publish
  | removeSegment
  deriving DecidableEq, Repr

/-! ## Under the mutex -/

namespace Store

/-- `begin_shared` has nothing to wait for: it joins the spans in flight, or
goes on to take the file lock. -/
def beginShared (store : Store) : Option Store :=
  if store.busy.isSome ∨ ¬(store.blocked.isNone ∨ 0 < store.shared) then
    none
  else if 0 < store.exclusive ∨ store.flocked then
    some { store with shared := store.shared + 1 }
  else
    some { store with
      busy := some (.pollShared store.generation store.looked) }

/-- `end_shared`: the last span lets go of the file lock. -/
def endShared (store : Store) : Option Store :=
  if store.shared = 0 then
    none
  else if store.shared = 1 ∧ store.flocked then
    some { store with
      shared := 0
      flocked := false
      mode := .unlocked }
  else
    some { store with shared := store.shared - 1 }

/-- `begin_exclusive` has nothing to wait for: it finds the gate held, or keeps
new spans out. -/
def beginExclusive (store : Store) : Option Store :=
  if store.busy.isSome ∨ store.blocked.isSome then
    none
  else if 0 < store.exclusive then
    some { store with
      exclusive := store.exclusive + 1
      sweeps := store.sweeps + 1 }
  else
    some { store with blocked := some .draining }

/-- `begin_exclusive` finds no span in flight, and goes on to take the file
lock. -/
def drained (store : Store) : Option Store :=
  if store.blocked = some .draining ∧ store.shared = 0 then
    some { store with
      busy := some .pollExclusive
      blocked := some .sweeping }
  else
    none

/-- The caller of `begin_exclusive` cancels while it waits for spans. -/
def cancelDrain (store : Store) : Option Store :=
  if store.blocked = some .draining then some { store with blocked := none }
  else none

/-- `end_exclusive` gives back one level; the last one waits until the gate is
neither busy nor blocked, and keeps new spans out. -/
def endExclusive (store : Store) : Option Store :=
  if store.sweeps = 0 then
    none
  else if 1 < store.exclusive then
    some { store with
      exclusive := store.exclusive - 1
      sweeps := store.sweeps - 1 }
  else if store.busy.isSome ∨ store.blocked.isSome then
    some { store with
      sweeps := store.sweeps - 1
      enders := store.enders + 1 }
  else
    some { store with
      sweeps := store.sweeps - 1
      blocked := some .ending }

/-- A waiting `end_exclusive` finds the gate neither busy nor blocked. -/
def startEnding (store : Store) : Option Store :=
  if store.enders = 0 ∨ store.busy.isSome ∨ store.blocked.isSome then
    none
  else
    some { store with
      enders := store.enders - 1
      blocked := some .ending }

/-- `end_exclusive` finds no span in flight, and lets go of the file lock. -/
def finishEnding (store : Store) : Option Store :=
  if store.blocked = some .ending ∧ store.shared = 0 then
    some { store with
      mode := .unlocked
      exclusive := 0
      blocked := none }
  else
    none

/-- `pause_local` has nothing to wait for, and keeps new spans out. -/
def pauseLocal (store : Store) : Option Store :=
  if store.busy.isSome ∨ store.blocked.isSome then none
  else some { store with blocked := some .pausing }

/-- `pause_local` finds no span in flight, and returns. -/
def pauseDrained (store : Store) : Option Store :=
  if store.blocked = some .pausing ∧ store.shared = 0 then
    some { store with blocked := some .paused }
  else
    none

/-- `resume_local` of a pause that returned. -/
def resumeLocal (store : Store) : Option Store :=
  if store.blocked = some .paused then some { store with blocked := none }
  else none

/-- The end of a busy step. -/
def publish (store : Store) : Option Store :=
  match store.busy with
  | some (.doneShared none) => some { store with busy := none }
  | some (.doneShared (some generation)) =>
    some { store with
      busy := none
      flocked := true
      shared := 1
      generation := generation
      looked := true }
  | some (.doneExclusive none) =>
    some { store with
      busy := none
      blocked := none }
  | some (.doneExclusive (some generation)) =>
    some { store with
      busy := none
      blocked := none
      exclusive := 1
      sweeps := store.sweeps + 1
      generation := generation
      looked := true }
  | some .unwinding =>
    some { store with
      busy := none
      blocked := none }
  | _ => none

/-- Polling ends without the file lock. -/
def giveUp (store : Store) : Option Store :=
  match store.busy with
  | some (.pollShared _ _) =>
    some { store with busy := some (.doneShared none) }
  | some .pollExclusive =>
    some { store with busy := some (.doneExclusive none) }
  | _ => none

/-- What a store's thread does to its gate under the mutex, if it can. -/
def act (store : Store) : Action → Option Store
  | .beginShared => store.beginShared
  | .endShared => store.endShared
  | .beginExclusive => store.beginExclusive
  | .drained => store.drained
  | .cancelDrain => store.cancelDrain
  | .endExclusive => store.endExclusive
  | .startEnding => store.startEnding
  | .finishEnding => store.finishEnding
  | .pauseLocal => store.pauseLocal
  | .pauseDrained => store.pauseDrained
  | .resumeLocal => store.resumeLocal
  | .giveUp => store.giveUp
  | .publish => store.publish
  | _ => none

end Store

/-! ## With the file lock -/

namespace World

/-- `flock` grants the polling thread the mode it asks for. -/
def flock (world : World n) (who : Fin n) : Option (World n) :=
  let store := world.stores who
  match store.busy with
  | some (.pollShared known looked) =>
    if world.grants who .shared then
      some (world.put who { store with
        busy := some (.lockedShared known looked)
        mode := .shared })
    else
      none
  | some .pollExclusive =>
    if world.grants who .exclusive then
      some (world.put who { store with
        busy := some .lockedExclusive
        mode := .exclusive })
    else
      none
  | _ => none

/-- The first span reads the generation: if it moved, or the store never
looked, the view has to be refreshed. -/
def readGeneration (world : World n) (who : Fin n) (isOk : Bool) :
    Option (World n) :=
  let store := world.stores who
  match store.busy with
  | some (.lockedShared known looked) =>
    if ¬isOk then
      some (world.put who { store with
        busy := some (.doneShared none)
        mode := .unlocked })
    else if world.generation.word ≠ known.word ∨ ¬looked then
      some (world.put who { store with
        busy := some (.refreshShared world.generation) })
    else
      -- The word is the known one; how far it was moved is not looked at.
      some (world.put who { store with
        busy := some (.doneShared (some known))
        behind := known.count ≠ world.generation.count })
  | _ => none

/-- The sweep moves the generation on. -/
def bump (world : World n) (who : Fin n) : Bumped → Option (World n)
  | .written =>
    let store := world.stores who
    if store.busy = some .lockedExclusive then
      some
        { stores := Function.update world.stores who { store with
            busy := some (.refreshExclusive world.generation.next)
            changedAt := world.clock + 1 }
          generation := world.generation.next
          clock := world.clock + 1 }
    else
      none
  | .failed size =>
    let store := world.stores who
    if store.busy = some .lockedExclusive then
      some { world.put who { store with
          busy := some (.doneExclusive none)
          mode := .unlocked } with
        generation := world.generation.torn size }
    else
      none

/-- The busy thread's refresh ends. -/
def refresh (world : World n) (who : Fin n) (outcome : Refreshed) :
    Option (World n) :=
  let store := world.stores who
  match store.busy, outcome with
  | some (.refreshShared generation), .ok =>
    some { world.put who { store with
        busy := some (.doneShared (some generation))
        behind := false
        refreshedAt := world.clock + 1 } with
      clock := world.clock + 1 }
  | some (.refreshShared _), .failed =>
    some (world.put who { store with
      busy := some (.doneShared none)
      mode := .unlocked })
  | some (.refreshExclusive generation), .ok =>
    some { world.put who { store with
        busy := some (.doneExclusive (some generation))
        behind := false
        refreshedAt := world.clock + 1 } with
      clock := world.clock + 1 }
  | some (.refreshExclusive _), .failed =>
    some (world.put who { store with
      busy := some (.doneExclusive none)
      mode := .unlocked })
  | some (.refreshShared _), .panicked
  | some (.refreshExclusive _), .panicked =>
    some (world.put who { store with
      busy := some .unwinding
      mode := .unlocked })
  | _, _ => none

/-- Whoever holds the gate exclusively may remove a segment. -/
def removeSegment (world : World n) (who : Fin n) : Option (World n) :=
  let store := world.stores who
  if 0 < store.exclusive then
    some { world.put who { store with changedAt := world.clock + 1 } with
      clock := world.clock + 1 }
  else
    none

/-- One step of a thread of a store, if it is possible. -/
def step (world : World n) (who : Fin n) : Action → Option (World n)
  | .flock => world.flock who
  | .readGeneration isOk => world.readGeneration who isOk
  | .bump outcome => world.bump who outcome
  | .refresh outcome => world.refresh who outcome
  | .removeSegment => world.removeSegment who
  | action => ((world.stores who).act action).map (world.put who)

/-- No store has done anything yet. -/
def IsInitial (world : World n) : Prop :=
  ∀ who, world.stores who = .opened

end World

end AmberStore.Packstore.Gate

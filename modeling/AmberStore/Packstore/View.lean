import AmberStore.Lib.Runs
import Mathlib.Logic.Function.Basic

/-!
# A store's view of its directory

A refresh takes a snapshot of the view, then the modification time of the
directory, then a listing, and opens or polls what is listed.  It applies all
of that to the view as it is by then.  Meanwhile the store creates, adopts,
appends to, seals and releases its own active segment, and other stores create
segments, write to theirs, seal, replace and remove them.

A file is its identity, by which it is known however it is named, and has a
length and a footer or none.  The modification time of the directory counts
the creations, renames and removals in it.
-/

open Function

namespace AmberStore.Packstore.View

/-- The name a mapped segment was opened under. -/
inductive Path
  | active
  | sealed
  deriving DecidableEq

/-- A name in the directory: a segment's id and its file. -/
structure Entry where
  id : Nat
  ident : Nat
  deriving DecidableEq

/-- A sealed segment in the view, or a crashed seal under its active name. -/
structure Mapped where
  id : Nat
  ident : Nat
  path : Path
  deriving DecidableEq

/-- An active segment of another store in the view. -/
structure Foreign where
  id : Nat
  ident : Nat
  seenSize : Nat
  deriving DecidableEq

/-- What the shared lock guards. -/
structure Shared where
  mapped : List Mapped
  foreign : List Foreign
  active : Option Nat
  structEpoch : Nat
  dirMtime : Option Nat
  deriving DecidableEq

namespace Shared

/-- Forget the view of a segment this store now owns or has sealed. -/
def dropForeign (shared : Shared) (id : Nat) : Shared :=
  { shared with foreign := shared.foreign.filter fun fa => fa.id ≠ id }

/-- Add a segment this store sealed or adopted to the view. -/
def publishSealed (shared : Shared) (segment : Mapped) : Shared :=
  let shared := { shared with structEpoch := shared.structEpoch + 1 }
  if shared.mapped.any (fun g => g.id = segment.id) then
    { shared with
      mapped := shared.mapped.map fun g =>
        if g.id = segment.id then segment else g }
  else
    { shared with mapped := shared.mapped ++ [segment] }.dropForeign segment.id

/-- Let go of the store's own segment, which stays in the directory. -/
def releaseActive (shared : Shared) : Shared :=
  { shared with
    structEpoch := shared.structEpoch + 1
    active := none
    dirMtime := none }

end Shared

/-- What a refresh found out since it listed the directory. -/
structure Findings where
  /-- The time of the directory before it was listed. -/
  dirMtime : Nat
  /-- Listed sealed segments that are not looked at yet. -/
  sealed : List Entry
  active : List Entry
  opened : List Mapped
  openedForeign : List Foreign
  /-- The lengths that polls saw. -/
  deltas : List Foreign
  keepSealed : List Nat
  keepForeign : List Nat
  /-- Something listed was gone. -/
  vanished : Bool

/-- How far an attempt of a refresh is. -/
inductive Stage
  | starting
  | statted (dirMtime : Nat)
  | listed (findings : Findings)

/-- A refresh in progress, with the snapshot it works from. -/
structure Refresh where
  epoch : Nat
  have_ : List Mapped
  haveForeign : List Foreign
  own : Option Nat
  rebuild : Bool
  attempt : Nat
  stage : Stage

/-- How often a refresh lists the directory at most. -/
def maxRelist : Nat := 3

/-- What the store's writer is at, between a change of the directory and the
change of the view that goes with it. -/
inductive Writer
  | idle
  | created (id : Nat)
  /-- A segment was locked, and is being recovered. -/
  | adopting (id ident : Nat)
  /-- The store's own segment was renamed. -/
  | sealing (id ident : Nat)
  /-- A crashed seal was renamed. -/
  | finishing (id ident : Nat)
  deriving DecidableEq

/-- The directory, the files, and one store. -/
structure World where
  sealed : List Entry
  active : List Entry
  length : Nat → Nat
  hasFooter : Nat → Bool
  /-- No file has this identity. -/
  fresh : Nat
  mtime : Nat
  shared : Shared
  refresh : Option Refresh
  writer : Writer

namespace World

/-- Whether a segment has the id. -/
def isTaken (world : World) (id : Nat) : Bool :=
  (world.sealed ++ world.active).any fun entry => entry.id = id

/-- Whether the store holds the lock of an active segment. -/
def isOurs (world : World) (id : Nat) : Bool :=
  world.shared.active = some id ||
    match world.writer with
    | .created other | .adopting other _ => other = id
    | _ => false

/-- `view_is_current`, looked at in one state. -/
def viewIsCurrent (world : World) : Bool :=
  world.shared.dirMtime = some world.mtime &&
    world.shared.foreign.all fun fa => world.length fa.ident = fa.seenSize

/-! ## The refresh -/

/-- Look at a listed sealed segment. -/
def lookSealed
    (world : World) (refresh : Refresh) (findings : Findings) (entry : Entry) :
    Findings :=
  if refresh.have_.find? (fun g => g.id = entry.id) =
      some ⟨entry.id, entry.ident, .sealed⟩ then
    { findings with keepSealed := entry.id :: findings.keepSealed }
  else
    match world.sealed.find? (fun other => other.id = entry.id) with
    | some now =>
      { findings with
        opened := ⟨entry.id, now.ident, .sealed⟩ :: findings.opened }
    | none => { findings with vanished := true }

/-- Index an active segment of another store. -/
def openForeign
    (world : World) (findings : Findings) (entry : Entry) : Findings :=
  match world.active.find? (fun other => other.id = entry.id) with
  | some now =>
    if world.hasFooter now.ident then
      { findings with
        opened := ⟨entry.id, now.ident, .active⟩ :: findings.opened }
    else
      { findings with
        openedForeign := ⟨entry.id, now.ident, world.length now.ident⟩ ::
          findings.openedForeign }
  | none => { findings with vanished := true }

/-- Look at a listed active segment.  A poll may find that the view has to be
built again. -/
def lookActive
    (world : World) (refresh : Refresh) (polls : Bool) (findings : Findings)
    (entry : Entry) : Findings :=
  if refresh.own = some entry.id then findings
  else if (refresh.have_.find? (fun g => g.id = entry.id)).map Mapped.ident =
      some entry.ident then
    { findings with keepSealed := entry.id :: findings.keepSealed }
  else if refresh.rebuild = false ∧ polls = true ∧
      (refresh.haveForeign.find? (fun fa => fa.id = entry.id)).map
        Foreign.ident = some entry.ident then
    { findings with
      keepForeign := entry.id :: findings.keepForeign
      deltas := ⟨entry.id, entry.ident, world.length entry.ident⟩ ::
        findings.deltas }
  else openForeign world findings entry

/-- Add a mapped segment unless one with its id is there. -/
def addMapped (mapped : List Mapped) (g : Mapped) : List Mapped :=
  if mapped.any (fun other => other.id = g.id) then mapped else mapped ++ [g]

/-- Add a foreign segment unless the store owns it, or one with its id is
mapped or there. -/
def addForeign
    (own : Option Nat) (mapped : List Mapped) (foreign : List Foreign)
    (fa : Foreign) : List Foreign :=
  if own = some fa.id || mapped.any (fun g => g.id = fa.id) ||
      foreign.any (fun other => other.id = fa.id) then foreign
  else foreign ++ [fa]

/-- A foreign segment with what a poll of it found. -/
def polled (deltas : List Foreign) (fa : Foreign) : Foreign :=
  match deltas.find? (fun d => d.id = fa.id && d.ident = fa.ident) with
  | some d => { fa with seenSize := d.seenSize }
  | none => fa

/-- The view after a refresh.  If this store changed it meanwhile, the refresh
only adds. -/
def applied (shared : Shared) (refresh : Refresh) (findings : Findings) :
    Shared :=
  let stable : Bool := shared.structEpoch = refresh.epoch
  let kept := shared.mapped.filter fun g =>
    findings.keepSealed.contains g.id || !stable
  let mapped := findings.opened.foldl addMapped kept
  let foreign := (shared.foreign.map (polled findings.deltas)).filter fun fa =>
    findings.keepForeign.contains fa.id || !stable
  let foreign := foreign.foldl (addForeign shared.active mapped) []
  let foreign :=
    findings.openedForeign.foldl (addForeign shared.active mapped) foreign
  { shared with
    mapped := mapped
    foreign := foreign
    dirMtime := some findings.dirMtime }

end World

/-- A step of the store or of another one. -/
inductive Action
  | refreshStart (rebuild : Bool)
  | refreshStat
  | refreshList (sealed active : List Entry)
  /-- It looks at the next listed segment. -/
  | refreshLook (polls : Bool)
  /-- It lists again, or applies what it found. -/
  | refreshApply
  | refreshFail
  | create (id : Nat)
  /-- The store locks an active segment. -/
  | adopt (id : Nat)
  | write (length : Nat) (hasFooter : Bool)
  /-- The store renames its own segment, or a crashed seal. -/
  | sealActive
  | publish
  /-- What the store was at fails. -/
  | writerFail
  | release
  | otherCreate (id : Nat)
  | otherWrite (id length : Nat) (hasFooter : Bool)
  | otherSeal (id : Nat)
  /-- Another store replaces a sealed segment by a repaired one. -/
  | otherReplace (id : Nat)
  | otherRemove (id : Nat)
  /-- Another name appears or vanishes in the directory. -/
  | otherTouch
  deriving DecidableEq

namespace World

/-- The file at the active name of an id. -/
def activeAt (world : World) (id : Nat) : Option Nat :=
  (world.active.find? fun entry => entry.id = id).map Entry.ident

/-- The file the store writes to. -/
def writable (world : World) : Option Nat :=
  match world.writer with
  | .idle => world.shared.active.bind world.activeAt
  | .adopting _ ident => some ident
  | _ => none

/-- Give an active segment its sealed name. -/
def renameToSealed (world : World) (id ident : Nat) : World :=
  { world with
    active := world.active.filter fun entry => entry.id ≠ id
    sealed := world.sealed ++ [⟨id, ident⟩]
    mtime := world.mtime + 1 }

/-- The refresh in progress comes to a stage. -/
def toStage (world : World) (refresh : Refresh) (stage : Stage) : World :=
  { world with refresh := some { refresh with stage := stage } }

/-- A new active segment. -/
def addActive (world : World) (id : Nat) : World :=
  { world with
    active := world.active ++ [⟨id, world.fresh⟩]
    length := update world.length world.fresh 8
    hasFooter := update world.hasFooter world.fresh false
    fresh := world.fresh + 1
    mtime := world.mtime + 1 }

/-- The steps of a refresh.  A listing that another store's change falls into
may show anything. -/
def refreshStep (world : World) : Action → Option World
  | .refreshStart rebuild =>
    if world.refresh.isNone then
      some { world with
        refresh := some ⟨world.shared.structEpoch, world.shared.mapped,
          world.shared.foreign, world.shared.active, rebuild, 1,
          .starting⟩ }
    else none
  | .refreshStat => do
      let refresh ← world.refresh
      match refresh.stage with
      | .starting => some (world.toStage refresh (.statted world.mtime))
      | _ => none
  | .refreshList sealed active => do
      let refresh ← world.refresh
      match refresh.stage with
      | .statted m =>
        if m ≠ world.mtime ∨ sealed = world.sealed ∧ active = world.active
        then
          some (world.toStage refresh
            (.listed ⟨m, sealed, active, [], [], [], [], [], false⟩))
        else none
      | _ => none
  | .refreshLook polls => do
      let refresh ← world.refresh
      match refresh.stage with
      | .listed findings =>
        match findings.sealed, findings.active with
        | entry :: rest, _ =>
          some (world.toStage refresh (.listed (world.lookSealed refresh
            { findings with sealed := rest } entry)))
        | [], entry :: rest =>
          some (world.toStage refresh (.listed (world.lookActive refresh polls
            { findings with active := rest } entry)))
        | [], [] => none
      | _ => none
  | .refreshApply => do
      let refresh ← world.refresh
      match refresh.stage with
      | .listed findings =>
        if findings.sealed ≠ [] ∨ findings.active ≠ [] then none
        else if findings.vanished = true ∧ refresh.attempt ≠ maxRelist then
          some (world.toStage { refresh with attempt := refresh.attempt + 1 }
            .starting)
        else
          some { world with
            shared := applied world.shared refresh findings
            refresh := none }
      | _ => none
  | .refreshFail =>
    if world.refresh.isSome then some { world with refresh := none }
    else none
  | _ => none

/-- The steps of the store's writer. -/
def writerStep (world : World) : Action → Option World
  | .create id =>
    if world.writer = .idle ∧ world.shared.active = none ∧
        world.isTaken id = false then
      some { world.addActive id with writer := .created id }
    else none
  | .adopt id =>
    match world.activeAt id with
    | some ident =>
      if world.writer = .idle ∧ world.shared.active = none then
        some { world with writer := .adopting id ident }
      else none
    | none => none
  | .write length hasFooter =>
    match world.writable with
    | some ident =>
      some { world with
        length := update world.length ident length
        hasFooter := update world.hasFooter ident hasFooter }
    | none => none
  | .sealActive =>
    match world.writer with
    | .idle =>
      match world.shared.active with
      | some id =>
        match world.activeAt id with
        | some ident =>
          some { world.renameToSealed id ident with
            writer := .sealing id ident }
        | none => none
      | none => none
    | .adopting id ident =>
      match world.activeAt id with
      | some now =>
        if world.hasFooter ident then
          some { world.renameToSealed id now with
            writer := .finishing id now }
        else none
      | none => none
    | _ => none
  | .publish =>
    match world.writer with
    | .created id =>
      some { world with
        shared := { world.shared with
          structEpoch := world.shared.structEpoch + 1
          active := some id }
        writer := .idle }
    | .adopting id ident =>
      if world.hasFooter ident then none
      else
        some { world with
          shared := { world.shared.dropForeign id with
            structEpoch := world.shared.structEpoch + 1
            active := some id }
          writer := .idle }
    | .sealing id ident =>
      some { world with
        shared := { world.shared.publishSealed ⟨id, ident, .sealed⟩ with
          active := none }
        writer := .idle }
    | .finishing id ident =>
      some { world with
        shared := world.shared.publishSealed ⟨id, ident, .sealed⟩
        writer := .idle }
    | .idle => none
  | .writerFail =>
    match world.writer with
    | .idle => none
    | .created id =>
      some { world with
        active := world.active.filter fun entry => entry.id ≠ id
        mtime := world.mtime + 1
        writer := .idle }
    | _ => some { world with writer := .idle }
  | .release =>
    if world.writer = .idle ∧ world.shared.active.isSome then
      some { world with shared := world.shared.releaseActive }
    else none
  | _ => none

/-- The steps of other stores.  A store that removes segments waits until this
one is not writing. -/
def otherStep (world : World) : Action → Option World
  | .otherCreate id =>
    if world.isTaken id then none else some (world.addActive id)
  | .otherWrite id length hasFooter =>
    match world.activeAt id with
    | some ident =>
      if world.isOurs id then none
      else
        some { world with
          length := update world.length ident length
          hasFooter := update world.hasFooter ident hasFooter }
    | none => none
  | .otherSeal id =>
    match world.activeAt id with
    | some ident =>
      if world.isOurs id then none else some (world.renameToSealed id ident)
    | none => none
  | .otherReplace id =>
    if world.sealed.any (fun entry => entry.id = id) then
      some { world with
        sealed := world.sealed.map fun entry =>
          if entry.id = id then ⟨id, world.fresh⟩ else entry
        fresh := world.fresh + 1
        mtime := world.mtime + 1 }
    else none
  | .otherRemove id =>
    if world.isOurs id ∨ world.writer ≠ .idle then none
    else
      some { world with
        sealed := world.sealed.filter fun entry => entry.id ≠ id
        active := world.active.filter fun entry => entry.id ≠ id
        mtime := world.mtime + 1 }
  | .otherTouch => some { world with mtime := world.mtime + 1 }
  | _ => none

/-- One step, if it can be taken. -/
def act (world : World) (action : Action) : Option World :=
  (world.refreshStep action).or
    ((world.writerStep action).or (world.otherStep action))

/-- Steps one after another. -/
def run (world : World) (actions : List Action) : Option World :=
  actions.foldlM act world

/-- Any directory, and a store that was just made over it. -/
structure IsInitial (world : World) : Prop where
  nodup : ((world.sealed ++ world.active).map Entry.id).Nodup
  shared : world.shared = ⟨[], [], none, 0, none⟩
  refresh : world.refresh = none
  writer : world.writer = .idle

end World
end AmberStore.Packstore.View

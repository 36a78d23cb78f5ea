import AmberStore.Packstore.Footer

/-!
# Segment versions

A segment's header says which records the segment may hold.  A store that has
written a record of a later version takes only segments of that version from
then on: it leaves the segment it owns, adopts one that is late enough or that
has no header yet, or creates one.  Stores work on one directory at once, each
under the lock of the segment it writes to.
-/

namespace AmberStore.Packstore.Versions

/-- What of a record decides which segments may hold it. -/
structure Rec where
  key : Key
  flags : UInt8
  deriving DecidableEq

/-- The lowest version of a segment that may hold the record. -/
def Rec.need (record : Rec) : UInt8 :=
  versionFor record.key record.flags

/-- A header and the records behind it. -/
structure Content where
  version : UInt8
  records : List Rec
  deriving DecidableEq

/-- A segment's file, under the segment's active or sealed name. -/
structure Segment (ι : Type) where
  ident : Nat
  sealed : Bool
  /-- Nothing while the header has not arrived. -/
  content : Option Content
  holder : Option ι

/-- What a store is at, under its append lock. -/
inductive Task
  | idle
  /-- In the loop of an append, which has left some segments. -/
  | appending (record : Rec) (leaves : Nat)
  /-- Taking a segment over, for an append or to seal it. -/
  | adopting (caller : Option (Rec × Nat)) (id : Nat)
  deriving DecidableEq

/-- One store. -/
structure Store where
  segVersion : UInt8
  /-- The segment the store owns, and the version it takes it to have. -/
  own : Option (Nat × UInt8)
  task : Task
  deriving DecidableEq

/-- The directory and the stores on it. -/
structure World (ι : Type) where
  segments : Nat → Option (Segment ι)
  /-- No file is this one. -/
  fresh : Nat
  stores : ι → Store

/-- A step of a store. -/
inductive Action
  | openStore (flags : UInt8)
  /-- An append, or the copy of a record by a compaction. -/
  | append (record : Rec)
  /-- A segment nobody holds is locked, to be taken over. -/
  | lock (id : Nat)
  | adopt
  /-- The locked segment is a crashed seal. -/
  | finishSeal
  | create (id : Nat)
  | found
  | write
  /-- The store's segment may not hold the record. -/
  | leave
  | fail
  | sealActive
  | release
  /-- A sealed segment is rewritten with another record for a key. -/
  | repair (id : Nat) (record : Rec)
  | remove (id : Nat)
  | kill
  deriving DecidableEq

namespace World

variable {ι : Type} [DecidableEq ι]

/-- Change what a store knows. -/
def put (world : World ι) (who : ι) (store : Store) : World ι :=
  { world with stores := Function.update world.stores who store }

/-- Change the file under a segment's id. -/
def set (world : World ι) (id : Nat) (segment : Option (Segment ι)) :
    World ι :=
  { world with segments := Function.update world.segments id segment }

/-- The records of the segment with an id. -/
def recordsOf (world : World ι) (id : Nat) : List Rec :=
  match world.segments id with
  | some ⟨_, _, some content, _⟩ => content.records
  | _ => []

/-- Whether an active segment may be taken by a store that accepts no version
below a minimum. -/
def adoptable (minVersion : UInt8) (segment : Segment ι) : Bool :=
  !segment.sealed && segment.holder.isNone &&
    match segment.content with
    | some content => !(content.version < minVersion)
    | none => true

/-- What an adoption goes back to. -/
def resume : Option (Rec × Nat) → Task
  | some (record, leaves) => .appending record leaves
  | none => .idle

/-- The content that a new owner goes on with. -/
def headed (segVersion : UInt8) : Option Content → Content
  | some content => content
  | none => ⟨segVersion, []⟩

/-- Let go of a lock. -/
def unlock (segment : Segment ι) : Segment ι :=
  { segment with holder := none }

/-- Let go of every lock of a store. -/
def unlockAll (world : World ι) (who : ι) : World ι :=
  { world with
    segments := fun id => (world.segments id).map fun segment =>
      if segment.holder = some who then unlock segment else segment }

/-- The content of a segment where one record was replaced. -/
def repaired (content : Content) (record : Rec) : Content :=
  ⟨max content.version record.need,
    content.records.map fun old =>
      if old.key = record.key then record else old⟩

/-- The steps by which a store comes to own a segment. -/
def adoptStep (world : World ι) (who : ι) : Action → Option (World ι)
  | .lock id =>
    let store := world.stores who
    match store.own, world.segments id with
    | none, some segment =>
      match store.task with
      | .appending record leaves =>
        if adoptable store.segVersion segment then
          some ((world.set id (some { segment with holder := some who })).put
            who { store with task := .adopting (some (record, leaves)) id })
        else none
      | .idle =>
        if adoptable versionBase segment then
          some ((world.set id (some { segment with holder := some who })).put
            who { store with task := .adopting none id })
        else none
      | .adopting _ _ => none
    | _, _ => none
  | .adopt =>
    let store := world.stores who
    match store.task with
    | .adopting caller id =>
      match world.segments id with
      | some segment =>
        let content := headed store.segVersion segment.content
        some ((world.set id (some { segment with
          content := some content })).put who
          { store with
            own := some (id, content.version)
            task := resume caller })
      | none => none
    | _ => none
  | .finishSeal =>
    let store := world.stores who
    match store.task with
    | .adopting caller id =>
      match world.segments id with
      | some segment =>
        some ((world.set id (some { segment with
          sealed := true, holder := none })).put who
          { store with task := resume caller })
      | none => none
    | _ => none
  | .create id =>
    let store := world.stores who
    match store.own, store.task, world.segments id with
    | none, .appending record leaves, none =>
      some { (world.set id (some ⟨world.fresh, false,
          some ⟨store.segVersion, []⟩, some who⟩)).put who
          { store with
            own := some (id, store.segVersion)
            task := .appending record leaves } with
        fresh := world.fresh + 1 }
    | _, _, _ => none
  | _ => none

/-- The steps of the loop of an append over the segment the store owns. -/
def loopStep (world : World ι) (who : ι) : Action → Option (World ι)
  | .found =>
    let store := world.stores who
    match store.own, store.task with
    | some (id, _), .appending record _ =>
      if (world.recordsOf id).any fun old => old.key = record.key then
        some (world.put who { store with task := .idle })
      else none
    | _, _ => none
  | .write =>
    let store := world.stores who
    match store.own, store.task with
    | some (id, version), .appending record _ =>
      match world.segments id with
      | some ⟨ident, sealed, some content, holder⟩ =>
        if content.records.any (fun old => old.key = record.key) = false ∧
            record.need ≤ version then
          some ((world.set id (some ⟨ident, sealed,
            some { content with records := content.records ++ [record] },
            holder⟩)).put who { store with task := .idle })
        else none
      | _ => none
    | _, _ => none
  | .leave =>
    let store := world.stores who
    match store.own, store.task with
    | some (id, version), .appending record leaves =>
      match world.segments id with
      | some segment =>
        if (world.recordsOf id).any (fun old => old.key = record.key) =
            false ∧ version < record.need then
          some ((world.set id (some { segment with
            sealed := !(world.recordsOf id).isEmpty
            holder := none })).put who
            { store with
              own := none
              task := .appending record (leaves + 1) })
        else none
      | none => none
    | _, _ => none
  | _ => none

/-- The other steps of a store. -/
def storeStep (world : World ι) (who : ι) : Action → Option (World ι)
  | .openStore flags =>
    let store := world.stores who
    if store.own = none ∧ store.task = .idle then
      some (world.put who ⟨versionForCodec flags, none, .idle⟩)
    else none
  | .append record =>
    let store := world.stores who
    if store.task = .idle then
      some (world.put who
        { store with
          segVersion := max store.segVersion record.need
          task := .appending record 0 })
    else none
  | .fail =>
    let store := world.stores who
    match store.task with
    | .idle => none
    | .appending _ _ => some (world.put who { store with task := .idle })
    | .adopting _ id =>
      some ((world.set id ((world.segments id).map unlock)).put who
        { store with task := .idle })
  | .sealActive =>
    let store := world.stores who
    match store.own, store.task with
    | some (id, _), .idle =>
      if (world.recordsOf id).isEmpty then none
      else
        some ((world.set id ((world.segments id).map fun segment =>
          { segment with sealed := true, holder := none })).put who
          { store with own := none })
    | _, _ => none
  | .release =>
    let store := world.stores who
    match store.own, store.task with
    | some (id, _), .idle =>
      some ((world.set id ((world.segments id).map unlock)).put who
        { store with own := none })
    | _, _ => none
  | .repair id record =>
    let store := world.stores who
    match store.task, world.segments id with
    | .idle, some ⟨_, true, some content, holder⟩ =>
      some { world.set id (some ⟨world.fresh, true,
          some (repaired content record), holder⟩) with
        fresh := world.fresh + 1 }
    | _, _ => none
  | .remove id =>
    match world.segments id with
    | some ⟨_, true, _, _⟩ => some (world.set id none)
    | _ => none
  | .kill =>
    let store := world.stores who
    some ((world.unlockAll who).put who
      { store with own := none, task := .idle })
  | _ => none

/-- One step of a store, if it can be taken. -/
def act (world : World ι) (who : ι) (action : Action) : Option (World ι) :=
  (world.adoptStep who action).or
    ((world.loopStep who action).or (world.storeStep who action))

/-- Steps one after another. -/
def run (world : World ι) (actions : List (ι × Action)) :
    Option (World ι) :=
  actions.foldlM (fun world (who, action) => world.act who action) world

/-- Any directory whose segments hold what they may, and stores that have not
written yet. -/
structure IsInitial (world : World ι) : Prop where
  holds : ∀ id segment content, world.segments id = some segment →
    segment.content = some content → ∀ record ∈ content.records,
      record.need ≤ content.version
  files : ∀ id segment, world.segments id = some segment →
    segment.ident < world.fresh ∧ segment.holder = none
  idle : ∀ who, (world.stores who).own = none ∧ (world.stores who).task = .idle

end World
end AmberStore.Packstore.Versions

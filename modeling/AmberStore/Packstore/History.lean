import AmberStore.Packstore.TrustedSidecar

/-!
# The history of an active segment

Stores own an active segment one after another.  Each takes it over as
recovery finds it, cuts off what is no record, brings the sidecar in line,
appends, syncs, marks what it synced, and lets go of it or crashes.  A power
failure keeps what fsyncs have covered and cuts the sidecar anywhere.  Meanwhile
another store reads the segment: it polls for what was appended, and recovers
the segment anew when it cannot go on.
-/

open ByteString

namespace AmberStore.Packstore.History

open Amberpack

/-- A reader's index of a segment, and how far it has read. -/
structure SegmentScan where
  index : Index
  at_ : ScanPos

namespace SegmentScan

section Poll

variable (crc32c : Bytes → UInt32)

/-- Reads what the segment's owner appended since the reader last looked; none
when the index has to be built again.  No bytes of the sidecar means that there
is no sidecar. -/
def poll (scan : SegmentScan) (sidecar : Option Bytes) (data : Bytes) :
    Except RecoverError (Option Advanced) :=
  match sidecar with
  | none => advance crc32c scan.index scan.at_ data data.length []
  | some bytes =>
    if (bytes.length : Int) < scan.at_.sidecarEnd then
      .ok none
    else do
      let tail ← readRange bytes scan.at_.sidecarEnd
        (bytes.length - scan.at_.sidecarEnd)
      advance crc32c scan.index scan.at_ data data.length tail

end Poll

/-- Adds what a poll read, and moves on. -/
def commit (scan : SegmentScan) (polled : Advanced) : SegmentScan :=
  ⟨polled.added.foldl (fun index record => index.insert record.k record.loc)
    scan.index, polled.next⟩

/-- Whether a record counts as durable for a store that reads the segment. -/
def durable (scan : SegmentScan) (k : Key) : Bool :=
  match scan.index k with
  | some loc => (SidecarRec.entry k loc).end_ ≤ scan.at_.durable
  | none => false

/-- Whether a store may rely on a record of a segment it only reads. -/
def reliable (sync : Bool) (scan : SegmentScan) (k : Key) : Bool :=
  (scan.index k).isSome && (!sync || scan.durable k)

end SegmentScan

/-- Where a reader stands after a recovery. -/
def scanOf (recovered : Recovered) : SegmentScan :=
  ⟨recovered.index,
    ⟨recovered.dataEnd, recovered.sidecarEnd, recovered.durable⟩⟩

/-- The store that owns the segment. -/
structure ActiveWriter where
  sync : Bool
  /-- Whether the store refuses to write. -/
  failed : Bool
  size : Nat
  index : Index
  /-- Whether there is a writer of the sidecar, and it has not stopped. -/
  writing : Bool
  /-- What is to be written to the sidecar next. -/
  todo : List SidecarRec

/-- How far the next owner is. -/
inductive Phase
  | free
  /-- A file without a header is started over. -/
  | heading (sync : Bool) (version : UInt8) (recovered : Recovered)
  /-- The file is cut to its recovered size, and synced if it was. -/
  | opening (sync fsynced : Bool) (size : Nat) (recovered : Recovered)
  | owned (writer : ActiveWriter)

/-- The files of the segment, its owner and one reader. -/
structure World where
  data : Bytes
  /-- How much of the data a completed fsync covers. -/
  covered : Nat
  sidecar : Option Bytes
  phase : Phase
  scan : Option SegmentScan
  /-- The sidecar as the reader has just read it. -/
  seen : Option (Option Bytes)

/-- What happens to the segment. -/
inductive Action
  /-- A store takes the segment over, and cuts it to what it recovers. -/
  | adopt (sync : Bool) (version minVersion : UInt8)
  /-- The new owner writes the first bytes of the header. -/
  | header (size : Nat)
  /-- The new owner syncs a tail that was not. -/
  | syncTail (success : Bool)
  /-- The new owner brings the sidecar in line, or removes it, or neither. -/
  | openSidecar (success removed : Bool)
  /-- The owner writes a record to the sidecar, or only its first bytes. -/
  | note (torn : Option Nat)
  /-- The first bytes of a record reach the file. -/
  | tear (stored : StoredRecord) (size : Nat)
  | append (stored : StoredRecord)
  | fsync (success : Bool)
  /-- The owner cuts the file and writes the first bytes of a footer. -/
  | footer (bytes : Bytes)
  | fail
  | release
  | kill
  | crash (data : Bytes) (kept : Option Nat)
  /-- The reader reads the sidecar, or only its first bytes. -/
  | look (size : Nat)
  | poll
  | rebuild

namespace World

section Model

variable (crc32c : Bytes → UInt32)

/-- A store takes the segment over. -/
def adopt (world : World) (sync : Bool) (version minVersion : UInt8) :
    Option World :=
  let hasHeader := isHeader (world.data.take magicHeader.length)
  if hasHeader ∧ byteAt world.data 7 < minVersion then none
  else
    match recoverSegment crc32c world.data (world.sidecar.getD []) with
    | .error _ => none
    | .ok recovered =>
      if recovered.sealed = true then none
      else if recovered.dataEnd < magicHeader.length then
        some { world with
          data := []
          covered := 0
          phase := .heading sync version
            { recovered with sidecarEnd := 0, missing := [] } }
      else if hasHeader = false then none
      else
        some { world with
          data := world.data.take recovered.dataEnd.toNat
          covered := min world.covered recovered.dataEnd.toNat
          phase := .opening sync false recovered.dataEnd.toNat recovered }

/-- Whether the new owner has a tail to sync before it goes on. -/
def hasTail (sync : Bool) (size : Nat) (recovered : Recovered) : Bool :=
  sync && (size : Int) > max recovered.durable magicHeader.length

/-- The sidecar that a new owner goes on with, if it can open it. -/
def openAt (sidecar : Option Bytes) (valid : Nat) : Option Bytes :=
  if valid < sidecarMagic.length then some sidecarMagic
  else sidecar.map (List.take valid)

/-- The steps of taking over the segment. -/
def adoptStep (world : World) : Action → Option World
  | .adopt sync version minVersion =>
    match world.phase with
    | .free =>
      if readsVersion version then
        world.adopt crc32c sync version minVersion
      else none
    | _ => none
  | .header size =>
    match world.phase with
    | .heading sync version recovered =>
      some { world with
        data := (headerAt version).take size
        phase :=
          if size < magicHeader.length then
            .heading sync version recovered
          else .opening sync false magicHeader.length recovered }
    | _ => none
  | .syncTail success =>
    match world.phase with
    | .opening sync false size recovered =>
      if hasTail sync size recovered = false then none
      else if success then
        some { world with
          covered := world.data.length
          phase := .opening sync true size recovered }
      else some { world with phase := .free }
    | _ => none
  | .openSidecar success removed =>
    match world.phase with
    | .opening sync fsynced size recovered =>
      if hasTail sync size recovered ∧ fsynced = false then none
      else
        let todo := recovered.missing ++
          if fsynced then [.synced size] else []
        if success then
          match openAt world.sidecar recovered.sidecarEnd.toNat with
          | some bytes =>
            some { world with
              sidecar := some bytes
              phase := .owned ⟨sync, false, size, recovered.index, true, todo⟩ }
          | none => none
        else
          some { world with
            sidecar := if removed then none else world.sidecar
            phase := .owned ⟨sync, false, size, recovered.index, false, todo⟩ }
    | _ => none
  | _ => none

/-- The steps of an owner. -/
def ownerStep (world : World) (writer : ActiveWriter) : Action → Option World
  | .note torn =>
    match writer.todo with
    | [] => none
    | record :: todo =>
      if writer.writing = false then
        some { world with phase := .owned { writer with todo := todo } }
      else
        let bytes := match torn with
          | none => record.encode crc32c
          | some size => (record.encode crc32c).take size
        some { world with
          sidecar := world.sidecar.map (· ++ bytes)
          phase := .owned { writer with todo := todo, writing := torn.isNone } }
  | .tear stored size =>
    if writer.failed = false ∧ writer.todo = [] ∧
        size < (stored.encode crc32c).length ∧
        writer.size + size < 2 ^ 63 ∧
        world.data.drop writer.size <+: (stored.encode crc32c).take size then
      some { world with
        data := world.data.take writer.size ++ (stored.encode crc32c).take size
        covered := min world.covered writer.size }
    else none
  | .append stored =>
    if writer.failed = false ∧ writer.todo = [] ∧
        writer.index stored.key = none ∧
        writer.size + stored.header.length < 2 ^ 63 ∧
        world.data.drop writer.size <+: stored.encode crc32c then
      let loc := locOf writer.size stored.header
      some { world with
        data := world.data.take writer.size ++ stored.encode crc32c
        covered := min world.covered writer.size
        phase := .owned { writer with
          size := writer.size + stored.header.length
          index := writer.index.insert stored.key loc
          todo := [.entry stored.key loc] } }
    else none
  | .fsync success =>
    if writer.failed = false ∧ writer.todo = [] then
      if success then
        some { world with
          covered := world.data.length
          phase := .owned { writer with todo := [.synced writer.size] } }
      else some { world with phase := .owned { writer with failed := true } }
    else none
  | .footer bytes =>
    if writer.failed = false ∧ writer.todo = [] ∧
        writer.size + bytes.length < 2 ^ 63 ∧
        (bytes = [] ∨ byteAt bytes 0 = tagSeal) then
      some { world with
        data := world.data.take writer.size ++ bytes
        covered := min world.covered writer.size }
    else none
  | .fail => some { world with phase := .owned { writer with failed := true } }
  | .release =>
    if writer.todo = [] then some { world with phase := .free } else none
  | _ => none

/-- The steps of the reader. -/
def readerStep (world : World) : Action → Option World
  | .look size =>
    some { world with seen := some (world.sidecar.map (List.take size)) }
  | .poll =>
    match world.scan, world.seen with
    | some scan, some sidecar =>
      match scan.poll crc32c sidecar world.data with
      | .error _ => some { world with seen := none }
      | .ok none => some { world with scan := none, seen := none }
      | .ok (some polled) =>
        some { world with scan := some (scan.commit polled), seen := none }
    | _, _ => none
  | .rebuild =>
    match world.seen with
    | some sidecar =>
      match recoverSegment crc32c world.data (sidecar.getD []) with
      | .error _ => some { world with seen := none }
      | .ok recovered =>
        some { world with
          scan := if recovered.sealed then none else some (scanOf recovered)
          seen := none }
    | none => none
  | _ => none

/-- The process or the machine stops. -/
def stopStep (world : World) : Action → Option World
  | .kill => some { world with phase := .free }
  | .crash data kept =>
    if data.length < 2 ^ 63 ∧ world.data.take world.covered <+: data then
      some
        { data := data
          covered := world.covered
          sidecar := kept.bind fun size => world.sidecar.map (List.take size)
          phase := .free
          scan := none
          seen := none }
    else none
  | _ => none

/-- One step, if it can be taken. -/
def act (world : World) (action : Action) : Option World :=
  ((world.adoptStep crc32c action).or (match world.phase with
    | .owned writer => world.ownerStep crc32c writer action
    | _ => none)).or
    ((world.readerStep crc32c action).or (world.stopStep action))

/-- Steps one after another. -/
def run (world : World) (actions : List Action) : Option World :=
  actions.foldlM (act crc32c) world

end Model

/-- Any file, of which any part is durable, and no sidecar. -/
structure IsInitial (world : World) : Prop where
  small : world.data.length < 2 ^ 63
  covered_le : world.covered ≤ world.data.length
  sidecar : world.sidecar = none
  phase : world.phase = .free
  scan : world.scan = none
  seen : world.seen = none

end World
end AmberStore.Packstore.History

import AmberStore.Chunkers
import AmberStore.Fstree.Encode
import AmberStore.Lib.Checked

/-!
# Building trees from streams

A directory's entries, or a file's chunks, are taken one by one.  Runs of them
become leaves, runs of leaves become index nodes, and so on, until one object is
left.  A builder returns the objects it emits, children before parents.
-/

open ByteString

namespace AmberStore.Fstree

open Chunkers (ItemChunker)

/-- Why a build fails. -/
inductive BuildError
  | encode (source : Error)
  | noChildren
  deriving DecidableEq

section Build

variable (blake3 : Bytes → Key.Digest Key.size) (hash : Bytes → UInt64)

/-! ## Index levels -/

/-- The open run of a level.  Only a directory's index has separators. -/
structure IdxLevel where
  keys : List Key := []
  seps : List Bytes := []
  runLen : Nat := 0

/-- Builds the index levels above a stream of leaves.  The levels are from the
bottom up. -/
structure IndexBuilder where
  ic : ItemChunker
  isDir : Bool
  levels : List IdxLevel

namespace IndexBuilder

/-- Adds a child to a run. -/
def push (isDir : Bool) (level : IdxLevel) (ck : Key) (sep : Bytes) :
    IdxLevel where
  keys := level.keys ++ [ck]
  seps := if isDir then level.seps ++ [sep] else level.seps
  runLen := level.runLen + 1

/-- The item that decides about a boundary. -/
def itemEnc (isDir : Bool) (ck : Key) (sep : Bytes) : Bytes :=
  if isDir then (marshalPairs [⟨sep, ck.bytes⟩]).drop 1 else ck.bytes

/-- The index node of a run, and the run's greatest separator. -/
def buildNode (isDir : Bool) (level : IdxLevel) :
    Except BuildError (Object × Bytes) :=
  if isDir then do
    let pairs := List.zipWith (fun k s => ⟨s, k.bytes⟩) level.keys level.seps
    let obj ← (encodeDirNode blake3 pairs).mapError .encode
    .ok (obj, level.seps.getLast?.getD [])
  else
    .ok (encodeFileNode blake3 level.keys, [])

/-- Adds a child to the lowest of the given levels.  A run of one child never
ends, so that a new level stays open. -/
def addFrom (ic : ItemChunker) (isDir : Bool) :
    List IdxLevel → (ck : Key) → (sep : Bytes) →
      Except BuildError (List IdxLevel × List Object)
  | [], ck, sep => .ok ([push isDir {} ck sep], [])
  | level :: upper, ck, sep =>
    let level := push isDir level ck sep
    if ic.isBoundary hash (itemEnc isDir ck sep) level.runLen then do
      let (obj, sep) ← buildNode blake3 isDir level
      let (upper, emitted) ← addFrom ic isDir upper obj.key sep
      .ok ({} :: upper, obj :: emitted)
    else
      .ok (level :: upper, [])

/-- Adds one child of the leaf level. -/
def addChild (ib : IndexBuilder) (ck : Key) (sep : Bytes) :
    Except BuildError (IndexBuilder × List Object) := do
  let (levels, emitted) ← addFrom blake3 hash ib.ic ib.isDir ib.levels ck sep
  .ok ({ ib with levels }, emitted)

/-- How many children and levels are open. -/
def openSize (levels : List IdxLevel) : Nat :=
  (levels.map IdxLevel.runLen).sum + levels.length

theorem openSize_cons (level : IdxLevel) (upper : List IdxLevel) :
    openSize (level :: upper) = level.runLen + 1 + openSize upper := by
  simp only [openSize, List.map_cons, List.sum_cons, List.length_cons]
  omega

variable {blake3 hash}

/-- A run that ends is replaced by one child. -/
theorem openSize_addFrom
    {ic : ItemChunker} {isDir : Bool} {levels : List IdxLevel}
    (added : addFrom blake3 hash ic isDir levels ck sep = .ok (after, emitted)) :
    openSize after ≤ openSize levels + 2 ∧
      (levels ≠ [] → openSize after ≤ openSize levels + 1) := by
  induction levels generalizing after ck sep emitted with
  | nil =>
    cases added
    exact ⟨le_rfl, fun present => absurd rfl present⟩
  | cons level upper ih =>
    rw [addFrom] at added
    dsimp only at added
    split at added
    case isFalse =>
      cases added
      simp only [openSize_cons, push]
      omega
    case isTrue ends =>
      obtain ⟨⟨obj, top⟩, -, added⟩ := Checked.bind_eq_ok_iff.mp added
      obtain ⟨⟨above, later⟩, isAdded, same⟩ := Checked.bind_eq_ok_iff.mp added
      cases same
      have bound := (ih isAdded).1
      have two := ItemChunker.two_le_of_isBoundary ends
      simp only [push] at two
      simp only [openSize_cons]
      omega

variable (blake3 hash)

/-- Closes the open runs from the bottom up.  A single child goes up as it
is. -/
def finishFrom (ic : ItemChunker) (isDir : Bool) (levels : List IdxLevel) :
    Except BuildError (Key × List Object) :=
  match levels with
  | [] => .error .noChildren
  | level :: upper =>
    match _ : level.runLen with
    | 0 => finishFrom ic isDir upper
    | 1 =>
      let ck := level.keys.headD (Key.repeated 0)
      let sep := level.seps.headD []
      if _ : upper = [] then
        .ok (ck, [])
      else
        match _ : addFrom blake3 hash ic isDir upper ck sep with
        | .error error => .error error
        | .ok (upper, emitted) => do
            let (root, later) ← finishFrom ic isDir upper
            .ok (root, emitted ++ later)
    | _ + 2 =>
      match buildNode blake3 isDir level with
      | .error error => .error error
      | .ok (obj, sep) =>
        match _ : addFrom blake3 hash ic isDir upper obj.key sep with
        | .error error => .error error
        | .ok (upper, emitted) => do
            let (root, later) ← finishFrom ic isDir upper
            .ok (root, obj :: emitted ++ later)
termination_by openSize levels
decreasing_by
  · rw [openSize_cons]
    omega
  · have bound := (openSize_addFrom ‹_›).2 ‹_›
    rw [openSize_cons]
    omega
  · have bound := (openSize_addFrom ‹_›).1
    rw [openSize_cons]
    omega

/-- Returns the root. -/
def finish (ib : IndexBuilder) : Except BuildError (Key × List Object) :=
  finishFrom blake3 hash ib.ic ib.isDir ib.levels

end IndexBuilder

/-! ## Directories -/

/-- Builds one directory from its entries in order. -/
structure DirBuilder where
  ic : ItemChunker
  idx : IndexBuilder
  leaf : List Entry := []
  leafMax : Bytes := []
  runLen : Nat := 0

namespace DirBuilder

/-- An empty directory. -/
def new (ic : ItemChunker) : DirBuilder where
  ic
  idx := ⟨ic, true, []⟩

/-- Emits the open leaf and adds it to the index. -/
def closeLeaf (db : DirBuilder) :
    Except BuildError (DirBuilder × List Object) := do
  let obj ← (encodeDirLeaf blake3 db.leaf).mapError .encode
  let (idx, emitted) ← db.idx.addChild blake3 hash obj.key db.leafMax
  .ok ({ db with idx, leaf := [], leafMax := [], runLen := 0 }, obj :: emitted)

/-- Adds one entry. -/
def addEntry (db : DirBuilder) (e : Entry) :
    Except BuildError (DirBuilder × List Object) := do
  let framed ← (marshalEntries [e]).mapError .encode
  let enc := framed.drop 1
  let db :=
    { db with
      leafMax := e.name
      leaf := db.leaf ++ [e]
      runLen := db.runLen + 1 }
  if db.ic.isBoundary hash enc db.runLen then
    closeLeaf blake3 hash db
  else
    .ok (db, [])

/-- Adds entries in order. -/
def addEntries (db : DirBuilder) : List Entry →
    Except BuildError (DirBuilder × List Object)
  | [] => .ok (db, [])
  | e :: rest => do
      let (db, emitted) ← db.addEntry blake3 hash e
      let (db, later) ← addEntries db rest
      .ok (db, emitted ++ later)

/-- Closes what is open and returns the root. -/
def finish (db : DirBuilder) : Except BuildError (Key × List Object) :=
  if 0 < db.runLen ∨ db.idx.levels.isEmpty then do
    let (db, emitted) ← closeLeaf blake3 hash db
    let (root, later) ← db.idx.finish blake3 hash
    .ok (root, emitted ++ later)
  else
    db.idx.finish blake3 hash

/-- Builds a directory from its entries. -/
def build (ic : ItemChunker) (entries : List Entry) :
    Except BuildError (Key × List Object) := do
  let (db, emitted) ← (new ic).addEntries blake3 hash entries
  let (root, later) ← db.finish blake3 hash
  .ok (root, emitted ++ later)

end DirBuilder

end Build

end AmberStore.Fstree

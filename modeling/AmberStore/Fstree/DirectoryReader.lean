import AmberStore.Fstree.Lookup
import AmberStore.Lib.LexicalPath
import AmberStore.Lib.Recency

/-!
# Reading directories again and again

Paths are resolved one component after another with a lookup that may have a
state.  The free functions look up without one.  A reader keeps the directory
objects it decodes, and when it is full drops those that were not used lately.

A lookup goes down index nodes for as long as there is fuel; where it runs out
there is no answer, and the state is that of the moment.
-/

open ByteString LexicalPath

namespace AmberStore.Fstree

open Loop (Next)

section Read

variable {ε : Type} {σ : Type}

/-! ## Paths -/

abbrev sIfmt : UInt64 := 0o170000
abbrev sIfdir : UInt64 := 0o040000

/-- What a lookup with a state gives: an answer, unless it is still under way,
and the state it leaves. -/
abbrev Step (ε σ α : Type) := σ → Option (Except (WalkError ε) α) × σ

/-- The key of a directory entry. -/
def contentKeyOf (name : Bytes) (e : Entry) : Except (WalkError ε) Key :=
  if e.mode &&& sIfmt ≠ sIfdir then .error (.notDir name)
  else (Key.parse e.contentKey).mapError (.contentKey name)

/-- Goes from a directory along components to another. -/
def walkPathFrom (lookup : Key → Bytes → Step ε σ Entry) (path : Bytes) :
    Key → List Bytes → Step ε σ Key
  | k, [], state => (some (.ok k), state)
  | k, comp :: rest, state =>
    if comp = [] ∨ comp = [dot] then
      walkPathFrom lookup path k rest state
    else if comp = dotDot then
      (some (.error (.dotDot path)), state)
    else
      match lookup k comp state with
      | (none, state) => (none, state)
      | (some (.error error), state) => (some (.error error), state)
      | (some (.ok found), state) =>
        match contentKeyOf comp found with
        | .error error => (some (.error error), state)
        | .ok k => walkPathFrom lookup path k rest state

/-- The key of the directory at a path. -/
def walkPath (lookup : Key → Bytes → Step ε σ Entry) (root : Key)
    (path : Bytes) : Step ε σ Key :=
  walkPathFrom lookup path root (path.splitOn slash)

/-- Goes from an entry along components to another.  There is no entry as long
as the directory is the root. -/
def walkEntryFrom (lookup : Key → Bytes → Step ε σ Entry) (path : Bytes) :
    Key → Option Entry → List Bytes → Step ε σ (Option Entry)
  | _, cur, [], state => (some (.ok cur), state)
  | dir, cur, comp :: rest, state =>
    if comp = [] ∨ comp = [dot] then
      walkEntryFrom lookup path dir cur rest state
    else if comp = dotDot then
      (some (.error (.dotDot path)), state)
    else
      let below : Except (WalkError ε) Key :=
        match cur with
        | none => .ok dir
        | some c => contentKeyOf c.name c
      match below with
      | .error error => (some (.error error), state)
      | .ok dir =>
        match lookup dir comp state with
        | (none, state) => (none, state)
        | (some (.error error), state) => (some (.error error), state)
        | (some (.ok found), state) =>
          walkEntryFrom lookup path dir (some found) rest state

/-- The entry at a path. -/
def walkEntry (lookup : Key → Bytes → Step ε σ Entry) (root : Key)
    (path : Bytes) : Step ε σ (Option Entry) :=
  walkEntryFrom lookup path root none (path.splitOn slash)

variable (get : Key → Except ε Bytes)

/-- A lookup that has no state. -/
def freeLookup (fuel : Nat) (k : Key) (name : Bytes) : Step ε Unit Entry :=
  fun state => (lookupEntry get fuel k name, state)

/-- The key of the directory at a path. -/
def resolvePath (fuel : Nat) (root : Key) (path : Bytes) :
    Option (Except (WalkError ε) Key) :=
  (walkPath (freeLookup get fuel) root path ()).1

/-- The entry at a path. -/
def resolveEntry (fuel : Nat) (root : Key) (path : Bytes) :
    Option (Except (WalkError ε) (Option Entry)) :=
  (walkEntry (freeLookup get fuel) root path ()).1

/-! ## The reader -/

/-- A directory object that is decoded. -/
inductive DecodedDirectory
  | leaf (entries : List Entry)
  | node (pairs : List DirPair)

/-- A reader of directories that keeps what it decodes. -/
structure DirectoryReader where
  capacity : Nat
  clock : Nat
  directories : List (Recency.Slot Key DecodedDirectory)
  commits : List (Key × Key)

namespace DirectoryReader

/-- A reader that has read nothing.  A capacity of zero is taken as one. -/
def withCapacity (capacity : Nat) : DirectoryReader :=
  ⟨max capacity 1, 0, [], []⟩

/-- Reads and decodes a directory object. -/
def decode (k : Key) : Except (WalkError ε) DecodedDirectory := do
  let data ← (get k).mapError (.read k)
  match k.type_ with
  | some .dirLeaf => do
      let entries ← (decodeDirLeaf data).mapError (.decodeDirLeaf k)
      .ok (.leaf entries)
  | some .dirNode => do
      let pairs ← (decodeDirNode data).mapError (.decodeDirNode k)
      .ok (.node pairs)
  | _ => .error (.notDirObject k)

variable (reader : DirectoryReader)

/-- Drops the directories that were not used lately. -/
def evict : DirectoryReader :=
  { reader with
    directories := Recency.evict reader.directories (reader.capacity / 2) }

/-- Makes room for a directory. -/
def makeRoom : DirectoryReader :=
  if reader.capacity ≤ reader.directories.length then reader.evict else reader

/-- A directory object, from those that are kept if it is there. -/
def directory (k : Key) :
    Except (WalkError ε) DecodedDirectory × DirectoryReader :=
  let now := reader.clock + 1
  match Recency.find reader.directories k with
  | some slot => (.ok slot.value,
      { reader with
        clock := now
        directories := Recency.restamp reader.directories k now })
  | none =>
    match decode get k with
    | .error error => (.error error, { reader with clock := now })
    | .ok decoded => (.ok decoded,
        { reader.makeRoom with
          clock := now
          directories := ⟨k, decoded, now⟩ :: reader.makeRoom.directories })

/-- The directory that a key stands for. -/
def dirOf (k : Key) : Except (WalkError ε) Key × DirectoryReader :=
  if k.type_ ≠ some .commit then
    (Fstree.dirOf get k, reader)
  else
    match reader.commits.lookup k with
    | some tree => (.ok tree, reader)
    | none =>
      match Fstree.dirOf get k with
      | .error error => (.error error, reader)
      | .ok tree =>
        let kept :=
          if reader.capacity ≤ reader.commits.length then []
          else reader.commits
        (.ok tree, { reader with commits := (k, tree) :: kept })

/-- Searches a directory object: a leaf has the entry of a name or not, and below
an index node one child may have it. -/
def search (name : Bytes) (k : Key) :
    DecodedDirectory → Next Key (Except (WalkError ε) Entry)
  | .leaf entries =>
    match findEntry entries name with
    | some e => .done (.ok e)
    | none => .done (.error (.notFound name))
  | .node pairs =>
    match findChild pairs name with
    | none => .done (.error (.notFound name))
    | some child =>
      match (Key.parse child).mapError (.childKey k) with
      | .error error => .done (.error error)
      | .ok k => .more k

/-- Goes down from a directory to the entry of a name. -/
def lookupFrom (name : Bytes) : (fuel : Nat) → Key →
    Step ε DirectoryReader Entry
  | 0, _, reader => (none, reader)
  | fuel + 1, k, reader =>
    match reader.directory get k with
    | (.error error, reader) => (some (.error error), reader)
    | (.ok decoded, reader) =>
      match search name k decoded with
      | .done outcome => (some outcome, reader)
      | .more k => lookupFrom name fuel k reader

/-- The entry of a name in a directory. -/
def lookupEntry (fuel : Nat) (dir : Key) (name : Bytes) :
    Step ε DirectoryReader Entry := fun reader =>
  match reader.dirOf get dir with
  | (.error error, reader) => (some (.error error), reader)
  | (.ok k, reader) => lookupFrom get name fuel k reader

/-- The key of the directory at a path. -/
def resolvePath (fuel : Nat) (root : Key) (path : Bytes) :
    Step ε DirectoryReader Key :=
  walkPath (lookupEntry get fuel) root path

/-- The entry at a path. -/
def resolveEntry (fuel : Nat) (root : Key) (path : Bytes) :
    Step ε DirectoryReader (Option Entry) :=
  walkEntry (lookupEntry get fuel) root path

end DirectoryReader

end Read

end AmberStore.Fstree

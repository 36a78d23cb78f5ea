import AmberStore.Fstree.Scan
import AmberStore.Fstree.Walk
import AmberStore.Lib.Sorted

/-!
# Reading directories and files

One entry by its name, all entries, a page of entries, and the content of a
file.  The recursions go down the index nodes as far as the fuel allows; where it
does not there is no answer.
-/

open ByteString

namespace AmberStore.Fstree

open Loop (Next)

section Read

variable {ε : Type} (get : Key → Except ε Bytes)

/-- The directory that a key stands for: a commit stands for its tree. -/
def dirOf (k : Key) : Except (WalkError ε) Key :=
  match k.type_ with
  | some .dirLeaf | some .dirNode => .ok k
  | some .commit => do
      let data ← (get k).mapError (.read k)
      let c ← (decodeCommit k data).mapError .children
      .ok c.tree
  | _ => .error (.notDirObject k)

/-! ## One entry -/

/-- The entry of a name, where entries are in the order of their names. -/
def findEntry (entries : List Entry) (name : Bytes) : Option Entry :=
  let i := Sorted.partitionPoint (fun e => decide (e.name < name)) entries
  (entries[i]?).filter fun e => e.name = name

/-- The child that may hold a name: the first whose separator is not below
it. -/
def findChild (pairs : List DirPair) (name : Bytes) : Option Bytes :=
  let i := Sorted.partitionPoint (fun p => decide (p.sepName < name)) pairs
  (pairs[i]?).map DirPair.childKey

/-- The entry of a name in a leaf that is decoded. -/
def decodedEntry (k : Key) (data name : Bytes) : Except (WalkError ε) Entry := do
  let entries ← (decodeDirLeaf data).mapError (.decodeDirLeaf k)
  match findEntry entries name with
  | some e => .ok e
  | none => .error (.notFound name)

/-- The entry of a name in a leaf.  An entry that the scan finds is decoded
alone, as an array of one element. -/
def leafEntry (k : Key) (data name : Bytes) : Except (WalkError ε) Entry :=
  match Scan.leaf data name with
  | .found start stop =>
    match decodeDirLeaf (0x81 :: slice data start stop) with
    | .ok [e] => .ok e
    | _ => decodedEntry k data name
  | .missing => .error (.notFound name)
  | .unsure => decodedEntry k data name

/-- The child that may hold a name in an index node that is decoded. -/
def decodedChild (k : Key) (data name : Bytes) : Except (WalkError ε) Key := do
  let pairs ← (decodeDirNode data).mapError (.decodeDirNode k)
  match findChild pairs name with
  | some child => (Key.parse child).mapError (.childKey k)
  | none => .error (.notFound name)

/-- The child of an index node that may hold a name. -/
def nodeChild (k : Key) (data name : Bytes) : Except (WalkError ε) Key :=
  match Scan.node data name with
  | .child child => (Key.parse child).mapError (.childKey k)
  | .missing => .error (.notFound name)
  | .unsure => decodedChild k data name

/-- Goes down one level. -/
def lookupStep (name : Bytes) (k : Key) :
    Next Key (Except (WalkError ε) Entry) :=
  match (get k).mapError (.read k) with
  | .error error => .done (.error error)
  | .ok data =>
    match k.type_ with
    | some .dirLeaf => .done (leafEntry k data name)
    | some .dirNode =>
      match nodeChild k data name with
      | .error error => .done (.error error)
      | .ok child => .more child
    | _ => .done (.error (.notDirObject k))

/-- The entry of a name in a directory. -/
def lookupEntry (fuel : Nat) (dir : Key) (name : Bytes) :
    Option (Except (WalkError ε) Entry) :=
  match dirOf get dir with
  | .error error => some (.error error)
  | .ok k => Loop.run (lookupStep get name) fuel k

/-! ## All entries -/

/-- A walk that may run out of fuel. -/
abbrev Walking (ε : Type) := ExceptT (WalkError ε) Option

/-- No fuel is left. -/
def outOfFuel {α : Type} : Walking ε α :=
  ExceptT.mk none

/-- What a walk does in one go. -/
def answered {α : Type} (outcome : Except (WalkError ε) α) : Walking ε α :=
  ExceptT.mk (some outcome)

@[simp] theorem answered_bind
    (value : α) (next : α → Walking ε β) :
    answered (.ok value) >>= next = next value := rfl

/-- Adds the entries of a leaf, whose names must be after those before. -/
def pushEntries (k : Key) : (out entries : List Entry) →
    Except (WalkError ε) (List Entry)
  | out, [] => .ok out
  | out, e :: rest =>
    match out.getLast? with
    | some prev =>
      if e.name ≤ prev.name then .error (.outOfOrder k e.name prev.name)
      else pushEntries k (out ++ [e]) rest
    | none => pushEntries k (out ++ [e]) rest

/-- Adds the entries below a key. -/
def collectInner : (fuel : Nat) → (out : List Entry) → Key →
    Walking ε (List Entry)
  | 0, _, _ => outOfFuel
  | fuel + 1, out, k => do
      let data ← answered ((get k).mapError (.read k))
      match k.type_ with
      | some .dirLeaf =>
        let entries ← answered
          ((decodeDirLeaf data).mapError (.decodeDirLeaf k))
        answered (pushEntries k out entries)
      | some .dirNode =>
        let pairs ← answered
          ((decodeDirNode data).mapError (.decodeDirNode k))
        pairs.foldlM (fun out p => do
          let child ← answered
            ((Key.parse p.childKey).mapError (.childKey k))
          collectInner fuel out child) out
      | _ => answered (.error (.notDirObject k))

/-- All entries of a directory. -/
def collectEntries (fuel : Nat) (k : Key) : Walking ε (List Entry) := do
  let k ← answered (dirOf get k)
  collectInner get fuel [] k

/-! ## A page of entries -/

/-- Adds entries up to a limit, and tells whether there was one too many. -/
def pushUpTo (limit : Nat) : (out entries : List Entry) → List Entry × Bool
  | out, [] => (out, false)
  | out, e :: rest =>
    if out.length = limit then (out, true)
    else pushUpTo limit (out ++ [e]) rest

/-- Takes children in order until one tells that there is more. -/
def listChildren (listInto : List Entry → Key → Walking ε (List Entry × Bool))
    (k : Key) : (out : List Entry) → List DirPair →
      Walking ε (List Entry × Bool)
  | out, [] => pure (out, false)
  | out, p :: rest => do
      let child ← answered ((Key.parse p.childKey).mapError (.childKey k))
      let (out, more) ← listInto out child
      if more then pure (out, true) else listChildren listInto k out rest

/-- Adds the entries below a key whose names are after a name, up to a limit,
and tells whether there are more. -/
def listInto (after : Bytes) (limit : Nat) : (fuel : Nat) →
    (out : List Entry) → Key → Walking ε (List Entry × Bool)
  | 0, _, _ => outOfFuel
  | fuel + 1, out, k => do
      let data ← answered ((get k).mapError (.read k))
      match k.type_ with
      | some .dirLeaf =>
        let entries ← answered
          ((decodeDirLeaf data).mapError (.decodeDirLeaf k))
        let i := Sorted.partitionPoint
          (fun e => decide (e.name ≤ after)) entries
        pure (pushUpTo limit out (entries.drop i))
      | some .dirNode =>
        let pairs ← answered
          ((decodeDirNode data).mapError (.decodeDirNode k))
        let i := Sorted.partitionPoint
          (fun p => decide (p.sepName ≤ after)) pairs
        listChildren (listInto after limit fuel) k out (pairs.drop i)
      | _ => answered (.error (.notDirObject k))

/-- At most so many entries of a directory after a name, and whether there are
more. -/
def listEntries (fuel : Nat) (dir : Key) (after : Bytes) (limit : Nat) :
    Walking ε (List Entry × Bool) :=
  if limit = 0 then
    answered (.error (.badLimit limit))
  else do
    let dir ← answered (dirOf get dir)
    listInto get after limit fuel [] dir

/-! ## The content of a file -/

/-- Writes the content below a key. -/
def contentInner : (fuel : Nat) → (w : Bytes) → Key → Walking ε Bytes
  | 0, _, _ => outOfFuel
  | fuel + 1, w, k => do
      let data ← answered ((get k).mapError (.contentRead k))
      match k.type_ with
      | some .blob => pure (w ++ data)
      | some .fileNode =>
        let children ← answered ((decodeFileNode data).mapError .codec)
        children.foldlM (contentInner fuel) w
      | _ => answered (.error (.notContentObject k))

/-- The content of a file. -/
def writeContent (fuel : Nat) (k : Key) : Walking ε Bytes :=
  contentInner get fuel [] k

end Read

end AmberStore.Fstree

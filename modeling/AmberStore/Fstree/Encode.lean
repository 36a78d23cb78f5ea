import AmberStore.Fx.Wellformed
import AmberStore.Key
import Mathlib.Data.List.Sort

/-!
# Encoding of tree objects

The objects of the filesystem tree: blobs, the index nodes of files, the leaves
and index nodes of directories, and spilled extended attributes.  The encoders
write deterministic CBOR and derive the key of the object from it.
-/

open ByteString

namespace AmberStore.Fstree

open Cbor

/-- A directory entry.  The last five fields are absent when empty. -/
structure Entry where
  name : Bytes := []
  mode : UInt64 := 0
  uid : UInt64 := 0
  gid : UInt64 := 0
  mtime : Int64 := 0
  contentKey : Bytes := []
  linkTarget : Bytes := []
  rdev : List UInt64 := []
  xattrsIn : Bytes := []
  xattrsKey : Bytes := []
  deriving DecidableEq

/-- A pair of a directory's index node: the highest name below a child, and
the child's key. -/
structure DirPair where
  sepName : Bytes := []
  childKey : Bytes := []
  deriving DecidableEq

/-- A built object. -/
structure Object where
  key : Key
  bytes : Bytes
  deriving DecidableEq

/-- Why an object cannot be encoded or decoded. -/
inductive Error
  | decodeFileNode (source : Fx.CborError)
  | fileNodeChild (index : Nat) (source : Key.Error)
  | decodeDirLeaf (source : Fx.CborError)
  | decodeDirNode (source : Fx.CborError)
  | entryContentKey (name : Bytes) (source : Key.Error)
  | entryXattrsKey (name : Bytes) (source : Key.Error)
  | dirNodeChildKey (source : Key.Error)
  | marshalRawMessage (source : Fx.CborError)
  deriving DecidableEq

/-! ## Extended attributes -/

/-- Extended attributes, in the order of their names. -/
structure Xattrs where
  pairs : List (Bytes × Bytes)
  sorted : pairs.Pairwise fun left right => left.1 < right.1

/-- The attributes as a map, in the order of their encoded names. -/
def encodeXattrs (m : Xattrs) : Bytes :=
  appendHead .map m.pairs.length ++
    (m.pairs.insertionSort fun left right =>
      ¬ appendBstr right.1 < appendBstr left.1).flatMap
        fun (name, value) => appendBstr name ++ appendBstr value

/-! ## Entries and pairs -/

/-- Attributes are spliced in as they are, so they must be one item of definite
lengths. -/
def checkXattrsIn (e : Entry) : Except Error Unit :=
  if e.xattrsIn.isEmpty then .ok ()
  else (Fx.wellformed e.xattrsIn Fx.marshalerWf).mapError .marshalRawMessage

/-- The map of an entry. -/
def appendEntry (e : Entry) : Except Error Bytes := do
  let count (content : Bool) := if content then 0 else 1
  let pairs := 5 + count e.contentKey.isEmpty + count e.linkTarget.isEmpty +
    count e.rdev.isEmpty + count e.xattrsIn.isEmpty + count e.xattrsKey.isEmpty
  checkXattrsIn e
  .ok (appendHead .map pairs ++
    appendHead .uint 0 ++ appendBstr e.name ++
    appendHead .uint 1 ++ appendHead .uint e.mode.toNat ++
    appendHead .uint 2 ++ appendHead .uint e.uid.toNat ++
    appendHead .uint 3 ++ appendHead .uint e.gid.toNat ++
    appendHead .uint 4 ++ appendInt e.mtime ++
    optionalField 5 e.contentKey (appendBstr e.contentKey) ++
    optionalField 6 e.linkTarget (appendBstr e.linkTarget) ++
    optionalField 7 e.rdev (appendHead .array e.rdev.length ++
      e.rdev.flatMap fun r => appendHead .uint r.toNat) ++
    optionalField 8 e.xattrsIn e.xattrsIn ++
    optionalField 9 e.xattrsKey (appendBstr e.xattrsKey))

/-- The array of entries. -/
def marshalEntries (entries : List Entry) : Except Error Bytes := do
  let maps ← entries.mapM appendEntry
  .ok (appendHead .array entries.length ++ maps.flatten)

/-- The bytes of a pair. -/
def appendPair (p : DirPair) : Bytes :=
  appendHead .array 2 ++ appendBstr p.sepName ++ appendBstr p.childKey

/-- The array of pairs. -/
def marshalPairs (pairs : List DirPair) : Bytes :=
  appendHead .array pairs.length ++ pairs.flatMap appendPair

/-! ## Objects -/

section Objects

variable (blake3 : Bytes → Key.Digest Key.size)

/-- An object of a type, keyed by its bytes and a length modulo `2 ^ 64`. -/
def newObject (type_ : Key.ObjectType) (length : Nat) (bytes : Bytes) :
    Object :=
  ⟨Key.newFromHash type_ (UInt64.ofNat length) (blake3 bytes), bytes⟩

/-- Content as a blob. -/
def encodeBlob (data : Bytes) : Object :=
  newObject blake3 .blob data.length data

/-- The index node of a file, keyed by the length of the content below it. -/
def encodeFileNode (children : List Key) : Object :=
  newObject blake3 .fileNode (children.map Key.length).sum
    (appendHead .array children.length ++
      children.flatMap fun c => appendBstr c.bytes)

/-- The length below a key field: none unless it holds a key. -/
def keyFieldLength (field : Bytes) (failed : Key.Error → Error) :
    Except Error Nat :=
  if field.length = Key.size then do
    let key ← (Key.parse field).mapError failed
    .ok key.length
  else
    .ok 0

/-- The lengths below an entry. -/
def entryLength (e : Entry) : Except Error Nat := do
  let content ← keyFieldLength e.contentKey (.entryContentKey e.name)
  let xattrs ← keyFieldLength e.xattrsKey (.entryXattrsKey e.name)
  .ok (content + xattrs)

/-- The leaf of a directory. -/
def encodeDirLeaf (entries : List Entry) : Except Error Object := do
  let b ← marshalEntries entries
  let sub ← entries.mapM entryLength
  .ok (newObject blake3 .dirLeaf (b.length + sub.sum) b)

/-- The index node of a directory. -/
def encodeDirNode (pairs : List DirPair) : Except Error Object := do
  let b := marshalPairs pairs
  let sub ← pairs.mapM fun p => do
    let key ← (Key.parse p.childKey).mapError .dirNodeChildKey
    .ok key.length
  .ok (newObject blake3 .dirNode (b.length + sub.sum) b)

end Objects

end AmberStore.Fstree

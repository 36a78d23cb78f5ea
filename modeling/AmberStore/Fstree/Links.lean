import AmberStore.Commit.Wire
import AmberStore.Fstree.Decode
import AmberStore.Gitobj.Links

/-!
# What an object refers to

The children of an object in the order it names them.  A link to a child says
whether a walk may count the child without reading it: for the store's own types
the child's key tells, for a git object the object that refers to it.
-/

open ByteString

namespace AmberStore.Fstree

open Gitobj (Link)

/-- Why the children of an object cannot be told. -/
inductive ChildKeysError
  | decodeFileNode (key : Key) (source : Error)
  | decodeDirNode (key : Key) (source : Error)
  | dirNodeChildKey (key : Key) (source : Key.Error)
  | decodeDirLeaf (key : Key) (source : Error)
  | decodeGit (key : Key) (source : Gitobj.Error)
  | decodeCommit (key : Key) (source : Commit.Error)
  | commitFootprint (key : Key)
  | commitLength (key : Key) (want own : Nat)
  | entryContentKey (name : Bytes) (source : Key.Error)
  | entryXattrsKey (name : Bytes) (source : Key.Error)
  | reservedType (key : Key)
  deriving DecidableEq

/-- Decodes a commit and holds its key to the key rule. -/
def decodeCommit (k : Key) (data : Bytes) : Except ChildKeysError Commit := do
  let c ← (Commit.decode data).mapError (.decodeCommit k)
  match Commit.footprint data.length c.trees with
  | none => .error (.commitFootprint k)
  | some want =>
    if k.length ≠ want then .error (.commitLength k want data.length)
    else .ok c

/-- The key in a field, if it holds one. -/
def fieldKey (field : Bytes) (failed : Key.Error → ChildKeysError) :
    Except ChildKeysError (List Key) :=
  if field.isEmpty then .ok []
  else do
    let key ← (Key.parse field).mapError failed
    .ok [key]

/-- The children of an entry: its content, then its attributes. -/
def entryKeys (ent : Entry) : Except ChildKeysError (List Key) := do
  let content ← fieldKey ent.contentKey (.entryContentKey ent.name)
  let xattrs ← fieldKey ent.xattrsKey (.entryXattrsKey ent.name)
  .ok (content ++ xattrs)

/-- The links of a git object. -/
def gitLinks (k : Key) (data : Bytes) : Except ChildKeysError (List Link) :=
  (Gitobj.links data).mapError (.decodeGit k)

/-- The keys that an object refers to, in encounter order.  The source panics
on a key without a type, which no parsed key is. -/
def childKeys (k : Key) (data : Bytes) : Except ChildKeysError (List Key) :=
  match k.type_ with
  | none => .error (.reservedType k)
  | some .blob | some .xattrSet => .ok []
  | some .fileNode => (decodeFileNode data).mapError (.decodeFileNode k)
  | some .dirNode => do
      let pairs ← (decodeDirNode data).mapError (.decodeDirNode k)
      pairs.mapM fun p => (Key.parse p.childKey).mapError (.dirNodeChildKey k)
  | some .dirLeaf => do
      let entries ← (decodeDirLeaf data).mapError (.decodeDirLeaf k)
      let keys ← entries.mapM entryKeys
      .ok keys.flatten
  | some .commit => do
      let c ← decodeCommit k data
      .ok (c.trees ++ c.parents)
  | some .gitSha1 => do
      let links ← gitLinks k data
      .ok (links.map Link.key)

/-- Whether the key says that the object is a leaf.  A git key says nothing of
the kind. -/
def isLeafKey (k : Key) : Bool :=
  k.type_ = some .blob ∨ k.type_ = some .xattrSet

/-- The link to a root: all that is known of it is what its key says. -/
def linkTo (k : Key) : Link :=
  ⟨k, isLeafKey k⟩

/-- The children of an object as links. -/
def links (k : Key) (data : Bytes) : Except ChildKeysError (List Link) :=
  if k.type_ = some .gitSha1 then
    gitLinks k data
  else do
    let keys ← childKeys k data
    .ok (keys.map linkTo)

/-- Only for a git object does a link say more than the key. -/
def Honest (link : Link) : Prop :=
  link.key.type_ = some .gitSha1 ∨ link.leaf = isLeafKey link.key

theorem honest_linkTo (k : Key) : Honest (linkTo k) :=
  .inr rfl

theorem honest_of_links
    (isRead : links k data = .ok found) : ∀ link ∈ found, Honest link := by
  unfold links at isRead
  split at isRead
  case isTrue =>
    intro link isLink
    exact .inl (Gitobj.isGit_of_links
      (Checked.mapError_eq_ok_iff.mp isRead) link isLink)
  case isFalse =>
    obtain ⟨keys, -, same⟩ := Checked.bind_eq_ok_iff.mp isRead
    rw [← Except.ok.inj same, List.forall_mem_map]
    exact fun key _ => honest_linkTo key

end AmberStore.Fstree

import AmberStore.Lib.Checked
import AmberStore.Fx.Wellformed
import AmberStore.Key

/-!
# Commits

A commit records a directory root, ordered parents, who wrote and who recorded
it, a message, and what a conflicted tree needs besides.  It is encoded as a
deterministic CBOR map with the integer keys 0 to 9, of which the last five are
left out when they are empty.
-/

open ByteString

namespace AmberStore

open Cbor

/-- Who acted and when. -/
structure Identity where
  name : String
  email : String
  /-- The time in nanoseconds since the Unix epoch. -/
  when_ : Int64
  /-- Minutes east of UTC. -/
  tzOffset : Int32
  deriving DecidableEq

/-- A snapshot record. -/
structure Commit where
  tree : Key
  /-- The parent commits, the mainline first. -/
  parents : List Key
  author : Identity
  committer : Identity
  message : String
  signature : Bytes
  publicKey : Bytes
  /-- What follows the change through rewrites, empty when there is none. -/
  changeId : Bytes
  /-- The further terms of a conflicted tree. -/
  conflictTerms : List Key
  /-- One label for each term, or none. -/
  conflictLabels : List String
  deriving DecidableEq

namespace Commit

/-- The most parents. -/
abbrev maxParents : Nat := 256

/-- The longest name or email in bytes. -/
abbrev maxIdentityLen : Nat := 1024

/-- The longest message in bytes. -/
abbrev maxMessageLen : Nat := 1 <<< 20

/-- The longest signature in bytes. -/
abbrev maxSignatureLen : Nat := 64 <<< 10

/-- The longest public key in bytes. -/
abbrev maxPublicKeyLen : Nat := 16 <<< 10

/-- The largest distance from UTC in minutes. -/
abbrev maxTzOffset : Int32 := 1439

/-- The longest change id in bytes. -/
abbrev maxChangeIdLen : Nat := 64

/-- The most conflict terms after the tree. -/
abbrev maxConflictTerms : Nat := 254

/-- The longest conflict label in bytes. -/
abbrev maxLabelLen : Nat := 64 <<< 10

/-! ## Errors -/

/-- Why a text is refused. -/
inductive TextError
  | tooLong (max : Nat)
  | controlChar
  deriving DecidableEq, Repr

/-- Why an identity is refused. -/
inductive IdentityError
  | name (error : TextError)
  | email (error : TextError)
  | tzOffset (value : Int64)
  deriving DecidableEq, Repr

/-- Why what was unmarshalled is not a commit. -/
inductive ConvertError
  | tree (error : Key.Error)
  | parent (index : Nat) (error : Key.Error)
  | author (error : IdentityError)
  | committer (error : IdentityError)
  | conflictTerm (index : Nat) (error : Key.Error)
  deriving DecidableEq, Repr

/-- Why a commit is not encoded or bytes are not decoded. -/
inductive Error
  | tree (error : Key.Error)
  | treeNotDirectory (key : Key) (type_ : Option Key.ObjectType)
  | tooManyParents (count : Nat)
  | parent (index : Nat) (error : Key.Error)
  | parentNotCommit (index : Nat) (key : Key)
      (type_ : Option Key.ObjectType)
  | duplicateParent (index : Nat) (key : Key)
  | author (error : IdentityError)
  | committer (error : IdentityError)
  | messageTooLong
  | signatureTooLong
  | publicKeyTooLong
  | changeIdTooLong
  | conflictTermCount (count : Nat)
  | conflictTerm (index : Nat) (error : Key.Error)
  | conflictTermNotDirectory (index : Nat) (key : Key)
      (type_ : Option Key.ObjectType)
  | labelsWithoutConflict
  | labelCount (labels want : Nat)
  | label (index : Nat) (error : TextError)
  | labelsAllEmpty
  | decode (error : Fx.CborError)
  | convert (error : ConvertError)
  | invalid (error : Error)
  | notCanonical
  deriving DecidableEq

/-! ## Validation -/

/-- The rules of an identity's texts and of conflict labels. -/
def validateText (text : String) (max : Nat) : Except TextError Unit :=
  if max < (utf8 text).length then
    .error (.tooLong max)
  else if text.toList.any isControl then
    .error .controlChar
  else
    .ok ()

/-- The rules of an identity. -/
def validateIdentity (identity : Identity) : Except IdentityError Unit := do
  (validateText identity.name maxIdentityLen).mapError .name
  (validateText identity.email maxIdentityLen).mapError .email
  if ¬(-maxTzOffset ≤ identity.tzOffset ∧ identity.tzOffset ≤ maxTzOffset) then
    .error (.tzOffset identity.tzOffset.toInt64)
  else
    .ok ()

/-- Whether a key is that of a directory. -/
def isDirectory (key : Key) : Bool :=
  key.type_ = some .dirLeaf || key.type_ = some .dirNode

/-- Checks the parents from the given position on, against those before. -/
def checkParents : (index : Nat) → (seen parents : List Key) →
    Except Error Unit
  | _, _, [] => .ok ()
  | index, seen, p :: parents => do
      p.validate.mapError (.parent index)
      if p.type_ ≠ some .commit then
        .error (.parentNotCommit index p p.type_)
      else if p ∈ seen then
        .error (.duplicateParent index p)
      else
        checkParents (index + 1) (p :: seen) parents

/-- Checks the conflict terms from the given position on. -/
def checkTerms : (index : Nat) → (terms : List Key) → Except Error Unit
  | _, [] => .ok ()
  | index, t :: terms => do
      t.validate.mapError (.conflictTerm index)
      if !isDirectory t then
        .error (.conflictTermNotDirectory index t t.type_)
      else
        checkTerms (index + 1) terms

/-- Checks the conflict labels from the given position on, and says whether
one of them is not empty. -/
def checkLabels : (index : Nat) → (labelled : Bool) → (labels : List String) →
    Except Error Bool
  | _, labelled, [] => .ok labelled
  | index, labelled, l :: labels => do
      (validateText l maxLabelLen).mapError (.label index)
      checkLabels (index + 1) (labelled || l ≠ "") labels

/-- The rules of the labels of a conflict. -/
def validateLabels (c : Commit) : Except Error Unit :=
  if c.conflictLabels = [] then
    .ok ()
  else if c.conflictTerms = [] then
    .error .labelsWithoutConflict
  else
    let want := 1 + c.conflictTerms.length
    if c.conflictLabels.length ≠ want then
      .error (.labelCount c.conflictLabels.length want)
    else do
      let labelled ← checkLabels 0 false c.conflictLabels
      if !labelled then .error .labelsAllEmpty else .ok ()

/-- Checks the whole record. -/
def validate (c : Commit) : Except Error Unit := do
  c.tree.validate.mapError .tree
  if !isDirectory c.tree then
    .error (.treeNotDirectory c.tree c.tree.type_)
  else if maxParents < c.parents.length then
    .error (.tooManyParents c.parents.length)
  else
    checkParents 0 [] c.parents
    (validateIdentity c.author).mapError .author
    (validateIdentity c.committer).mapError .committer
    if maxMessageLen < (utf8 c.message).length then
      .error .messageTooLong
    else if maxSignatureLen < c.signature.length then
      .error .signatureTooLong
    else if maxPublicKeyLen < c.publicKey.length then
      .error .publicKeyTooLong
    else if maxChangeIdLen < c.changeId.length then
      .error .changeIdTooLong
    else if c.conflictTerms.length % 2 ≠ 0 ∨
        maxConflictTerms < c.conflictTerms.length then
      .error (.conflictTermCount c.conflictTerms.length)
    else
      checkTerms 0 c.conflictTerms
      c.validateLabels

/-! ## Encoding -/

/-- The bytes of an identity. -/
def encodeIdentity (identity : Identity) : Bytes :=
  appendHead .map 4 ++
    appendHead .uint 0 ++ appendTstr identity.name ++
    appendHead .uint 1 ++ appendTstr identity.email ++
    appendHead .uint 2 ++ appendInt identity.when_ ++
    appendHead .uint 3 ++ appendInt identity.tzOffset.toInt64

/-- The bytes of a list of keys. -/
def appendKeys (keys : List Key) : Bytes :=
  appendHead .array keys.length ++ keys.flatMap fun key => appendBstr key.bytes

/-- The canonical encoding, without validating first. -/
def encodeUnchecked (c : Commit) : Bytes :=
  let pairs := 5 + (if c.signature.isEmpty then 0 else 1) +
    (if c.publicKey.isEmpty then 0 else 1) +
    (if c.changeId.isEmpty then 0 else 1) +
    (if c.conflictTerms.isEmpty then 0 else 1) +
    (if c.conflictLabels.isEmpty then 0 else 1)
  appendHead .map pairs ++
    appendHead .uint 0 ++ appendBstr c.tree.bytes ++
    appendHead .uint 1 ++ appendKeys c.parents ++
    appendHead .uint 2 ++ encodeIdentity c.author ++
    appendHead .uint 3 ++ encodeIdentity c.committer ++
    appendHead .uint 4 ++ appendTstr c.message ++
    optionalField 5 c.signature (appendBstr c.signature) ++
    optionalField 6 c.publicKey (appendBstr c.publicKey) ++
    optionalField 7 c.changeId (appendBstr c.changeId) ++
    optionalField 8 c.conflictTerms (appendKeys c.conflictTerms) ++
    optionalField 9 c.conflictLabels
      (appendHead .array c.conflictLabels.length ++
        c.conflictLabels.flatMap appendTstr)

/-- The encoding of a commit that is valid. -/
def encode (c : Commit) : Except Error Bytes := do
  c.validate
  return c.encodeUnchecked

/-! ## Footprints -/

/-- Every tree the commit records: its tree, then the conflict terms. -/
def trees (c : Commit) : List Key :=
  c.tree :: c.conflictTerms

/-- The length field of the key of a commit with `own` bytes that records
some trees, or nothing where the sum does not fit. -/
def footprint : (own : Nat) → (trees : List Key) → Option Nat
  | own, [] => some own
  | own, tree :: trees =>
    if own + tree.length < 2 ^ 64 then
      footprint (own + tree.length) trees
    else
      none

end Commit
end AmberStore

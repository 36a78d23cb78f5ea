import AmberStore.Commit.Record
import AmberStore.Fx.Dec

/-!
# Decoding commits

A commit is unmarshalled into a wire shape by the lax decoder, converted,
validated, and compared with its own encoding.
-/

open ByteString

namespace AmberStore

/-- The unchecked shape of an identity. -/
structure WireIdentity where
  name : String := ""
  email : String := ""
  when_ : Int64 := 0
  /-- The offset from UTC, of any size. -/
  tzOffset : Int64 := 0
  deriving DecidableEq

/-- The unchecked shape of a commit. -/
structure WireCommit where
  tree : Bytes := []
  parents : List Bytes := []
  author : WireIdentity := {}
  committer : WireIdentity := {}
  message : String := ""
  signature : Bytes := []
  publicKey : Bytes := []
  changeId : Bytes := []
  conflictTerms : List Bytes := []
  conflictLabels : List String := []
  deriving DecidableEq

namespace Fx

/-- Reads the value of an identity's field. -/
def wireIdentityField (w : WireIdentity) (k : Nat) (data : Bytes) :
    Parsed WireIdentity :=
  let fld := s!"commit.wireIdentity.{k}"
  match k with
  | 0 => (parseToString data).into (fun v => { w with name := v }) fld
  | 1 => (parseToString data).into (fun v => { w with email := v }) fld
  | 2 => (parseToI64 data).into (fun v => { w with when_ := v }) fld
  | _ => (parseToI64 data).into (fun v => { w with tzOffset := v }) fld

/-- An identity. -/
def parseToWireIdentity : Bytes → Parsed WireIdentity :=
  parseToStruct "commit.wireIdentity" {}
    (parseMapToStruct 4 wireIdentityField {})

/-- A list of texts. -/
def parseToStrings : Bytes → Parsed (List String) :=
  parseToSliceOf "[]string" parseToString

/-- Reads the value of a commit's field. -/
def wireCommitField (w : WireCommit) (k : Nat) (data : Bytes) :
    Parsed WireCommit :=
  let fld := s!"commit.wireCommit.{k}"
  match k with
  | 0 => (parseToBytes "[]uint8" data).into (fun v => { w with tree := v }) fld
  | 1 => (parseToByteSlices data).into (fun v => { w with parents := v }) fld
  | 2 => (parseToWireIdentity data).into (fun v => { w with author := v }) fld
  | 3 =>
    (parseToWireIdentity data).into (fun v => { w with committer := v }) fld
  | 4 => (parseToString data).into (fun v => { w with message := v }) fld
  | 5 =>
    (parseToBytes "[]uint8" data).into (fun v => { w with signature := v }) fld
  | 6 =>
    (parseToBytes "[]uint8" data).into (fun v => { w with publicKey := v }) fld
  | 7 =>
    (parseToBytes "[]uint8" data).into (fun v => { w with changeId := v }) fld
  | 8 =>
    (parseToByteSlices data).into (fun v => { w with conflictTerms := v }) fld
  | _ =>
    (parseToStrings data).into (fun v => { w with conflictLabels := v }) fld

/-- A commit. -/
def parseToWireCommit : Bytes → Parsed WireCommit :=
  parseToStruct "commit.wireCommit" {} (parseMapToStruct 10 wireCommitField {})

/-- Unmarshals a commit. -/
def unmarshalCommit : Bytes → Except CborError WireCommit :=
  unmarshal parseToWireCommit

end Fx

namespace Commit

/-- Converts an identity, if its offset is in range. -/
def identityFromWire (w : WireIdentity) : Except IdentityError Identity :=
  let max := maxTzOffset.toInt64
  if ¬(-max ≤ w.tzOffset ∧ w.tzOffset ≤ max) then
    .error (.tzOffset w.tzOffset)
  else
    .ok ⟨w.name, w.email, w.when_, w.tzOffset.toInt32⟩

/-- Parses keys from the given position on. -/
def parseKeys (failed : Nat → Key.Error → ConvertError) :
    (index : Nat) → List Bytes → Except ConvertError (List Key)
  | _, [] => .ok []
  | index, raw :: rest => do
      let key ← (Key.parse raw).mapError (failed index)
      let keys ← parseKeys failed (index + 1) rest
      return key :: keys

/-- Converts the wire shape. -/
def fromWire (w : WireCommit) : Except ConvertError Commit := do
  let tree ← (Key.parse w.tree).mapError .tree
  let parents ← parseKeys .parent 0 w.parents
  let author ← (identityFromWire w.author).mapError .author
  let committer ← (identityFromWire w.committer).mapError .committer
  let conflictTerms ← parseKeys .conflictTerm 0 w.conflictTerms
  return {
    tree, parents, author, committer
    message := w.message
    signature := w.signature
    publicKey := w.publicKey
    changeId := w.changeId
    conflictTerms
    conflictLabels := w.conflictLabels }

/-- Parses and validates a commit, and refuses every encoding but the
canonical one. -/
def decode (b : Bytes) : Except Error Commit :=
  match Fx.unmarshalCommit b with
  | .error error => .error (.decode error)
  | .ok w =>
    match fromWire w with
    | .error error => .error (.convert error)
    | .ok c =>
      match c.validate with
      | .error error => .error (.invalid error)
      | .ok () =>
        if c.encodeUnchecked ≠ b then .error .notCanonical else .ok c

end Commit
end AmberStore

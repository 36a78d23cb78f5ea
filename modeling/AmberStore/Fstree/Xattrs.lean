import AmberStore.Fstree.Encode
import AmberStore.Lib.ByteMap
import AmberStore.Lib.Checked

/-!
# Reading extended attributes

The reader of a map of attributes takes heads of any definite form, keys in any
order, and the last value of a key.
-/

open ByteString

namespace AmberStore.Fstree

/-- Why attributes are not read. -/
inductive XattrsError
  | head (source : Cbor.Error)
  | expectedMap (got : Cbor.Major)
  | expectedByteString (got : Cbor.Major)
  | trailingBytes (count : Nat)
  | pairCount (pairs bytes : Nat)
  | xattrKey (index : Nat) (source : XattrsError)
  | xattrValue (name : Bytes) (source : XattrsError)
  deriving DecidableEq

/-- Reads one byte string. -/
def readBstr (b : Bytes) : Except XattrsError (Bytes × Bytes) := do
  let head ← (Cbor.readHead b).mapError .head
  if head.major ≠ .bstr then
    .error (.expectedByteString head.major)
  else if head.rest.length < head.arg then
    .error (.head .unexpectedEof)
  else
    .ok (head.rest.take head.arg, head.rest.drop head.arg)

/-- Sets the value of a name. -/
def Xattrs.insert (m : Xattrs) (name value : Bytes) : Xattrs :=
  ⟨ByteMap.insert name value m.pairs, ByteMap.Sorted.insert m.sorted name value⟩

/-- No attributes. -/
def Xattrs.empty : Xattrs := ⟨[], .nil⟩

/-- Reads pairs into a map. -/
def readPairs : (count index : Nat) → (m : Xattrs) → Bytes →
    Except XattrsError (Xattrs × Bytes)
  | 0, _, m, b => .ok (m, b)
  | count + 1, index, m, b => do
      let (name, rest) ← (readBstr b).mapError (.xattrKey index)
      let (value, rest) ← (readBstr rest).mapError (.xattrValue name)
      readPairs count (index + 1) (m.insert name value) rest

/-- Reads a map of attributes. -/
def decodeXattrs (b : Bytes) : Except XattrsError Xattrs := do
  let head ← (Cbor.readHead b).mapError .head
  if head.major ≠ .map then
    .error (.expectedMap head.major)
  else if head.rest.length / 2 < head.arg then
    .error (.pairCount head.arg head.rest.length)
  else do
    let (m, rest) ← readPairs head.arg 0 .empty head.rest
    if rest.isEmpty then .ok m else .error (.trailingBytes rest.length)

/-! ## What is read -/

/-- Where heads are read after that of the map: the inputs from each key and
each value on. -/
def pairInputs : (count : Nat) → Bytes → List (Bytes × Bytes)
  | 0, _ => []
  | count + 1, b =>
    match readBstr b with
    | .error _ => []
    | .ok (_, value) =>
      match readBstr value with
      | .error _ => []
      | .ok (_, rest) => (b, value) :: pairInputs count rest

/-- The inputs from each key and each value of a map on. -/
def mapInputs (b : Bytes) : List (Bytes × Bytes) :=
  match Cbor.readHead b with
  | .error _ => []
  | .ok head => pairInputs head.arg head.rest

/-- All heads of a map are in the shortest form. -/
def ShortestHeads (b : Bytes) : Prop :=
  Cbor.ShortestHead b ∧ ∀ input ∈ mapInputs b,
    Cbor.ShortestHead input.1 ∧ Cbor.ShortestHead input.2

instance (b : Bytes) : Decidable (ShortestHeads b) :=
  inferInstanceAs (Decidable (_ ∧ _))

/-- The keys of a map as they are encoded in it. -/
def encodedKeys (b : Bytes) : List Bytes :=
  (mapInputs b).map fun input =>
    input.1.take (input.1.length - input.2.length)

end AmberStore.Fstree

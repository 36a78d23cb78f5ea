import AmberStore.Fstree.Encode
import AmberStore.Fx.Dec

/-!
# Decoding of tree objects

Entries and pairs are targets of the typed decoder.  An object is checked as a
whole document, and then its values are filled.
-/

open ByteString

namespace AmberStore
namespace Fx

open Fstree (Entry DirPair)

/-- A list of unsigned integers. -/
def parseToU64s : Bytes → Parsed (List UInt64) :=
  underTags [] fun data =>
    let head := getHead data
    match nextType data with
    | .array =>
      let count := if head.ai = 31 then numItemsUntilBreak head.rest
        else head.val
      let ((out, _, first), rest) := forItems head count
        (fun (out, i, first) data =>
          let elem := parseToUint "uint64" (2 ^ 64 - 1) data
          ((List.set out i (UInt64.ofNat elem.value), i + 1,
            first.or elem.err), elem.rest))
        (List.replicate count 0, 0, none)
      ⟨out, first, rest⟩
    | .tag =>
      ⟨[], some (typeErr .tag "[]uint64"), (parseByteString head.rest).2⟩
    | .uint | .negint | .bstr | .tstr | .map | .primitives =>
      nullOrMismatch "[]uint64" [] data

/-- The bytes of one item as they are. -/
def parseToRaw (data : Bytes) : Parsed Bytes :=
  match prologue data with
  | .error (error, rest) => ⟨[], some error, rest⟩
  | .ok data =>
    let rest := skip data
    ⟨data.take (data.length - rest.length), none, rest⟩

/-- Reads the value of an entry's field. -/
def entryField (e : Entry) (k : Nat) (data : Bytes) : Parsed Entry :=
  let fld := s!"fstree.Entry.{k}"
  let toU64 := parseToUint "uint64" (2 ^ 64 - 1)
  match k with
  | 0 => (parseToBytes "[]uint8" data).into (fun v => { e with name := v }) fld
  | 1 => (toU64 data).into (fun v => { e with mode := .ofNat v }) fld
  | 2 => (toU64 data).into (fun v => { e with uid := .ofNat v }) fld
  | 3 => (toU64 data).into (fun v => { e with gid := .ofNat v }) fld
  | 4 => (parseToI64 data).into (fun v => { e with mtime := v }) fld
  | 5 =>
    (parseToBytes "[]uint8" data).into (fun v => { e with contentKey := v }) fld
  | 6 =>
    (parseToBytes "[]uint8" data).into (fun v => { e with linkTarget := v }) fld
  | 7 => (parseToU64s data).into (fun v => { e with rdev := v }) fld
  | 8 => (parseToRaw data).into (fun v => { e with xattrsIn := v }) fld
  | _ =>
    (parseToBytes "[]uint8" data).into (fun v => { e with xattrsKey := v }) fld

/-- An entry. -/
def parseToEntry : Bytes → Parsed Entry :=
  parseToStruct "fstree.Entry" {} (parseMapToStruct 10 entryField {})

/-- A pair, which only an array of two elements fills. -/
def parseToPair : Bytes → Parsed DirPair :=
  underTags {} fun data =>
    let goType := "fstree.DirPair"
    let head := getHead data
    match nextType data with
    | .array =>
      let count := if head.ai = 31 then numItemsUntilBreak head.rest
        else head.val
      if count ≠ 2 then
        ⟨{}, some (typeErrMsg .array goType ("cannot decode CBOR array to " ++
          "struct with different number of elements")), skip data⟩
      else
        let sep := parseToBytes "[]uint8" head.rest
        let child := parseToBytes "[]uint8" sep.rest
        let first := (sep.err.map (wrapField · "fstree.DirPair.SepName")).or
          (child.err.map (wrapField · "fstree.DirPair.ChildKey"))
        let rest := if head.ai = 31 then (foundBreak child.rest).getD child.rest
          else child.rest
        ⟨⟨sep.value, child.value⟩, first, rest⟩
    | .map =>
      ⟨{}, some (typeErrMsg .map goType
        "cannot decode CBOR map to struct with toarray option"), skip data⟩
    | .uint | .negint | .bstr | .tstr | .tag | .primitives =>
      nullOrMismatch goType {} data

/-- Unmarshals an array of byte strings. -/
def unmarshalByteSlices : Bytes → Except CborError (List Bytes) :=
  unmarshal parseToByteSlices

/-- Unmarshals an array of entries. -/
def unmarshalEntries : Bytes → Except CborError (List Entry) :=
  unmarshal (parseToSliceOf "[]fstree.Entry" parseToEntry)

/-- Unmarshals an array of pairs. -/
def unmarshalPairs : Bytes → Except CborError (List DirPair) :=
  unmarshal (parseToSliceOf "[]fstree.DirPair" parseToPair)

end Fx

namespace Fstree

/-- Parses the child keys of a file node from the given position on. -/
def parseChildren : (index : Nat) → List Bytes → Except Error (List Key)
  | _, [] => .ok []
  | index, raw :: rest => do
      let key ← (Key.parse raw).mapError (.fileNodeChild index)
      let keys ← parseChildren (index + 1) rest
      .ok (key :: keys)

/-- Decodes the index node of a file. -/
def decodeFileNode (b : Bytes) : Except Error (List Key) := do
  let raw ← (Fx.unmarshalByteSlices b).mapError .decodeFileNode
  parseChildren 0 raw

/-- Decodes the leaf of a directory. -/
def decodeDirLeaf (b : Bytes) : Except Error (List Entry) :=
  (Fx.unmarshalEntries b).mapError .decodeDirLeaf

/-- Decodes the index node of a directory. -/
def decodeDirNode (b : Bytes) : Except Error (List DirPair) :=
  (Fx.unmarshalPairs b).mapError .decodeDirNode

end Fstree
end AmberStore

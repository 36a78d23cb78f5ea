import AmberStore.Cbor.Item
import AmberStore.Fx.Wellformed

/-!
# Name lookups without decoding

A scan of the bytes of a directory's leaf or index node answers only for the
form the encoder writes: shortest heads, fields in ascending order, names that
strictly increase, no inline attributes.  Whatever else it meets, it is unsure.

The cursor is the list of the bytes that remain; an offset is how many of the
object's bytes do not.
-/

open ByteString

namespace AmberStore.Fstree.Scan

/-- The most elements and pairs a scan takes. -/
abbrev maxItems : Nat := 131072

/-- What a scan of a leaf says: the range of the entry's map, or that there is
no entry of the name, or that the decoder has to look. -/
inductive Leaf
  | found (start stop : Nat)
  | missing
  | unsure
  deriving DecidableEq, Repr

/-- What a scan of an index node says: the key of the child to look in. -/
inductive Node
  | child (key : Bytes)
  | missing
  | unsure
  deriving DecidableEq, Repr

/-! ## The cursor -/

/-- The least argument that takes the bytes of this additional information. -/
def argMin (ai : UInt8) : Nat :=
  match ai.toNat with
  | 24 => 24
  | 25 => 2 ^ 8
  | 26 => 2 ^ 16
  | _ => 2 ^ 32

/-- A head in its shortest form. -/
def head : Bytes → Option (Cbor.Major × Nat × Bytes)
  | [] => none
  | ib :: rest =>
    let major := Cbor.Major.fromInitialByte ib
    let ai := ib &&& 0x1f
    if ai ≤ 23 then
      some (major, ai.toNat, rest)
    else if ai ≤ 27 then
      let n := Cbor.argWidth ai
      if rest.length < n then
        none
      else
        let v := readBe rest 0 n
        if argMin ai ≤ v then some (major, v, rest.drop n) else none
    else
      none

/-- An unsigned integer. -/
def uint (b : Bytes) : Option (Nat × Bytes) :=
  match head b with
  | some (.uint, v, rest) => some (v, rest)
  | _ => none

/-- Passes over a signed integer. -/
def int (b : Bytes) : Option Bytes :=
  match head b with
  | some (.uint, v, rest) => if v ≤ Fx.i64Max then some rest else none
  | some (.negint, v, rest) => if v ≤ Fx.i64Max then some rest else none
  | _ => none

/-- A byte string. -/
def bytes (b : Bytes) : Option (Bytes × Bytes) :=
  match head b with
  | some (.bstr, n, rest) =>
    if rest.length < n then none else some (rest.take n, rest.drop n)
  | _ => none

/-- Passes over so many unsigned integers. -/
def uintsFrom : (count : Nat) → Bytes → Option Bytes
  | 0, b => some b
  | count + 1, b => do
      let (_, rest) ← uint b
      uintsFrom count rest

/-- The number of elements of an array. -/
def array (b : Bytes) : Option (Nat × Bytes) :=
  match head b with
  | some (.array, n, rest) => if n ≤ maxItems then some (n, rest) else none
  | _ => none

/-- Passes over an array of unsigned integers. -/
def uints (b : Bytes) : Option Bytes := do
  let (n, rest) ← array b
  uintsFrom n rest

/-! ## Leaves -/

/-- Passes over the value of a field.  Inline attributes are for the decoder,
which checks them. -/
def value (k : Nat) (b : Bytes) : Option Bytes :=
  match k with
  | 1 | 2 | 3 => (uint b).map (·.2)
  | 4 => int b
  | 5 | 6 | 9 => (bytes b).map (·.2)
  | 7 => uints b
  | _ => none

/-- Passes over so many fields after the last one. -/
def fields : (count last : Nat) → Bytes → Option Bytes
  | 0, _, b => some b
  | count + 1, last, b => do
      let (k, rest) ← uint b
      if k ≤ last then none
      else do
        let rest ← value k rest
        fields count k rest

/-- The name of an entry, which must be after the one before it, and the bytes
after the entry's map. -/
def entry (prev : Option Bytes) (b : Bytes) : Option (Bytes × Bytes) :=
  match head b with
  | some (.map, pairs, rest) =>
    if 5 ≤ pairs ∧ pairs ≤ 10 then do
      let (k, rest) ← uint rest
      if k ≠ 0 then none
      else do
        let (ename, rest) ← bytes rest
        if prev.any (ename ≤ ·) then none
        else do
          let rest ← fields (pairs - 1) 0 rest
          some (ename, rest)
    else none
  | _ => none

/-- The entries of a leaf of a given size. -/
def entries (size : Nat) (name : Bytes) :
    (count : Nat) → (prev : Option Bytes) → (found : Option (Nat × Nat)) →
      Bytes → Option (Option (Nat × Nat) × Bytes)
  | 0, _, found, b => some (found, b)
  | count + 1, prev, found, b => do
      let (ename, rest) ← entry prev b
      let found := if ename = name then
        some (size - b.length, size - rest.length) else found
      entries size name count (some ename) found rest

/-- Scans a leaf for a name. -/
def scanLeaf (b name : Bytes) : Option Leaf := do
  let (n, rest) ← array b
  let (found, rest) ← entries b.length name n none none rest
  if rest ≠ [] then none
  else
    some (match found with
      | some (start, stop) => .found start stop
      | none => .missing)

/-- What a leaf holds of a name. -/
def leaf (b name : Bytes) : Leaf :=
  (scanLeaf b name).getD .unsure

/-! ## Index nodes -/

/-- A pair. -/
def pair (b : Bytes) : Option (Bytes × Bytes × Bytes) :=
  match head b with
  | some (.array, 2, rest) => do
      let (sep, rest) ← bytes rest
      let (child, rest) ← bytes rest
      some (sep, child, rest)
  | _ => none

/-- The pairs of an index node. -/
def pairs (name : Bytes) :
    (count : Nat) → (prev found : Option Bytes) →
      Bytes → Option (Option Bytes × Bytes)
  | 0, _, found, b => some (found, b)
  | count + 1, prev, found, b => do
      let (sep, child, rest) ← pair b
      if prev.any (sep ≤ ·) then none
      else
        pairs name count (some sep)
          (if found = none ∧ name ≤ sep then some child else found) rest

/-- Scans an index node for the child that may hold a name. -/
def scanNode (b name : Bytes) : Option Node := do
  let (n, rest) ← array b
  let (found, rest) ← pairs name n none none rest
  if rest ≠ [] then none
  else
    some (match found with
      | some child => .child child
      | none => .missing)

/-- Where an index node leads for a name. -/
def node (b name : Bytes) : Node :=
  (scanNode b name).getD .unsure

end AmberStore.Fstree.Scan

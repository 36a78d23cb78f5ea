import AmberStore.Lib.ByteString

/-!
# Lookup keys

A key is a 32-byte content address.  Its last byte is the header: the object
type in the high nibble, a reserved bit, and the width of the length field,
which sits just before the header with its least significant byte first.  The
truncated payload hash fills the rest.
-/

open ByteString List

namespace AmberStore

/-- The fixed byte length of every key. -/
abbrev Key.size : Nat := 32

/-- A 32-byte lookup key, canonical or not. -/
structure Key where
  bytes : Bytes
  bytes_length : bytes.length = 32
  deriving DecidableEq

namespace Key

/-- The byte length of the SHA-1 a git key holds. -/
abbrev gitSha1Size : Nat := 20

/-- The index of the header byte. -/
abbrev headerAt : Nat := size - 1

/-- The defined CAS object types. -/
inductive ObjectType
  | blob
  | fileNode
  | dirLeaf
  | dirNode
  | xattrSet
  | commit
  | gitSha1
  deriving DecidableEq, Repr

namespace ObjectType

/-- The type's value in the header's high nibble. -/
def toU8 : ObjectType → UInt8
  | blob => 0
  | fileNode => 1
  | dirLeaf => 2
  | dirNode => 3
  | xattrSet => 4
  | commit => 5
  | gitSha1 => 6

/-- The type of a raw value, if it is a defined one. -/
def fromU8 (value : UInt8) : Option ObjectType :=
  match value.toNat with
  | 0 => some blob
  | 1 => some fileNode
  | 2 => some dirLeaf
  | 3 => some dirNode
  | 4 => some xattrSet
  | 5 => some commit
  | 6 => some gitSha1
  | _ => none

/-- Whether a raw value is a defined type. -/
def isValid (value : UInt8) : Bool :=
  value ≤ gitSha1.toU8

end ObjectType

/-- Why bytes are not a canonical key. -/
inductive Error
  | badKeyLength (length : Nat)
  | reservedBitSet
  | reservedType (raw : UInt8)
  | nonCanonicalLength
  | nonCanonicalGitKey
  deriving DecidableEq, Repr

/-- The text of a key error. -/
def Error.message : Error → String
  | badKeyLength length => s!"key: data is not 32 bytes: got {length}"
  | reservedBitSet => "key: reserved header bit is set"
  | reservedType raw => s!"key: reserved object type: {raw}"
  | nonCanonicalLength => "key: non-canonical length encoding"
  | nonCanonicalGitKey => "key: non-canonical git key"

/-- The header byte. -/
def header (key : Key) : UInt8 :=
  byteAt key.bytes headerAt

/-- The object type.  The source panics where there is none, which no
canonical key is. -/
def type_ (key : Key) : Option ObjectType :=
  ObjectType.fromU8 (key.header >>> 4)

/-- The key in hexadecimal digits. -/
def text (key : Key) : String :=
  String.ofList (key.bytes.flatMap fun byte =>
    [Nat.digitChar (byte.toNat / 16), Nat.digitChar (byte.toNat % 16)])

/-- Whether the type nibble says git object, on any bytes. -/
def isGit (key : Key) : Bool :=
  key.header >>> 4 == ObjectType.gitSha1.toU8

/-- The number of bytes the length field occupies. -/
def lengthSize (key : Key) : Nat :=
  (key.header &&& 0x07).toNat + 1

/-- The payload length, stored least significant byte first. -/
def length (key : Key) : Nat :=
  beNat (slice key.bytes (headerAt - key.lengthSize) headerAt).reverse

/-- Whether everything between a git key's SHA-1 and its type is zero. -/
def hasGitTail (key : Key) : Bool :=
  key.header &&& 0x07 == 0 &&
    (slice key.bytes gitSha1Size headerAt).all (fun byte => byte == 0)

/-- The payload hash in digest order: a git key's SHA-1, or the truncated digest
that other keys store reversed. -/
def hash (key : Key) : Bytes :=
  if key.isGit then key.bytes.take gitSha1Size
  else (key.bytes.take (headerAt - key.lengthSize)).reverse

/-! ## Construction -/

/-- A digest of a fixed width. -/
abbrev Digest (width : Nat) := { bytes : Bytes // bytes.length = width }

/-- The number of bytes the length field of a payload length takes. -/
def lengthSizeFor (length : UInt64) : Nat :=
  if length = 0 then 1 else (Nat.log2 length.toNat + 1 + 7) / 8

theorem lengthSizeFor_le (length : UInt64) :
    lengthSizeFor length ≤ 8 := by
  unfold lengthSizeFor
  split
  case isTrue => decide
  case isFalse notZero =>
    have positive : length.toNat ≠ 0 := by
      intro zero
      exact notZero (UInt64.toNat_inj.mp zero)
    have small := (Nat.log2_lt positive).mpr length.toNat_lt
    omega

/-- Assembles a key from a payload length and the payload's BLAKE3 digest,
which is truncated and stored reversed.  The source panics on the git type,
which no caller passes. -/
def newFromHash (type_ : ObjectType) (length : UInt64)
    (fullHash : Digest size) : Key where
  bytes :=
    let ls := lengthSizeFor length
    (fullHash.val.take (headerAt - ls)).reverse ++
      (beBytes ls length.toNat).reverse ++
      [type_.toU8 <<< 4 ||| UInt8.ofNat (ls - 1)]
  bytes_length := by
    have small := lengthSizeFor_le length
    have sized := fullHash.property
    simp only [length_append, length_reverse, length_take,
      beBytes_length, length_singleton, sized, headerAt, size]
    omega

/-- The key of a git object: its SHA-1 in digest order, zeros and the type. -/
def newGitSha1 (sum : Digest gitSha1Size) : Key where
  bytes := sum.val ++ List.replicate (headerAt - gitSha1Size) (0 : UInt8) ++
    [ObjectType.gitSha1.toU8 <<< 4]
  bytes_length := by
    rw [length_append, length_append, length_replicate,
      length_singleton, sum.property]
    rfl

/-! ## Validation -/

/-- Whether the key is in canonical form. -/
def validate (key : Key) : Except Error Unit :=
  if key.header &&& 0x08 ≠ 0 then
    .error .reservedBitSet
  else if !ObjectType.isValid (key.header >>> 4) then
    .error (.reservedType (key.header >>> 4))
  else if byteAt key.bytes (headerAt - 1) = 0 ∧
      ¬(key.lengthSize = 1 ∧ key.length = 0) then
    .error .nonCanonicalLength
  else if key.isGit && !key.hasGitTail then
    .error .nonCanonicalGitKey
  else
    .ok ()

theorem length_replicate_size (byte : UInt8) :
    (List.replicate size byte).length = size :=
  length_replicate

/-- The key that repeats a byte. -/
def repeated (byte : UInt8) : Key :=
  ⟨List.replicate size byte, length_replicate_size byte⟩

/-- Copies bytes into a key and validates its canonical form. -/
def parse (bytes : Bytes) : Except Error Key :=
  if sized : bytes.length = size then
    let key : Key := ⟨bytes, sized⟩
    match key.validate with
    | .ok () => .ok key
    | .error error => .error error
  else
    .error (.badKeyLength bytes.length)

/-- A key that passes validation. -/
def Canonical (key : Key) : Prop :=
  key.validate = .ok ()

instance (key : Key) : Decidable key.Canonical :=
  inferInstanceAs (Decidable (key.validate = .ok ()))

@[ext] theorem ext
    {right : Key}
    (sameBytes : left.bytes = right.bytes) : left = right := by
  cases left
  cases right
  simp only at sameBytes
  subst sameBytes
  rfl

/-- Parsing accepts exactly the bytes of canonical keys. -/
theorem parse_eq_ok_iff
    (bytes : Bytes) (key : Key) :
    parse bytes = .ok key ↔ key.bytes = bytes ∧ key.Canonical := by
  unfold parse
  constructor
  · intro parsed
    split at parsed
    · cases validated : validate ⟨bytes, ‹_›⟩ with
      | error error => simp [validated] at parsed
      | ok value =>
        simp only [validated, Except.ok.injEq] at parsed
        subst parsed
        exact ⟨rfl, validated⟩
    · cases parsed
  · rintro ⟨rfl, canonical⟩
    rw [dif_pos key.bytes_length]
    have validated : validate ⟨key.bytes, key.bytes_length⟩ = .ok () :=
      canonical
    simp only [validated]

/-- Keys are compared bytewise, which is the order of the integers they
spell. -/
theorem bytes_lt_iff (left right : Key) :
    left.bytes < right.bytes ↔ beNat left.bytes < beNat right.bytes :=
  lt_iff_beNat_lt (left.bytes_length.trans right.bytes_length.symm)

theorem beNat_bytes_inj
    {right : Key}
    (sameValue : beNat left.bytes = beNat right.bytes) : left = right :=
  ext (beNat_inj (left.bytes_length.trans right.bytes_length.symm) sameValue)

end Key
end AmberStore

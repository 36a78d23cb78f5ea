import AmberStore.Lib.Checked
import AmberStore.Cbor.Head
import AmberStore.Key

/-!
# Reference records

A reference is a global name that points at a store key.  The record is stored
as a deterministic CBOR map with the integer keys 0 to 5.  Decoding is lax
first: any definite map with those keys is taken, in any order and with tags,
nulls, duplicates and unknown keys.  What was taken is then validated and
compared with its own encoding.
-/

open ByteString Checked

namespace AmberStore

/-- The record stored under a name.  An empty signature or public key means
that there is none. -/
structure Reference where
  name : String := ""
  /-- The store key the name points at. -/
  key : Bytes := []
  user : String := ""
  /-- The creation time in nanoseconds since the Unix epoch. -/
  createdAt : Int64 := 0
  signature : Bytes := []
  publicKey : Bytes := []
  deriving DecidableEq

namespace Reference

open Cbor hiding readHead readHead_length

/-- The longest name in bytes. -/
abbrev maxNameLen : Nat := 1024

/-- The longest user in bytes. -/
abbrev maxUserLen : Nat := 1024

/-- The longest signature in bytes. -/
abbrev maxSignatureLen : Nat := 64 <<< 10

/-- The longest public key in bytes. -/
abbrev maxPublicKeyLen : Nat := 16 <<< 10

/-! ## Errors -/

/-- Why a name is refused. -/
inductive NameError
  | empty
  | tooLong
  | atSign
  | controlChar
  deriving DecidableEq, Repr

/-- Why a user is refused. -/
inductive UserError
  | empty
  | tooLong
  | controlChar
  deriving DecidableEq, Repr

/-- How deep the items of a document may be nested. -/
abbrev maxNestedLevels : Nat := 32

/-- Why bytes are not a map of the record's shape. -/
inductive DecodeError
  | cbor (error : Error)
  | notAMap (got : Major)
  | wrongFieldType (field : Nat) (got : Major)
  | invalidUtf8
  | intOverflow (negative : Bool)
  | badMapKeyType (got : Major)
  | maxNestedLevels
  | invalidSimpleValue (value : Nat)
  | intKeyOverflow (negative : Bool) (arg : Nat)
  | badTagContent (tag : Nat) (got : Major)
  | bignumOverflow (negative : Bool)
  | byteElemType (field : Nat) (got : Major)
  | byteElemOverflow (field : Nat)
  | extraneous (n index : Nat)
  deriving DecidableEq, Repr

/-- Why a record is not encoded or bytes are not decoded. -/
inductive Error
  | name (error : NameError)
  | key (error : Key.Error)
  | user (error : UserError)
  | signatureTooLong
  | publicKeyTooLong
  | decode (error : DecodeError)
  | invalid (error : Error)
  | notCanonical
  deriving DecidableEq, Repr

/-! ## Validation and encoding -/

/-- Stops at the first character a name may not have. -/
def checkNameChars : List Char → Except NameError Unit
  | [] => .ok ()
  | r :: chars =>
    if r = '@' then
      .error .atSign
    else if isControl r then
      .error .controlChar
    else
      checkNameChars chars

/-- The rules of a reference name. -/
def validateName (name : String) : Except NameError Unit :=
  if name = "" then
    .error .empty
  else if maxNameLen < (utf8 name).length then
    .error .tooLong
  else
    checkNameChars name.toList

/-- The rules of a user that is given. -/
def validateUser (user : String) : Except UserError Unit :=
  if user = "" then
    .error .empty
  else if maxUserLen < (utf8 user).length then
    .error .tooLong
  else if user.toList.any isControl then
    .error .controlChar
  else
    .ok ()

/-- Checks the whole record. -/
def validate (r : Reference) : Except Error Unit := do
  (validateName r.name).mapError .name
  let _ ← (Key.parse r.key).mapError .key
  if r.user ≠ "" then
    (validateUser r.user).mapError .user
  if maxSignatureLen < r.signature.length then
    .error .signatureTooLong
  else if maxPublicKeyLen < r.publicKey.length then
    .error .publicKeyTooLong
  else
    .ok ()

/-- The canonical encoding, without validating first. -/
def encodeUnchecked (r : Reference) : Bytes :=
  let pairs := 4 + (if r.signature.isEmpty then 0 else 1) +
    (if r.publicKey.isEmpty then 0 else 1)
  appendHead .map pairs ++
    appendHead .uint 0 ++ appendTstr r.name ++
    appendHead .uint 1 ++ appendBstr r.key ++
    appendHead .uint 2 ++ appendTstr r.user ++
    appendHead .uint 3 ++ appendInt r.createdAt ++
    optionalField 4 r.signature (appendBstr r.signature) ++
    optionalField 5 r.publicKey (appendBstr r.publicKey)

/-- The encoding of a record that is valid. -/
def encode (r : Reference) : Except Error Bytes := do
  r.validate
  return r.encodeUnchecked

/-! ## Skipping an item -/

/-- The largest `i64`. -/
abbrev i64Max : Nat := 2 ^ 63 - 1

/-- A head as the record's decoder reads it. -/
def readHead (b : Bytes) : Except DecodeError Head :=
  (Cbor.readHead b).mapError .cbor

theorem readHead_length
    (isRead : readHead b = .ok head) :
    head.rest.length < b.length :=
  Cbor.readHead_length (mapError_eq_ok_iff.mp isRead)

/-- Whether the input starts with a tag. -/
def startsWithTag (b : Bytes) : Bool :=
  match b with
  | [] => false
  | next :: _ => Major.fromInitialByte next = .tag

theorem startsWithTag_of_readHead
    (isRead : readHead b = .ok head) :
    startsWithTag b = decide (head.major = .tag) := by
  have typed := major_of_readHead (mapError_eq_ok_iff.mp isRead)
  cases b with
  | nil => cases typed
  | cons first tail =>
    have kind : head.major = Major.fromInitialByte first :=
      Option.some.inj typed
    rw [startsWithTag, kind]

/-- The further tags of a chain, each one level deeper than the last.  A tag
must be followed by content. -/
def skipTags (rest : Bytes) (depth : Nat) : Except DecodeError (Bytes × Nat) :=
  if rest = [] then
    .error (.cbor .unexpectedEof)
  else if !startsWithTag rest then
    .ok (rest, depth)
  else
    match isRead : readHead rest with
    | .error error => .error error
    | .ok head =>
      if maxNestedLevels < depth + 1 then
        .error .maxNestedLevels
      else
        skipTags head.rest (depth + 1)
termination_by rest.length
decreasing_by exact readHead_length isRead

/-- A chain of tags ends at content that is not a tag, no less deep. -/
theorem skipTags_eq_ok
    (skipped : skipTags rest depth = .ok (content, level)) :
    startsWithTag content = false ∧ depth ≤ level := by
  fun_induction skipTags rest depth with
  | case1 => cases skipped
  | case2 rest depth present notTag =>
    cases skipped
    exact ⟨by simpa using notTag, le_rfl⟩
  | case3 | case4 => cases skipped
  | case5 rest depth present isTag head isRead room ih =>
    obtain ⟨notTag, deeper⟩ := ih skipped
    exact ⟨notTag, by omega⟩

/-- Skips one complete item and checks that it is well formed.  Entering an
array or a map costs a level. -/
def skipItem (b : Bytes) (depth : Nat) : Except DecodeError Bytes :=
  match _ : readHead b with
  | .error error => .error error
  | .ok head =>
    match kind : head.major with
    | .bstr | .tstr =>
      if head.rest.length < head.arg then
        .error (.cbor .unexpectedEof)
      else
        .ok (head.rest.drop head.arg)
    | .array | .map =>
      if deep : maxNestedLevels < depth + 1 then
        .error .maxNestedLevels
      else
        let items := if head.major = .map then 2 else 1
        Checked.times (items * head.arg)
          (fun rest => skipItem rest (depth + 1)) head.rest
    | .tag =>
      match _ : skipTags head.rest depth with
      | .error error => .error error
      | .ok (rest, level) => skipItem rest level
    | .uint | .negint | .primitives =>
      if head.major = .primitives ∧
          b.length - head.rest.length = 2 ∧ head.arg < 32 then
        .error (.invalidSimpleValue head.arg)
      else
        .ok head.rest
termination_by (maxNestedLevels + 1 - depth, (startsWithTag b).toNat)
decreasing_by
  · exact Prod.Lex.left _ _ (by omega)
  · exact Prod.Lex.left _ _ (by omega)
  · -- a chain of tags is one call, whose content is not a tag
    obtain ⟨notTag, deeper⟩ := skipTags_eq_ok ‹_›
    rw [notTag, startsWithTag_of_readHead ‹_›, decide_eq_true kind]
    have noMore : maxNestedLevels + 1 - level ≤ maxNestedLevels + 1 - depth :=
      Nat.sub_le_sub_left deeper _
    rcases Nat.lt_or_eq_of_le noMore with fewer | same
    · exact Prod.Lex.left _ _ fewer
    · rw [same]
      exact Prod.Lex.right _ Nat.zero_lt_one

/-! ## Tags -/

/-- The tag of self-described CBOR. -/
abbrev tagSelfDescribed : Nat := 55799

/-- The tag number at the start of the input and the input after its head. -/
def peekTag (b : Bytes) : Option (Nat × Bytes) :=
  if startsWithTag b then
    match readHead b with
    | .ok head => some (head.arg, head.rest)
    | .error _ => none
  else
    none

theorem peekTag_length
    (peeked : peekTag b = some (tag, rest)) :
    rest.length < b.length := by
  unfold peekTag at peeked
  split at peeked
  · split at peeked
    · next head isRead =>
      cases peeked
      exact readHead_length isRead
    · cases peeked
  · cases peeked

/-- Drops the leading tags of self-described CBOR. -/
def stripSelfDescribed (b : Bytes) : Bytes :=
  match _ : peekTag b with
  | some (tag, rest) =>
    if tag = tagSelfDescribed then stripSelfDescribed rest else b
  | none => b
termination_by b.length
decreasing_by exact peekTag_length ‹_›

/-- Whether a built-in tag admits content that starts with this byte. -/
def admitsContent (tag : Nat) (content : UInt8) : Bool :=
  let got := Major.fromInitialByte content
  match tag with
  | 0 => got = .tstr
  | 1 => got = .uint || got = .negint || (0xf9 ≤ content && content ≤ 0xfb)
  | 2 | 3 => got = .bstr
  | _ => true

/-- Checks every tag of a chain against what it is followed by. -/
def checkTags (cur : Bytes) : Except DecodeError Unit :=
  match _ : peekTag cur with
  | none => .ok ()
  | some (tag, rest) =>
    match rest.head? with
    | none => .error (.cbor .unexpectedEof)
    | some content =>
      if admitsContent tag content then
        checkTags rest
      else
        .error (.badTagContent tag (.fromInitialByte content))
termination_by cur.length
decreasing_by exact peekTag_length ‹_›

/-- Strips the tags of self-described CBOR and checks the chain of tags that
is left, without consuming it. -/
def stripAndCheckTags (b : Bytes) : Except DecodeError Bytes := do
  let b := stripSelfDescribed b
  checkTags b
  return b

theorem stripSelfDescribed_length (b : Bytes) :
    (stripSelfDescribed b).length ≤ b.length := by
  fun_induction stripSelfDescribed b with
  | case1 b rest peeked ih =>
    have shorter := peekTag_length peeked
    omega
  | case2 | case3 => exact le_rfl

theorem stripAndCheckTags_length
    (isStripped : stripAndCheckTags b = .ok stripped) :
    stripped.length ≤ b.length := by
  obtain ⟨checked, -, same⟩ := bind_eq_ok_iff.mp isStripped
  cases same
  exact stripSelfDescribed_length b

/-- The value under the tags a reader unwraps: its bytes and its head.  Every
reader starts over after a tag that is not a bignum. -/
def unwrapTags (b : Bytes) : Except DecodeError (Bytes × Head) :=
  match _ : stripAndCheckTags b with
  | .error error => .error error
  | .ok doc =>
    match _ : readHead doc with
    | .error error => .error error
    | .ok head =>
      if head.major = .tag ∧ ¬(head.arg = 2 ∨ head.arg = 3) then
        unwrapTags head.rest
      else
        .ok (doc, head)
termination_by b.length
decreasing_by
  exact lt_of_lt_of_le (readHead_length ‹_›) (stripAndCheckTags_length ‹_›)

/-! ## Reading the fields -/

/-- Whether a head is null or undefined, which only one-byte heads are. -/
def isNullHead (major : Major) (arg headLen : Nat) : Bool :=
  major = .primitives && headLen = 1 && (arg = 22 || arg = 23)

/-- The first bytes of the input and what follows them. -/
def takeBytes (rest : Bytes) (n : Nat) : Except DecodeError (Bytes × Bytes) :=
  if rest.length < n then
    .error (.cbor .unexpectedEof)
  else
    .ok (rest.take n, rest.drop n)

/-- The byte string a bignum tag is followed by. -/
def readBignumContent (b : Bytes) (tag : Nat) :
    Except DecodeError (Bytes × Bytes) := do
  let head ← readHead b
  if head.major ≠ .bstr then
    .error (.badTagContent tag head.major)
  else
    takeBytes head.rest head.arg

/-- The value of a bignum, if it has at most 64 bits. -/
def bignumMagnitude (content : Bytes) : Option Nat :=
  let digits := content.dropWhile (fun byte => byte == 0)
  if 8 < digits.length then none else some (beNat digits)

/-- A text field. -/
def readTstrField (b : Bytes) (field : Nat) :
    Except DecodeError (String × Bytes) := do
  let (b, head) ← unwrapTags b
  if isNullHead head.major head.arg (b.length - head.rest.length) then
    .ok ("", head.rest)
  else if head.major ≠ .tstr then
    .error (.wrongFieldType field head.major)
  else
    let (content, rest) ← takeBytes head.rest head.arg
    match fromUtf8 content with
    | some text => .ok (text, rest)
    | none => .error .invalidUtf8

/-- One array element that is to become a byte. -/
def readByteElem (b : Bytes) (field : Nat) :
    Except DecodeError (UInt8 × Bytes) := do
  let (b, head) ← unwrapTags b
  match head.major with
  | .uint =>
    if 255 < head.arg then
      .error (.byteElemOverflow field)
    else
      .ok (UInt8.ofNat head.arg, head.rest)
  | .tag =>
    let (content, rest) ← readBignumContent head.rest head.arg
    match bignumMagnitude content with
    | some value =>
      if head.arg = 2 then
        if value ≤ 255 then
          .ok (UInt8.ofNat value, rest)
        else
          .error (.byteElemOverflow field)
      -- a negative bignum never becomes a byte
      else if value ≤ i64Max then
        .error (.byteElemType field .tag)
      else
        .error (.byteElemOverflow field)
    | none => .error (.byteElemOverflow field)
  | .primitives =>
    match b.length - head.rest.length with
    | 1 =>
      if head.arg = 20 ∨ head.arg = 21 then
        .error (.byteElemType field .primitives)
      else if head.arg = 22 ∨ head.arg = 23 then
        .ok (0, head.rest)
      else
        .ok (UInt8.ofNat head.arg, head.rest)
    | 2 => .ok (UInt8.ofNat head.arg, head.rest)
    | _ => .error (.byteElemType field .primitives)
  | .negint | .bstr | .tstr | .array | .map =>
    .error (.byteElemType field head.major)

/-- A byte-string field.  A bignum fills it with its content, and an array
fills it element by element. -/
def readBstrField (b : Bytes) (field : Nat) :
    Except DecodeError (Bytes × Bytes) := do
  let (b, head) ← unwrapTags b
  match head.major with
  | .tag => readBignumContent head.rest head.arg
  | .bstr => takeBytes head.rest head.arg
  | .array =>
    Checked.times head.arg
      (fun (out, rest) => do
        let (byte, rest) ← readByteElem rest field
        return (out ++ [byte], rest))
      ([], head.rest)
  | .uint | .negint | .tstr | .map | .primitives =>
    if isNullHead head.major head.arg (b.length - head.rest.length) then
      .ok ([], head.rest)
    else
      .error (.wrongFieldType field head.major)

/-- The integer field. -/
def readInt64Field (b : Bytes) : Except DecodeError (Int64 × Bytes) := do
  let (b, head) ← unwrapTags b
  match head.major with
  | .uint =>
    if i64Max < head.arg then
      .error (.intOverflow false)
    else
      .ok (Int64.ofNat head.arg, head.rest)
  | .negint =>
    if i64Max < head.arg then
      .error (.intOverflow true)
    else
      .ok (-1 - Int64.ofNat head.arg, head.rest)
  | .tag =>
    let (content, rest) ← readBignumContent head.rest head.arg
    let negative := head.arg = 3
    match bignumMagnitude content with
    | some value =>
      if value ≤ i64Max then
        .ok (if negative then -1 - Int64.ofNat value
          else Int64.ofNat value, rest)
      else
        .error (.bignumOverflow negative)
    | none => .error (.bignumOverflow negative)
  | .primitives =>
    match b.length - head.rest.length with
    | 1 =>
      if head.arg = 20 ∨ head.arg = 21 then
        .error (.wrongFieldType 3 .primitives)
      else if head.arg = 22 ∨ head.arg = 23 then
        .ok (0, head.rest)
      else
        .ok (Int64.ofNat head.arg, head.rest)
    | 2 => .ok (Int64.ofNat head.arg, head.rest)
    | _ => .error (.wrongFieldType 3 .primitives)
  | .bstr | .tstr | .array | .map => .error (.wrongFieldType 3 head.major)

/-! ## Decoding -/

/-- The decoder between two pairs of the map. -/
structure Pairs where
  record : Reference
  seen : List Nat
  rest : Bytes

/-- What a key that matches no field must be. -/
def checkUnmatchedKey (key : Head) : Except DecodeError Unit :=
  match key.major with
  | .uint | .negint =>
    if i64Max < key.arg then
      .error (.intKeyOverflow (key.major = .negint) key.arg)
    else
      .ok ()
  | .tstr =>
    if key.rest.length < key.arg then
      .error (.cbor .unexpectedEof)
    else if (fromUtf8 (key.rest.take key.arg)).isNone then
      .error .invalidUtf8
    else
      .ok ()
  | .bstr | .array | .map | .tag | .primitives =>
    .error (.badMapKeyType key.major)

/-- Reads the value of a field into the record. -/
def readField (record : Reference) (number : Nat) (rest : Bytes) :
    Except DecodeError (Reference × Bytes) := do
  match number with
  | 0 =>
    let (name, rest) ← readTstrField rest 0
    return ({ record with name }, rest)
  | 1 =>
    let (key, rest) ← readBstrField rest 1
    return ({ record with key }, rest)
  | 2 =>
    let (user, rest) ← readTstrField rest 2
    return ({ record with user }, rest)
  | 3 =>
    let (createdAt, rest) ← readInt64Field rest
    return ({ record with createdAt }, rest)
  | 4 =>
    let (signature, rest) ← readBstrField rest 4
    return ({ record with signature }, rest)
  | _ =>
    let (publicKey, rest) ← readBstrField rest 5
    return ({ record with publicKey }, rest)

/-- One pair of the map.  Unmatched keys and duplicates are skipped with their
values. -/
def readPair (pairs : Pairs) : Except DecodeError Pairs := do
  let key ← readHead pairs.rest
  if key.major ≠ .uint ∨ 5 < key.arg then
    checkUnmatchedKey key
    let value ← skipItem pairs.rest 1
    let rest ← skipItem value 1
    return { pairs with rest }
  else if key.arg ∈ pairs.seen then
    let rest ← skipItem key.rest 1
    return { pairs with rest }
  else
    let (record, rest) ← readField pairs.record key.arg key.rest
    return { record, seen := key.arg :: pairs.seen, rest }

/-- The lax first stage: the document is checked as a whole, and then its
fields are read. -/
def unmarshal (b : Bytes) : Except DecodeError Reference := do
  let after ← skipItem b 0
  if after ≠ [] then
    .error (.extraneous after.length (b.length - after.length))
  else
    let (doc, head) ← unwrapTags b
    if isNullHead head.major head.arg (doc.length - head.rest.length) then
      .ok {}
    else if head.major ≠ .map then
      .error (.notAMap head.major)
    else
      let pairs ← Checked.times head.arg readPair ⟨{}, [], head.rest⟩
      return pairs.record

/-- Parses and validates a record, and refuses every encoding but the
canonical one. -/
def decode (b : Bytes) : Except Error Reference :=
  match unmarshal b with
  | .error error => .error (.decode error)
  | .ok r =>
    match r.validate with
    | .error error => .error (.invalid error)
    | .ok () => if r.encodeUnchecked ≠ b then .error .notCanonical else .ok r

end Reference
end AmberStore

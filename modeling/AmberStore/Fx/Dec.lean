import AmberStore.Fx.Wellformed
import Mathlib.Logic.Function.Iterate

/-!
# The typed decoder

The second stage of decoding walks a document that is known to be well formed
and fills typed targets.  It is lax: tags are unwrapped, open lengths and long
heads are taken, and a value of the wrong type is recorded as an error and
skipped, so that decoding goes on behind it.

The cursor is the list of the bytes that remain.  Where the source would read
past the end it reads a null, which well-formed input never makes it do.
-/

open ByteString

namespace AmberStore.Fx

/-! ## Integers as text -/

/-- Adds one to a big-endian integer. -/
def incrementBe (mag : Bytes) : Bytes :=
  let (out, carry) := mag.foldr
    (fun byte (out, carry) =>
      if carry then ((byte + 1) :: out, byte == 255) else (byte :: out, false))
    ([], true)
  if carry then 1 :: out else out

/-- Divides a big-endian integer by ten. -/
def divideByTen (mag : Bytes) : Bytes × Nat :=
  mag.foldl
    (fun (quotient, rem) byte =>
      let cur := rem * 256 + byte.toNat
      (quotient ++ [UInt8.ofNat (cur / 10)], cur % 10))
    ([], 0)

/-- The decimal digits of a big-endian integer, the last one first.  An
integer of `n` bytes has at most `3 * n` of them. -/
def digitsOf : (fuel : Nat) → Bytes → List Char
  | 0, _ => []
  | fuel + 1, mag =>
    let mag := mag.dropWhile (fun byte => byte == 0)
    if mag = [] then
      []
    else
      let (quotient, rem) := divideByTen mag
      Char.ofNat (48 + rem) :: digitsOf fuel quotient

/-- The decimal text of a big-endian integer, or of minus one more than it. -/
def bignumDec (b : Bytes) (negate : Bool) : String :=
  let mag := if negate then incrementBe b else b
  let digits := digitsOf (3 * mag.length) mag
  let digits := if digits = [] then ['0'] else digits
  let digits := if negate then digits ++ ['-'] else digits
  String.ofList digits.reverse

/-- The value of a big-endian integer, if it fits 64 bits. -/
def bignumU64 (b : Bytes) : Option Nat :=
  let sig := b.dropWhile (fun byte => byte == 0)
  if 8 < sig.length then none else some (beNat sig)

/-! ## Reading -/

/-- The first byte of the next item. -/
def nextInitialByte : Bytes → UInt8
  | [] => 0xf6
  | b :: _ => b

@[simp] theorem nextInitialByte_cons (b : UInt8) (rest : Bytes) :
    nextInitialByte (b :: rest) = b := rfl

/-- The type of the next item. -/
def nextType (data : Bytes) : CborType :=
  Cbor.Major.fromInitialByte (nextInitialByte data)

/-- Reads one head without checking it. -/
def getHead (data : Bytes) : FxHead :=
  let b := nextInitialByte data
  let t := Cbor.Major.fromInitialByte b
  let ai := b &&& 0x1f
  let rest := data.drop 1
  let n := Cbor.argWidth ai
  if n = 0 then
    ⟨t, ai, ai.toNat, rest⟩
  else
    let argument := (List.range n).map fun i => nextInitialByte (rest.drop i)
    ⟨t, ai, beNat argument, rest.drop n⟩

theorem getHead_length (present : data ≠ []) :
    (getHead data).rest.length < data.length := by
  have consumed : 0 < data.length := List.length_pos_iff.mpr present
  unfold getHead
  dsimp only
  split
  · simp only [List.length_drop]
    omega
  · simp only [List.length_drop]
    omega

/-- The input after a break, if there is one. -/
def foundBreak : Bytes → Option Bytes
  | b :: rest => if b = 0xff then some rest else none
  | [] => none

/-- Runs a body that consumes input up to the break that ends it.  The fuel is
the number of rounds the input has bytes for. -/
def untilBreak (body : σ → Bytes → σ × Bytes) :
    (fuel : Nat) → σ → Bytes → σ × Bytes
  | 0, state, data => (state, data)
  | fuel + 1, state, data =>
    match foundBreak data with
    | some rest => (state, rest)
    | none =>
      if data = [] then
        (state, data)
      else
        let (state, data) := body state data
        untilBreak body fuel state data

/-- Runs a body over the items of a container whose head was read. -/
def forItems (head : FxHead) (items : Nat)
    (body : σ → Bytes → σ × Bytes) (state : σ) : σ × Bytes :=
  if head.ai = 31 then
    untilBreak body (head.rest.length + 1) state head.rest
  else
    (fun (state, data) => body state data)^[items] (state, head.rest)

/-- Skips exactly one item.  The fuel bounds the nesting, which the length of
the input does. -/
def skipWithin : (fuel : Nat) → Bytes → Bytes
  | 0, data => data
  | fuel + 1, data =>
    let head := getHead data
    let skipItems := fun items =>
      (forItems head items (fun () data => ((), skipWithin fuel data)) ()).2
    match head.t with
    | .bstr | .tstr =>
      if head.ai = 31 then skipItems 0 else head.rest.drop head.val
    | .array => skipItems head.val
    | .map => skipItems (min (head.val * 2) (2 ^ 64 - 1))
    | .tag => if head.ai = 31 then head.rest else skipWithin fuel head.rest
    | .uint | .negint | .primitives => head.rest

/-- Skips exactly one item. -/
def skip (data : Bytes) : Bytes :=
  skipWithin (data.length + 1) data

/-- Counts the items up to a break. -/
def numItemsUntilBreak (data : Bytes) : Nat :=
  (untilBreak (fun count data => (count + 1, skip data))
    (data.length + 1) 0 data).1

/-- The content of a byte string, with its chunks joined. -/
def parseByteString (data : Bytes) : Bytes × Bytes :=
  let head := getHead data
  if head.ai ≠ 31 then
    (head.rest.take head.val, head.rest.drop head.val)
  else
    untilBreak
      (fun joined data =>
        let chunk := getHead data
        (joined ++ chunk.rest.take chunk.val, chunk.rest.drop chunk.val))
      (head.rest.length + 1) [] head.rest

/-- Skips what is left of a string of open length. -/
def skipChunks (data : Bytes) : Bytes :=
  (untilBreak (fun () data => ((), skip data)) (data.length + 1) () data).2

/-- The chunks of a text of open length.  After one that is not valid text the
others are skipped. -/
def parseTextChunks : (fuel : Nat) → (joined data : Bytes) →
    Except CborError Bytes × Bytes
  | 0, joined, data => (.ok joined, data)
  | fuel + 1, joined, data =>
    match foundBreak data with
    | some rest => (.ok joined, rest)
    | none =>
      if data = [] then
        (.ok joined, data)
      else
        let chunk := getHead data
        let text := chunk.rest.take chunk.val
        let rest := chunk.rest.drop chunk.val
        if (fromUtf8 text).isNone then
          (.error .invalidUtf8, skipChunks rest)
        else
          parseTextChunks fuel (joined ++ text) rest

/-- The content of a text string, which must be valid UTF-8. -/
def parseTextString (data : Bytes) : Except CborError Bytes × Bytes :=
  let head := getHead data
  if head.ai ≠ 31 then
    let text := head.rest.take head.val
    let rest := head.rest.drop head.val
    if (fromUtf8 text).isNone then (.error .invalidUtf8, rest)
    else (.ok text, rest)
  else
    parseTextChunks (head.rest.length + 1) [] head.rest

/-! ## Tags -/

theorem ne_nil_of_nextType
    (isTag : nextType data = .tag) : data ≠ [] := by
  rintro rfl
  revert isTag
  decide

/-- Drops the leading tags of self-described CBOR. -/
def stripSelfDescribed (data : Bytes) : Bytes :=
  if _ : nextType data = .tag then
    if (getHead data).val = 55799 then
      stripSelfDescribed (getHead data).rest
    else
      data
  else
    data
termination_by data.length
decreasing_by exact getHead_length (ne_nil_of_nextType ‹_›)

/-- Checks every tag of a chain against its content.  On failure the item is
consumed. -/
def checkTags (data : Bytes) : Except (CborError × Bytes) Unit :=
  if _ : nextType data = .tag then
    let rest := (getHead data).rest
    match validBuiltinTag (getHead data).val (nextInitialByte rest) with
    | .error error => .error (error, skip rest)
    | .ok () => checkTags rest
  else
    .ok ()
termination_by data.length
decreasing_by exact getHead_length (ne_nil_of_nextType ‹_›)

/-- What every target starts with. -/
def prologue (data : Bytes) : Except (CborError × Bytes) Bytes :=
  let data := stripSelfDescribed data
  match checkTags data with
  | .error error => .error error
  | .ok () => .ok data

theorem stripSelfDescribed_length (data : Bytes) :
    (stripSelfDescribed data).length ≤ data.length := by
  fun_induction stripSelfDescribed data with
  | case1 data isTag described ih =>
    have consumed := getHead_length (ne_nil_of_nextType isTag)
    omega
  | case2 | case3 => exact le_rfl

theorem prologue_length
    (passed : prologue data = .ok stripped) :
    stripped.length ≤ data.length := by
  unfold prologue at passed
  dsimp only at passed
  split at passed
  · cases passed
  · cases passed
    exact stripSelfDescribed_length data

/-- The value under the tags that are unwrapped.  Every target starts over
after a tag that is not a bignum. -/
def unwrap (data : Bytes) : Except (CborError × Bytes) Bytes :=
  match _ : prologue data with
  | .error error => .error error
  | .ok value =>
    if _ : nextType value = .tag then
      let head := getHead value
      if head.val = 2 ∨ head.val = 3 then
        .ok value
      else
        unwrap head.rest
    else
      .ok value
termination_by data.length
decreasing_by
  exact lt_of_lt_of_le (getHead_length (ne_nil_of_nextType ‹_›))
    (prologue_length ‹_›)

/-! ## Values of the wrong type -/

/-- What a target was filled with, the first error, and the remaining input. -/
structure Parsed (α : Type) where
  /-- The value, the zero value where there is an error. -/
  value : α
  err : Option CborError
  rest : Bytes

/-- A value that does not fit its target. -/
def typeErr (t : CborType) (goType : String) : CborError :=
  .unmarshalType t goType none none

/-- A value that does not fit its target, with a reason. -/
def typeErrMsg (t : CborType) (goType msg : String) : CborError :=
  .unmarshalType t goType none (some msg)

/-- Names the field of an error about a value's type. -/
def wrapField (error : CborError) (fld : String) : CborError :=
  match error with
  | .unmarshalType t goType _ msg => .unmarshalType t goType (some fld) msg
  | error => error

/-- The error of a bignum where no integer is wanted, and the input after it.
Some bignums are too large to be told apart from an overflow. -/
def bignumMismatch (goType : String) (data : Bytes) : CborError × Bytes :=
  let num := (getHead data).val
  let (content, rest) := parseByteString (getHead data).rest
  let fits := match bignumU64 content with
    | some x => num = 2 || x ≤ i64Max
    | none => false
  if fits then
    (typeErr .tag goType, rest)
  else
    let dec := bignumDec content (num = 3)
    (typeErrMsg .tag goType s!"{dec} overflows {goType}", rest)

/-- The error of a value that cannot fill a target, and the input after it. -/
def mismatch (goType : String) (data : Bytes) : CborError × Bytes :=
  let t := nextType data
  let head := getHead data
  match t with
  | .uint | .primitives => (typeErr t goType, head.rest)
  | .negint =>
    if i64Max < head.val then
      let dec := bignumDec (beBytes 8 head.val) true
      (typeErrMsg t goType s!"{dec} overflows Go's int64", head.rest)
    else
      (typeErr t goType, head.rest)
  | .bstr => (typeErr t goType, (parseByteString data).2)
  | .tstr =>
    match parseTextString data with
    | (.error error, rest) => (error, rest)
    | (.ok _, rest) => (typeErr t goType, rest)
  | .array | .map => (typeErr t goType, skip data)
  | .tag => bignumMismatch goType data

/-- A value that only fills a target when it is null or undefined, with the
zero value. -/
def nullOrMismatch (goType : String) (zero : α) (data : Bytes) : Parsed α :=
  let head := getHead data
  if nextType data = .primitives ∧ (head.ai = 22 ∨ head.ai = 23) then
    ⟨zero, none, head.rest⟩
  else
    let (error, rest) := mismatch goType data
    ⟨zero, some error, rest⟩

/-! ## Targets -/

/-- A value for a target that unwraps tags first. -/
def underTags (zero : α) (target : Bytes → Parsed α) (data : Bytes) :
    Parsed α :=
  match unwrap data with
  | .error (error, rest) => ⟨zero, some error, rest⟩
  | .ok data => target data

/-- Fills an unsigned integer. -/
def fillUint (t : CborType) (val : Nat) (goType : String) (max : Nat)
    (rest : Bytes) : Parsed Nat :=
  if max < val then
    ⟨0, some (typeErrMsg t goType s!"{val} overflows {goType}"), rest⟩
  else
    ⟨val, none, rest⟩

/-- An unsigned integer up to `max`. -/
def parseToUint (goType : String) (max : Nat) : Bytes → Parsed Nat :=
  underTags 0 fun data =>
    let head := getHead data
    match nextType data with
    | .uint => fillUint .uint head.val goType max head.rest
    | .primitives =>
      if head.ai = 20 ∨ head.ai = 21 ∨ head.ai = 25 ∨ head.ai = 26 ∨
          head.ai = 27 then
        ⟨0, some (typeErr .primitives goType), head.rest⟩
      else if head.ai = 22 ∨ head.ai = 23 then
        ⟨0, none, head.rest⟩
      else
        fillUint .primitives head.val goType max head.rest
    | .tag =>
      let (content, rest) := parseByteString head.rest
      let overflow := typeErrMsg .tag goType
        s!"{bignumDec content (head.val = 3)} overflows {goType}"
      match bignumU64 content with
      | some val =>
        if head.val = 2 then
          fillUint .tag val goType max rest
        else if val ≤ i64Max then
          ⟨0, some (typeErr .tag goType), rest⟩
        else
          ⟨0, some overflow, rest⟩
      | none => ⟨0, some overflow, rest⟩
    | .negint | .bstr | .tstr | .array | .map =>
      let (error, rest) := mismatch goType data
      ⟨0, some error, rest⟩

/-- A signed integer. -/
def parseToI64 : Bytes → Parsed Int64 :=
  underTags 0 fun data =>
    let head := getHead data
    match nextType data with
    | .uint =>
      if i64Max < head.val then
        ⟨0, some (typeErrMsg .uint "int64" s!"{head.val} overflows int64"),
          head.rest⟩
      else
        ⟨Int64.ofNat head.val, none, head.rest⟩
    | .negint =>
      if i64Max < head.val then
        let (error, rest) := mismatch "int64" data
        ⟨0, some error, rest⟩
      else
        ⟨~~~(Int64.ofNat head.val), none, head.rest⟩
    | .primitives =>
      if head.ai = 20 ∨ head.ai = 21 ∨ head.ai = 25 ∨ head.ai = 26 ∨
          head.ai = 27 then
        ⟨0, some (typeErr .primitives "int64"), head.rest⟩
      else if head.ai = 22 ∨ head.ai = 23 then
        ⟨0, none, head.rest⟩
      else
        ⟨Int64.ofNat head.val, none, head.rest⟩
    | .tag =>
      let (content, rest) := parseByteString head.rest
      let overflow := fun dec : String =>
        typeErrMsg .tag "int64" s!"{dec} overflows int64"
      match bignumU64 content with
      | some val =>
        if head.val = 2 then
          if val ≤ i64Max then
            ⟨Int64.ofNat val, none, rest⟩
          else
            ⟨0, some (overflow (toString val)), rest⟩
        else if val ≤ i64Max then
          ⟨~~~(Int64.ofNat val), none, rest⟩
        else
          ⟨0, some (overflow (bignumDec content true)), rest⟩
      | none => ⟨0, some (overflow (bignumDec content (head.val = 3))), rest⟩
    | .bstr | .tstr | .array | .map =>
      let (error, rest) := mismatch "int64" data
      ⟨0, some error, rest⟩

/-- A byte string.  A bignum fills it with its content, and an array fills it
element by element. -/
def parseToBytes (goType : String) : Bytes → Parsed Bytes :=
  underTags [] fun data =>
    let head := getHead data
    match nextType data with
    | .bstr =>
      let (content, rest) := parseByteString data
      ⟨content, none, rest⟩
    | .tag =>
      let (content, rest) := parseByteString head.rest
      ⟨content, none, rest⟩
    | .array =>
      let count := if head.ai = 31 then numItemsUntilBreak head.rest
        else head.val
      let ((out, _, first), rest) := forItems head count
        (fun (out, i, first) data =>
          let elem := parseToUint "uint8" 255 data
          ((List.set out i (UInt8.ofNat elem.value), i + 1,
            first.or elem.err), elem.rest))
        (List.replicate count 0, 0, none)
      ⟨out, first, rest⟩
    | .uint | .negint | .tstr | .map | .primitives =>
      nullOrMismatch goType [] data

/-- A list of values of one type. -/
def parseToSliceOf (goType : String) (elem : Bytes → Parsed α) :
    Bytes → Parsed (List α) :=
  underTags [] fun data =>
    let head := getHead data
    match nextType data with
    | .array =>
      let ((out, first), rest) := forItems head head.val
        (fun (out, first) data =>
          let parsed := elem data
          ((out ++ [parsed.value], first.or parsed.err), parsed.rest))
        ([], none)
      ⟨out, first, rest⟩
    | .tag =>
      ⟨[], some (typeErr .tag goType), (parseByteString head.rest).2⟩
    | .uint | .negint | .bstr | .tstr | .map | .primitives =>
      nullOrMismatch goType [] data

/-- A list of byte strings. -/
def parseToByteSlices : Bytes → Parsed (List Bytes) :=
  parseToSliceOf "[][]uint8" (parseToBytes "[]uint8")

/-- A text. -/
def parseToString : Bytes → Parsed String :=
  underTags "" fun data =>
    match nextType data with
    | .tstr =>
      match parseTextString data with
      | (.ok text, rest) => ⟨(fromUtf8 text).getD "", none, rest⟩
      | (.error error, rest) => ⟨"", some error, rest⟩
    | .uint | .negint | .bstr | .array | .map | .tag | .primitives =>
      nullOrMismatch "string" "" data

/-- A record, which only a map fills. -/
def parseToStruct (goType : String) (zero : α)
    (fromMap : Bytes → Parsed α) : Bytes → Parsed α :=
  underTags zero fun data =>
    match nextType data with
    | .map => fromMap data
    | .array =>
      ⟨zero, some (typeErrMsg .array goType
        "cannot decode CBOR array to struct without toarray option"),
        skip data⟩
    | .uint | .negint | .bstr | .tstr | .tag | .primitives =>
      nullOrMismatch goType zero data

/-! ## Records with integer keys -/

/-- Puts a parsed value into a record, and names its field in the error. -/
def Parsed.into (parsed : Parsed α) (store : α → σ) (fld : String) :
    Parsed σ :=
  ⟨store parsed.value, parsed.err.map (wrapField · fld), parsed.rest⟩

/-- The decoder of a record between two pairs of its map. -/
structure StructState (σ : Type) where
  value : σ
  found : List Nat
  first : Option CborError

/-- One pair of a record's map.  The first value of a field goes to `field`;
duplicates and unknown keys are skipped. -/
def structPair (nfields : Nat) (field : σ → Nat → Bytes → Parsed σ)
    (state : StructState σ) (data : Bytes) : StructState σ × Bytes :=
  let record := fun error : Option CborError =>
    { state with first := state.first.or error }
  let head := getHead data
  match nextType data with
  | .uint =>
    if i64Max < head.val then
      (record (some (typeErrMsg .uint "int64"
        s!"{head.val} overflows Go's int64")), skip head.rest)
    else if head.val < nfields ∧ head.val ∉ state.found then
      let parsed := field state.value head.val head.rest
      (⟨parsed.value, head.val :: state.found, state.first.or parsed.err⟩,
        parsed.rest)
    else
      (state, skip head.rest)
  | .negint =>
    if i64Max < head.val then
      (record (some (typeErrMsg .negint "int64"
        s!"-1-{head.val} overflows Go's int64")), skip head.rest)
    else
      (state, skip head.rest)
  | .tstr =>
    match parseTextString data with
    | (.error error, rest) => (record (some error), skip rest)
    | (.ok _, rest) => (state, skip rest)
  | .bstr | .array | .map | .tag | .primitives =>
    let kt := nextType data
    let msg := s!"map key is of type {kt.name} and cannot be used to " ++
      "match struct field name"
    (record (some (typeErrMsg kt "string" msg)), skip (skip data))

/-- Fills a record from a map with the integer keys below `nfields`. -/
def parseMapToStruct (nfields : Nat) (field : σ → Nat → Bytes → Parsed σ)
    (zero : σ) (data : Bytes) : Parsed σ :=
  let head := getHead data
  let (state, rest) := forItems head head.val (structPair nfields field)
    ⟨zero, [], none⟩
  ⟨state.value, state.first, rest⟩

/-- Unmarshals a document into a target: the document is checked as a whole,
and then the target is filled. -/
def unmarshal (target : Bytes → Parsed α) (data : Bytes) :
    Except CborError α :=
  match wellformed data decodeWf with
  | .error error => .error error
  | .ok () =>
    let parsed := target data
    match parsed.err with
    | some error => .error error
    | none => .ok parsed.value

end AmberStore.Fx

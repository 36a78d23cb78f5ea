import AmberStore.Key
import AmberStore.Lib.Checked

/-!
# The record codec

A record is a 46-byte header (tag, key, flags, uncompressed and stored payload
lengths, CRC-32C) followed by the stored payload.  Segments on disk and packs
on the wire hold the same records.

CRC-32C and the compressors are parameters.  The CRC of a sequence of appended
parts is the CRC of their concatenation.
-/

open ByteString Checked List

namespace AmberStore.Amberpack

/-- The fixed record-header length. -/
abbrev recHeaderSize : Nat := 46

/-- The first byte of every record. -/
abbrev tagChunk : UInt8 := 0x01

/-- The codec id of a payload stored as it is. -/
abbrev codecRaw : UInt8 := 0

/-- The codec id of a zstd payload. -/
abbrev codecZstd : UInt8 := 1

/-- The codec id of an lz4 payload. -/
abbrev codecLz4 : UInt8 := 2

/-- The bound on one object's payload, stored or decoded. -/
abbrev maxPayload : Nat := 256 * 2 ^ 20

/-- What makes record bytes corrupt. -/
inductive Corruption
  | truncatedHeader
  | unexpectedTag (tag : UInt8)
  | unknownFlags (flags : UInt8)
  | truncatedPayload
  | rawLengths (ulen slen : Nat)
  | oversized (ulen : Nat)
  | compressedLengths (slen ulen : Nat)
  | crcMismatch
  | recordKey (error : Key.Error)
  deriving DecidableEq, Repr

/-- The lowercase hexadecimal form with its `0x` mark. -/
def hex (value : UInt8) : String :=
  "0x" ++ String.ofList (Nat.toDigits 16 value.toNat)

/-- The text of a corruption error. -/
def Corruption.message : Corruption → String
  | truncatedHeader => "truncated record header"
  | unexpectedTag tag => "unexpected record tag " ++ hex tag
  | unknownFlags flags => "unknown record flags " ++ hex flags
  | truncatedPayload => "truncated record payload"
  | rawLengths ulen slen => s!"raw record with ulen {ulen} != slen {slen}"
  | oversized ulen => s!"record ulen {ulen} exceeds limit {maxPayload}"
  | compressedLengths slen ulen =>
    s!"compressed record with slen {slen} >= ulen {ulen}"
  | crcMismatch => "record CRC mismatch"
  | recordKey error => "record key: " ++ error.message

/-- A parsed record header. -/
structure Record where
  key : Key
  /-- The raw flags byte, which names the codec. -/
  flags : UInt8
  ulen : Nat
  slen : Nat
  deriving DecidableEq

/-- The length of a whole record. -/
def Record.length (record : Record) : Nat :=
  recHeaderSize + record.slen

theorem Record.length_pos (record : Record) : 0 < record.length :=
  Nat.lt_of_lt_of_le (by decide) (Nat.le_add_right recHeaderSize record.slen)

/-- The record's bytes with a given CRC field. -/
def layout (key : Key) (flags : UInt8) (ulen : Nat)
    (crc : UInt32) (payload : Bytes) : Bytes :=
  [tagChunk] ++ key.bytes ++ [flags] ++ beBytes 4 ulen ++
    beBytes 4 payload.length ++ beBytes 4 crc.toNat ++ payload

section Codec

variable (crc32c : Bytes → UInt32)

/-- Validates the record at the start of the bytes, which may extend past it,
and returns its header. -/
def parseRecord (bytes : Bytes) : Except Corruption Record :=
  if bytes.length < recHeaderSize then
    .error .truncatedHeader
  else if byteAt bytes 0 ≠ tagChunk then
    .error (.unexpectedTag (byteAt bytes 0))
  else
    let flags := byteAt bytes 33
    let ulen := readBe bytes 34 4
    let slen := readBe bytes 38 4
    if flags > codecLz4 then
      .error (.unknownFlags flags)
    else if bytes.length < recHeaderSize + slen then
      .error .truncatedPayload
    else if flags = codecRaw ∧ ulen ≠ slen then
      .error (.rawLengths ulen slen)
    else if ulen > maxPayload then
      .error (.oversized ulen)
    else if flags ≠ codecRaw ∧ slen ≥ ulen then
      .error (.compressedLengths slen ulen)
    else if (crc32c (slice bytes 0 42 ++ [0, 0, 0, 0] ++
        slice bytes recHeaderSize (recHeaderSize + slen))).toNat ≠
          readBe bytes 42 4 then
      .error .crcMismatch
    else do
      let key ← (Key.parse (slice bytes 1 33)).mapError .recordKey
      .ok ⟨key, flags, ulen, slen⟩

/-- The fields of a parsed record are read from its header, and its payload
lies inside the bytes. -/
theorem fields_of_parseRecord
    (parsed : parseRecord crc32c bytes = .ok record) :
    record.length ≤ bytes.length ∧ record.flags = byteAt bytes 33 ∧
      record.ulen = readBe bytes 34 4 ∧ record.slen = readBe bytes 38 4 := by
  unfold parseRecord at parsed
  simp only [errorIf_eq_ok_iff, bind_eq_ok_iff,
    mapError_eq_ok_iff, Except.ok.injEq] at parsed
  obtain ⟨_, _, _, payloadFits, _, _, _, _, key, _, rfl⟩ := parsed
  exact ⟨Nat.le_of_not_lt payloadFits, rfl, rfl, rfl⟩

end Codec

/-! ## Payloads -/

/-- The decompressors, each given the stored bytes and the length its output
is capped at. -/
structure Codecs where
  zstd : Bytes → Nat → Except String Bytes
  lz4 : Bytes → Nat → Except String Bytes

/-- Why a stored payload does not decode. -/
inductive PayloadError
  | zstd (message : String)
  | lz4 (message : String)
  | lz4Range (ulen : Nat)
  | unknownFlags (flags : UInt8)
  | wrongLength (length ulen : Nat)
  deriving DecidableEq, Repr

/-- The text of a payload error. -/
def PayloadError.message : PayloadError → String
  | zstd message => "zstd: " ++ message
  | lz4 message => "lz4: " ++ message
  | lz4Range ulen => s!"lz4: ulen {ulen} out of range"
  | unknownFlags flags => "unknown record flags " ++ hex flags
  | wrongLength length ulen =>
    s!"decompressed to {length} bytes, header says {ulen}"

/-- Holds a decompressed payload to the header's length. -/
def checkDecoded (ulen : Nat) (decoded : Except PayloadError Bytes) :
    Except PayloadError Bytes :=
  match decoded with
  | .error error => .error error
  | .ok out =>
    if out.length ≠ ulen then .error (.wrongLength out.length ulen)
    else .ok out

/-- The payload of a record's stored bytes, decoded as its flags say. -/
def decodePayload (codecs : Codecs) (flags : UInt8) (ulen : Nat)
    (stored : Bytes) : Except PayloadError Bytes :=
  if flags = codecRaw then
    .ok stored
  else if flags = codecZstd then
    checkDecoded ulen ((codecs.zstd stored ulen).mapError .zstd)
  else if flags = codecLz4 then
    if ulen ≥ 2 ^ 31 then .error (.lz4Range ulen)
    else checkDecoded ulen ((codecs.lz4 stored ulen).mapError .lz4)
  else
    .error (.unknownFlags flags)

/-! ## The layout, field by field -/

section Layout

variable (key : Key) (flags : UInt8) (ulen : Nat) (crc : UInt32)
variable (payload rest : Bytes)

@[simp] theorem layout_length :
    (layout key flags ulen crc payload).length =
      recHeaderSize + payload.length := by
  simp only [layout, length_append, length_singleton,
    key.bytes_length, beBytes_length, recHeaderSize]

theorem layout_eq :
    layout key flags ulen crc payload =
      [[tagChunk], key.bytes, [flags], beBytes 4 ulen,
        beBytes 4 payload.length, beBytes 4 crc.toNat, payload].flatten := by
  simp [layout]

theorem layout_tag :
    byteAt (layout key flags ulen crc payload ++ rest) 0 = tagChunk := rfl

theorem layout_key :
    slice (layout key flags ulen crc payload ++ rest) 1 33 = key.bytes := by
  rw [layout_eq]
  exact @slice_flatten _ rest 1 1 33 _ rfl rfl (by rw [key.bytes_length])

theorem layout_flags :
    byteAt (layout key flags ulen crc payload ++ rest) 33 = flags := by
  rw [layout_eq]
  exact @byteAt_flatten _ rest 2 33 _ rfl (by simp [key.bytes_length])

theorem layout_ulen
    (fits : ulen < 256 ^ 4) :
    readBe (layout key flags ulen crc payload ++ rest) 34 4 = ulen := by
  rw [layout_eq]
  exact @readBe_flatten _ rest 3 34 4 _ rfl (by simp [key.bytes_length]) fits

theorem layout_slen
    (fits : payload.length < 256 ^ 4) :
    readBe (layout key flags ulen crc payload ++ rest) 38 4 =
      payload.length := by
  rw [layout_eq]
  exact @readBe_flatten _ rest 4 38 4 _ rfl (by simp [key.bytes_length]) fits

theorem layout_crc :
    readBe (layout key flags ulen crc payload ++ rest) 42 4 = crc.toNat := by
  rw [layout_eq]
  exact @readBe_flatten _ rest 5 42 4 _ rfl (by simp [key.bytes_length])
    crc.toNat_lt

theorem layout_payload :
    slice (layout key flags ulen crc payload ++ rest) recHeaderSize
      (recHeaderSize + payload.length) = payload := by
  rw [layout_eq]
  exact @slice_flatten _ rest 6 recHeaderSize _ _ rfl
    (by simp [key.bytes_length]) rfl

/-- The bytes the CRC is taken over are the record with a zero CRC field. -/
theorem layout_checked :
    slice (layout key flags ulen crc payload ++ rest) 0 42 ++
      [0, 0, 0, 0] ++ payload = layout key flags ulen 0 payload := by
  have split : layout key flags ulen crc payload ++ rest =
      ([tagChunk] ++ key.bytes ++ [flags] ++ beBytes 4 ulen ++
        beBytes 4 payload.length) ++ (beBytes 4 crc.toNat ++
          (payload ++ rest)) := by
    simp [layout]
  rw [split, slice_append_left _ _ _ (by simp [key.bytes_length]),
    slice_self _ (by simp [key.bytes_length])]
  rfl

/-- Bytes with room for a header and the payload it announces are the layout
of the fields read from them. -/
theorem layout_of_fields
    (roomy : recHeaderSize + readBe bytes 38 4 ≤ bytes.length)
    (tagField : byteAt bytes 0 = tagChunk)
    (keyField : key.bytes = slice bytes 1 33) :
    bytes =
      layout key (byteAt bytes 33) (readBe bytes 34 4)
          (UInt32.ofNat (readBe bytes 42 4))
          (slice bytes recHeaderSize (recHeaderSize + readBe bytes 38 4)) ++
        bytes.drop (recHeaderSize + readBe bytes 38 4) := by
  have crcValue : (UInt32.ofNat (readBe bytes 42 4)).toNat =
      readBe bytes 42 4 :=
    UInt32.toNat_ofNat_of_lt' (readBe_lt bytes 42 4)
  have payloadLength := slice_length_of_le bytes recHeaderSize roomy
  rw [Nat.add_sub_cancel_left] at payloadLength
  unfold recHeaderSize at *
  unfold layout
  rw [payloadLength, crcValue, keyField, ← tagField,
    singleton_byteAt bytes (by omega : 0 < bytes.length),
    singleton_byteAt bytes (by omega : 33 < bytes.length),
    beBytes_readBe bytes (by omega), beBytes_readBe bytes (by omega),
    beBytes_readBe bytes (by omega),
    slice_append_slice bytes (by omega) (by omega),
    slice_append_slice bytes (by omega) (by omega),
    slice_append_slice bytes (by omega) (by omega),
    slice_append_slice bytes (by omega) (by omega),
    slice_append_slice bytes (by omega) (by omega),
    slice_append_slice bytes (by omega) (by omega), slice_zero]
  exact (take_append_drop _ bytes).symm

end Layout

/-! ## Stored records -/

/-- A record as a writer lays it down: a canonical key, and lengths that agree
with the codec its flags name. -/
structure StoredRecord where
  key : Key
  flags : UInt8
  ulen : Nat
  payload : Bytes
  canonical : key.Canonical
  knownFlags : flags ≤ codecLz4
  ulenFits : ulen ≤ maxPayload
  rawLength : flags = codecRaw → ulen = payload.length
  compressedLength : flags ≠ codecRaw → payload.length < ulen

namespace StoredRecord

/-- The record that stores a payload as it is. -/
def raw (key : Key) (canonical : key.Canonical)
    (payload : Bytes) (fits : payload.length ≤ maxPayload) : StoredRecord where
  key := key
  flags := codecRaw
  ulen := payload.length
  payload := payload
  canonical := canonical
  knownFlags := by decide
  ulenFits := fits
  rawLength _ := rfl
  compressedLength compressed := absurd rfl compressed

/-- The header a parse of the record returns. -/
def header (stored : StoredRecord) : Record :=
  ⟨stored.key, stored.flags, stored.ulen, stored.payload.length⟩

theorem payload_length_le (stored : StoredRecord) :
    stored.payload.length ≤ maxPayload := by
  have ulenFits := stored.ulenFits
  by_cases raw : stored.flags = codecRaw
  · rw [← stored.rawLength raw]
    exact ulenFits
  · have smaller := stored.compressedLength raw
    omega

theorem ulen_lt (stored : StoredRecord) : stored.ulen < 256 ^ 4 :=
  lt_of_le_of_lt stored.ulenFits (by decide)

theorem payload_length_lt (stored : StoredRecord) :
    stored.payload.length < 256 ^ 4 :=
  lt_of_le_of_lt stored.payload_length_le (by decide)

section Encode

variable (crc32c : Bytes → UInt32)

/-- The record's bytes, with its CRC taken over them while the CRC field is
still zero. -/
def encode (stored : StoredRecord) : Bytes :=
  layout stored.key stored.flags stored.ulen
    (crc32c (layout stored.key stored.flags stored.ulen 0 stored.payload))
    stored.payload

@[simp] theorem encode_length (stored : StoredRecord) :
    (stored.encode crc32c).length = stored.header.length := by
  simp [encode, header, Record.length]

/-- A record is its header followed by its payload. -/
theorem encode_eq (stored : StoredRecord) :
    stored.encode crc32c =
      (stored.encode crc32c).take recHeaderSize ++ stored.payload := by
  conv_lhs => rw [← take_append_drop recHeaderSize (stored.encode crc32c)]
  rw [encode, layout, drop_left']
  simp [stored.key.bytes_length]

theorem byteAt_encode_append (stored : StoredRecord) (rest : Bytes) :
    byteAt (stored.encode crc32c ++ rest) 0 = tagChunk :=
  layout_tag ..

/-- Parsing reads back the header of the record at the front, whatever
follows it. -/
theorem parseRecord_encode_append (stored : StoredRecord) (rest : Bytes) :
    parseRecord crc32c (stored.encode crc32c ++ rest) = .ok stored.header := by
  have totalLength : (stored.encode crc32c ++ rest).length =
      recHeaderSize + stored.payload.length + rest.length := by
    simp [header, Record.length]
  have keyParses : Key.parse stored.key.bytes = .ok stored.key :=
    (Key.parse_eq_ok_iff _ _).mpr ⟨rfl, stored.canonical⟩
  unfold parseRecord
  simp only [errorIf_eq_ok_iff, totalLength, byteAt_encode_append]
  unfold encode
  simp only [layout_flags, layout_ulen _ _ _ _ _ _ stored.ulen_lt,
    layout_slen _ _ _ _ _ _ stored.payload_length_lt, layout_crc,
    layout_payload, layout_checked, layout_key, keyParses]
  refine ⟨by omega, by simp, UInt8.not_lt.mpr stored.knownFlags, by omega,
    ?_, stored.ulenFits.not_gt, ?_, by simp, rfl⟩
  · rintro ⟨raw, lengthsDiffer⟩
    exact lengthsDiffer (stored.rawLength raw)
  · rintro ⟨compressed, notSmaller⟩
    exact (stored.compressedLength compressed).not_ge notSmaller

/-- What parses is a stored record followed by whatever bytes come after. -/
theorem of_parseRecord_eq_ok
    (parsed : parseRecord crc32c bytes = .ok record) :
    ∃ stored : StoredRecord, stored.header = record ∧
      bytes = stored.encode crc32c ++ bytes.drop record.length := by
  unfold parseRecord at parsed
  simp only [errorIf_eq_ok_iff, bind_eq_ok_iff,
    mapError_eq_ok_iff, Except.ok.injEq] at parsed
  obtain ⟨headerFits, tagMatches, flagsKnown, payloadFits, rawChecked,
    ulenChecked, compressedChecked, crcMatches, key, keyParsed,
    recordEq⟩ := parsed
  obtain ⟨keyBytes, canonical⟩ := (Key.parse_eq_ok_iff _ _).mp keyParsed
  have whole := layout_of_fields key (not_lt.mp payloadFits)
    (not_not.mp tagMatches) keyBytes
  have payloadLength := slice_length_of_le bytes recHeaderSize
    (not_lt.mp payloadFits)
  rw [Nat.add_sub_cancel_left] at payloadLength
  let stored : StoredRecord :=
    { key := key
      flags := byteAt bytes 33
      ulen := readBe bytes 34 4
      payload := slice bytes recHeaderSize (recHeaderSize + readBe bytes 38 4)
      canonical := canonical
      knownFlags := UInt8.not_lt.mp flagsKnown
      ulenFits := not_lt.mp ulenChecked
      rawLength := by
        intro raw
        rw [payloadLength]
        by_contra lengthsDiffer
        exact rawChecked ⟨raw, lengthsDiffer⟩
      compressedLength := by
        intro compressed
        rw [payloadLength]
        by_contra notSmaller
        exact compressedChecked ⟨compressed, not_lt.mp notSmaller⟩ }
  refine ⟨stored, ?_, ?_⟩
  · rw [← recordEq]
    simp only [header, stored, payloadLength]
  · have checked := layout_checked key (byteAt bytes 33) (readBe bytes 34 4)
      (UInt32.ofNat (readBe bytes 42 4)) stored.payload
      (bytes.drop (recHeaderSize + readBe bytes 38 4))
    rw [← whole] at checked
    have crcEq : crc32c (layout key (byteAt bytes 33) (readBe bytes 34 4) 0
        stored.payload) = UInt32.ofNat (readBe bytes 42 4) := by
      rw [← checked, ← not_not.mp crcMatches, UInt32.ofNat_toNat]
    rw [← recordEq]
    change bytes = layout key (byteAt bytes 33) (readBe bytes 34 4)
      (crc32c (layout key (byteAt bytes 33) (readBe bytes 34 4) 0
        stored.payload)) stored.payload ++ _
    rw [crcEq]
    exact whole

/-- Two stored records at the front of the same bytes have one header. -/
theorem header_eq_of_append_eq
    {left right : StoredRecord}
    (sameBytes : left.encode crc32c ++ leftRest =
      right.encode crc32c ++ rightRest) :
    left.header = right.header := by
  have leftParse := left.parseRecord_encode_append crc32c leftRest
  rw [sameBytes, right.parseRecord_encode_append crc32c rightRest,
    Except.ok.injEq] at leftParse
  exact leftParse.symm

/-- The record at the front of some bytes is the only one. -/
theorem eq_of_append_eq
    {right : StoredRecord}
    (sameBytes : left.encode crc32c ++ leftRest =
      right.encode crc32c ++ rightRest) :
    left = right ∧ leftRest = rightRest := by
  have sameHeader := header_eq_of_append_eq crc32c sameBytes
  have sameLength : (left.encode crc32c).length =
      (right.encode crc32c).length := by
    rw [encode_length, encode_length, sameHeader]
  obtain ⟨sameEncode, sameRest⟩ := append_inj sameBytes sameLength
  refine ⟨?_, sameRest⟩
  have headLength : ((left.encode crc32c).take recHeaderSize).length =
      ((right.encode crc32c).take recHeaderSize).length := by
    rw [sameEncode]
  rw [encode_eq, encode_eq crc32c right] at sameEncode
  have samePayload := (append_inj sameEncode headLength).2
  cases left
  cases right
  simp only [header, Record.mk.injEq] at sameHeader samePayload
  obtain ⟨rfl, rfl, rfl, -⟩ := sameHeader
  subst samePayload
  rfl

/-- A strict prefix of a record does not parse. -/
theorem parseRecord_torn
    (stored : StoredRecord)
    (split : torn ++ missing = stored.encode crc32c)
    (strict : missing ≠ []) (record : Record) :
    parseRecord crc32c torn ≠ .ok record := by
  intro parsed
  obtain ⟨found, foundHeader, tornEq⟩ := of_parseRecord_eq_ok crc32c parsed
  have sameBytes : found.encode crc32c ++ (torn.drop record.length ++
      missing) = stored.encode crc32c ++ [] := by
    rw [← append_assoc, ← tornEq, split, append_nil]
  have sameHeader := header_eq_of_append_eq crc32c sameBytes
  have tornLength := congrArg List.length tornEq
  have splitLength := congrArg List.length split
  have missingLength := length_pos_iff.mpr strict
  rw [length_append, encode_length, sameHeader] at tornLength
  rw [length_append, encode_length] at splitLength
  omega

end Encode

end StoredRecord

end AmberStore.Amberpack

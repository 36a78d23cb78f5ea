import AmberStore.Amberpack

/-!
# Wire packs

A wire pack is a magic, records and an end marker.  The writer encodes each
object with the compression it was given and stores a payload raw that does not
get smaller; the reader is an iterator that ends at the marker or at the first
error.
-/

open ByteString

namespace AmberStore.Amberpack

/-! ## Compression -/

/-- How a writer compresses payloads. -/
inductive Compression
  | none
  | zstd (level : Int)
  | lz4 (level : Int)
  deriving DecidableEq, Repr

/-- Why a pack cannot be written or read. -/
inductive StreamError
  | malformed (text : String)
  | tooLarge (key : Key) (length : Nat)
  | invalidCompression (text : String)
  deriving DecidableEq

/-- The highest zstd level. -/
abbrev maxZstdLevel : Int := 22

/-- The highest lz4 level. -/
abbrev maxLz4Level : Int := 12

/-- The zstd level that level zero stands for. -/
abbrev zstdDefaultLevel : Int := 3

namespace Compression

/-- The codec id of what is compressed. -/
def codec : Compression → UInt8
  | none => codecRaw
  | zstd _ => codecZstd
  | lz4 _ => codecLz4

/-- The check of a level. -/
def checkLevel (name : String) (level max : Int) : Except StreamError Unit :=
  if 0 ≤ level ∧ level ≤ max then .ok ()
  else .error (.invalidCompression s!"{name} level {level}, want 0 to {max}")

/-- Whether the level is one the codec has. -/
def validate : Compression → Except StreamError Unit
  | none => .ok ()
  | zstd level => checkLevel "zstd" level maxZstdLevel
  | lz4 level => checkLevel "lz4" level maxLz4Level

end Compression

/-- The compressors, each given a level and a payload. -/
structure Compressors where
  zstd : Int → Bytes → Option Bytes
  /-- Makes an lz4 block, in the default mode or at a high level. -/
  lz4 : Option Int → Bytes → Option Bytes

/-- The decompressors invert the compressors. -/
structure Compressors.InvertedBy (compressors : Compressors)
    (codecs : Codecs) : Prop where
  zstd : ∀ {level data out}, compressors.zstd level data = some out →
    codecs.zstd out data.length = .ok data
  lz4 : ∀ {level data out}, compressors.lz4 level data = some out →
    codecs.lz4 out data.length = .ok data

/-- The compressed payload; none when it is to be stored raw. -/
def compress (compressors : Compressors) (compression : Compression)
    (data : Bytes) : Option Bytes :=
  if data = [] then
    none
  else
    let out :=
      match compression with
      | .none => none
      | .zstd level =>
        compressors.zstd (if level = 0 then zstdDefaultLevel else level) data
      | .lz4 level =>
        compressors.lz4 (if level = 0 then none else some level) data
    out.filter fun out => out.length < data.length

section Streams

variable (crc32c : Bytes → UInt32) (compressors : Compressors)

/-- A record of an object, compressed when that makes it smaller. -/
def encodeRecordWith (key : Key) (data : Bytes) (compression : Compression) :
    Except StreamError Bytes := do
  compression.validate
  if data.length > maxPayload then
    .error (.tooLarge key data.length)
  else
    let (flags, payload) :=
      match compress compressors compression data with
      | some payload => (compression.codec, payload)
      | none => (codecRaw, data)
    .ok (layout key flags data.length
      (crc32c (layout key flags data.length 0 payload)) payload)

/-! ## The writer -/

/-- The magic of a wire pack. -/
abbrev packMagic : Bytes :=
  [0x41, 0x4d, 0x42, 0x45, 0x52, 0x50, 0x4b, 0x04]

/-- The end marker. -/
abbrev tagEnd : UInt8 := 0x00

/-- What was written so far. -/
structure Writer where
  out : Bytes
  wroteHeader : Bool
  compression : Compression

namespace Writer

/-- A writer with a compression. -/
def new (compression : Compression) : Writer :=
  ⟨[], false, compression⟩

/-- Writes the magic, once. -/
def ensureHeader (writer : Writer) : Writer :=
  if writer.wroteHeader then writer
  else { writer with out := writer.out ++ packMagic, wroteHeader := true }

/-- Appends one object. -/
def add (writer : Writer) (key : Key) (data : Bytes) :
    Except StreamError Writer := do
  let writer := writer.ensureHeader
  let record ← encodeRecordWith crc32c compressors key data writer.compression
  .ok { writer with out := writer.out ++ record }

/-- Writes the end marker. -/
def finish (writer : Writer) : Bytes :=
  writer.ensureHeader.out ++ [tagEnd]

end Writer

/-- The pack of some objects. -/
def writePack (compression : Compression) (objects : List (Key × Bytes)) :
    Except StreamError Bytes := do
  let writer ← objects.foldlM
    (fun writer object => writer.add crc32c compressors object.1 object.2)
    (Writer.new compression)
  .ok writer.finish

/-! ## The reader -/

/-- How far a reader is. -/
inductive ReaderState
  | magic
  | records
  | done
  deriving DecidableEq, Repr

/-- A reader: the bytes that follow, and how far it is. -/
structure Reader where
  rest : Bytes
  state : ReaderState

/-- A record as it was read. -/
structure RawRecord where
  record : Record
  bytes : Bytes
  deriving DecidableEq

namespace Reader

/-- A reader of a stream. -/
def new (stream : Bytes) : Reader :=
  ⟨stream, .magic⟩

/-- Reads as many bytes as are asked for. -/
def readFull (reader : Reader) (count : Nat) (what : String) :
    Except StreamError (Bytes × Reader) :=
  if count ≤ reader.rest.length then
    .ok (reader.rest.take count, { reader with rest := reader.rest.drop count })
  else
    .error (.malformed (what ++ ": failed to fill whole buffer"))

/-- Reads the magic. -/
def readMagic (reader : Reader) : Except StreamError Reader := do
  let (magic, reader) ← reader.readFull packMagic.length "reading magic"
  if magic.take 7 = packMagic.take 7 ∧ byteAt magic 7 ≠ byteAt packMagic 7 then
    .error (.malformed (s!"pack format version {byteAt magic 7}, " ++
      s!"this release reads {byteAt packMagic 7}"))
  else if magic ≠ packMagic then
    .error (.malformed "bad magic")
  else
    .ok { reader with state := .records }

/-- Reads the magic unless it was read before. -/
def ensureMagic (reader : Reader) : Except StreamError Reader :=
  if reader.state = .magic then reader.readMagic else .ok reader

/-- Reads a record whose tag was read. -/
def readRecord (reader : Reader) : Except StreamError (RawRecord × Reader) := do
  let (rest, reader) ← reader.readFull (recHeaderSize - 1)
    "truncated record header"
  let header := tagChunk :: rest
  let slen := readBe header 38 4
  if slen > maxPayload then
    .error (.malformed s!"record payload {slen} exceeds limit {maxPayload}")
  else do
    let (payload, reader) ← reader.readFull slen "truncated record payload"
    let full := header ++ payload
    match parseRecord crc32c full with
    | .error error =>
      .error (.malformed ("amberpack: corrupt pack data: " ++ error.message))
    | .ok record => .ok (⟨record, full⟩, reader)

/-- Reads the next record undecoded; none on the end marker. -/
def nextRecord (reader : Reader) :
    Except StreamError (Option RawRecord × Reader) := do
  let reader ← reader.ensureMagic
  let (tag, reader) ← reader.readFull 1 "truncated before end marker"
  if tag = [tagEnd] then
    .ok (none, reader)
  else if tag = [tagChunk] then do
    let (raw, reader) ← reader.readRecord crc32c
    .ok (some raw, reader)
  else
    .error (.malformed ("bad record tag " ++ hex (byteAt tag 0)))

/-- Reads the next object: the next record with its payload decoded. -/
def nextObject (codecs : Codecs) (reader : Reader) :
    Except StreamError (Option (Key × Bytes) × Reader) := do
  match ← reader.nextRecord crc32c with
  | (none, reader) => .ok (none, reader)
  | (some raw, reader) =>
    match decodePayload codecs raw.record.flags raw.record.ulen
        (raw.bytes.drop recHeaderSize) with
    | .error error =>
      .error (.malformed ("amberpack: corrupt pack data: " ++ error.message))
    | .ok payload => .ok (some (raw.record.key, payload), reader)

/-- One step of the iterator: the end marker or an error finishes it. -/
def step (read : Reader → Except StreamError (Option α × Reader))
    (reader : Reader) : Option (Except StreamError α) × Reader :=
  if reader.state = .done then
    (none, reader)
  else
    match read reader with
    | .ok (some value, reader) => (some (.ok value), reader)
    | .ok (none, reader) => (none, { reader with state := .done })
    | .error error => (some (.error error), { reader with state := .done })

/-- What so many calls of the iterator return. -/
def calls (read : Reader → Except StreamError (Option α × Reader)) :
    Nat → Reader → List (Option (Except StreamError α))
  | 0, _ => []
  | count + 1, reader =>
    (step read reader).1 :: calls read count (step read reader).2

end Reader

end Streams

end AmberStore.Amberpack

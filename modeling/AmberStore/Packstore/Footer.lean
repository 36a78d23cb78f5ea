import AmberStore.Amberpack
import AmberStore.BinaryFuse.Section

/-!
# Segments and their footers

A segment is an eight-byte header whose last byte is the format version, and
records.  Sealing appends a footer: a seal marker, an index (a fanout on the
first key byte and the entries in key order), a filter over the leading eight
key bytes, and a fixed trailer that is found from the end of the file.

An overflow of the index's 32-bit counts is kept as a failure of its own.
-/

open ByteString Bounded Sorted

namespace AmberStore.Packstore

/-! ## Segment headers -/

/-- The segment header of the base version. -/
abbrev magicHeader : Bytes :=
  [0x41, 0x4d, 0x42, 0x45, 0x52, 0x53, 0x47, 0x02]

/-- The last eight bytes of a sealed segment. -/
abbrev magicTrailer : Bytes :=
  [0x41, 0x4d, 0x42, 0x45, 0x52, 0x53, 0x47, 0x46]

/-- The marker a footer starts with. -/
abbrev tagSeal : UInt8 := 0xF0

/-- The version of segments with raw and zstd records only. -/
abbrev versionBase : UInt8 := 2

/-- The version of segments that may hold lz4 records. -/
abbrev versionLz4 : UInt8 := 3

/-- The version of segments that may hold git objects. -/
abbrev versionGit : UInt8 := 4

/-- Whether this release reads a version. -/
def readsVersion (version : UInt8) : Bool :=
  versionBase ≤ version ∧ version ≤ versionGit

/-- What makes a file unusable as a segment. -/
inductive FooterError
  | unsupportedVersion (found : UInt8)
  | fileTooShort (length : Nat)
  | badHeaderMagic
  | badTrailerMagic
  | reservedField
  | offsetsInconsistent
  | crcMismatch
  | missingSeal
  | keyCountLimit (keyCount : Nat)
  | indexLength (length want : Nat)
  | fanoutNotMonotonic (byte : UInt8)
  | fanoutTotal (total keyCount : Nat)
  | filter (error : BinaryFuse.SectionError)
  deriving DecidableEq, Repr

/-- Refuses the segment magic of another format version; a missing, torn or
foreign header is the caller's to judge. -/
def checkVersion (bytes : Bytes) : Except FooterError Unit :=
  if bytes.length ≤ 7 ∨ bytes.take 7 ≠ magicHeader.take 7 ∨
      readsVersion (byteAt bytes 7) then
    .ok ()
  else
    .error (.unsupportedVersion (byteAt bytes 7))

/-- Whether bytes are a segment header of a version this release reads. -/
def isHeader (bytes : Bytes) : Bool :=
  bytes.length = 8 ∧ bytes.take 7 = magicHeader.take 7 ∧
    readsVersion (byteAt bytes 7)

/-- The segment header of a version. -/
def headerAt (version : UInt8) : Bytes :=
  magicHeader.take 7 ++ [version]

/-- The lowest version that may hold a record with a flags byte. -/
def versionForCodec (flags : UInt8) : UInt8 :=
  if flags > Amberpack.codecZstd then versionLz4 else versionBase

/-- The lowest version that may hold a record with a key and flags byte. -/
def versionFor (key : Key) (flags : UInt8) : UInt8 :=
  if key.isGit then versionGit else versionForCodec flags

/-! ## The index section -/

/-- The length of the fanout table. -/
abbrev fanoutSize : Nat := 256 * 4

/-- The length of an index row. -/
abbrev indexEntrySize : Nat := 32 + 8 + 4

/-- The length of the trailer. -/
abbrev trailerSize : Nat := 64

/-- The length of the shortest sealed segment. -/
abbrev minSealedLen : Nat :=
  8 + 1 + fanoutSize + indexEntrySize + BinaryFuse.sectionHeaderSize +
    trailerSize

/-- An index row: a key, where its record starts, and its stored length. -/
structure IndexEntry where
  k : Key
  off : UInt64
  slen : UInt32
  deriving DecidableEq

/-- The byte the fanout is on. -/
def firstByte (key : Key) : Nat :=
  (byteAt key.bytes 0).toNat

/-- Why a footer could not be built. -/
inductive BuildError
  | emptySegment
  | buildingFilter (stop : BinaryFuse.Stop)
  | overflow
  deriving DecidableEq, Repr

/-- The entries in key order. -/
def sortEntries (entries : List IndexEntry) : List IndexEntry :=
  entries.mergeSort fun left right => ¬right.k.bytes < left.k.bytes

/-- Counts one more entry with a first byte. -/
def bumpCount (counts : List Nat) (byte : Nat) :
    Except BuildError (List Nat) :=
  if counts.getD byte 0 + 1 < 2 ^ 32 then
    .ok (counts.set byte (counts.getD byte 0 + 1))
  else
    .error .overflow

/-- Counts the entries by first byte. -/
def tally : List Nat → List IndexEntry → Except BuildError (List Nat)
  | counts, [] => .ok counts
  | counts, entry :: entries => do
      let counts ← bumpCount counts (firstByte entry.k)
      tally counts entries

/-- The running totals of the counts. -/
def accumulate : (cum : Nat) → List Nat → Except BuildError (List Nat)
  | _, [] => .ok []
  | cum, count :: counts =>
    if cum + count < 2 ^ 32 then do
      let rest ← accumulate (cum + count) counts
      .ok ((cum + count) :: rest)
    else
      .error .overflow

/-- An index row's bytes. -/
def rowBytes (entry : IndexEntry) : Bytes :=
  entry.k.bytes ++ beBytes 8 entry.off.toNat ++ beBytes 4 entry.slen.toNat

/-- The index section of entries in key order: fanout and entries. -/
def indexSection (sorted : List IndexEntry) : Except BuildError Bytes := do
  let counts ← tally (List.replicate 256 0) sorted
  let fanout ← accumulate 0 counts
  .ok (fanout.flatMap (beBytes 4) ++ sorted.flatMap rowBytes)

/-- Serializes the index section of entries in any order. -/
def buildIndexSection (entries : List IndexEntry) : Except BuildError Bytes :=
  indexSection (sortEntries entries)

/-- The fanout entries from a byte value on, each checked against the one
before it. -/
def readFanout (bytes : Bytes) :
    (count index previous : Nat) → Except FooterError (List Nat)
  | 0, _, _ => .ok []
  | count + 1, index, previous =>
    if readBe bytes (index * 4) 4 < previous then
      .error (.fanoutNotMonotonic (UInt8.ofNat index))
    else do
      let rest ← readFanout bytes count (index + 1)
        (readBe bytes (index * 4) 4)
      .ok (readBe bytes (index * 4) 4 :: rest)

/-- Validates an index section and decodes its fanout table. -/
def parseIndexSection (bytes : Bytes) (keyCount : Nat) :
    Except FooterError (List Nat) :=
  let want := fanoutSize + keyCount * indexEntrySize
  if keyCount > 2 ^ 32 - 1 then
    .error (.keyCountLimit keyCount)
  else if bytes.length ≠ want then
    .error (.indexLength bytes.length want)
  else do
    let fanout ← readFanout bytes 256 0 0
    if fanout.getD 255 0 ≠ keyCount then
      .error (.fanoutTotal (fanout.getD 255 0) keyCount)
    else
      .ok fanout

/-! ## The filter -/

/-- The filter input of a key: its first eight bytes. -/
def filterKey (key : Key) : UInt64 :=
  UInt64.ofNat (beNat (key.bytes.take 8))

/-- Builds and serializes a filter over the entries' keys. -/
def buildFilterSection (hashing : BinaryFuse.Hashing)
    (entries : List IndexEntry) : Except BuildError Bytes := do
  let heads := dedupAdjacent
    ((entries.map fun entry => filterKey entry.k).mergeSort
      fun left right => left ≤ right)
  let filter ← (BinaryFuse.build hashing heads).mapError .buildingFilter
  .ok (BinaryFuse.sectionBytes filter)

/-! ## Searching the index -/

/-- The key of a row, which must lie inside the rows. -/
def rowKey (rows : Bytes) (position : Nat) : Except BinaryFuse.Stop Bytes :=
  if (position + 1) * indexEntrySize ≤ rows.length then
    .ok (slice rows (position * indexEntrySize)
      (position * indexEntrySize + 32))
  else
    .error .indexOutOfBounds

/-- The binary search for the first row of a bucket not below a key. -/
def searchRows (rows : Bytes) (key : Key) (lo : Nat) :
    (fuel low high : Nat) → Except BinaryFuse.Stop Nat
  | 0, low, _ => .ok low
  | fuel + 1, low, high =>
    if low < high then do
      let mid := (low + high) / 2
      let found ← rowKey rows (lo + mid)
      if found < key.bytes then searchRows rows key lo fuel (mid + 1) high
      else searchRows rows key lo fuel low mid
    else
      .ok low

/-- Where the bucket of a first byte starts. -/
def bucketStart (fanout : List Nat) (byte : Nat) : Except BinaryFuse.Stop Nat :=
  if byte > 0 then read .indexOutOfBounds fanout (byte - 1) else .ok 0

/-- A key's position in the index section. -/
def searchIndexPos (fanout : List Nat) (rows : Bytes) (key : Key) :
    Except BinaryFuse.Stop (Option Nat) := do
  let byte := firstByte key
  let lo ← bucketStart fanout byte
  let hi ← read .indexOutOfBounds fanout byte
  if hi < lo then .error .overflow
  else do
    let n := hi - lo
    let low ← searchRows rows key lo n 0 n
    if low ≥ n then
      .ok none
    else do
      let found ← rowKey rows (lo + low)
      if found ≠ key.bytes then .ok none else .ok (some (lo + low))

/-- The offset and stored length of a key's row. -/
def searchIndex (fanout : List Nat) (rows : Bytes) (key : Key) :
    Except BinaryFuse.Stop (Option (UInt64 × UInt32)) := do
  match ← searchIndexPos fanout rows key with
  | none => .ok none
  | some position =>
    let row := position * indexEntrySize
    .ok (some (UInt64.ofNat (readBe rows (row + 32) 8),
      UInt32.ofNat (readBe rows (row + 40) 4)))

/-! ## The footer -/

section Footer

variable (crc32c : Bytes → UInt32)

/-- The trailer up to its CRC field. -/
def trailerFields (bodyLen indexLen filterLen keyCount : Nat) : Bytes :=
  beBytes 8 (bodyLen + 1) ++ beBytes 8 indexLen ++
    beBytes 8 (bodyLen + 1 + indexLen) ++ beBytes 8 filterLen ++
    beBytes 8 keyCount ++ beBytes 8 bodyLen

/-- Assembles the footer of a segment whose records end at `bodyLen`. -/
def buildFooter (hashing : BinaryFuse.Hashing) (bodyLen : Nat)
    (entries : List IndexEntry) : Except BuildError Bytes :=
  if entries = [] then
    .error .emptySegment
  else do
    let index ← buildIndexSection entries
    let filter ← buildFilterSection hashing entries
    if bodyLen + 1 + index.length < 2 ^ 64 then
      let covered := [tagSeal] ++ index ++ filter ++
        trailerFields bodyLen index.length filter.length entries.length
      .ok (covered ++ beBytes 4 (crc32c covered).toNat ++ [0, 0, 0, 0] ++
        magicTrailer)
    else
      .error .overflow

/-- The parsed footer of a sealed segment. -/
structure FooterView where
  /-- Cumulative entry counts by first key byte. -/
  fanout : List Nat
  entriesOff : Nat
  entriesLen : Nat
  filter : BinaryFuse.BinaryFuse16
  keyCount : Nat
  /-- Where the records end. -/
  bodyLen : Nat
  indexOff : Nat
  indexLen : Nat

/-- Validates a whole sealed-segment image and returns its footer view. -/
def parseFooter (image : Bytes) : Except FooterError FooterView := do
  let fileLen := image.length
  let trailer := image.drop (fileLen - trailerSize)
  let indexOff := readBe trailer 0 8
  let indexLen := readBe trailer 8 8
  let filterOff := readBe trailer 16 8
  let filterLen := readBe trailer 24 8
  let keyCount := readBe trailer 32 8
  let bodyLen := readBe trailer 40 8
  if fileLen < minSealedLen then
    .error (.fileTooShort fileLen)
  else do
    checkVersion image
    if ¬isHeader (image.take 8) then
      .error .badHeaderMagic
    else if slice trailer 56 64 ≠ magicTrailer then
      .error .badTrailerMagic
    else if readBe trailer 52 4 ≠ 0 then
      .error .reservedField
    else if bodyLen < 8 ∨ bodyLen ≥ fileLen ∨ keyCount > 2 ^ 32 - 1 ∨
        indexOff ≠ bodyLen + 1 ∨
        indexLen ≠ fanoutSize + keyCount * indexEntrySize ∨
        filterOff ≠ indexOff + indexLen ∨
        filterOff > fileLen - trailerSize ∨
        filterLen ≠ fileLen - trailerSize - filterOff then
      .error .offsetsInconsistent
    else if (crc32c (slice image bodyLen (fileLen - 16))).toNat ≠
        readBe trailer 48 4 then
      .error .crcMismatch
    else if byteAt image bodyLen ≠ tagSeal then
      .error .missingSeal
    else do
      let fanout ← parseIndexSection
        (slice image indexOff (indexOff + indexLen)) keyCount
      let filter ← (BinaryFuse.parseSection
        (slice image filterOff (filterOff + filterLen))).mapError .filter
      .ok
        { fanout := fanout
          entriesOff := indexOff + fanoutSize
          entriesLen := indexLen - fanoutSize
          filter := filter
          keyCount := keyCount
          bodyLen := bodyLen
          indexOff := indexOff
          indexLen := indexLen }

end Footer

/-- Finds a key in the segment's index. -/
def FooterView.lookup (view : FooterView) (image : Bytes) (key : Key) :
    Except BinaryFuse.Stop (Option (UInt64 × UInt32)) :=
  searchIndex view.fanout
    (slice image view.entriesOff (view.entriesOff + view.entriesLen)) key

/-- Whether a key is in the segment: the filter first, then the index. -/
def FooterView.has (hashing : BinaryFuse.Hashing) (view : FooterView)
    (image : Bytes) (key : Key) : Except BinaryFuse.Stop Bool := do
  if ← BinaryFuse.contains hashing view.filter (filterKey key) then do
    let found ← view.lookup image key
    .ok found.isSome
  else
    .ok false

end AmberStore.Packstore

import AmberStore.Commit.Wire
import AmberStore.Gitobj
import AmberStore.Packstore.Footer

/-!
# Reading and scrubbing sealed segments

A read finds a key's row by the filter and the index and decodes the record it
points at, without looking at a checksum.  The scrub walks the body record by
record, holds every payload to its key, and compares the index it rebuilds with
the one of the footer.

The checksum, the digests, the filter's mixing and the decompressors are
parameters.  The sort of the index is not stable: it may leave equal keys in
any order.
-/

open ByteString

namespace AmberStore.Packstore

open Amberpack

/-- The functions of other libraries that the store computes with. -/
structure Primitives where
  crc32c : Bytes → UInt32
  hashing : BinaryFuse.Hashing
  blake3 : Bytes → Key.Digest Key.size
  /-- SHA-1, with no digest for a detected collision attack. -/
  sha1 : Bytes → Option (Key.Digest Key.gitSha1Size)
  codecs : Codecs

/-! ## Verifying an object -/

/-- Why a payload is not the object of a key. -/
inductive ObjectError
  | reservedType (key : Key) (raw : UInt8)
  | git (key : Key) (error : Gitobj.Error)
  | hash (want key : Key)
  | length (key : Key) (payload : Nat)
  | commit (key : Key) (error : Commit.Error)
  | overflow (key : Key)
  | footprint (key : Key) (want own : Nat)
  deriving DecidableEq

section Objects

variable (primitives : Primitives)

/-- The type of a key, for data that hashes to the key. -/
def verifyHash (key : Key) (data : Bytes) :
    Except ObjectError Key.ObjectType :=
  match key.type_ with
  | none => .error (.reservedType key (key.header >>> 4))
  | some .gitSha1 =>
    match Gitobj.verify primitives.sha1 key data with
    | .error error => .error (.git key error)
    | .ok () => .ok .gitSha1
  | some type_ =>
    let want := Key.newFromHash type_ (UInt64.ofNat key.length)
      (primitives.blake3 data)
    if want ≠ key then .error (.hash want key) else .ok type_

/-- The checks of a commit's payload. -/
def verifyCommit (key : Key) (data : Bytes) : Except ObjectError Unit :=
  match Commit.decode data with
  | .error error => .error (.commit key error)
  | .ok c =>
    match Commit.footprint data.length c.trees with
    | none => .error (.overflow key)
    | some want =>
      if key.length ≠ want then .error (.footprint key want data.length)
      else .ok ()

/-- Whether data is the object of a key: its hash, and the length field of the
types whose length the data alone tells. -/
def verifyObject (key : Key) (data : Bytes) : Except ObjectError Unit := do
  let type_ ← verifyHash primitives key data
  match type_ with
  | .blob | .xattrSet =>
    if key.length ≠ data.length then .error (.length key data.length)
    else .ok ()
  | .commit => verifyCommit key data
  | .fileNode | .dirLeaf | .dirNode | .gitSha1 => .ok ()

end Objects

/-! ## Sealed segments -/

/-- A mapped sealed segment. -/
structure SealedSegment (crc32c : Bytes → UInt32) where
  mm : Bytes
  fv : FooterView
  parsed : parseFooter crc32c mm = .ok fv

/-- Why a record cannot be read. -/
inductive ReadError
  | stop (stop : BinaryFuse.Stop)
  | outOfBounds
  | payload (error : PayloadError)
  deriving DecidableEq

namespace SealedSegment

variable (primitives : Primitives)
variable (segment : SealedSegment primitives.crc32c)

/-- Maps a file and parses its footer. -/
def open_ (crc32c : Bytes → UInt32) (mm : Bytes) :
    Except FooterError (SealedSegment crc32c) :=
  match parsed : parseFooter crc32c mm with
  | .error error => .error error
  | .ok fv => .ok ⟨mm, fv, parsed⟩

/-- The format version. -/
def version (segment : SealedSegment crc32c) : UInt8 :=
  byteAt segment.mm 7

/-- Whether the segment has a key. -/
def has (key : Key) : Except BinaryFuse.Stop Bool :=
  segment.fv.has primitives.hashing segment.mm key

/-- The span of the record an index row points at, which must lie inside the
body. -/
def recordSpan (segment : SealedSegment crc32c) (off : UInt64)
    (slen : UInt32) : Except ReadError (Nat × Nat) :=
  let bodyLen := segment.fv.bodyLen
  if off.toNat < 8 ∨ off.toNat > bodyLen ∨
      recHeaderSize + slen.toNat > bodyLen - off.toNat then
    .error .outOfBounds
  else
    .ok (off.toNat, off.toNat + recHeaderSize + slen.toNat)

/-- The payload of the record an index row points at. -/
def readRow (off : UInt64) (slen : UInt32) : Except ReadError Bytes := do
  let span ← segment.recordSpan off slen
  let header := slice segment.mm span.1 (span.1 + recHeaderSize)
  (decodePayload primitives.codecs (byteAt header 33) (readBe header 34 4)
    (slice segment.mm (span.1 + recHeaderSize) span.2)).mapError .payload

/-- A key's payload, if the segment has it. -/
def get (key : Key) : Except ReadError (Option Bytes) := do
  let maybe ← (BinaryFuse.contains primitives.hashing segment.fv.filter
    (filterKey key)).mapError .stop
  if ¬maybe then
    .ok none
  else do
    match ← (segment.fv.lookup segment.mm key).mapError .stop with
    | none => .ok none
    | some row => do
        let payload ← segment.readRow primitives row.1 row.2
        .ok (some payload)

end SealedSegment

/-! ## The scrub -/

/-- What a scrub finds.  A stop or a failed rebuild is a panic of the source,
which has no text of its own. -/
inductive ScrubError
  | canceled
  | stop (stop : BinaryFuse.Stop)
  | record (off : Nat) (error : Corruption)
  | version (off : Nat) (key : Key) (flags found : UInt8)
  | payload (off : Nat) (error : PayloadError)
  | object (off : Nat) (error : ObjectError)
  | filterMissing (key : Key) (off : Nat)
  | recordsEnd (off bodyLen : Nat)
  | keyCount (found want : Nat)
  | rebuild (error : BuildError)
  | indexMismatch
  deriving DecidableEq

/-- A sort by key that may leave equal keys in any order. -/
structure UnstableSort where
  sort : List IndexEntry → List IndexEntry
  perm : ∀ entries, (sort entries).Perm entries
  sorted : ∀ entries, (sort entries).Pairwise fun left right =>
    ¬right.k.bytes < left.k.bytes

namespace SealedSegment

variable (primitives : Primitives)
variable (segment : SealedSegment primitives.crc32c)

/-- Scrubs the record at an offset. -/
def scrubRecord (off : Nat) : Except ScrubError Record := do
  let bodyLen := segment.fv.bodyLen
  let rec_ ← (parseRecord primitives.crc32c
    (slice segment.mm off bodyLen)).mapError (.record off)
  if versionFor rec_.key rec_.flags > segment.version then
    .error (.version off rec_.key rec_.flags segment.version)
  else do
    let payloadAt := off + recHeaderSize
    let payload ← (decodePayload primitives.codecs rec_.flags rec_.ulen
      (slice segment.mm payloadAt (payloadAt + rec_.slen))).mapError
        (.payload off)
    (verifyObject primitives rec_.key payload).mapError (.object off)
    let maybe ← (BinaryFuse.contains primitives.hashing segment.fv.filter
      (filterKey rec_.key)).mapError .stop
    if ¬maybe then .error (.filterMissing rec_.key off) else .ok rec_

/-- Walks the body from an offset, and gives where the walk ends and the
entries of the records it passed.  A caller may cancel at any record. -/
def walk (cancel : Nat → Bool) :
    (fuel off : Nat) → Except ScrubError (Nat × List IndexEntry)
  | 0, off => .ok (off, [])
  | fuel + 1, off =>
    if off < segment.fv.bodyLen then
      if cancel off then
        .error .canceled
      else do
        let rec_ ← segment.scrubRecord primitives off
        let rest ← walk cancel fuel (off + recHeaderSize + rec_.slen)
        .ok (rest.1,
          ⟨rec_.key, UInt64.ofNat off, UInt32.ofNat rec_.slen⟩ :: rest.2)
    else
      .ok (off, [])

/-- Scrubs the segment.  A record is never empty, so the walk takes fewer
steps than the body has bytes. -/
def verify (unstable : UnstableSort) (cancel : Nat → Bool) :
    Except ScrubError Unit := do
  let bodyLen := segment.fv.bodyLen
  let (off, entries) ← segment.walk primitives cancel bodyLen 8
  if off ≠ bodyLen then
    .error (.recordsEnd off bodyLen)
  else if entries.length ≠ segment.fv.keyCount then
    .error (.keyCount entries.length segment.fv.keyCount)
  else do
    let rebuilt ← (indexSection (unstable.sort entries)).mapError .rebuild
    let stored := slice segment.mm segment.fv.indexOff
      (segment.fv.indexOff + segment.fv.indexLen)
    if rebuilt ≠ stored then .error .indexMismatch else .ok ()

end SealedSegment

end AmberStore.Packstore

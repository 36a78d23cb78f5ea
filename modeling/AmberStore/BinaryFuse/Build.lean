import AmberStore.Lib.Bounded
import AmberStore.Lib.ByteString
import AmberStore.Lib.Sorted

/-!
# Binary fuse filter construction

The filter maps a hash to three slots in consecutive segments of its
fingerprint array.  Construction sorts the hashes roughly by segment, counts
how many hashes touch each slot, peels hashes that are alone in some slot, and
assigns the fingerprints in the reverse of the peeling order.

The mixing function, the fingerprint of a hash and the geometry chosen for a
number of keys are parameters.  The source derives the geometry in floating
point; here it is any geometry that keeps the invariants of `Geometry`.  A read
or write outside a vector, an arithmetic overflow and a loop that does not end
are kept as outcomes of their own, next to the error the source returns.
-/

open Bounded Sorted

namespace AmberStore.BinaryFuse

/-- The number of construction iterations before giving up. -/
abbrev maxIterations : Nat := 1024

/-- Ways a construction or a query stops without a value. -/
inductive Stop
  | tooManyIterations
  | indexOutOfBounds
  | overflow
  | endlessLoop
  deriving DecidableEq, Repr

/-- A binary fuse filter with 16-bit fingerprints. -/
structure BinaryFuse16 where
  seed : UInt64
  /-- Slots per segment, a power of two. -/
  segmentLength : UInt32
  segmentLengthMask : UInt32
  /-- The number of segments a hash's first slot may lie in. -/
  segmentCount : UInt32
  segmentCountLength : UInt32
  fingerprints : List UInt16
  deriving DecidableEq

/-- An initial geometry: what the parameter derivation promises. -/
structure Geometry where
  /-- The segment length is two to this power. -/
  bits : Nat
  segmentCount : Nat
  bits_pos : 1 ≤ bits
  segmentCount_pos : 1 ≤ segmentCount
  /-- Every slot index fits 32 bits. -/
  fits : (segmentCount + 2) * 2 ^ bits < 2 ^ 32

/-- The functions a construction is parametrised by. -/
structure Hashing where
  mix : UInt64 → UInt64 → UInt64
  fingerprint : UInt64 → UInt16
  geometry : Nat → Geometry

/-! ## Hashing primitives -/

/-- The finalizer of the mixing function. -/
def murmur64 (value : UInt64) : UInt64 :=
  let h := value ^^^ (value >>> 33)
  let h := h * 0xff51afd7ed558ccd
  let h := h ^^^ (h >>> 33)
  let h := h * 0xc4ceb9fe1a85ec53
  h ^^^ (h >>> 33)

/-- The next state of the seed generator and the seed it yields. -/
def splitmix64 (counter : UInt64) : UInt64 × UInt64 :=
  let counter := counter + 0x9E3779B97F4A7C15
  let z := counter
  let z := (z ^^^ (z >>> 30)) * 0xBF58476D1CE4E5B9
  let z := (z ^^^ (z >>> 27)) * 0x94D049BB133111EB
  (counter, z ^^^ (z >>> 31))

/-- The hash of a key under a seed. -/
def mixsplit (key seed : UInt64) : UInt64 :=
  murmur64 (key + seed)

/-- The fingerprint of a hash, before it is cut to 16 bits. -/
def fingerprint (hash : UInt64) : UInt64 :=
  hash ^^^ (hash >>> 32)

/-- The hashing the source uses, over a geometry derivation. -/
def Hashing.standard (geometry : Nat → Geometry) : Hashing where
  mix := mixsplit
  fingerprint hash := (BinaryFuse.fingerprint hash).toUInt16
  geometry := geometry

/-- Sorts and deduplicates. -/
def pruneDuplicates (keys : List UInt64) : List UInt64 :=
  dedupAdjacent (keys.mergeSort fun left right => left ≤ right)

/-! ## Geometry -/

/-- The filter with its geometry set and its fingerprints zero. -/
def initializeParameters (geometry : Geometry) : BinaryFuse16 where
  seed := 0
  segmentLength := UInt32.ofNat (2 ^ geometry.bits)
  segmentLengthMask := UInt32.ofNat (2 ^ geometry.bits) - 1
  segmentCount := UInt32.ofNat geometry.segmentCount
  segmentCountLength :=
    UInt32.ofNat geometry.segmentCount * UInt32.ofNat (2 ^ geometry.bits)
  fingerprints :=
    List.replicate ((geometry.segmentCount + 2) * 2 ^ geometry.bits) 0

/-- The three slots of a hash. -/
def getHashFromHash (filter : BinaryFuse16) (hash : UInt64) :
    UInt32 × UInt32 × UInt32 :=
  let hi := hash.toNat * filter.segmentCountLength.toNat / 2 ^ 64
  let h0 := UInt32.ofNat hi
  let h1 := h0 + filter.segmentLength
  let h2 := h1 + filter.segmentLength
  (h0,
    h1 ^^^ ((hash >>> 18).toUInt32 &&& filter.segmentLengthMask),
    h2 ^^^ (hash.toUInt32 &&& filter.segmentLengthMask))

/-- Switches to a smaller segment size, keeping the capacity. -/
def halveSegments (filter : BinaryFuse16) : BinaryFuse16 :=
  let segmentLength := filter.segmentLength / 2
  let segmentCount := filter.segmentCount * 2 + 2
  { filter with
    segmentLength := segmentLength
    segmentLengthMask := segmentLength - 1
    segmentCount := segmentCount
    segmentCountLength := segmentCount * segmentLength }

/-- Restores the calculated segment size. -/
def restoreSegments (filter : BinaryFuse16) : BinaryFuse16 :=
  let segmentLength := filter.segmentLength * 2
  let segmentCount := filter.segmentCount / 2 - 1
  { filter with
    segmentLength := segmentLength
    segmentLengthMask := segmentLength - 1
    segmentCount := segmentCount
    segmentCountLength := segmentCount * segmentLength }

/-- The segment size for an iteration: every fourth one uses the smaller. -/
def resizeSegments (size iterations : Nat) (filter : BinaryFuse16) :
    BinaryFuse16 :=
  if 4 < size ∧ size < 1000000 then
    if iterations % 4 = 2 then halveSegments filter
    else if iterations % 4 = 3 then restoreSegments filter
    else filter
  else
    filter

/-! ## Sorting the hashes by segment -/

/-- The least number of block bits, from one up, that covers the segments. -/
def blockBitsFrom (segmentCount : Nat) : (fuel bits : Nat) → Except Stop Nat
  | 0, _ => .error .overflow
  | fuel + 1, bits =>
    if 2 ^ bits < segmentCount then blockBitsFrom segmentCount fuel (bits + 1)
    else .ok bits

/-- The block bits of a filter; a shift by 32 overflows. -/
def blockBits (filter : BinaryFuse16) : Except Stop Nat :=
  blockBitsFrom filter.segmentCount.toNat 31 1

/-- Where each block starts in the placement order. -/
def startPositions (size bits : Nat) : List Nat :=
  (List.range (2 ^ bits)).map fun block => (block * size) >>> bits

/-- The hashes placed so far and the next position of each block. -/
structure Placement where
  /-- The hashes in placement order; zero is free. -/
  reverseOrder : List UInt64
  startPos : List Nat

/-- The first block from `segmentIndex` on, cyclically, whose position is
free. -/
def findSegment (placement : Placement) (bits : Nat) :
    (fuel segmentIndex : Nat) → Except Stop Nat
  | 0, _ => .error .endlessLoop
  | fuel + 1, segmentIndex => do
      let position ← read .indexOutOfBounds placement.startPos segmentIndex
      let held ← read .indexOutOfBounds placement.reverseOrder position
      if held ≠ 0 then
        findSegment placement bits fuel ((segmentIndex + 1) % 2 ^ bits)
      else
        .ok segmentIndex

/-- Places one hash. -/
def placeHash (bits : Nat) (placement : Placement) (hash : UInt64) :
    Except Stop Placement := do
  let segmentIndex ←
    findSegment placement bits (2 ^ bits) (hash.toNat >>> (64 - bits))
  let position ← read .indexOutOfBounds placement.startPos segmentIndex
  let reverseOrder ←
    write .indexOutOfBounds placement.reverseOrder position hash
  let startPos ←
    write .indexOutOfBounds placement.startPos segmentIndex (position + 1)
  .ok ⟨reverseOrder, startPos⟩

/-- Places the hashes in order. -/
def placeHashes (bits : Nat) : Placement → List UInt64 → Except Stop Placement
  | placement, [] => .ok placement
  | placement, hash :: hashes => do
      let placement ← placeHash bits placement hash
      placeHashes bits placement hashes

/-! ## Counting the hashes at each slot -/

/-- Per slot, the count and the exclusive or of the hashes that touch it.  The
lowest two bits of a count are the exclusive or of the slot's rank in those
hashes, so only six bits count. -/
structure Tables where
  /-- Six bits of count above two bits of rank. -/
  t2count : List UInt8
  t2hash : List UInt64

/-- Adds a hash at its slot of the given rank. -/
def Tables.add (tables : Tables) (slot : Nat) (rank : UInt8) (hash : UInt64) :
    Except Stop Tables := do
  let count ← read .indexOutOfBounds tables.t2count slot
  let t2count ← write .indexOutOfBounds tables.t2count slot
    ((count + 4) ^^^ rank)
  let held ← read .indexOutOfBounds tables.t2hash slot
  let t2hash ← write .indexOutOfBounds tables.t2hash slot (held ^^^ hash)
  .ok ⟨t2count, t2hash⟩

/-- Removes a hash from its slot of the given rank. -/
def Tables.remove (tables : Tables) (slot : Nat) (rank : UInt8)
    (hash : UInt64) : Except Stop Tables := do
  let count ← read .indexOutOfBounds tables.t2count slot
  let t2count ← write .indexOutOfBounds tables.t2count slot
    ((count - 4) ^^^ rank)
  let held ← read .indexOutOfBounds tables.t2hash slot
  let t2hash ← write .indexOutOfBounds tables.t2hash slot (held ^^^ hash)
  .ok ⟨t2count, t2hash⟩

/-- Adds a hash at its three slots. -/
def Tables.addSlots (filter : BinaryFuse16) (tables : Tables)
    (hash : UInt64) : Except Stop Tables := do
  let (index1, index2, index3) := getHashFromHash filter hash
  let tables ← tables.add index1.toNat 0 hash
  let tables ← tables.add index2.toNat 1 hash
  tables.add index3.toNat 2 hash

/-- Removes a hash from its three slots. -/
def Tables.removeSlots (filter : BinaryFuse16) (tables : Tables)
    (hash : UInt64) : Except Stop Tables := do
  let (index1, index2, index3) := getHashFromHash filter hash
  let tables ← tables.remove index1.toNat 0 hash
  let tables ← tables.remove index2.toNat 1 hash
  tables.remove index3.toNat 2 hash

/-- Whether some slot of a hash just added holds it twice and nothing else. -/
def Tables.isDuplicate (filter : BinaryFuse16) (tables : Tables)
    (hash : UInt64) : Except Stop Bool := do
  let (index1, index2, index3) := getHashFromHash filter hash
  let hash1 ← read .indexOutOfBounds tables.t2hash index1.toNat
  let hash2 ← read .indexOutOfBounds tables.t2hash index2.toNat
  let hash3 ← read .indexOutOfBounds tables.t2hash index3.toNat
  let count1 ← read .indexOutOfBounds tables.t2count index1.toNat
  let count2 ← read .indexOutOfBounds tables.t2count index2.toNat
  let count3 ← read .indexOutOfBounds tables.t2count index3.toNat
  .ok (hash1 &&& hash2 &&& hash3 = 0 ∧
    ((hash1 = 0 ∧ count1 = 8) ∨ (hash2 = 0 ∧ count2 = 8) ∨
      (hash3 = 0 ∧ count3 = 8)))

/-- Whether the count of some slot of a hash ran over. -/
def Tables.ranOver (filter : BinaryFuse16) (tables : Tables)
    (hash : UInt64) : Except Stop Bool := do
  let (index1, index2, index3) := getHashFromHash filter hash
  let count1 ← read .indexOutOfBounds tables.t2count index1.toNat
  let count2 ← read .indexOutOfBounds tables.t2count index2.toNat
  let count3 ← read .indexOutOfBounds tables.t2count index3.toNat
  .ok (count1 < 4 ∨ count2 < 4 ∨ count3 < 4)

/-- The tables, whether a count ran over, and how many hashes were dropped as
duplicates. -/
structure Counting where
  tables : Tables
  error : Bool
  duplicates : Nat

/-- Drops a hash just added when it is a duplicate. -/
def Tables.settle (filter : BinaryFuse16) (tables : Tables) (hash : UInt64)
    (duplicate : Bool) : Except Stop Tables :=
  if duplicate then tables.removeSlots filter hash else .ok tables

/-- Adds one hash, dropping it again when it is a duplicate. -/
def addHash (filter : BinaryFuse16) (counting : Counting) (hash : UInt64) :
    Except Stop Counting := do
  let added ← counting.tables.addSlots filter hash
  let duplicate ← added.isDuplicate filter hash
  let tables ← added.settle filter hash duplicate
  let ranOver ← tables.ranOver filter hash
  .ok
    { tables := tables
      error := counting.error || ranOver
      duplicates := if duplicate then counting.duplicates + 1
        else counting.duplicates }

/-- Adds the hashes in order. -/
def addHashes (filter : BinaryFuse16) :
    Counting → List UInt64 → Except Stop Counting
  | counting, [] => .ok counting
  | counting, hash :: hashes => do
      let counting ← addHash filter counting hash
      addHashes filter counting hashes

/-! ## Peeling -/

/-- The state of the peeling loop. -/
structure Peeling where
  tables : Tables
  /-- The queue of slots to look at; its top is at `qsize`. -/
  alone : List UInt32
  qsize : Nat
  /-- The rank each peeled hash was found with. -/
  reverseH : List UInt8
  reverseOrder : List UInt64
  stacksize : Nat

/-- Queues every slot of the list that exactly one hash touches. -/
def queueAlone (t2count : List UInt8) :
    (slots : List Nat) → (alone : List UInt32) → (qsize : Nat) →
      Except Stop (List UInt32 × Nat)
  | [], alone, qsize => .ok (alone, qsize)
  | slot :: slots, alone, qsize => do
      let alone ← write .indexOutOfBounds alone qsize (UInt32.ofNat slot)
      let count ← read .indexOutOfBounds t2count slot
      queueAlone t2count slots alone
        (if count >>> 2 = 1 then qsize + 1 else qsize)

/-- All ones when the flag is set, zero otherwise. -/
def spread (flag : UInt8) : UInt32 :=
  -flag.toUInt32

/-- The other two slots of a hash found at a slot with some rank, and their
ranks, computed without branching. -/
def otherSlots (filter : BinaryFuse16) (hash : UInt64) (index : UInt32)
    (found : UInt8) : (UInt32 × UInt8) × (UInt32 × UInt8) :=
  let segLen := filter.segmentLength
  let segLenToMinusSegLenX2 := segLen ^^^ -(2 * segLen)
  let h01 := (hash >>> 18).toUInt32 &&& filter.segmentLengthMask
  let h02 := hash.toUInt32 &&& filter.segmentLengthMask
  let is0 := spread ((found - 1) >>> 7)
  let is1 := spread (found &&& 1)
  let is2 := spread (found >>> 1)
  let otherIndex1 := index + (segLen ^^^ (segLenToMinusSegLenX2 &&& is2))
  let otherIndex2 := index - (segLen ^^^ (segLenToMinusSegLenX2 &&& is0))
  let otherIndex1 := otherIndex1 ^^^ ((h01 &&& ~~~is2) ^^^ (h02 &&& ~~~is0))
  let otherIndex2 := otherIndex2 ^^^ ((h01 &&& ~~~is0) ^^^ (h02 &&& ~~~is1))
  let f1 := ((is0 &&& 1) ||| (is1 &&& 2)).toUInt8
  let f2 := ((is0 &&& 2) ||| (is2 &&& 1)).toUInt8
  ((otherIndex1, f1), (otherIndex2, f2))

/-- Takes a peeled hash off another of its slots, queueing the slot when one
hash is left there. -/
def takeOff (peeling : Peeling) (slot : UInt32) (rank : UInt8)
    (hash : UInt64) : Except Stop Peeling := do
  let alone ← write .indexOutOfBounds peeling.alone peeling.qsize slot
  let count ← read .indexOutOfBounds peeling.tables.t2count slot.toNat
  let tables ← peeling.tables.remove slot.toNat rank hash
  .ok
    { peeling with
      tables := tables
      alone := alone
      qsize := if count >>> 2 = 2 then peeling.qsize + 1 else peeling.qsize }

/-- Looks at the top slot of a queue that is not empty. -/
def peelTop (filter : BinaryFuse16) (peeling : Peeling) :
    Except Stop Peeling := do
  let qsize := peeling.qsize - 1
  let index ← read .indexOutOfBounds peeling.alone qsize
  let count ← read .indexOutOfBounds peeling.tables.t2count index.toNat
  if count >>> 2 = 1 then do
    let hash ← read .indexOutOfBounds peeling.tables.t2hash index.toNat
    let found := count &&& 3
    let reverseH ←
      write .indexOutOfBounds peeling.reverseH peeling.stacksize found
    let reverseOrder ←
      write .indexOutOfBounds peeling.reverseOrder peeling.stacksize hash
    let ((otherIndex1, f1), (otherIndex2, f2)) :=
      otherSlots filter hash index found
    let peeling ← takeOff
      { peeling with
        qsize := qsize
        reverseH := reverseH
        reverseOrder := reverseOrder
        stacksize := peeling.stacksize + 1 } otherIndex1 f1 hash
    takeOff peeling otherIndex2 f2 hash
  else
    .ok { peeling with qsize := qsize }

/-- Peels until the queue is empty. -/
def peel (filter : BinaryFuse16) : (fuel : Nat) → Peeling → Except Stop Peeling
  | 0, _ => .error .endlessLoop
  | fuel + 1, peeling =>
    if peeling.qsize = 0 then
      .ok peeling
    else do
      let peeling ← peelTop filter peeling
      peel filter fuel peeling

/-! ## Assigning the fingerprints -/

/-- Sets the fingerprint of the slot a hash was found at so that its three
slots agree with the hash. -/
def assignOne (hashing : Hashing) (filter : BinaryFuse16) (hash : UInt64)
    (found : UInt8) : Except Stop BinaryFuse16 := do
  let (index1, index2, index3) := getHashFromHash filter hash
  let h012 := [index1, index2, index3, index1, index2]
  let at0 ← read .indexOutOfBounds h012 found.toNat
  let at1 ← read .indexOutOfBounds h012 (found.toNat + 1)
  let at2 ← read .indexOutOfBounds h012 (found.toNat + 2)
  let print1 ← read .indexOutOfBounds filter.fingerprints at1.toNat
  let print2 ← read .indexOutOfBounds filter.fingerprints at2.toNat
  let fingerprints ← write .indexOutOfBounds filter.fingerprints at0.toNat
    (hashing.fingerprint hash ^^^ print1 ^^^ print2)
  .ok { filter with fingerprints := fingerprints }

/-- Assigns the first `count` peeled hashes, the last one first. -/
def assign (hashing : Hashing) (reverseOrder : List UInt64)
    (reverseH : List UInt8) :
    (count : Nat) → BinaryFuse16 → Except Stop BinaryFuse16
  | 0, filter => .ok filter
  | count + 1, filter => do
      let hash ← read .indexOutOfBounds reverseOrder count
      let found ← read .indexOutOfBounds reverseH count
      let filter ← assignOne hashing filter hash found
      assign hashing reverseOrder reverseH count filter

/-! ## The construction -/

/-- What one iteration hands to the next. -/
structure BuildState where
  filter : BinaryFuse16
  rngcounter : UInt64
  /-- The keys, pruned once duplicates were in the way. -/
  keys : List UInt64
  alone : List UInt32
  reverseH : List UInt8

/-- What an iteration ends with. -/
inductive Outcome
  | success (filter : BinaryFuse16) (peeling : Peeling)
  | retry (state : BuildState)

/-- The next iteration's state: a new seed. -/
def reseed (state : BuildState) : BuildState :=
  let drawn := splitmix64 state.rngcounter
  { state with
    rngcounter := drawn.1
    filter := { state.filter with seed := drawn.2 } }

@[simp] theorem reseed_filter (state : BuildState) :
    (reseed state).filter =
      { state.filter with seed := (splitmix64 state.rngcounter).2 } := by
  cases state
  rfl

@[simp] theorem reseed_keys (state : BuildState) :
    (reseed state).keys = state.keys := by
  cases state
  rfl

@[simp] theorem reseed_alone (state : BuildState) :
    (reseed state).alone = state.alone := by
  cases state
  rfl

@[simp] theorem reseed_reverseH (state : BuildState) :
    (reseed state).reverseH = state.reverseH := by
  cases state
  rfl

/-- One attempt with the current seed. -/
def iterate (hashing : Hashing) (size iterations : Nat) (state : BuildState) :
    Except Stop Outcome := do
  let filter := resizeSegments size iterations state.filter
  let capacity := filter.fingerprints.length
  let bits ← blockBits filter
  let placement ← placeHashes bits
    ⟨List.replicate size 0 ++ [1], startPositions size bits⟩
    (state.keys.map fun key => hashing.mix key filter.seed)
  let counting ← addHashes filter
    ⟨⟨List.replicate capacity 0, List.replicate capacity 0⟩, false, 0⟩
    (placement.reverseOrder.take size)
  if counting.error then
    .ok (.retry (reseed { state with filter := filter }))
  else do
    let (alone, qsize) ← queueAlone counting.tables.t2count
      (List.range capacity) state.alone 0
    let peeling ← peel filter (capacity + 1)
      { tables := counting.tables
        alone := alone
        qsize := qsize
        reverseH := state.reverseH
        reverseOrder := placement.reverseOrder
        stacksize := 0 }
    if peeling.stacksize + counting.duplicates = size then
      .ok (.success filter peeling)
    else
      .ok (.retry (reseed
        { state with
          filter := filter
          keys := if counting.duplicates > 0 then pruneDuplicates state.keys
            else state.keys
          alone := peeling.alone
          reverseH := peeling.reverseH }))

/-- Attempts until one succeeds or the iterations are used up. -/
def buildLoop (hashing : Hashing) (size : Nat) :
    (fuel iterations : Nat) → BuildState → Except Stop BinaryFuse16
  | 0, _, _ => .error .tooManyIterations
  | fuel + 1, iterations, state => do
      match ← iterate hashing size (iterations + 1) state with
      | .success filter peeling =>
        assign hashing peeling.reverseOrder peeling.reverseH
          peeling.stacksize filter
      | .retry state => buildLoop hashing size fuel (iterations + 1) state

/-- Creates a filter over the keys.  The seeds are a fixed sequence, so equal
keys give equal filters. -/
def build (hashing : Hashing) (keys : List UInt64) :
    Except Stop BinaryFuse16 :=
  let size := keys.length % 2 ^ 32
  let filter := initializeParameters (hashing.geometry size)
  let drawn := splitmix64 1
  buildLoop hashing size maxIterations 0
    { filter := { filter with seed := drawn.2 }
      rngcounter := drawn.1
      keys := keys
      alone := List.replicate filter.fingerprints.length 0
      reverseH := List.replicate size 0 }

/-- Whether a key is in the set, with a small false positive probability. -/
def contains (hashing : Hashing) (filter : BinaryFuse16) (key : UInt64) :
    Except Stop Bool := do
  let hash := hashing.mix key filter.seed
  let (h0, h1, h2) := getHashFromHash filter hash
  let print0 ← read .indexOutOfBounds filter.fingerprints h0.toNat
  let print1 ← read .indexOutOfBounds filter.fingerprints h1.toNat
  let print2 ← read .indexOutOfBounds filter.fingerprints h2.toNat
  .ok (hashing.fingerprint hash ^^^ (print0 ^^^ print1 ^^^ print2) = 0)

end AmberStore.BinaryFuse

import AmberStore.Lib.Machine
import AmberStore.Packstore.FooterSpec
import AmberStore.Packstore.Verify

/-!
# Reading a sealed segment traps on no accepted image

The functions that read a sealed segment index the image and the filter's
fingerprints at positions that come from the image itself.  They are written
here with every index and every word-sized sum as the machine checks them.  On
an image that `parseFooter` accepts none of these checks fails, and the
functions give what their models without the checks give.
-/

open ByteString Checked
open List hiding count

namespace AmberStore.Packstore.Reader

open Amberpack Machine

/-! ## The functions with their checks -/

/-- A sum of two 32-bit words. -/
def addU32 (left right : UInt32) : Except Trap UInt32 := do
  let sum ← add 32 left.toNat right.toNat
  .ok (UInt32.ofNat sum)

/-- The three slots of a hash. -/
def getHashFromHash (filter : BinaryFuse.BinaryFuse16) (hash : UInt64) :
    Except Trap (UInt32 × UInt32 × UInt32) := do
  let product ← mul 128 hash.toNat filter.segmentCountLength.toNat
  let h0 := UInt32.ofNat (product / 2 ^ 64)
  let h1 ← addU32 h0 filter.segmentLength
  let h2 ← addU32 h1 filter.segmentLength
  .ok (h0,
    h1 ^^^ ((hash >>> 18).toUInt32 &&& filter.segmentLengthMask),
    h2 ^^^ (hash.toUInt32 &&& filter.segmentLengthMask))

/-- Whether a key is in a filter's set. -/
def contains (hashing : BinaryFuse.Hashing) (filter : BinaryFuse.BinaryFuse16)
    (key : UInt64) : Except Trap Bool := do
  let hash := hashing.mix key filter.seed
  let (h0, h1, h2) ← getHashFromHash filter hash
  let print0 ← index filter.fingerprints h0.toNat
  let print1 ← index filter.fingerprints h1.toNat
  let print2 ← index filter.fingerprints h2.toNat
  .ok (hashing.fingerprint hash ^^^ (print0 ^^^ print1 ^^^ print2) = 0)

/-- The index row at a position of a bucket. -/
def row (entries : Bytes) (lo position : Nat) : Except Trap Bytes := do
  let at_ ← add 64 lo position
  let start ← mul 64 at_ indexEntrySize
  let next ← add 64 at_ 1
  let stop ← mul 64 next indexEntrySize
  range entries start stop

/-- The binary search for the first row of a bucket not below a key. -/
def search (entries : Bytes) (key : Key) (lo : Nat) (low high : Nat) :
    Except Trap Nat :=
  if going : low < high then do
    let sum ← add 64 low high
    let found ← row entries lo (sum / 2)
    let found ← range found 0 32
    if found < key.bytes then search entries key lo ((low + high) / 2 + 1) high
    else search entries key lo low ((low + high) / 2)
  else
    .ok low
  termination_by high - low

/-- Where the bucket of a first byte starts. -/
def bucketStart (fanout : List Nat) (byte : Nat) : Except Trap Nat :=
  if byte > 0 then do index fanout (← sub byte 1) else .ok 0

/-- A key's position in the index section. -/
def searchIndexPos (fanout : List Nat) (entries : Bytes) (key : Key) :
    Except Trap (Option Nat) := do
  let byte := firstByte key
  let lo ← bucketStart fanout byte
  let n ← sub (← index fanout byte) lo
  let low ← search entries key lo 0 n
  if low ≥ n then
    .ok none
  else do
    let position ← add 64 lo low
    let start ← mul 64 position indexEntrySize
    let stop ← add 64 start 32
    let found ← range entries start stop
    .ok (if found ≠ key.bytes then none else some position)

/-- The offset and stored length of a key's row. -/
def searchIndex (fanout : List Nat) (entries : Bytes) (key : Key) :
    Except Trap (Option (UInt64 × UInt32)) := do
  match ← searchIndexPos fanout entries key with
  | none => .ok none
  | some position => do
      let found ← row entries 0 position
      let off ← range found 32 40
      let slen ← range found 40 44
      .ok (some (UInt64.ofNat (beNat off), UInt32.ofNat (beNat slen)))

/-- Finds a key in the segment's index. -/
def lookup (view : FooterView) (image : Bytes) (key : Key) :
    Except Trap (Option (UInt64 × UInt32)) := do
  let stop ← add 64 view.entriesOff view.entriesLen
  let entries ← range image view.entriesOff stop
  searchIndex view.fanout entries key

/-- Whether a key is in the segment. -/
def has (hashing : BinaryFuse.Hashing) (view : FooterView) (image : Bytes)
    (key : Key) : Except Trap Bool := do
  if ← contains hashing view.filter (filterKey key) then do
    let found ← lookup view image key
    .ok found.isSome
  else
    .ok false

/-- The span of the record an index row points at, or the error that it lies
outside the body. -/
def recordSpan (view : FooterView) (off : UInt64) (slen : UInt32) :
    Except Trap (Except ReadError (Nat × Nat)) := do
  if off.toNat < magicHeader.length ∨ off.toNat > view.bodyLen then
    .ok (.error .outOfBounds)
  else do
    let length ← add 64 recHeaderSize slen.toNat
    let room ← sub view.bodyLen off.toNat
    if length > room then
      .ok (.error .outOfBounds)
    else do
      let header ← add 64 off.toNat recHeaderSize
      let stop ← add 64 header slen.toNat
      .ok (.ok (off.toNat, stop))

/-- The payload of the record an index row points at. -/
def readRow (codecs : Codecs) (view : FooterView) (image : Bytes)
    (off : UInt64) (slen : UInt32) :
    Except Trap (Except ReadError Bytes) := do
  match ← recordSpan view off slen with
  | .error error => .ok (.error error)
  | .ok (start, stop) => do
      let body ← add 64 start recHeaderSize
      let header ← range image start body
      let flags ← index header 33
      let ulen ← range header 34 38
      let stored ← range image body stop
      .ok ((decodePayload codecs flags (beNat ulen) stored).mapError .payload)

/-- A key's payload, if the segment has it. -/
def get (hashing : BinaryFuse.Hashing) (codecs : Codecs) (view : FooterView)
    (image : Bytes) (key : Key) :
    Except Trap (Except ReadError (Option Bytes)) := do
  if ← contains hashing view.filter (filterKey key) then do
    match ← lookup view image key with
    | none => .ok (.ok none)
    | some (off, slen) => do
        let payload ← readRow codecs view image off slen
        .ok (payload.map some)
  else
    .ok (.ok none)

/-! ## What an accepted index section is -/

/-- The fanout table counts up to the number of rows. -/
structure IsTable (fanout : List Nat) (keyCount : Nat) : Prop where
  length_eq : fanout.length = 256
  sorted : fanout.Pairwise (· ≤ ·)
  total : fanout.getD 255 0 = keyCount
  fits : keyCount < 2 ^ 32

theorem readFanout_eq_ok
    {index previous : Nat} {fanout : List Nat}
    (parsed : readFanout bytes count index previous = .ok fanout) :
    fanout.length = count ∧ (previous :: fanout).Pairwise (· ≤ ·) := by
  induction count generalizing index previous fanout with
  | zero =>
    cases Except.ok.inj parsed
    exact ⟨rfl, pairwise_singleton _ _⟩
  | succ count ih =>
    simp only [readFanout, errorIf_eq_ok_iff,
      bind_eq_ok_iff, Except.ok.injEq] at parsed
    obtain ⟨notBelow, rest, restParsed, rfl⟩ := parsed
    obtain ⟨sized, sorted⟩ := ih restParsed
    refine ⟨by rw [length_cons, sized], ?_⟩
    rw [pairwise_cons]
    refine ⟨fun later member => ?_, sorted⟩
    have first := Nat.le_of_not_lt notBelow
    rcases mem_cons.1 member with rfl | inRest
    · exact first
    · exact first.trans ((pairwise_cons.1 sorted).1 later inRest)

theorem isTable_of_parseIndexSection
    (parsed : parseIndexSection bytes keyCount = .ok fanout) :
    IsTable fanout keyCount := by
  simp only [parseIndexSection, errorIf_eq_ok_iff,
    bind_eq_ok_iff, Except.ok.injEq] at parsed
  obtain ⟨few, -, found, read, total, rfl⟩ := parsed
  obtain ⟨sized, sorted⟩ := readFanout_eq_ok read
  exact ⟨sized, (pairwise_cons.1 sorted).2, not_not.1 total, by omega⟩

theorem IsTable.getD_le
    (table : IsTable fanout keyCount) (ordered : low ≤ high)
    (inside : high < 256) :
    fanout.getD low 0 ≤ fanout.getD high 0 := by
  have lowInside : low < fanout.length := by
    rw [table.length_eq]
    omega
  have highInside : high < fanout.length := by rwa [table.length_eq]
  rw [getD_eq_getElem _ _ lowInside, getD_eq_getElem _ _ highInside]
  rcases Nat.lt_or_eq_of_le ordered with below | rfl
  · exact pairwise_iff_getElem.1 table.sorted low high lowInside
      highInside below
  · exact le_rfl

/-- The rows of a segment: as many as its table counts. -/
structure AreRows (rows : Bytes) (keyCount : Nat) : Prop where
  length_eq : rows.length = keyCount * indexEntrySize
  fits : keyCount < 2 ^ 32

theorem row_eq
    (areRows : AreRows rows keyCount)
    (inside : lo + position < keyCount) :
    row rows lo position = .ok (slice rows ((lo + position) * indexEntrySize)
      ((lo + position + 1) * indexEntrySize)) := by
  have few := areRows.fits
  have length := areRows.length_eq
  unfold row
  unfold indexEntrySize at *
  rw [add_eq_ok (by omega), ok_bind, mul_eq_ok (by omega),
    ok_bind, add_eq_ok (by omega), ok_bind,
    mul_eq_ok (by omega), ok_bind, range_eq_ok (by omega) (by omega)]

/-- The key of a row is what the search without checks reads. -/
theorem rowKey_eq
    (areRows : AreRows rows keyCount)
    (inside : position < keyCount) :
    rowKey rows position = .ok (slice rows (position * indexEntrySize)
      (position * indexEntrySize + 32)) := by
  have length := areRows.length_eq
  unfold rowKey
  unfold indexEntrySize at *
  rw [if_pos (by omega)]

theorem search_eq
    (areRows : AreRows rows keyCount)
    (key : Key) {lo fuel low high : Nat} (inside : lo + high ≤ keyCount)
    (enough : high - low ≤ fuel) :
    ∃ found, search rows key lo low high = .ok found ∧
      searchRows rows key lo fuel low high = .ok found := by
  have few := areRows.fits
  induction fuel generalizing low high with
  | zero =>
    rw [search, dif_neg (by omega)]
    exact ⟨low, rfl, rfl⟩
  | succ fuel ih =>
    rw [search, searchRows]
    by_cases going : low < high
    · have mid : lo + (low + high) / 2 < keyCount := by omega
      have isRow := row_eq areRows mid
      have sized : (slice rows ((lo + (low + high) / 2) * indexEntrySize)
          ((lo + (low + high) / 2 + 1) * indexEntrySize)).length = 44 := by
        rw [slice_length, areRows.length_eq]
        unfold indexEntrySize
        omega
      rw [dif_pos going, if_pos going, add_eq_ok (by omega), ok_bind, isRow,
        ok_bind, range_eq_ok (by omega) (by omega), ok_bind]
      dsimp only
      rw [rowKey_eq areRows mid, ok_bind]
      have sameKey : slice (slice rows ((lo + (low + high) / 2) *
          indexEntrySize) ((lo + (low + high) / 2 + 1) * indexEntrySize)) 0
            32 = slice rows ((lo + (low + high) / 2) * indexEntrySize)
              ((lo + (low + high) / 2) * indexEntrySize + 32) := by
        rw [slice_zero]
        unfold slice indexEntrySize
        rw [take_take]
        congr 1
        omega
      rw [sameKey]
      split
      · exact ih inside (by omega)
      · exact ih (by omega) (by omega)
    · rw [dif_neg going, if_neg going]
      exact ⟨low, rfl, rfl⟩

theorem index_getD
    (inside : position < values.length) :
    index values position = .ok (values.getD position 0) := by
  rw [index_eq_ok inside, getD_eq_getElem _ _ inside]

theorem firstByte_lt (key : Key) : firstByte key < 256 :=
  (byteAt key.bytes 0).toNat_lt

/-- The bucket of a key lies inside the rows. -/
theorem bucket_eq
    (table : IsTable fanout keyCount)
    (key : Key) :
    ∃ lo, bucketStart fanout (firstByte key) = .ok lo ∧
      Packstore.bucketStart fanout (firstByte key) = .ok lo ∧
      lo ≤ fanout.getD (firstByte key) 0 ∧
      fanout.getD (firstByte key) 0 ≤ keyCount := by
  have byteLt := firstByte_lt key
  have length := table.length_eq
  have last := table.getD_le (Nat.le_sub_one_of_lt byteLt) (by decide)
  rw [table.total] at last
  unfold bucketStart Packstore.bucketStart
  by_cases positive : firstByte key > 0
  · have inside : firstByte key - 1 < fanout.length := by omega
    rw [if_pos positive, if_pos positive, sub_eq_ok positive, ok_bind,
      index_getD inside, Bounded.read_eq_ok_of_lt _ 0 inside]
    exact ⟨_, rfl, rfl, table.getD_le (Nat.sub_le _ _) byteLt, last⟩
  · rw [if_neg positive, if_neg positive]
    exact ⟨0, rfl, rfl, Nat.zero_le _, last⟩

theorem searchIndexPos_eq
    (table : IsTable fanout keyCount) (areRows : AreRows rows keyCount)
    (key : Key) :
    ∃ found, searchIndexPos fanout rows key = .ok found ∧
      Packstore.searchIndexPos fanout rows key = .ok found ∧
      ∀ position, found = some position → position < keyCount := by
  have few := areRows.fits
  have inside : firstByte key < fanout.length := by
    rw [table.length_eq]
    exact firstByte_lt key
  obtain ⟨lo, isLo, startsAt, below, within⟩ := bucket_eq table key
  have room : lo + (fanout.getD (firstByte key) 0 - lo) ≤ keyCount := by omega
  obtain ⟨low, searched, same⟩ :=
    @search_eq rows keyCount areRows key lo _ 0 _ room le_rfl
  unfold searchIndexPos Packstore.searchIndexPos
  dsimp only
  rw [isLo, ok_bind, index_getD inside, ok_bind, sub_eq_ok below, ok_bind,
    searched, ok_bind, startsAt, ok_bind, Bounded.read_eq_ok_of_lt _ 0 inside,
    ok_bind, if_neg (Nat.not_lt.2 below)]
  rw [Nat.sub_zero] at same
  rw [same, ok_bind]
  by_cases past : low ≥ fanout.getD (firstByte key) 0 - lo
  · rw [if_pos past, if_pos past]
    exact ⟨none, rfl, rfl, fun position absurd => by cases absurd⟩
  · have position : lo + low < keyCount := by omega
    have length := areRows.length_eq
    rw [if_neg past, if_neg past, rowKey_eq areRows position, ok_bind]
    unfold indexEntrySize at *
    rw [add_eq_ok (by omega), ok_bind, mul_eq_ok (by omega),
      ok_bind, add_eq_ok (by omega), ok_bind,
      range_eq_ok (by omega) (by omega), ok_bind]
    split
    · exact ⟨none, rfl, rfl, fun position absurd => by cases absurd⟩
    · refine ⟨some (lo + low), rfl, rfl, fun found isFound => ?_⟩
      cases isFound
      exact position

theorem searchIndex_eq
    (table : IsTable fanout keyCount) (areRows : AreRows rows keyCount)
    (key : Key) :
    ∃ found, searchIndex fanout rows key = .ok found ∧
      Packstore.searchIndex fanout rows key = .ok found := by
  obtain ⟨position, searched, same, inside⟩ :=
    searchIndexPos_eq table areRows key
  unfold searchIndex Packstore.searchIndex
  rw [searched, ok_bind, same, ok_bind]
  cases position with
  | none => exact ⟨none, rfl, rfl⟩
  | some position =>
    have within : 0 + position < keyCount := by
      rw [Nat.zero_add]
      exact inside position rfl
    have length := areRows.length_eq
    have isRow := row_eq areRows within
    rw [Nat.zero_add] at isRow
    have sized : (slice rows (position * indexEntrySize)
        ((position + 1) * indexEntrySize)).length = 44 := by
      rw [slice_length, length]
      unfold indexEntrySize
      omega
    have field (start : Nat) (stop : Nat) (short : stop ≤ 44) :
        slice (slice rows (position * indexEntrySize)
          ((position + 1) * indexEntrySize)) start stop =
        slice rows (position * indexEntrySize + start)
          (position * indexEntrySize + stop) := by
      unfold slice indexEntrySize
      rw [drop_take, take_take, drop_drop]
      congr 1
      omega
    dsimp only
    rw [isRow, ok_bind, range_eq_ok (by omega) (by omega),
      ok_bind, range_eq_ok (by omega) (by omega), ok_bind,
      field 32 40 (by decide), field 40 44 (by decide)]
    exact ⟨_, rfl, rfl⟩

/-! ## Accepted images -/

/-- What the checks of the footer say about the places that readers index. -/
structure Accepted (image : Bytes) (view : FooterView) : Prop where
  table : IsTable view.fanout view.keyCount
  rows : AreRows (slice image view.entriesOff
    (view.entriesOff + view.entriesLen)) view.keyCount
  entries_le : view.entriesOff + view.entriesLen ≤ image.length
  entries_lt : view.entriesOff + view.entriesLen < 2 ^ 64
  body_lt : view.bodyLen < image.length
  body_fits : view.bodyLen < 2 ^ 64
  shaped : ∃ bits count, BinaryFuse.WellShaped view.filter bits count

theorem accepted_of_parseFooter
    (parsed : parseFooter crc32c image = .ok view) : Accepted image view := by
  have layout := footerLayout_of_parseFooter parsed
  have looks := looksSealed_of_parseFooter parsed
  have table := isTable_of_parseIndexSection layout.index
  have filterOff := layout.filterOff_lt
  have few := table.fits
  have sized : (slice image view.indexOff
      (view.indexOff + view.indexLen)).length = view.indexLen := by
    have index := layout.index
    simp only [parseIndexSection, errorIf_eq_ok_iff, ne_eq, not_not] at index
    rw [index.2.1, layout.indexLen_eq]
  rw [slice_length] at sized
  have indexLen := layout.indexLen_eq
  have entriesOff := layout.entriesOff_eq
  have entriesLen := layout.entriesLen_eq
  unfold fanoutSize indexEntrySize at *
  refine ⟨table, ⟨?_, few⟩, by omega, by omega, looks.lt_length,
    layout.bodyLen_lt, layout.shaped⟩
  rw [slice_length]
  unfold indexEntrySize
  omega

theorem addU32_eq
    (fits : left.toNat + right.toNat < 2 ^ 32) :
    addU32 left right = .ok (left + right) := by
  rw [addU32, add_eq_ok fits, ok_bind, UInt32.ofNat_add,
    UInt32.ofNat_toNat, UInt32.ofNat_toNat]

section Accepted

variable {image : Bytes} {view : FooterView} (accepted : Accepted image view)

include accepted

theorem getHashFromHash_eq (hash : UInt64) :
    getHashFromHash view.filter hash =
      .ok (BinaryFuse.getHashFromHash view.filter hash) := by
  obtain ⟨bits, count, shaped⟩ := accepted.shaped
  have first : (UInt32.ofNat (hash.toNat *
      view.filter.segmentCountLength.toNat / 2 ^ 64)).toNat <
        count * 2 ^ bits := shaped.first_lt hash
  have fits := shaped.fits
  have segment := shaped.segmentLength
  have wide : (count + 2) * 2 ^ bits = count * 2 ^ bits + 2 * 2 ^ bits := by
    ring
  have product : hash.toNat * view.filter.segmentCountLength.toNat <
      2 ^ 64 * 2 ^ 32 :=
    Nat.mul_lt_mul'' hash.toNat_lt (UInt32.toNat_lt _)
  unfold getHashFromHash BinaryFuse.getHashFromHash
  rw [mul_eq_ok (product.trans (by decide)), ok_bind]
  dsimp only
  generalize UInt32.ofNat (hash.toNat *
    view.filter.segmentCountLength.toNat / 2 ^ 64) = h0 at *
  rw [addU32_eq (by omega), ok_bind, addU32_eq, ok_bind]
  rw [UInt32.toNat_add, segment]
  omega

theorem contains_eq (hashing : BinaryFuse.Hashing) (key : UInt64) :
    ∃ maybe, contains hashing view.filter key = .ok maybe ∧
      BinaryFuse.contains hashing view.filter key = .ok maybe := by
  obtain ⟨bits, count, shaped⟩ := accepted.shaped
  have inside (rank : Fin 3) :=
    shaped.slotIndex_lt (hashing.mix key view.filter.seed) rank
  have inside0 := inside 0
  have inside1 := inside 1
  have inside2 := inside 2
  simp only [BinaryFuse.slotIndex, BinaryFuse.slot] at inside0 inside1 inside2
  unfold contains BinaryFuse.contains
  dsimp only
  rw [getHashFromHash_eq accepted, ok_bind, index_eq_ok inside0, ok_bind,
    index_eq_ok inside1,
    ok_bind, index_eq_ok inside2, ok_bind,
    Bounded.read_eq_ok_of_lt _ 0 inside0, ok_bind,
    Bounded.read_eq_ok_of_lt _ 0 inside1, ok_bind,
    Bounded.read_eq_ok_of_lt _ 0 inside2, ok_bind,
    getD_eq_getElem _ _ inside0, getD_eq_getElem _ _ inside1,
    getD_eq_getElem _ _ inside2]
  exact ⟨_, rfl, rfl⟩

theorem lookup_eq (key : Key) :
    ∃ found, lookup view image key = .ok found ∧
      view.lookup image key = .ok found := by
  unfold lookup FooterView.lookup
  rw [add_eq_ok accepted.entries_lt, ok_bind,
    range_eq_ok (Nat.le_add_right _ _) accepted.entries_le, ok_bind]
  exact searchIndex_eq accepted.table accepted.rows key

theorem has_eq (hashing : BinaryFuse.Hashing) (key : Key) :
    ∃ answer, has hashing view image key = .ok answer ∧
      view.has hashing image key = .ok answer := by
  obtain ⟨maybe, contained, same⟩ :=
    contains_eq accepted hashing (filterKey key)
  obtain ⟨found, looked, sameLookup⟩ := lookup_eq accepted key
  unfold has FooterView.has
  rw [contained, ok_bind, same, ok_bind, looked, sameLookup]
  cases maybe with
  | false => exact ⟨false, rfl, rfl⟩
  | true => exact ⟨found.isSome, rfl, rfl⟩

/-- The span of a row is refused, or lies in the body and has room for a record
header. -/
theorem recordSpan_eq (off : UInt64) (slen : UInt32) :
    recordSpan view off slen =
        .ok (if off.toNat < 8 ∨ off.toNat > view.bodyLen ∨
            recHeaderSize + slen.toNat > view.bodyLen - off.toNat then
          .error .outOfBounds
        else
          .ok (off.toNat, off.toNat + recHeaderSize + slen.toNat)) := by
  have small := slen.toNat_lt
  have fits := accepted.body_fits
  unfold recordSpan recHeaderSize
  by_cases outside : off.toNat < magicHeader.length ∨ off.toNat > view.bodyLen
  · have refused : off.toNat < 8 ∨ off.toNat > view.bodyLen ∨
        46 + slen.toNat > view.bodyLen - off.toNat :=
      outside.imp_right .inl
    rw [if_pos outside, if_pos refused]
  · rw [if_neg outside]
    rw [not_or, Nat.not_lt, Nat.not_lt] at outside
    rw [add_eq_ok (by omega), ok_bind, sub_eq_ok outside.2, ok_bind]
    by_cases long : 46 + slen.toNat > view.bodyLen - off.toNat
    · rw [if_pos long, if_pos (.inr (.inr long))]
    · have accepts : ¬(off.toNat < 8 ∨ off.toNat > view.bodyLen ∨
          46 + slen.toNat > view.bodyLen - off.toNat) := by
        rintro (low | high | tooLong)
        · exact absurd outside.1 (Nat.not_le.2 low)
        · exact absurd outside.2 (Nat.not_le.2 high)
        · exact long tooLong
      rw [if_neg long, add_eq_ok (by omega), ok_bind,
        add_eq_ok (by omega), ok_bind, if_neg accepts]

end Accepted

section Segment

variable (primitives : Primitives) (segment : SealedSegment primitives.crc32c)

theorem readRow_eq (off : UInt64) (slen : UInt32) :
    readRow primitives.codecs segment.fv segment.mm off slen =
      .ok (segment.readRow primitives off slen) := by
  have accepted := accepted_of_parseFooter segment.parsed
  have bodyLt := accepted.body_lt
  have fits := accepted.body_fits
  unfold readRow SealedSegment.readRow SealedSegment.recordSpan
  rw [recordSpan_eq accepted, ok_bind]
  by_cases inside : off.toNat < 8 ∨ off.toNat > segment.fv.bodyLen ∨
      recHeaderSize + slen.toNat > segment.fv.bodyLen - off.toNat
  · rw [if_pos inside]
    rfl
  · unfold recHeaderSize at *
    rw [if_neg inside]
    have sized : (slice segment.mm off.toNat (off.toNat + 46)).length =
        46 := by
      rw [slice_length]
      omega
    have flags : byteAt (slice segment.mm off.toNat (off.toNat + 46)) 33 =
        (slice segment.mm off.toNat (off.toNat + 46))[33] :=
      getD_eq_getElem _ _ (by omega)
    dsimp only
    rw [add_eq_ok (by omega), ok_bind,
      range_eq_ok (by omega) (by omega), ok_bind,
      index_eq_ok (by omega), ok_bind,
      range_eq_ok (by omega) (by omega), ok_bind,
      range_eq_ok (by omega) (by omega), ok_bind, ok_bind,
      flags]
    rfl

/-- On a mapped segment the checked read gives what the segment's read
gives. -/
theorem get_eq (key : Key) :
    get primitives.hashing primitives.codecs segment.fv segment.mm key =
      .ok (segment.get primitives key) := by
  have accepted := accepted_of_parseFooter segment.parsed
  obtain ⟨maybe, contained, same⟩ :=
    contains_eq accepted primitives.hashing (filterKey key)
  obtain ⟨found, looked, sameLookup⟩ := lookup_eq accepted key
  unfold get SealedSegment.get
  rw [contained, ok_bind, same, mapError_ok, ok_bind, looked, sameLookup]
  cases maybe with
  | false => rfl
  | true =>
    cases found with
    | none => rfl
    | some row =>
      obtain ⟨off, slen⟩ := row
      simp only [if_true, ok_bind, mapError_ok, not_true, if_false, readRow_eq]
      cases segment.readRow primitives off slen with
      | error error | ok payload => rfl

end Segment

/-- No image that the footer's checks accept makes a reader trap: each gives a
value or an error, for every key and every row. -/
theorem reader_never_traps
    (primitives : Primitives) {image : Bytes} {view : FooterView}
    (parsed : parseFooter primitives.crc32c image = .ok view) (key : Key) :
    (∃ answer, has primitives.hashing view image key = .ok answer) ∧
    (∃ found, lookup view image key = .ok found) ∧
    (∀ off slen, ∃ span, recordSpan view off slen = .ok span) ∧
    ∃ payload, get primitives.hashing primitives.codecs view image key =
      .ok payload := by
  have accepted := accepted_of_parseFooter parsed
  obtain ⟨answer, has, -⟩ := has_eq accepted primitives.hashing key
  obtain ⟨found, looked, -⟩ := lookup_eq accepted key
  exact ⟨⟨answer, has⟩, ⟨found, looked⟩,
    fun off slen => ⟨_, recordSpan_eq accepted off slen⟩,
    ⟨_, get_eq primitives ⟨image, view, parsed⟩ key⟩⟩

/-- Primitives without a codec, and with one digest for every payload. -/
def plainPrimitives : Primitives where
  crc32c _ := 0
  hashing := identityHashing
  blake3 _ := ⟨List.replicate 32 0, rfl⟩
  sha1 _ := none
  codecs := ⟨fun _ _ => .error "", fun _ _ => .error ""⟩

/-- The footer of two entries behind a bare header is such an image: its rows
point outside the body. -/
theorem reader_never_traps_pairEntries :
    ∃ image view, parseFooter plainPrimitives.crc32c image = .ok view ∧
      (∃ found, lookup view image (repeatedKey 7) = .ok found) ∧
      ∃ payload, get identityHashing plainPrimitives.codecs view image
        (repeatedKey 7) = .ok payload := by
  obtain ⟨footer, built, -⟩ := exists_buildFooter_pairEntries (fun _ => 0)
    (show (headerAt 2).length < 2 ^ 63 by decide)
  obtain ⟨parts, rfl, offsetsFit⟩ := buildFooter_eq_ok built
  have parsed := @FooterParts.parseFooter_image _ _ parts
    plainPrimitives.crc32c (headerAt 2) (by decide) offsetsFit
  obtain ⟨-, looked, -, payload⟩ :=
    reader_never_traps plainPrimitives parsed (repeatedKey 7)
  exact ⟨_, _, parsed, looked, payload⟩

end AmberStore.Packstore.Reader

import AmberStore.Packstore.Footer
import Mathlib.Data.List.Perm.Basic

/-!
# The index section finds every key it was built from

The fanout counts the entries up to each first byte, so in key order the
entries of one first byte are the ones between two neighbouring counts.  The
binary search of that bucket then stops at the key, if it has one.
-/

open Bounded ByteString List Sorted

namespace AmberStore.Packstore

/-! ## Key order -/

/-- Entries in strict key order. -/
def InKeyOrder (entries : List IndexEntry) : Prop :=
  entries.Pairwise fun left right => beNat left.k.bytes < beNat right.k.bytes

theorem sortEntries_perm (entries : List IndexEntry) :
    (sortEntries entries).Perm entries :=
  mergeSort_perm entries _

/-- Entries in key order, equal keys in any order. -/
def KeysSorted (entries : List IndexEntry) : Prop :=
  entries.Pairwise fun left right => beNat left.k.bytes ≤ beNat right.k.bytes

theorem InKeyOrder.keysSorted
    (order : InKeyOrder entries) :
    KeysSorted entries :=
  order.imp Nat.le_of_lt

theorem keysSorted_sortEntries (entries : List IndexEntry) :
    KeysSorted (sortEntries entries) := by
  unfold sortEntries
  simp only [Key.bytes_lt_iff, Nat.not_lt]
  refine (pairwise_mergeSort ?_ ?_ entries).imp of_decide_eq_true
  · intro first second third
    simp only [decide_eq_true_eq]
    exact Nat.le_trans
  · intro first second
    simp only [Bool.or_eq_true, decide_eq_true_eq]
    exact Nat.le_total _ _

/-- Entries of distinct keys are sorted into strict key order. -/
theorem inKeyOrder_sortEntries
    (distinct : (entries.map IndexEntry.k).Nodup) :
    InKeyOrder (sortEntries entries) := by
  have apart : (sortEntries entries).Pairwise fun left right =>
      left.k ≠ right.k := by
    have sortedDistinct :=
      ((sortEntries_perm entries).map IndexEntry.k).nodup_iff.mpr distinct
    exact pairwise_map.mp sortedDistinct
  refine ((keysSorted_sortEntries entries).and apart).imp ?_
  intro left right both
  refine Nat.lt_of_le_of_ne both.1 ?_
  intro same
  exact both.2 (Key.beNat_bytes_inj same)

theorem KeysSorted.le_of_le
    (sorted : KeysSorted entries)
    (ordered : left ≤ right)
    (inside : right < entries.length) :
    beNat entries[left].k.bytes ≤ beNat entries[right].k.bytes := by
  rcases Nat.lt_or_eq_of_le ordered with before | rfl
  · exact pairwise_iff_getElem.mp sorted left right _ _ before
  · exact le_rfl

theorem InKeyOrder.lt_of_lt
    (order : InKeyOrder entries)
    (before : left < right)
    (inside : right < entries.length) :
    beNat entries[left].k.bytes < beNat entries[right].k.bytes :=
  pairwise_iff_getElem.mp order left right _ _ before

theorem firstByte_eq (key : Key) :
    firstByte key = beNat key.bytes / 2 ^ 248 := by
  obtain ⟨bytes, length⟩ := key
  cases bytes with
  | nil => simp at length
  | cons head tail =>
    have tailLength : tail.length = 31 := by simpa [Key.size] using length
    have below := beNat_lt tail
    rw [tailLength] at below
    simp only [firstByte, beNat_cons, tailLength]
    change head.toNat = _
    omega

theorem firstByte_lt (key : Key) :
    firstByte key < 256 :=
  (byteAt key.bytes 0).toNat_lt

theorem firstByte_le_of_le
    (ordered : beNat left.bytes ≤ beNat right.bytes) :
    firstByte left ≤ firstByte right := by
  rw [firstByte_eq, firstByte_eq]
  exact Nat.div_le_div_right ordered

/-! ## The fanout -/

/-- The number of entries whose first byte is at most a value. -/
def countUpTo (entries : List IndexEntry) (byte : Nat) : Nat :=
  entries.countP fun entry => firstByte entry.k ≤ byte

theorem countUpTo_mono
    (entries : List IndexEntry) (ordered : left ≤ right) :
    countUpTo entries left ≤ countUpTo entries right := by
  refine countP_mono_left ?_
  intro entry _ counted
  simp only [decide_eq_true_eq] at counted ⊢
  omega

theorem countUpTo_le (entries : List IndexEntry) (byte : Nat) :
    countUpTo entries byte ≤ entries.length :=
  countP_le_length

theorem countUpTo_all (entries : List IndexEntry) :
    countUpTo entries 255 = entries.length := by
  refine countP_eq_length.mpr ?_
  intro entry _
  have := firstByte_lt entry.k
  simp only [decide_eq_true_eq]
  omega

/-- In key order, the entries before a count are the ones it counts. -/
theorem KeysSorted.lt_countUpTo_iff
    (sorted : KeysSorted entries)
    (inside : position < entries.length) (byte : Nat) :
    position < countUpTo entries byte ↔
      firstByte entries[position].k ≤ byte := by
  unfold countUpTo
  rw [lt_countP_iff _ inside, decide_eq_true_eq]
  refine sorted.imp ?_
  intro left right ordered counted
  simp only [decide_eq_true_eq] at counted ⊢
  exact Nat.le_trans (firstByte_le_of_le ordered) counted

/-- What a fanout table says of the entries it was built from. -/
structure IsFanout (entries : List IndexEntry) (fanout : List Nat) : Prop where
  length_eq : fanout.length = 256
  count : ∀ byte, byte < 256 → fanout.getD byte 0 = countUpTo entries byte
  fits : entries.length < 2 ^ 32

theorem tally_spec
    (sized : counts.length = 256)
    (tallied : tally counts entries = .ok result) :
    result.length = 256 ∧
      ∀ byte, result.getD byte 0 =
        counts.getD byte 0 + entries.countP fun entry =>
          firstByte entry.k = byte := by
  induction entries generalizing counts with
  | nil =>
    cases tallied
    simpa using sized
  | cons entry entries ih =>
    unfold tally at tallied
    obtain ⟨bumped, bump, rest⟩ := Checked.bind_eq_ok_iff.mp tallied
    unfold bumpCount at bump
    split at bump
    case isFalse => cases bump
    cases bump
    obtain ⟨sameLength, added⟩ := ih (by rw [length_set, sized]) rest
    refine ⟨sameLength, ?_⟩
    intro byte
    rw [added byte, countP_cons,
      getD_set _ _ _ _ (by rw [sized]; exact firstByte_lt entry.k)]
    by_cases same : byte = firstByte entry.k
    · subst same
      simp only [if_true, decide_true]
      omega
    · simp [same, Ne.symm same]

theorem accumulate_spec
    (start : cum < 2 ^ 32)
    (accumulated : accumulate cum counts = .ok fanout) :
    fanout.length = counts.length ∧
      (∀ byte, byte < counts.length →
        fanout.getD byte 0 = cum + (counts.take (byte + 1)).sum) ∧
      cum + counts.sum < 2 ^ 32 := by
  induction counts generalizing cum fanout with
  | nil =>
    cases accumulated
    simpa using start
  | cons count counts ih =>
    unfold accumulate at accumulated
    split at accumulated
    case isFalse => cases accumulated
    case isTrue fits =>
      obtain ⟨rest, restEq, same⟩ := Checked.bind_eq_ok_iff.mp accumulated
      cases same
      obtain ⟨sameLength, sums, total⟩ := ih fits restEq
      refine ⟨by simp [sameLength], ?_, ?_⟩
      · intro byte inside
        cases byte with
        | zero => simp
        | succ byte =>
          have within : byte < counts.length := by simpa using inside
          rw [getD_cons_succ, sums byte within,
            take_succ_cons, sum_cons, Nat.add_assoc]
      · rw [sum_cons]
        omega

theorem sum_counts
    {counts : List Nat}
    (sized : counts.length = 256)
    (counted : ∀ byte, counts.getD byte 0 =
      entries.countP fun entry => firstByte entry.k = byte)
    (inside : byte < 256) :
    (counts.take (byte + 1)).sum = countUpTo entries byte := by
  induction byte with
  | zero =>
    rw [take_succ_eq_append_getElem (by omega), sum_append]
    have first := counted 0
    rw [getD_eq_getElem _ _ (by omega)] at first
    simp [first, countUpTo]
  | succ byte ih =>
    rw [take_succ_eq_append_getElem (by omega), sum_append, ih (by omega)]
    have next := counted (byte + 1)
    rw [getD_eq_getElem _ _ (by omega)] at next
    rw [sum_singleton, next, countUpTo, countUpTo]
    clear sized counted ih next
    induction entries with
    | nil => rfl
    | cons entry entries ih =>
      simp only [countP_cons]
      simp only [decide_eq_true_eq] at *
      split <;> split <;> split <;> omega

/-- The fanout of a built index section counts its entries. -/
theorem isFanout_of_accumulate
    (tallied : tally (List.replicate 256 0) entries = .ok counts)
    (accumulated : accumulate 0 counts = .ok fanout) :
    IsFanout entries fanout := by
  obtain ⟨sized, counted⟩ := tally_spec length_replicate tallied
  obtain ⟨sameLength, sums, total⟩ :=
    accumulate_spec (Nat.two_pow_pos 32) accumulated
  have counted' : ∀ byte, counts.getD byte 0 =
      entries.countP fun entry => firstByte entry.k = byte := by
    intro byte
    have none : (List.replicate 256 0).getD byte 0 = 0 := by
      rw [getD_eq_getElem?_getD, getElem?_replicate]
      split <;> rfl
    rw [counted byte, none, Nat.zero_add]
  refine ⟨by rw [sameLength, sized], ?_, ?_⟩
  · intro byte inside
    rw [sums byte (by omega), Nat.zero_add, sum_counts sized counted' inside]
  · have all := sum_counts sized counted' (show 255 < 256 by omega)
    rw [countUpTo_all, take_of_length_le (by omega)] at all
    omega

/-- A fanout table is read back from its bytes. -/
theorem readFanout_flatMap
    (before suffix : List Nat) (rest : Bytes)
    (monotone : (previous :: suffix).Pairwise (· ≤ ·))
    (fits : ∀ count ∈ suffix, count < 2 ^ 32) :
    readFanout ((before ++ suffix).flatMap (beBytes 4) ++ rest)
      suffix.length before.length previous = .ok suffix := by
  induction suffix generalizing before previous with
  | nil => rfl
  | cons count suffix ih =>
    have value : readBe ((before ++ count :: suffix).flatMap (beBytes 4) ++
        rest) (before.length * 4) 4 = count := by
      rw [flatMap_append, flatMap_cons, append_assoc, append_assoc]
      refine readBe_field _ _ ?_ ?_
      · exact flatMap_length (beBytes 4) (beBytes_length 4) before
      · exact fits count mem_cons_self
    obtain ⟨least, rest_monotone⟩ := pairwise_cons.mp monotone
    have next := ih (before ++ [count]) rest_monotone
      (fun later member => fits later (mem_cons_of_mem _ member))
    rw [append_assoc, singleton_append, length_append, length_singleton] at next
    rw [length_cons, readFanout, value,
      if_neg (Nat.not_lt.mpr (least count mem_cons_self)), next]
    rfl

theorem IsFanout.getElem_eq
    (isFanout : IsFanout entries fanout)
    (inside : byte < fanout.length) :
    fanout[byte] = countUpTo entries byte := by
  rw [← isFanout.count byte (by rw [← isFanout.length_eq]; exact inside),
    getD_eq_getElem _ _ inside]

theorem IsFanout.monotone
    (isFanout : IsFanout entries fanout) :
    fanout.Pairwise (· ≤ ·) := by
  refine pairwise_iff_getElem.mpr ?_
  intro left right leftInside rightInside before
  rw [isFanout.getElem_eq, isFanout.getElem_eq]
  exact countUpTo_mono entries (Nat.le_of_lt before)

theorem IsFanout.count_lt
    (isFanout : IsFanout entries fanout) {count : Nat}
    (member : count ∈ fanout) :
    count < 2 ^ 32 := by
  obtain ⟨byte, inside, rfl⟩ := getElem_of_mem member
  rw [isFanout.getElem_eq]
  exact Nat.lt_of_le_of_lt (countUpTo_le entries byte) isFanout.fits

@[simp] theorem rowBytes_length (entry : IndexEntry) :
    (rowBytes entry).length = indexEntrySize := by
  simp [rowBytes, entry.k.bytes_length]

/-- An index section is parsed back to its fanout. -/
theorem IsFanout.parseIndexSection_eq
    {entries : List IndexEntry}
    (isFanout : IsFanout entries fanout) :
    parseIndexSection
      (fanout.flatMap (beBytes 4) ++ entries.flatMap rowBytes)
      entries.length = .ok fanout := by
  have parsed := readFanout_flatMap [] fanout (entries.flatMap rowBytes)
    (pairwise_cons.mpr ⟨fun _ _ => Nat.zero_le _, isFanout.monotone⟩)
    (fun _ => isFanout.count_lt)
  rw [isFanout.length_eq] at parsed
  have total := isFanout.count 255 (by omega)
  rw [countUpTo_all] at total
  have fits := isFanout.fits
  have sized : (fanout.flatMap (beBytes 4) ++
      entries.flatMap rowBytes).length =
        fanoutSize + entries.length * indexEntrySize := by
    rw [length_append, flatMap_length _ (beBytes_length 4),
      flatMap_length _ rowBytes_length, isFanout.length_eq]
  unfold parseIndexSection
  rw [if_neg (by omega), if_neg (by rw [sized]; simp)]
  simp only [nil_append] at parsed
  change readFanout _ 256 0 0 = _ at parsed
  rw [parsed]
  change (if fanout.getD 255 0 ≠ entries.length then _ else _) = _
  rw [if_neg (by rw [total]; simp)]

/-! ## The search -/

theorem rowKey_flatMap
    {entries : List IndexEntry}
    (inside : position < entries.length) :
    rowKey (entries.flatMap rowBytes) position =
      .ok entries[position].k.bytes := by
  have total := flatMap_length rowBytes rowBytes_length entries
  have within : (position + 1) * indexEntrySize ≤
      entries.length * indexEntrySize :=
    Nat.mul_le_mul_right _ inside
  unfold rowKey
  rw [if_pos (by rw [total]; exact within)]
  have row := slice_flatMap rowBytes rowBytes_length inside 0
    (show 32 ≤ indexEntrySize by decide)
  rw [Nat.add_zero] at row
  rw [row, rowBytes, append_assoc, slice_zero,
    take_append_of_le_length (by rw [Key.bytes_length]),
    take_of_length_le (by rw [Key.bytes_length])]

/-- Whether the entry at a position has a key below another. -/
def isBelow (entries : List IndexEntry) (key : Key) (position : Nat) : Bool :=
  match entries[position]? with
  | some entry => beNat entry.k.bytes < beNat key.bytes
  | none => false

theorem isBelow_eq_true_iff
    {position : Nat}
    (inside : position < entries.length) :
    isBelow entries key position = true ↔
      beNat entries[position].k.bytes < beNat key.bytes := by
  unfold isBelow
  rw [getElem?_eq_getElem inside]
  exact decide_eq_true_iff

/-- The search of the rows is the search of the entries. -/
theorem searchRows_eq
    (entries : List IndexEntry) (key : Key)
    (inside : lo + high ≤ entries.length) :
    searchRows (entries.flatMap rowBytes) key lo fuel low high =
      .ok (searchFrom (fun index => isBelow entries key (lo + index))
        fuel low high) := by
  induction fuel generalizing low high with
  | zero => rfl
  | succ fuel ih =>
    unfold searchRows searchFrom
    by_cases nonempty : low < high
    · have midInside : lo + (low + high) / 2 < entries.length := by omega
      have below := @isBelow_eq_true_iff entries key _ midInside
      simp only [if_pos nonempty, rowKey_flatMap midInside, bind,
        Except.bind, Key.bytes_lt_iff]
      split
      case isTrue smaller =>
        rw [if_pos (below.mpr smaller)]
        exact ih inside
      case isFalse notSmaller =>
        rw [if_neg (fun isTrue => notSmaller (below.mp isTrue))]
        exact ih (by omega)
    · rw [if_neg nonempty, if_neg nonempty]

section Bucket

variable {entries : List IndexEntry} {fanout : List Nat}

/-- The position a first byte's bucket starts at. -/
def bucketLow (entries : List IndexEntry) (byte : Nat) : Nat :=
  if byte > 0 then countUpTo entries (byte - 1) else 0

theorem IsFanout.bucketStart_eq
    (isFanout : IsFanout entries fanout) (inside : byte < 256) :
    bucketStart fanout byte = .ok (bucketLow entries byte) := by
  unfold bucketStart bucketLow
  split
  · rw [read_eq_ok_of_lt _ 0 (by rw [isFanout.length_eq]; omega),
      isFanout.count _ (by omega)]
  · rfl

theorem bucketLow_le (entries : List IndexEntry) (byte : Nat) :
    bucketLow entries byte ≤ countUpTo entries byte := by
  unfold bucketLow
  split
  · exact countUpTo_mono entries (by omega)
  · exact Nat.zero_le _

/-- A key's bucket holds the entry of that key. -/
theorem KeysSorted.mem_bucket
    (sorted : KeysSorted entries)
    (inside : position < entries.length) :
    bucketLow entries (firstByte entries[position].k) ≤ position ∧
      position < countUpTo entries (firstByte entries[position].k) := by
  refine ⟨?_, (sorted.lt_countUpTo_iff inside _).mpr le_rfl⟩
  unfold bucketLow
  split
  case isTrue positive =>
    by_contra outside
    have := (sorted.lt_countUpTo_iff inside _).mp (Nat.lt_of_not_le outside)
    omega
  case isFalse => exact Nat.zero_le _

/-- The number of entries in a first byte's bucket. -/
def bucketSize (entries : List IndexEntry) (byte : Nat) : Nat :=
  countUpTo entries byte - bucketLow entries byte

theorem bucketLow_add_bucketSize (entries : List IndexEntry) (byte : Nat) :
    bucketLow entries byte + bucketSize entries byte ≤ entries.length := by
  have within := countUpTo_le entries byte
  have started := bucketLow_le entries byte
  unfold bucketSize
  omega

/-- Where the search of a key's bucket stops, from the bucket's start. -/
def stopOf (entries : List IndexEntry) (key : Key) : Nat :=
  searchFrom
    (fun index => isBelow entries key (bucketLow entries (firstByte key) + index))
    (bucketSize entries (firstByte key)) 0
    (bucketSize entries (firstByte key))

theorem KeysSorted.stopOf_spec
    (sorted : KeysSorted entries) (key : Key) :
    (∀ index, index < stopOf entries key →
      isBelow entries key (bucketLow entries (firstByte key) + index) = true) ∧
      (∀ index, stopOf entries key ≤ index →
        index < bucketSize entries (firstByte key) →
        isBelow entries key (bucketLow entries (firstByte key) + index) =
          false) := by
  have within := bucketLow_add_bucketSize entries (firstByte key)
  obtain ⟨_, _, before, after⟩ := @searchFrom_spec 0 _ _
    (fun index => isBelow entries key
      (bucketLow entries (firstByte key) + index))
    (Nat.zero_le (bucketSize entries (firstByte key))) le_rfl (by
      intro left right ordered inside
      have rightInside : bucketLow entries (firstByte key) + right <
        entries.length := by omega
      rw [isBelow_eq_true_iff rightInside, isBelow_eq_true_iff
        (Nat.lt_of_le_of_lt (Nat.add_le_add_left ordered _) rightInside)]
      intro below
      exact Nat.lt_of_le_of_lt (sorted.le_of_le (by omega) rightInside) below)
  exact ⟨fun index => before index (Nat.zero_le _), after⟩

namespace IsFanout

variable (isFanout : IsFanout entries fanout)
include isFanout

/-- The position search, as a search of the entries. -/
theorem searchIndexPos_eq
    (key : Key) :
    searchIndexPos fanout (entries.flatMap rowBytes) key =
      .ok (if stopOf entries key < bucketSize entries (firstByte key) ∧
          (entries[bucketLow entries (firstByte key) +
            stopOf entries key]?.map IndexEntry.k) = some key then
        some (bucketLow entries (firstByte key) + stopOf entries key)
      else
        none) := by
  have within := bucketLow_add_bucketSize entries (firstByte key)
  have started := bucketLow_le entries (firstByte key)
  unfold searchIndexPos
  simp only [isFanout.bucketStart_eq (firstByte_lt key),
    read_eq_ok_of_lt BinaryFuse.Stop.indexOutOfBounds 0
      (show firstByte key < fanout.length by
        rw [isFanout.length_eq]; exact firstByte_lt key),
    isFanout.count _ (firstByte_lt key), bind, Except.bind,
    if_neg (Nat.not_lt.mpr started)]
  simp only [← bucketSize.eq_def, searchRows_eq entries key within,
    ← stopOf.eq_def]
  by_cases inBucket : stopOf entries key < bucketSize entries (firstByte key)
  · have inside : bucketLow entries (firstByte key) + stopOf entries key <
      entries.length := by omega
    simp only [if_neg (Nat.not_le.mpr inBucket), rowKey_flatMap inside,
      getElem?_eq_getElem inside, Option.map_some, Option.some.injEq,
      inBucket, true_and, Key.ext_iff, ite_not]
    split <;> rfl
  · rw [if_pos (Nat.not_lt.mp inBucket), if_neg (fun both => inBucket both.1)]

/-- The search finds a row of every key of the section. -/
theorem exists_searchIndexPos_of_mem
    (sorted : KeysSorted entries)
    (inside : position < entries.length) :
    ∃ found, ∃ within : found < entries.length,
      entries[found].k = entries[position].k ∧
      searchIndexPos fanout (entries.flatMap rowBytes) entries[position].k =
        .ok (some found) := by
  obtain ⟨fromLow, belowHigh⟩ := sorted.mem_bucket inside
  obtain ⟨before, after⟩ := sorted.stopOf_spec entries[position].k
  rw [isFanout.searchIndexPos_eq]
  generalize hlow : bucketLow entries (firstByte entries[position].k) = low at *
  generalize hstop : stopOf entries entries[position].k = stop at *
  have sized : position < low +
      bucketSize entries (firstByte entries[position].k) := by
    unfold bucketSize
    omega
  -- The entry itself is not below its key, so the search stops at or before
  -- it, and the entry it stops at is not below the key either.
  have notLater : low + stop ≤ position := by
    by_contra later
    have below := before (position - low) (by omega)
    rw [Nat.add_sub_of_le fromLow, isBelow_eq_true_iff inside] at below
    exact Nat.lt_irrefl _ below
  have within : low + stop < entries.length := by omega
  have notBelow := after stop le_rfl (by omega)
  have same : entries[low + stop].k = entries[position].k := by
    refine Key.beNat_bytes_inj (Nat.le_antisymm ?_ ?_)
    · exact sorted.le_of_le notLater inside
    · refine Nat.le_of_not_lt ?_
      intro below
      have isTrue := (isBelow_eq_true_iff within).mpr below
      rw [notBelow] at isTrue
      cases isTrue
  refine ⟨low + stop, within, same, ?_⟩
  rw [getElem?_eq_getElem within, Option.map_some, same, if_pos ⟨by omega, rfl⟩]

/-- In strict key order the search finds the one row of each key. -/
theorem searchIndexPos_of_mem
    (order : InKeyOrder entries)
    (inside : position < entries.length) :
    searchIndexPos fanout (entries.flatMap rowBytes) entries[position].k =
      .ok (some position) := by
  obtain ⟨found, within, same, searched⟩ :=
    isFanout.exists_searchIndexPos_of_mem order.keysSorted inside
  rcases Nat.lt_trichotomy found position with earlier | rfl | later
  · have below := order.lt_of_lt earlier inside
    rw [same] at below
    exact absurd below (Nat.lt_irrefl _)
  · exact searched
  · have below := order.lt_of_lt later within
    rw [same] at below
    exact absurd below (Nat.lt_irrefl _)

/-- A key that is in no row is not found. -/
theorem searchIndexPos_of_not_mem
    (absent : ∀ entry ∈ entries, entry.k ≠ key) :
    searchIndexPos fanout (entries.flatMap rowBytes) key = .ok none := by
  rw [isFanout.searchIndexPos_eq, if_neg]
  rintro ⟨_, found⟩
  obtain ⟨entry, isEntry, same⟩ := Option.map_eq_some_iff.mp found
  exact absent entry (mem_of_getElem? isEntry) same

end IsFanout

/-- What the search returns for a row it finds. -/
theorem searchIndex_of_searchIndexPos
    (inside : position < entries.length)
    (searched : searchIndexPos fanout (entries.flatMap rowBytes) key =
      .ok (some position)) :
    searchIndex fanout (entries.flatMap rowBytes) key =
      .ok (some (entries[position].off, entries[position].slen)) := by
  unfold searchIndex
  rw [searched]
  simp only [bind, Except.bind]
  rw [readBe_flatMap rowBytes rowBytes_length inside (by decide),
    readBe_flatMap rowBytes rowBytes_length inside (by decide)]
  have off : readBe (rowBytes entries[position]) 32 8 =
      entries[position].off.toNat := by
    rw [rowBytes, append_assoc]
    exact readBe_field _ _ (Key.bytes_length _) (UInt64.toNat_lt _)
  have slen : readBe (rowBytes entries[position]) 40 4 =
      entries[position].slen.toNat := by
    have lead : (entries[position].k.bytes ++
        beBytes 8 entries[position].off.toNat).length = 40 := by
      rw [length_append, Key.bytes_length, beBytes_length]
    have fits : entries[position].slen.toNat < 256 ^ 4 := UInt32.toNat_lt _
    have ending := readBe_field _ [] lead fits
    rwa [append_nil] at ending
  rw [off, slen, UInt64.ofNat_toNat, UInt32.ofNat_toNat]

theorem IsFanout.searchIndex_of_not_mem
    (isFanout : IsFanout entries fanout)
    (absent : ∀ entry ∈ entries, entry.k ≠ key) :
    searchIndex fanout (entries.flatMap rowBytes) key = .ok none := by
  unfold searchIndex
  rw [isFanout.searchIndexPos_of_not_mem absent]
  rfl

/-- The index finds an entry of every key of the section. -/
theorem IsFanout.exists_searchIndex_of_mem
    (isFanout : IsFanout entries fanout) (sorted : KeysSorted entries)
    (member : entry ∈ entries) :
    ∃ found ∈ entries, found.k = entry.k ∧
      searchIndex fanout (entries.flatMap rowBytes) entry.k =
        .ok (some (found.off, found.slen)) := by
  obtain ⟨position, inside, rfl⟩ := getElem_of_mem member
  obtain ⟨found, within, same, searched⟩ :=
    isFanout.exists_searchIndexPos_of_mem sorted inside
  exact ⟨entries[found], getElem_mem within, same,
    searchIndex_of_searchIndexPos within searched⟩

/-- The index finds exactly the offset and stored length of each key's
entry. -/
theorem IsFanout.searchIndex_eq
    (isFanout : IsFanout entries fanout) (order : InKeyOrder entries)
    (key : Key) :
    searchIndex fanout (entries.flatMap rowBytes) key =
      .ok ((entries.find? fun entry => entry.k = key).map fun entry =>
        (entry.off, entry.slen)) := by
  cases found : entries.find? fun entry => entry.k = key with
  | none =>
    refine isFanout.searchIndex_of_not_mem ?_
    intro entry member
    simpa using find?_eq_none.mp found entry member
  | some entry =>
    have matches_ : entry.k = key := by simpa using find?_some found
    obtain ⟨position, inside, rfl⟩ :=
      getElem_of_mem (mem_of_find?_eq_some found)
    rw [← matches_]
    exact searchIndex_of_searchIndexPos inside
      (isFanout.searchIndexPos_of_mem order inside)

end Bucket

end AmberStore.Packstore

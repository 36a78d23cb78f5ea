import AmberStore.Chunkers
import AmberStore.Lib.Checked

/-!
# Where chunks end

A declarative rule for the end of a chunk, and that the incremental loop follows
it.  The loop's running distance is that of the eight bytes before its position;
it need not be updated over a block that repeats the one before.
-/

open ByteString
open List hiding count

namespace AmberStore.Chunkers

/-! ## The rule -/

/-- How many bits of a byte differ from the pattern. -/
def bitsFrom0xaa (byte : UInt8) : Nat :=
  (List.range 8).countP fun bit => (byte ^^^ 0xaa).toNat.testBit bit

/-- How many bits differ from the repeated pattern. -/
def hamming (bytes : Bytes) : Nat :=
  (bytes.map bitsFrom0xaa).sum

section Rule

variable (r : Resolved) (w : Bytes)

/-- Where a block starts: every eight bytes from the least size on. -/
def blockStart (k : Nat) : Nat := r.minSize + 8 * k

/-- A block of a window. -/
def block (k : Nat) : Bytes := slice w (blockStart r k) (blockStart r k + 8)

/-- The mask in force for a block. -/
def maskOf (k : Nat) : Nat :=
  if r.normalSize ≤ blockStart r k then 0x2c else 0x2f

/-- The position lies in a block that differs from the one before it, and the
distance of the eight bytes before the position has no bit of the mask. -/
def Matches (p : Nat) : Prop :=
  ∃ k, 1 ≤ k ∧ blockStart r k + 8 ≤ w.length ∧
    blockStart r k ≤ p ∧ p < blockStart r k + 8 ∧
    block r w k ≠ block r w (k - 1) ∧
    hamming (slice w (p - 8) p) &&& maskOf r k = 0

/-- The position ends the 64th of consecutive blocks that each equal the one
before it. -/
def Repeats (p : Nat) : Prop :=
  ∃ k, 64 ≤ k ∧ p = blockStart r k + 8 ∧ p ≤ w.length ∧
    ∀ m, k - 64 < m → m ≤ k → block r w m = block r w (m - 1)

/-- A chunk may end here. -/
def MayEnd (p : Nat) : Prop :=
  r.minSize + 8 ≤ p ∧ (Matches r w p ∨ Repeats r w p)

/-- The first position at which a chunk may end, or else the window's end. -/
def IsCut (cut : Nat) : Prop :=
  (MayEnd r w cut ∧ ∀ p < cut, ¬MayEnd r w p) ∨
    (cut = w.length ∧ ∀ p, ¬MayEnd r w p)

end Rule

/-! ## The running distance -/

theorem hamming_cons (byte : UInt8) (bytes : Bytes) :
    hamming (byte :: bytes) = bitsFrom0xaa byte + hamming bytes :=
  rfl

theorem hamming_append (left right : Bytes) :
    hamming (left ++ right) = hamming left + hamming right := by
  rw [hamming, map_append, sum_append]
  rfl

theorem bitsFrom0xaa_le (byte : UInt8) : bitsFrom0xaa byte ≤ 8 :=
  (countP_le_length).trans (by simp)

theorem hamming_le (bytes : Bytes) : hamming bytes ≤ 8 * bytes.length := by
  induction bytes with
  | nil => exact le_rfl
  | cons byte bytes ih =>
    have bound := bitsFrom0xaa_le byte
    rw [hamming_cons, length_cons]
    omega

theorem foldl_hammingTo0xaa (bytes : Bytes) (start : Nat) :
    (bytes.map hammingTo0xaa).foldl (· + ·) (Int64.ofNat start) =
      Int64.ofNat (start + hamming bytes) := by
  induction bytes generalizing start with
  | nil => rfl
  | cons byte bytes ih =>
    have step : Int64.ofNat start + hammingTo0xaa byte =
        Int64.ofNat (start + bitsFrom0xaa byte) := by
      rw [Int64.ofNat_add]
      rfl
    rw [map_cons, foldl_cons, step, ih, hamming_cons, Nat.add_assoc]

/-- Testing the running distance tests the distance. -/
theorem and_mask_eq_zero_iff
    (small : distance < 2 ^ 64) (mask : UInt64) :
    (Int64.ofNat distance).toUInt64 &&& mask = 0 ↔
      distance &&& mask.toNat = 0 := by
  have isWord : ((Int64.ofNat distance).toUInt64).toNat = distance := by
    change (Int64.ofNat distance).toBitVec.toNat = distance
    rw [Int64.toBitVec_ofNat', BitVec.toNat_ofNat, Nat.mod_eq_of_lt small]
  rw [← UInt64.toNat_inj, UInt64.toNat_and, isWord]
  rfl

/-- The distance moves on by a byte. -/
theorem hamming_slice_succ
    (enough : 8 ≤ p) (inside : p < w.length) :
    bitsFrom0xaa (byteAt w (p - 8)) + hamming (slice w (p + 1 - 8) (p + 1)) =
      hamming (slice w (p - 8) p) + bitsFrom0xaa (byteAt w p) := by
  have front : slice w (p - 8) (p + 1) =
      [byteAt w (p - 8)] ++ slice w (p + 1 - 8) (p + 1) := by
    rw [singleton_byteAt _ (by omega), show p - 8 + 1 = p + 1 - 8 by omega,
      slice_append_slice _ (by omega) (by omega)]
  have back : slice w (p - 8) (p + 1) = slice w (p - 8) p ++ [byteAt w p] := by
    rw [singleton_byteAt _ inside, slice_append_slice _ (by omega) (by omega)]
  have same := congrArg hamming (front.symm.trans back)
  rwa [hamming_append, hamming_append] at same

theorem hamming_slice_lt (w : Bytes) (p : Nat) :
    hamming (slice w (p - 8) p) < 2 ^ 64 := by
  have bound := hamming_le (slice w (p - 8) p)
  have length := slice_length w (p - 8) p
  omega

/-- The running distance moves on by a byte. -/
theorem dist_succ
    (enough : 8 ≤ p) (inside : p < w.length) :
    Int64.ofNat (hamming (slice w (p - 8) p)) +
        (hammingTo0xaa (byteAt w p) - hammingTo0xaa (byteAt w (p - 8))) =
      Int64.ofNat (hamming (slice w (p + 1 - 8) (p + 1))) := by
  have same := congrArg Int64.ofNat (hamming_slice_succ enough inside)
  rw [Int64.ofNat_add, Int64.ofNat_add] at same
  change Int64.ofNat _ + (Int64.ofNat (bitsFrom0xaa _) -
    Int64.ofNat (bitsFrom0xaa _)) = _
  rw [Int64.sub_eq_add_neg, ← Int64.add_assoc, ← same]
  grind

/-! ## One block -/

/-- What rolling over a block finds: the first position of the block whose
distance has no bit of the mask, or none and the distance of the block. -/
theorem rollWindow_spec
    {mask : UInt64} {i left j : Nat} (isBlock : j + left = 8)
    (enough : 8 ≤ i) (inside : i + 8 ≤ w.length) :
    (∃ cut, rollWindow w mask i left j
          (.ofNat (hamming (slice w (i + j - 8) (i + j)))) = .inl cut ∧
        i + j ≤ cut ∧ cut < i + 8 ∧
        hamming (slice w (cut - 8) cut) &&& mask.toNat = 0 ∧
        ∀ p, i + j ≤ p → p < cut →
          hamming (slice w (p - 8) p) &&& mask.toNat ≠ 0) ∨
      (rollWindow w mask i left j
          (.ofNat (hamming (slice w (i + j - 8) (i + j)))) =
            .inr (.ofNat (hamming (slice w i (i + 8)))) ∧
        ∀ p, i + j ≤ p → p < i + 8 →
          hamming (slice w (p - 8) p) &&& mask.toNat ≠ 0) := by
  induction left generalizing j with
  | zero =>
    refine .inr ⟨?_, fun p low high => by omega⟩
    have isEnd : j = 8 := by omega
    subst isEnd
    rw [rollWindow, Nat.add_sub_cancel]
  | succ left ih =>
    have tested := and_mask_eq_zero_iff (hamming_slice_lt w (i + j)) mask
    rw [rollWindow]
    by_cases here : hamming (slice w (i + j - 8) (i + j)) &&& mask.toNat = 0
    · rw [if_pos (tested.mpr here)]
      exact .inl ⟨i + j, rfl, le_rfl, by omega, here,
        fun p low high => by omega⟩
    · rw [if_neg (mt tested.mp here)]
      dsimp only
      rw [dist_succ (by omega) (by omega)]
      have atHere : ∀ p, i + j ≤ p → p < i + (j + 1) → p = i + j := by
        omega
      rcases ih (j := j + 1) (by omega) with
        ⟨cut, isCut, low, high, isZero, before⟩ | ⟨isRest, before⟩
      · refine .inl ⟨cut, isCut, by omega, high, isZero, ?_⟩
        intro p fromHere beforeCut
        by_cases later : i + (j + 1) ≤ p
        · exact before p later beforeCut
        · rw [atHere p fromHere (by omega)]
          exact here
      · refine .inr ⟨isRest, ?_⟩
        intro p fromHere inBlock
        by_cases later : i + (j + 1) ≤ p
        · exact before p later inBlock
        · rw [atHere p fromHere (by omega)]
          exact here

/-! ## All blocks -/

section Blocks

variable {r : Resolved} {w : Bytes}

/-- Where the loop is: before a block, with so many blocks in a row that equal
the one before them, and no position so far at which the chunk may end. -/
structure AtBlock (r : Resolved) (w : Bytes) (k count : Nat) : Prop where
  positive : 1 ≤ k
  short : count < 64
  within : count < k
  equal : ∀ m, k - count ≤ m → m < k → block r w m = block r w (m - 1)
  differs : count + 1 < k →
    block r w (k - 1 - count) ≠ block r w (k - 1 - count - 1)
  before : ∀ p < blockStart r k, ¬MayEnd r w p
  notHere : ¬Repeats r w (blockStart r k)

theorem atBlock_one : AtBlock r w 1 0 where
  positive := le_rfl
  short := by decide
  within := by decide
  equal m low high := by omega
  differs long := by omega
  before p low mayEnd := by
    have atLeast := mayEnd.1
    unfold blockStart at low
    omega
  notHere := by
    rintro ⟨k, many, isEnd, -⟩
    unfold blockStart at isEnd
    omega

theorem blockStart_succ (r : Resolved) (k : Nat) :
    blockStart r (k + 1) = blockStart r k + 8 := by
  unfold blockStart
  omega

theorem blockStart_inj (same : blockStart r k = blockStart r m) :
    k = m := by
  unfold blockStart at same
  omega

/-- Positions of a block lie in no other. -/
theorem eq_of_in_block
    (low : blockStart r k ≤ p) (high : p < blockStart r k + 8)
    (otherLow : blockStart r m ≤ p) (otherHigh : p < blockStart r m + 8) :
    m = k := by
  unfold blockStart at *
  omega

/-- Repetitions end where blocks start. -/
theorem not_repeats_in_block
    (low : blockStart r k < p) (high : p < blockStart r k + 8) :
    ¬Repeats r w p := by
  rintro ⟨m, -, isEnd, -⟩
  unfold blockStart at *
  omega

/-- A block that equals the one before it holds no end, and one more block in a
row repeats. -/
theorem AtBlock.equal_next
    (here : AtBlock r w k count)
    (isEqual : block r w k = block r w (k - 1)) :
    (∀ p < blockStart r k + 8, ¬MayEnd r w p) ∧
      ∀ m, k - count ≤ m → m ≤ k → block r w m = block r w (m - 1) := by
  constructor
  · rintro p isBefore mayEnd
    by_cases earlier : p < blockStart r k
    · exact here.before p earlier mayEnd
    · rcases mayEnd.2 with ⟨m, -, -, low, high, different, -⟩ | repeats
      · cases eq_of_in_block (Nat.not_lt.mp earlier) isBefore low high
        exact different isEqual
      · by_cases atStart : p = blockStart r k
        · exact here.notHere (atStart ▸ repeats)
        · exact not_repeats_in_block (by omega) isBefore repeats
  · intro m low high
    by_cases isLast : m = k
    · rw [isLast, isEqual]
    · exact here.equal m low (by omega)

theorem AtBlock.equal_step
    (here : AtBlock r w k count)
    (isEqual : block r w k = block r w (k - 1)) (few : count + 1 < 64) :
    AtBlock r w (k + 1) (count + 1) where
  positive := by omega
  short := few
  within := Nat.succ_lt_succ here.within
  equal m low high := (here.equal_next isEqual).2 m (by omega) (by omega)
  differs long := by
    have different := here.differs (by omega)
    have same : k + 1 - 1 - (count + 1) = k - 1 - count := by omega
    rwa [same]
  before p low := (here.equal_next isEqual).1 p (by rwa [← blockStart_succ])
  notHere := by
    rintro ⟨m, many, isEnd, -, equal⟩
    rw [blockStart_succ] at isEnd
    cases blockStart_inj (Nat.add_right_cancel isEnd)
    have within := here.within
    by_cases long : count + 1 < k
    · exact here.differs long (equal (k - 1 - count) (by omega) (by omega))
    · omega

/-- A block that differs from the one before it and holds no position without
bits of the mask starts the count again. -/
theorem AtBlock.differs_step
    (here : AtBlock r w k count)
    (different : block r w k ≠ block r w (k - 1))
    (noMatch : ∀ p, blockStart r k ≤ p → p < blockStart r k + 8 →
      hamming (slice w (p - 8) p) &&& maskOf r k ≠ 0) :
    AtBlock r w (k + 1) 0 where
  positive := by omega
  short := by decide
  within := by omega
  equal m low high := by omega
  differs _ := different
  before p low mayEnd := by
    rw [blockStart_succ] at low
    by_cases earlier : p < blockStart r k
    · exact here.before p earlier mayEnd
    · have from' := Nat.not_lt.mp earlier
      rcases mayEnd.2 with ⟨m, -, -, otherLow, otherHigh, -, isZero⟩ | repeats
      · cases eq_of_in_block from' low otherLow otherHigh
        exact noMatch p from' low isZero
      · by_cases atStart : p = blockStart r k
        · exact here.notHere (atStart ▸ repeats)
        · exact not_repeats_in_block (by omega) low repeats
  notHere := by
    rintro ⟨m, many, isEnd, -, equal⟩
    rw [blockStart_succ] at isEnd
    cases blockStart_inj (Nat.add_right_cancel isEnd)
    exact different (equal k (by omega) le_rfl)

theorem block_pred
    (positive : 1 ≤ k) :
    block r w (k - 1) = slice w (blockStart r k - 8) (blockStart r k) := by
  obtain ⟨m, rfl⟩ := Nat.exists_eq_add_of_le' positive
  rw [blockStart_succ, Nat.add_sub_cancel, Nat.add_sub_cancel]
  rfl

/-- After the last block there is no end. -/
theorem AtBlock.isCut_length
    (here : AtBlock r w k count)
    (all : w.length < blockStart r k + 8) : IsCut r w w.length := by
  refine .inr ⟨rfl, fun p mayEnd => ?_⟩
  by_cases earlier : p < blockStart r k
  · exact here.before p earlier mayEnd
  · rcases mayEnd.2 with ⟨m, -, inside, low, high, -⟩ | repeats
    · unfold blockStart at *
      omega
    · have isStart : p = blockStart r k := by
        obtain ⟨m, -, isEnd, inside, -⟩ := repeats
        unfold blockStart at *
        omega
      exact here.notHere (isStart ▸ repeats)

/-- From any block on the loop follows the rule. -/
theorem isCut_cutFrom
    (enough : 8 ≤ r.minSize)
    (sameMask : ∀ k, blockStart r k + 8 ≤ w.length →
      (normalSize ≤ blockStart r k ↔ r.normalSize ≤ blockStart r k))
    (here : AtBlock r w k count)
    (blocks : blockStart r k + 8 * windows ≤ w.length)
    (all : w.length < blockStart r k + 8 * windows + 8) :
    IsCut r w (cutFrom w normalSize w.length windows (blockStart r k) count
      (block r w (k - 1)) (.ofNat (hamming (block r w (k - 1))))) := by
  induction windows generalizing k count with
  | zero =>
    rw [cutFrom]
    exact here.isCut_length (by omega)
  | succ windows ih =>
    have next : blockStart r (k + 1) = blockStart r k + 8 := blockStart_succ r k
    have inside : blockStart r k + 8 ≤ w.length := by omega
    rw [cutFrom]
    change IsCut r w (if block r w k = block r w (k - 1) then _ else _)
    by_cases isEqual : block r w k = block r w (k - 1)
    · rw [if_pos isEqual]
      by_cases many : 64 ≤ count + 1
      · rw [if_pos many]
        have exact64 : count = 63 := by
          have short := here.short
          omega
        obtain ⟨before, equal⟩ := here.equal_next isEqual
        have within := here.within
        refine .inl ⟨⟨?_, .inr ⟨k, by omega, rfl, inside, ?_⟩⟩, before⟩
        · have positive := here.positive
          unfold blockStart
          omega
        · intro m low high
          exact equal m (by omega) high
      · rw [if_neg many, ← next]
        have stepped := ih
          (here.equal_step isEqual (by omega)) (by omega) (by omega)
        rwa [Nat.add_sub_cancel, isEqual] at stepped
    · rw [if_neg isEqual]
      have isMask : (if normalSize ≤ blockStart r k then maskL
          else maskS).toNat = maskOf r k := by
        unfold maskOf
        by_cases late : r.normalSize ≤ blockStart r k
        · rw [if_pos ((sameMask k inside).mpr late), if_pos late]
          rfl
        · rw [if_neg (mt (sameMask k inside).mp late), if_neg late]
          rfl
      have rolled := @rollWindow_spec w
        (if normalSize ≤ blockStart r k then maskL else maskS)
        (blockStart r k) 8 0 rfl (by unfold blockStart; omega) inside
      rw [isMask, Nat.add_zero, ← block_pred here.positive] at rolled
      rcases rolled with ⟨cut, isCut, low, high, isZero, before⟩ |
        ⟨isRest, none⟩
      · rw [isCut]
        change IsCut r w cut
        refine .inl ⟨⟨?_, .inl ⟨k, here.positive, inside, low, high, isEqual,
          isZero⟩⟩, ?_⟩
        · have positive := here.positive
          unfold blockStart at low
          omega
        · intro p isBefore mayEnd
          by_cases earlier : p < blockStart r k
          · exact here.before p earlier mayEnd
          · have inBlock := Nat.not_lt.mp earlier
            rcases mayEnd.2 with
              ⟨m, -, -, otherLow, otherHigh, -, noBit⟩ | repeats
            · cases eq_of_in_block inBlock (by omega) otherLow otherHigh
              exact before p inBlock isBefore noBit
            · by_cases atStart : p = blockStart r k
              · exact here.notHere (atStart ▸ repeats)
              · exact not_repeats_in_block (k := k) (by omega) (by omega)
                  repeats
      · rw [isRest, ← next]
        have stepped := ih
          (here.differs_step isEqual none) (by omega) (by omega)
        rwa [Nat.add_sub_cancel] at stepped

/-- A window too short for two blocks has no end before its own. -/
theorem isCut_short
    (short : w.length < r.minSize + 16) : IsCut r w w.length := by
  apply atBlock_one.isCut_length
  unfold blockStart
  omega

/-- The chunker follows the rule. -/
theorem isCut_ultraCdcCutpoint
    (valid : r.validate = .ok ()) (inMax : w.length ≤ r.maxSize) :
    IsCut r w (ultraCdcCutpoint r w) := by
  have enough : 64 ≤ r.minSize := by
    unfold Resolved.validate at valid
    split_ifs at valid
    omega
  have isWhole : min w.length r.maxSize = w.length := Nat.min_eq_left inMax
  unfold ultraCdcCutpoint
  dsimp only
  rw [isWhole]
  split
  case isTrue => exact isCut_short (by omega)
  case isFalse =>
    split
    case isTrue => exact isCut_short (by omega)
    case isFalse notShort =>
      have isDist : ((slice w r.minSize (r.minSize + 8)).map
          hammingTo0xaa).foldl (· + ·) 0 =
            Int64.ofNat (hamming (block r w 0)) := by
        have folded := foldl_hammingTo0xaa (block r w 0) 0
        rwa [Nat.zero_add] at folded
      rw [isDist]
      have start : blockStart r 1 = r.minSize + 8 := rfl
      refine isCut_cutFrom (by omega) ?_ atBlock_one ?_ ?_
      · intro k inside
        split
        · omega
        · exact Iff.rfl
      · rw [start]
        omega
      · rw [start]
        omega

end Blocks

/-! ## Chunks -/

/-- Where the first chunk of what remains ends. -/
def firstCut (r : Resolved) (data : Bytes) : Nat :=
  ultraCdcCutpoint r (data.take r.maxSize)

section Chunks

variable {r : Resolved} (valid : r.validate = .ok ())

include valid in
theorem firstCut_bounds (present : data ≠ []) :
    0 < firstCut r data ∧ firstCut r data ≤ data.length ∧
      firstCut r data ≤ r.maxSize := by
  have windowPresent : data.take r.maxSize ≠ [] := by
    rw [ne_eq, take_eq_nil_iff, not_or]
    exact ⟨Nat.ne_of_gt (maxSize_pos valid), present⟩
  obtain ⟨lower, upper⟩ := ultraCdcCutpoint_bounds valid windowPresent
  rw [List.length_take] at upper
  exact ⟨lower, by unfold firstCut; omega, by unfold firstCut; omega⟩

include valid in
theorem isCut_firstCut (data : Bytes) :
    IsCut r (data.take r.maxSize) (firstCut r data) := by
  apply isCut_ultraCdcCutpoint valid
  rw [List.length_take]
  exact Nat.min_le_left _ _

include valid in
/-- A chunk that is not the last has the least size. -/
theorem le_firstCut
    (notLast : firstCut r data < data.length) :
    min r.maxSize (r.minSize + 8) ≤ firstCut r data := by
  rcases isCut_firstCut valid data with ⟨⟨atLeast, -⟩, -⟩ | ⟨isEnd, -⟩
  · omega
  · rw [List.length_take] at isEnd
    omega

include valid in
/-- The first chunk, and the chunks of the rest. -/
theorem chunks_succ (present : data ≠ []) (fuel : Nat) :
    chunks r (fuel + 1) data =
      data.take (firstCut r data) ::
        chunks r fuel (data.drop (firstCut r data)) := by
  obtain ⟨-, -, inMax⟩ := firstCut_bounds valid present
  rw [chunks, if_neg (by simpa using present)]
  dsimp only
  rw [List.take_take]
  change data.take (min (firstCut r data) r.maxSize) :: _ = _
  rw [Nat.min_eq_left inMax]
  rfl

include valid in
theorem length_drop_firstCut
    (present : data ≠ [])
    (enough : data.length ≤ fuel + 1) :
    (data.drop (firstCut r data)).length ≤ fuel := by
  obtain ⟨positive, -, -⟩ := firstCut_bounds valid present
  rw [List.length_drop]
  omega

include valid in
/-- The chunks do not depend on the fuel, if it is enough. -/
theorem chunks_eq_of_enough
    (enough : data.length ≤ fuel)
    (otherEnough : data.length ≤ other) :
    chunks r fuel data = chunks r other data := by
  induction fuel generalizing other data with
  | zero =>
    cases length_eq_zero_iff.mp (Nat.le_zero.mp enough)
    cases other <;> rfl
  | succ fuel ih =>
    by_cases empty : data = []
    · subst empty
      cases other <;> rfl
    · have positive := length_pos_iff.mpr empty
      obtain ⟨other, rfl⟩ : ∃ fewer, other = fewer + 1 :=
        Nat.exists_eq_succ_of_ne_zero (by omega)
      rw [chunks_succ valid empty, chunks_succ valid empty,
        ih (length_drop_firstCut valid empty enough)
          (length_drop_firstCut valid empty otherEnough)]

include valid in
/-- The chunks from a boundary on are those of the bytes from there on. -/
theorem chunks_suffix
    (enough : data.length ≤ fuel)
    (split : chunks r fuel data = front ++ back) :
    chunks r back.flatten.length back.flatten = back := by
  induction front generalizing data fuel with
  | nil =>
    rw [nil_append] at split
    have content := (flatten_chunks valid enough).1
    rw [split] at content
    rw [content, chunks_eq_of_enough valid le_rfl enough, split]
  | cons chunk front ih =>
    cases fuel with
    | zero => cases split
    | succ fuel =>
      by_cases empty : data = []
      · subst empty
        cases split
      · rw [chunks_succ valid empty, cons_append] at split
        exact ih
          (length_drop_firstCut valid empty enough)
          (tail_eq_of_cons_eq split)

/-- What is said of a chunk and of those after it: it is not empty and not too
long, it ends where the rule says and, unless it is the last, is not too
short. -/
structure FollowsRule (r : Resolved) (chunk : Bytes) (back : List Bytes) :
    Prop where
  present : chunk ≠ []
  most : chunk.length ≤ r.maxSize
  least : back ≠ [] → min r.maxSize (r.minSize + 8) ≤ chunk.length
  isCut : IsCut r ((chunk ++ back.flatten).take r.maxSize) chunk.length

include valid in
theorem followsRule_of_chunks
    (areChunks : chunks r data.length data = chunk :: back) :
    FollowsRule r chunk back := by
  have content := (flatten_chunks valid (le_refl data.length)).1
  rw [areChunks, flatten_cons] at content
  have present : data ≠ [] := by
    rintro rfl
    cases areChunks
  obtain ⟨positive, inData, inMax⟩ := firstCut_bounds valid present
  obtain ⟨fuel, isLength⟩ : ∃ fuel, data.length = fuel + 1 :=
    Nat.exists_eq_succ_of_ne_zero (by omega)
  rw [isLength, chunks_succ valid present] at areChunks
  obtain ⟨isChunk, isBack⟩ := cons_eq_cons.mp areChunks
  have cutLength : chunk.length = firstCut r data := by
    rw [← isChunk, List.length_take]
    omega
  refine ⟨length_pos_iff.mp (by omega), by omega, ?_, ?_⟩
  · intro backPresent
    rw [cutLength]
    apply le_firstCut valid
    by_contra isLast
    rw [drop_eq_nil_of_le (not_lt.mp isLast)] at isBack
    apply backPresent
    rw [← isBack]
    cases fuel <;> rfl
  · rw [content, cutLength]
    exact isCut_firstCut valid data

end Chunks

/-! ## Readers -/

/-- Reading gives the first bytes of the input, however it is cut in pieces,
and leaves the others. -/
theorem readToEnd_spec (want : Nat) (reader : Pieces) :
    (readToEnd want reader).1 = reader.input.take want ∧
      (readToEnd want reader).2.input = reader.input.drop want := by
  induction reader generalizing want with
  | nil => simp [readToEnd, Pieces.input]
  | cons piece rest ih =>
    have input : Pieces.input (piece :: rest) =
        piece.val ++ Pieces.input rest := rfl
    rw [readToEnd, input]
    split_ifs with isZero shorter
    · subst isZero
      exact ⟨rfl, rfl⟩
    · constructor
      · rw [take_append_of_le_length (Nat.le_of_lt shorter)]
      · rw [drop_append_of_le_length (Nat.le_of_lt shorter)]
        rfl
    · obtain ⟨got, left⟩ := ih (want - piece.val.length)
      constructor
      · rw [take_append, take_of_length_le (not_lt.mp shorter)]
        exact congrArg _ got
      · rw [drop_append, drop_eq_nil_of_le (not_lt.mp shorter)]
        exact left

section Split

variable {r : Resolved} (valid : r.validate = .ok ())

omit valid in
/-- A round fills the buffer: it holds the first bytes of what remains. -/
theorem exists_filled
    (rounds : Nat)
    (inMax : buf.length ≤ r.maxSize)
    (atEnd : eof = true → reader.input = []) :
    ∃ (eof' : Bool) (reader' : Pieces),
      splitFrom r (rounds + 1) buf eof reader =
        (if ((buf ++ reader.input).take r.maxSize).isEmpty then
          []
        else
          ((buf ++ reader.input).take r.maxSize).take
              (firstCut r (buf ++ reader.input)) ::
            splitFrom r rounds
              (((buf ++ reader.input).take r.maxSize).drop
                (firstCut r (buf ++ reader.input))) eof' reader') ∧
      reader'.input = (buf ++ reader.input).drop r.maxSize ∧
      (eof' = true → reader'.input = []) := by
  by_cases fills : ¬eof ∧ buf.length < r.maxSize
  · obtain ⟨got, left⟩ := readToEnd_spec (r.maxSize - buf.length) reader
    refine ⟨decide ((readToEnd (r.maxSize - buf.length) reader).1.length <
        r.maxSize - buf.length),
      (readToEnd (r.maxSize - buf.length) reader).2, ?_, ?_, ?_⟩
    · rw [splitFrom, if_pos fills, firstCut, take_append,
        take_of_length_le inMax, ← got]
    · rw [left, drop_append, drop_eq_nil_of_le inMax, nil_append]
    · intro isShort
      have shorter := of_decide_eq_true isShort
      rw [got, List.length_take] at shorter
      rw [left, drop_eq_nil_iff]
      omega
  · have isFull : reader.input = [] ∨ buf.length = r.maxSize := by
      cases eof with
      | true => exact .inl (atEnd rfl)
      | false =>
        rw [not_and] at fills
        exact .inr (Nat.le_antisymm inMax
          (not_lt.mp (fills Bool.false_ne_true)))
    have window : (buf ++ reader.input).take r.maxSize = buf := by
      rcases isFull with isEnd | isMax
      · rw [isEnd, append_nil, take_of_length_le inMax]
      · rw [← isMax, take_left]
    have left : (buf ++ reader.input).drop r.maxSize = reader.input := by
      rcases isFull with isEnd | isMax
      · rw [isEnd, append_nil, drop_eq_nil_of_le inMax]
      · rw [← isMax, drop_left]
    refine ⟨eof, reader, ?_, left.symm, atEnd⟩
    rw [splitFrom, if_neg fills, firstCut, window]

include valid in
/-- The loop cuts what is in the buffer and what is still to be read. -/
theorem splitFrom_eq
    {buf : Bytes} {eof : Bool} {reader : Pieces}
    (inMax : buf.length ≤ r.maxSize)
    (atEnd : eof = true → reader.input = [])
    (enough : (buf ++ reader.input).length < rounds) :
    splitFrom r rounds buf eof reader =
      chunks r (buf ++ reader.input).length (buf ++ reader.input) := by
  induction rounds generalizing buf eof reader with
  | zero => cases enough
  | succ rounds ih =>
    obtain ⟨eof', reader', isRound, rest, restAtEnd⟩ :=
      exists_filled rounds inMax atEnd
    rw [isRound]
    generalize buf ++ reader.input = data at *
    by_cases empty : data = []
    · subst empty
      rw [take_nil]
      rfl
    · obtain ⟨positive, inData, cutInMax⟩ := firstCut_bounds valid empty
      have windowPresent : ¬(data.take r.maxSize).isEmpty = true := by
        rw [List.isEmpty_iff, take_eq_nil_iff, not_or]
        exact ⟨Nat.ne_of_gt (maxSize_pos valid), empty⟩
      -- what the round leaves in the buffer and in the reader
      have remains :
          (data.take r.maxSize).drop (firstCut r data) ++ reader'.input =
            data.drop (firstCut r data) := by
        rw [rest, ← drop_append_of_le_length
          (by rw [List.length_take]; omega), take_append_drop]
      have bufferInMax :
          ((data.take r.maxSize).drop (firstCut r data)).length ≤
            r.maxSize := by
        rw [List.length_drop, List.length_take]
        omega
      have fewer :
          ((data.take r.maxSize).drop (firstCut r data) ++
            reader'.input).length < rounds := by
        rw [remains, List.length_drop]
        omega
      obtain ⟨fuel, isLength⟩ : ∃ fuel, data.length = fuel + 1 :=
        Nat.exists_eq_succ_of_ne_zero (by omega)
      rw [if_neg windowPresent, List.take_take, Nat.min_eq_left cutInMax,
        ih bufferInMax restAtEnd fewer, remains, isLength,
        chunks_succ valid empty,
        chunks_eq_of_enough valid le_rfl
          (length_drop_firstCut valid empty (Nat.le_of_eq isLength))]

end Split

/-- A reader's chunks are those of its input. -/
theorem splitReader_eq
    (valid : (Resolved.new opts).validate = .ok ()) (reader : Pieces) :
    splitReader opts reader =
      .ok (chunks (Resolved.new opts) reader.input.length reader.input) := by
  have fromStart :=
    @splitFrom_eq _ valid (reader.input.length + 1) [] false reader
      (Nat.zero_le _) (by simp) (Nat.lt_succ_self _)
  unfold splitReader
  dsimp only
  rw [valid, Checked.ok_bind, fromStart]
  rfl

/-- The chunks of valid options follow the rule, are the input however it is
read, and after a boundary depend on the bytes after it only. -/
theorem splitReader_follows_rule
    (opts : Option ByteOpts)
    (valid : (Resolved.new opts).validate = .ok ()) (reader : Pieces) :
    ∃ pieces, splitReader opts reader = .ok pieces ∧
      pieces.flatten = reader.input ∧
      ∀ front chunk back, pieces = front ++ chunk :: back →
        FollowsRule (Resolved.new opts) chunk back ∧
        ∀ later : Pieces, later.input = back.flatten →
          splitReader opts later = .ok back := by
  refine ⟨_, splitReader_eq valid reader, (flatten_chunks valid le_rfl).1, ?_⟩
  intro front chunk back isSplit
  have fromChunk := chunks_suffix valid le_rfl isSplit
  have fromBack := chunks_suffix valid le_rfl
    (isSplit.trans (append_cons front chunk back))
  constructor
  · exact followsRule_of_chunks valid fromChunk
  · intro later input
    rw [splitReader_eq valid later, input, fromBack]

/-- Sizes for short inputs. -/
def shortSizes : ByteOpts where
  minSize := 64
  maxSize := 128
  normalSize := 65

/-- Bytes that are cut where they have changed. -/
def cutBytes : Bytes := List.replicate 70 0 ++ List.replicate 20 0xaa

theorem splitReader_follows_rule_cutBytes :
    splitReader (some shortSizes) [⟨cutBytes, by decide⟩] =
        .ok [cutBytes.take 74, cutBytes.drop 74] ∧
      FollowsRule (Resolved.new (some shortSizes)) (cutBytes.take 74)
        [cutBytes.drop 74] ∧
      splitReader (some shortSizes) [⟨cutBytes.drop 74, by decide⟩] =
        .ok [cutBytes.drop 74] := by
  have isSplit : splitReader (some shortSizes) [⟨cutBytes, by decide⟩] =
      .ok [cutBytes.take 74, cutBytes.drop 74] := by
    decide +kernel
  obtain ⟨pieces, same, -, follows⟩ :=
    splitReader_follows_rule (some shortSizes) (by decide)
      [⟨cutBytes, by decide⟩]
  obtain rfl := Except.ok.inj (isSplit.symm.trans same)
  obtain ⟨rule, later⟩ := follows [] _ _ rfl
  exact ⟨isSplit, rule, later _ rfl⟩

/-! ## Edits -/

/-- Bytes settle their chunks, up to a window before their end. -/
theorem chunks_common
    (valid : Resolved.validate r = .ok ()) (kept : Bytes) :
    ∃ front : List Bytes,
      kept.length < front.flatten.length + r.maxSize ∧ ∀ more, ∃ rest,
        chunks r (kept ++ more).length (kept ++ more) = front ++ rest := by
  induction sized : kept.length using Nat.strongRecOn generalizing kept with
  | ind size ih =>
    by_cases short : kept.length < r.maxSize
    · exact ⟨[], by simpa [← sized] using short, fun _ => ⟨_, rfl⟩⟩
    · have positive := maxSize_pos valid
      have present : kept ≠ [] := length_pos_iff.mp (by omega)
      obtain ⟨cuts, within, -⟩ := firstCut_bounds valid present
      obtain ⟨front, near, isFront⟩ :=
        ih _ (by rw [List.length_drop]; omega)
          (kept.drop (firstCut r kept)) rfl
      refine ⟨kept.take (firstCut r kept) :: front, ?_, fun more => ?_⟩
      · rw [List.length_drop] at near
        rw [flatten_cons, length_append, List.length_take]
        omega
      · obtain ⟨rest, isRest⟩ := isFront more
        -- The first cut sees a window that lies in the kept bytes.
        have sees : firstCut r (kept ++ more) = firstCut r kept := by
          unfold firstCut
          rw [take_append_of_le_length (not_lt.mp short)]
        refine ⟨rest, ?_⟩
        rw [chunks_eq_of_enough valid le_rfl (Nat.le_succ _),
          chunks_succ valid (append_ne_nil_of_left_ne_nil present _),
          sees, take_append_of_le_length within,
          drop_append_of_le_length within, cons_append, ← isRest]
        congr 1
        exact chunks_eq_of_enough valid (by simp) le_rfl

/-- An edit leaves the chunks before it.  However inputs that start with the
same bytes are read, they share the chunks of all these bytes but fewer than a
chunk may have. -/
theorem splitReader_edit
    (opts : Option ByteOpts)
    (valid : (Resolved.new opts).validate = .ok ()) (kept : Bytes) :
    ∃ front : List Bytes,
      kept.length < front.flatten.length + (Resolved.new opts).maxSize ∧
      ∀ reader : Pieces, kept <+: reader.input →
        ∃ rest, splitReader opts reader = .ok (front ++ rest) := by
  obtain ⟨front, near, isFront⟩ := chunks_common valid kept
  refine ⟨front, near, ?_⟩
  rintro reader ⟨more, isInput⟩
  obtain ⟨rest, isRest⟩ := isFront more
  exact ⟨rest, by rw [splitReader_eq valid, ← isRest, isInput]⟩

/-- A chunk that two inputs share. -/
theorem splitReader_edit_cutBytes :
    ∃ front : List Bytes, front ≠ [] ∧
      (∃ rest, splitReader (some shortSizes)
        [⟨cutBytes ++ cutBytes, by decide⟩, ⟨[1], by decide⟩] =
          .ok (front ++ rest)) ∧
      ∃ rest, splitReader (some shortSizes)
        [⟨cutBytes, by decide⟩, ⟨cutBytes ++ [2, 3], by decide⟩] =
          .ok (front ++ rest) := by
  obtain ⟨front, near, shared⟩ :=
    splitReader_edit (some shortSizes) (by decide) (cutBytes ++ cutBytes)
  refine ⟨front, ?_, shared _ ⟨[1], rfl⟩, shared _ ⟨[2, 3], rfl⟩⟩
  rintro rfl
  exact absurd near (by decide +kernel)

end AmberStore.Chunkers

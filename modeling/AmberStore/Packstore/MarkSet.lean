import AmberStore.Lib.Bitmap
import AmberStore.Packstore.Reader

/-!
# Liveness marks

A mark set holds one bit for each record of the sealed segments it was taken
over, at the record's place in the footer's index, and a map for the keys of the
segments still written to.  Another bit of the same kind says that the links of
an object were followed.
-/

open ByteString Checked Function List

namespace AmberStore.Packstore

variable {crc32c : Bytes → UInt32}

/-- A key's place in a segment's index: the filter first, then the index.  The
search of an accepted footer does not stop short. -/
def SealedSegment.position (hashing : BinaryFuse.Hashing)
    (segment : SealedSegment crc32c) (k : Key) : Option Nat :=
  match BinaryFuse.contains hashing segment.fv.filter (filterKey k) with
  | .ok true =>
    match searchIndexPos segment.fv.fanout (slice segment.mm
        segment.fv.entriesOff
        (segment.fv.entriesOff + segment.fv.entriesLen)) k with
    | .ok found => found
    | .error _ => none
  | _ => none

/-- Where the search ends, the row holds the key. -/
theorem rowKey_of_searchIndexPos
    (found : searchIndexPos fanout rows k = .ok (some position)) :
    rowKey rows position = .ok k.bytes := by
  unfold searchIndexPos at found
  obtain ⟨lo, -, found⟩ := bind_eq_ok_iff.mp found
  obtain ⟨hi, -, found⟩ := bind_eq_ok_iff.mp found
  split_ifs at found
  obtain ⟨low, -, found⟩ := bind_eq_ok_iff.mp found
  split_ifs at found
  · cases found
  · obtain ⟨row, isRow, found⟩ := bind_eq_ok_iff.mp found
    split_ifs at found with differs
    · cases found
    · rw [← Option.some.inj (Except.ok.inj found), isRow, not_not.mp differs]

variable {segment : SealedSegment crc32c}

theorem SealedSegment.rowKey_of_position
    (isPlace : segment.position hashing k = some place) :
    rowKey (slice segment.mm segment.fv.entriesOff
      (segment.fv.entriesOff + segment.fv.entriesLen)) place = .ok k.bytes := by
  unfold position at isPlace
  split at isPlace
  case h_1 =>
    split at isPlace
    case h_1 found isFound =>
      rw [isPlace] at isFound
      exact rowKey_of_searchIndexPos isFound
    case h_2 => cases isPlace
  case h_2 => cases isPlace

/-- A place is one of the index. -/
theorem SealedSegment.position_lt
    (isPlace : segment.position hashing k = some place) :
    place < segment.fv.keyCount := by
  have isRow := rowKey_of_position isPlace
  have length := (Reader.accepted_of_parseFooter segment.parsed).rows.length_eq
  unfold rowKey at isRow
  split_ifs at isRow with inside
  rw [length] at inside
  exact Nat.le_of_mul_le_mul_right inside (by decide)

/-- Different keys have different places. -/
theorem SealedSegment.position_inj
    (isPlace : segment.position hashing k = some place)
    (otherPlace : segment.position hashing other = some place) : k = other := by
  have isRow := rowKey_of_position isPlace
  rw [rowKey_of_position otherPlace, Except.ok.injEq] at isRow
  exact Key.ext isRow.symm

/-! ## The set -/

/-- Where a key is found. -/
inductive Loc
  | active
  | inSealed (seg pos : Nat)
  deriving DecidableEq, Repr

/-- A mark over a snapshot of a store. -/
structure MarkSet (crc32c : Bytes → UInt32) where
  segs : List (SealedSegment crc32c)
  bits : List (List UInt64)
  /-- The keys of segments still written to, and whether they are marked. -/
  active : Key → Option Bool
  marked : Nat
  /-- The bits of what was followed; a bitmap is allocated when first used. -/
  walked : List (List UInt64)
  activeWalked : Key → Bool
  bitsSized : List.Forall₂ (fun segment words =>
    words.length = Bitmap.wordCount segment.fv.keyCount) segs bits
  walkedSized : List.Forall₂ (fun segment words => words = [] ∨
    words.length = Bitmap.wordCount segment.fv.keyCount) segs walked

namespace MarkSet

/-- An unmarked set over sealed segments and the keys of the others. -/
def new (segs : List (SealedSegment crc32c)) (active : List Key) :
    MarkSet crc32c where
  segs := segs
  bits := segs.map fun segment =>
    List.replicate (Bitmap.wordCount segment.fv.keyCount) 0
  active k := if k ∈ active then some false else none
  marked := 0
  walked := segs.map fun _ => []
  activeWalked _ := false
  bitsSized := by simp [List.forall₂_map_right_iff, List.forall₂_same]
  walkedSized := by
    rw [List.forall₂_map_right_iff, List.forall₂_same]
    exact fun _ _ => .inl rfl

variable (hashing : BinaryFuse.Hashing) (live : MarkSet crc32c)

/-- Finds a key newest first, as the read path does. -/
def locate (k : Key) : Option Loc :=
  if (live.active k).isSome then some .active
  else live.segs.zipIdx.reverse.findSome? fun (segment, i) =>
    (segment.position hashing k).map (.inSealed i)

/-- Changing one bitmap keeps the sizes. -/
theorem forall₂_set
    {segs : List (SealedSegment crc32c)}
    (all : List.Forall₂ sized segs maps)
    (isSized : ∀ segment, segs[seg]? = some segment → sized segment words) :
    List.Forall₂ sized segs (maps.set seg words) := by
  rw [List.forall₂_iff_get] at all ⊢
  obtain ⟨sameLength, each⟩ := all
  refine ⟨by simpa using sameLength, fun i inSegs inMaps => ?_⟩
  simp only [get_eq_getElem, getElem_set]
  split
  case isTrue same =>
    subst same
    exact isSized _ (getElem?_eq_getElem inSegs)
  case isFalse =>
    exact each i inSegs (by simpa using inMaps)

theorem length_bits
    (isSegment : live.segs[seg]? = some segment) :
    (live.bits.getD seg []).length = Bitmap.wordCount segment.fv.keyCount := by
  obtain ⟨inside, rfl⟩ := List.getElem?_eq_some_iff.mp isSegment
  obtain ⟨sameLength, each⟩ := List.forall₂_iff_get.mp live.bitsSized
  rw [getD_eq_getElem _ _ (sameLength ▸ inside)]
  exact each seg inside (sameLength ▸ inside)

/-- Marks a key: whether it was unmarked before, and whether it is there at
all. -/
def mark (k : Key) : (Bool × Bool) × MarkSet crc32c :=
  match live.locate hashing k with
  | none => ((false, false), live)
  | some .active =>
    let newly := !(live.active k).getD false
    ((newly, true), { live with
      active := update live.active k (some true)
      marked := if newly then live.marked + 1 else live.marked })
  | some (.inSealed seg pos) =>
    let words := live.bits.getD seg []
    let newly := !Bitmap.test words pos
    ((newly, true), { live with
      bits := live.bits.set seg (Bitmap.put words pos)
      marked := if newly then live.marked + 1 else live.marked
      bitsSized := forall₂_set live.bitsSized fun segment isSegment => by
        rw [Bitmap.length_put, live.length_bits isSegment] })

/-- The bitmap of what was followed, allocated if it was not. -/
def walkedWords (seg : Nat) : List UInt64 :=
  let walked := live.walked.getD seg []
  if walked.isEmpty then List.replicate (live.bits.getD seg []).length 0
  else walked

theorem length_walkedWords
    (isSegment : live.segs[seg]? = some segment) :
    (live.walkedWords seg).length = Bitmap.wordCount segment.fv.keyCount := by
  unfold walkedWords
  dsimp only
  split
  case isTrue => rw [length_replicate, live.length_bits isSegment]
  case isFalse notEmpty =>
    obtain ⟨inside, rfl⟩ := List.getElem?_eq_some_iff.mp isSegment
    obtain ⟨sameLength, each⟩ := List.forall₂_iff_get.mp live.walkedSized
    have sized := each seg inside (sameLength ▸ inside)
    rw [getD_eq_getElem _ _ (sameLength ▸ inside)] at notEmpty ⊢
    exact sized.resolve_left fun isEmpty => notEmpty (by
      simpa using isEmpty)

/-- Records that a walk follows a key's links: whether it is the first to. -/
def markWalked (k : Key) : Bool × MarkSet crc32c :=
  match live.locate hashing k with
  | none => (false, live)
  | some .active =>
    (!live.activeWalked k, { live with
      activeWalked := update live.activeWalked k true })
  | some (.inSealed seg pos) =>
    let words := live.walkedWords seg
    (!Bitmap.test words pos, { live with
      walked := live.walked.set seg (Bitmap.put words pos)
      walkedSized := forall₂_set live.walkedSized fun segment isSegment =>
        .inr (by rw [Bitmap.length_put, live.length_walkedWords isSegment]) })

/-- Whether a key is marked. -/
def contains (k : Key) : Bool :=
  match live.locate hashing k with
  | none => false
  | some .active => (live.active k).getD false
  | some (.inSealed seg pos) => Bitmap.test (live.bits.getD seg []) pos

/-- Whether a key's links were followed. -/
def hasWalked (k : Key) : Bool :=
  match live.locate hashing k with
  | none => false
  | some .active => live.activeWalked k
  | some (.inSealed seg pos) => Bitmap.test (live.walked.getD seg []) pos

/-! ## What marking does -/

variable {hashing live}

theorem locate_eq_inSealed
    (isLoc : live.locate hashing k = some (.inSealed seg pos)) :
    ∃ segment, live.segs[seg]? = some segment ∧
      segment.position hashing k = some pos := by
  unfold locate at isLoc
  split at isLoc
  case isTrue => cases isLoc
  case isFalse =>
    obtain ⟨⟨segment, i⟩, isIn, found⟩ := exists_of_findSome?_eq_some isLoc
    obtain ⟨place, isPlace, same⟩ := Option.map_eq_some_iff.mp found
    obtain ⟨rfl, rfl⟩ := Loc.inSealed.inj same
    have isSegment := mk_mem_zipIdx_iff_getElem?.mp (mem_reverse.mp isIn)
    exact ⟨segment, isSegment, isPlace⟩

/-- Two keys are not found in one place. -/
theorem eq_of_locate_eq
    (isLoc : live.locate hashing k = some (.inSealed seg pos))
    (otherLoc : live.locate hashing other = some (.inSealed seg pos)) :
    k = other := by
  obtain ⟨segment, isSegment, isPlace⟩ := locate_eq_inSealed isLoc
  obtain ⟨found, isFound, otherPlace⟩ := locate_eq_inSealed otherLoc
  rw [isSegment, Option.some.injEq] at isFound
  subst isFound
  exact SealedSegment.position_inj isPlace otherPlace

theorem locate_eq_active
    (isLoc : live.locate hashing k = some .active) :
    ∃ marked, live.active k = some marked := by
  unfold locate at isLoc
  split at isLoc
  case isTrue isActive => exact Option.isSome_iff_exists.mp isActive
  case isFalse =>
    obtain ⟨⟨segment, i⟩, -, found⟩ := exists_of_findSome?_eq_some isLoc
    obtain ⟨place, -, same⟩ := Option.map_eq_some_iff.mp found
    cases same

/-- Keys are found where they were as long as the same keys are there. -/
theorem locate_congr
    {after : MarkSet crc32c} (sameSegs : after.segs = live.segs)
    (sameActive : ∀ k, (after.active k).isSome = (live.active k).isSome)
    (k : Key) : after.locate hashing k = live.locate hashing k := by
  unfold locate
  rw [sameSegs, sameActive]

theorem isSome_update
    {marked : Bool} (isActive : live.active k = some marked)
    (other : Key) :
    (update live.active k (some true) other).isSome =
      (live.active other).isSome := by
  by_cases same : other = k
  · subst same
    rw [update_self, isActive]
    rfl
  · rw [update_of_ne same]

theorem locate_mark (k other : Key) :
    (live.mark hashing k).2.locate hashing other =
      live.locate hashing other := by
  unfold mark
  split
  case h_1 => rfl
  case h_2 isLoc =>
    obtain ⟨marked, isActive⟩ := locate_eq_active isLoc
    apply locate_congr
    · rfl
    · exact isSome_update isActive
  case h_3 => exact locate_congr rfl (fun _ => rfl) other

theorem locate_markWalked (k other : Key) :
    (live.markWalked hashing k).2.locate hashing other =
      live.locate hashing other := by
  unfold markWalked
  split <;> exact locate_congr rfl (fun _ => rfl) other

/-- One bitmap of several is changed. -/
theorem getD_set
    (maps : List (List UInt64)) (words : List UInt64)
    (inside : seg < maps.length) (other : Nat) :
    (maps.set seg words).getD other [] =
      if other = seg then words else maps.getD other [] := by
  rw [getD_eq_getElem?_getD, getElem?_set]
  by_cases same : other = seg
  · simp [same, inside]
  · simp [same, Ne.symm same]

theorem lt_length_of_segment
    (all : List.Forall₂ sized live.segs maps)
    (isSegment : live.segs[seg]? = some segment) : seg < maps.length := by
  rw [← all.length_eq]
  exact (List.getElem?_eq_some_iff.mp isSegment).1

/-- The flag of a key at the place where it is found. -/
def flagAt (active : Key → Bool) (maps : List (List UInt64)) (k : Key) :
    Option Loc → Bool
  | none => false
  | some .active => active k
  | some (.inSealed seg pos) => Bitmap.test (maps.getD seg []) pos

/-- A key of a segment still written to is flagged in the map. -/
theorem flagAt_update
    {active : Key → Bool}
    (isLoc : live.locate hashing k = some .active) (other : Key) :
    flagAt (update active k true) maps other
        (live.locate hashing other) = true ↔
      other = k ∨
        flagAt active maps other (live.locate hashing other) = true := by
  by_cases same : other = k
  · subst same
    simp [isLoc, flagAt]
  · unfold flagAt
    rw [update_of_ne same]
    simp [same]

/-- A key of a sealed segment is flagged at its place, which is no other
key's. -/
theorem flagAt_put
    {active : Key → Bool}
    (isLoc : live.locate hashing k = some (.inSealed seg pos))
    (inMaps : seg < maps.length) (inWords : pos / 64 < words.length)
    (sameTest : ∀ place, Bitmap.test words place =
      Bitmap.test (maps.getD seg []) place) (other : Key) :
    flagAt active (maps.set seg (Bitmap.put words pos)) other
        (live.locate hashing other) = true ↔
      other = k ∨
        flagAt active maps other (live.locate hashing other) = true := by
  by_cases same : other = k
  · subst same
    rw [isLoc]
    simp [flagAt, inMaps, Bitmap.test_put inWords]
  · unfold flagAt
    split
    case h_1 | h_2 => simp [same]
    case h_3 otherSeg otherPos otherLoc =>
      rw [getD_set maps _ inMaps]
      split
      case isTrue sameSeg =>
        have elsewhere : otherPos ≠ pos := by
          rintro rfl
          exact same (eq_of_locate_eq otherLoc (sameSeg ▸ isLoc))
        rw [Bitmap.test_put inWords, sameTest, sameSeg]
        simp [same, elsewhere]
      case isFalse => simp [same]

theorem getD_update (active : Key → Option Bool) (k : Key) :
    (fun other => (update active k (some true) other).getD false) =
      update (fun other => (active other).getD false) k true := by
  funext other
  by_cases same : other = k
  · subst same
    simp
  · simp [same]

theorem contains_eq_flagAt (k : Key) :
    live.contains hashing k = flagAt (fun k => (live.active k).getD false)
      live.bits k (live.locate hashing k) := by
  unfold contains flagAt
  rfl

theorem hasWalked_eq_flagAt (k : Key) :
    live.hasWalked hashing k =
      flagAt live.activeWalked live.walked k (live.locate hashing k) := by
  unfold hasWalked flagAt
  rfl

/-- Marking adds the key if it is there, and no other. -/
theorem contains_mark (k other : Key) :
    (live.mark hashing k).2.contains hashing other = true ↔
      (other = k ∧ (live.locate hashing k).isSome = true) ∨
        live.contains hashing other = true := by
  rw [contains_eq_flagAt, contains_eq_flagAt, locate_mark]
  unfold mark
  cases isLoc : live.locate hashing k with
  | none => simp
  | some loc =>
    cases loc with
    | active =>
      dsimp only
      rw [getD_update, flagAt_update isLoc]
      simp
    | inSealed seg pos =>
      obtain ⟨segment, isSegment, isPlace⟩ := locate_eq_inSealed isLoc
      have inWords : pos / 64 < (live.bits.getD seg []).length := by
        rw [live.length_bits isSegment]
        exact Bitmap.lt_wordCount (SealedSegment.position_lt isPlace)
      dsimp only
      rw [flagAt_put isLoc (lt_length_of_segment live.bitsSized isSegment)
        inWords fun _ => rfl]
      simp

/-- A key is newly marked if it is there and was not. -/
theorem mark_fst (k : Key) :
    (live.mark hashing k).1 =
      ((live.locate hashing k).isSome && !live.contains hashing k,
        (live.locate hashing k).isSome) := by
  unfold mark contains
  cases isLoc : live.locate hashing k with
  | none => rfl
  | some loc => cases loc <;> simp

/-- Marking follows no links. -/
theorem hasWalked_mark (k other : Key) :
    (live.mark hashing k).2.hasWalked hashing other =
      live.hasWalked hashing other := by
  unfold hasWalked
  rw [locate_mark]
  unfold mark
  cases live.locate hashing k with
  | none => rfl
  | some loc => cases loc <;> rfl

/-- Following links marks nothing. -/
theorem contains_markWalked (k other : Key) :
    (live.markWalked hashing k).2.contains hashing other =
      live.contains hashing other := by
  unfold contains
  rw [locate_markWalked]
  unfold markWalked
  cases live.locate hashing k with
  | none => rfl
  | some loc => cases loc <;> rfl

/-- A bitmap that is allocated when first used is empty before that. -/
theorem test_walkedWords (seg place : Nat) :
    Bitmap.test (live.walkedWords seg) place =
      Bitmap.test (live.walked.getD seg []) place := by
  unfold walkedWords
  dsimp only
  split
  case isTrue isEmpty =>
    rw [isEmpty_iff.mp isEmpty, Bitmap.test_replicate]
    exact (Bitmap.test_replicate 0 place).symm
  case isFalse => rfl

/-- Recording that links are followed adds the key if it is there, and no
other. -/
theorem hasWalked_markWalked (k other : Key) :
    (live.markWalked hashing k).2.hasWalked hashing other = true ↔
      (other = k ∧ (live.locate hashing k).isSome = true) ∨
        live.hasWalked hashing other = true := by
  rw [hasWalked_eq_flagAt, hasWalked_eq_flagAt, locate_markWalked]
  unfold markWalked
  cases isLoc : live.locate hashing k with
  | none => simp
  | some loc =>
    cases loc with
    | active =>
      dsimp only
      rw [flagAt_update isLoc]
      simp
    | inSealed seg pos =>
      obtain ⟨segment, isSegment, isPlace⟩ := locate_eq_inSealed isLoc
      have inWords : pos / 64 < (live.walkedWords seg).length := by
        rw [live.length_walkedWords isSegment]
        exact Bitmap.lt_wordCount (SealedSegment.position_lt isPlace)
      dsimp only
      rw [flagAt_put isLoc (lt_length_of_segment live.walkedSized isSegment)
        inWords (test_walkedWords seg)]
      simp

/-- A key's links are first followed if it is there and they were not. -/
theorem markWalked_fst (k : Key) :
    (live.markWalked hashing k).1 =
      ((live.locate hashing k).isSome && !live.hasWalked hashing k) := by
  unfold markWalked hasWalked
  cases isLoc : live.locate hashing k with
  | none => rfl
  | some loc => cases loc <;> simp [test_walkedWords]

/-- Nothing is marked or followed at first. -/
theorem contains_new
    (segs : List (SealedSegment crc32c)) (active : List Key) (k : Key) :
    (new segs active).contains hashing k = false ∧
      (new segs active).hasWalked hashing k = false := by
  have noBits : ∀ (counts : SealedSegment crc32c → Nat) (seg pos : Nat),
      Bitmap.test ((segs.map fun segment =>
        List.replicate (counts segment) (0 : UInt64)).getD seg []) pos =
          false := by
    intro counts seg pos
    rw [getD_eq_getElem?_getD, getElem?_map]
    cases segs[seg]? with
    | none => exact Bitmap.test_replicate 0 pos
    | some segment => exact Bitmap.test_replicate _ pos
  have noActive : ((new segs active).active k).getD false = false := by
    simp only [new]
    split <;> rfl
  constructor
  · unfold contains
    split
    case h_1 => rfl
    case h_2 => exact noActive
    case h_3 seg pos _ => exact noBits _ seg pos
  · unfold hasWalked
    split
    case h_1 | h_2 => rfl
    case h_3 seg pos _ => exact noBits (fun _ => 0) seg pos

end MarkSet

end AmberStore.Packstore

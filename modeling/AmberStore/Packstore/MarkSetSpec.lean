import AmberStore.Packstore.MarkSet

/-!
# A mark set is a set

However often keys are marked and followed, a mark set answers as the set of the
keys that were marked and are there, and the set of those that were followed and
are there.  Keys that are there have a place each, so no key answers for
another; a key in several segments is always found in the newest.
-/

open ByteString List

namespace AmberStore.Packstore.MarkSet

variable {crc32c : Bytes → UInt32} (hashing : BinaryFuse.Hashing)

/-! ## Keys that are there -/

/-- The segment's filter and index find the key. -/
def Holds (segment : SealedSegment crc32c) (k : Key) : Prop :=
  BinaryFuse.contains hashing segment.fv.filter (filterKey k) = .ok true ∧
    ∃ pos, searchIndexPos segment.fv.fanout (slice segment.mm
      segment.fv.entriesOff
      (segment.fv.entriesOff + segment.fv.entriesLen)) k = .ok (some pos)

/-- The read path finds the key in a snapshot. -/
def Present (segs : List (SealedSegment crc32c)) (active : List Key)
    (k : Key) : Prop :=
  k ∈ active ∨ ∃ segment ∈ segs, Holds hashing segment k

/-- Neither the filter nor the index of an accepted footer stops short. -/
theorem search_total (segment : SealedSegment crc32c) (k : Key) :
    (∃ maybe, BinaryFuse.contains hashing segment.fv.filter (filterKey k) =
      .ok maybe) ∧
    ∃ found, searchIndexPos segment.fv.fanout (slice segment.mm
      segment.fv.entriesOff
      (segment.fv.entriesOff + segment.fv.entriesLen)) k = .ok found := by
  have accepted := Reader.accepted_of_parseFooter segment.parsed
  obtain ⟨maybe, -, isMaybe⟩ := Reader.contains_eq accepted hashing (filterKey k)
  obtain ⟨found, -, isFound, -⟩ :=
    Reader.searchIndexPos_eq accepted.table accepted.rows k
  exact ⟨⟨maybe, isMaybe⟩, found, isFound⟩

theorem isSome_position_iff (segment : SealedSegment crc32c) (k : Key) :
    (segment.position hashing k).isSome ↔ Holds hashing segment k := by
  obtain ⟨⟨maybe, isMaybe⟩, found, isFound⟩ := search_total hashing segment k
  unfold SealedSegment.position Holds
  rw [isMaybe, isFound]
  cases maybe with
  | false => simp
  | true => simp [Option.isSome_iff_exists]

theorem isSome_locate_new_iff
    (segs : List (SealedSegment crc32c)) (active : List Key) (k : Key) :
    ((new segs active).locate hashing k).isSome ↔
      Present hashing segs active k := by
  unfold locate Present
  have isActive : ((new segs active).active k).isSome ↔ k ∈ active := by
    simp only [new]
    split <;> simp [*]
  by_cases inActive : k ∈ active
  · rw [if_pos (isActive.mpr inActive)]
    simp [inActive]
  · rw [if_neg (mt isActive.mp inActive), isSome_findSome?, any_reverse]
    simp [inActive, new, ← isSome_position_iff, any_eq_true, mem_iff_getElem?]

/-! ## Calls -/

/-- A call that changes a mark set. -/
inductive Call
  | mark (k : Key)
  | markWalked (k : Key)
  deriving DecidableEq

/-- The key of a call. -/
def Call.key : Call → Key
  | mark k => k
  | markWalked k => k

/-- What a call leaves behind. -/
def apply (live : MarkSet crc32c) : Call → MarkSet crc32c
  | .mark k => (live.mark hashing k).2
  | .markWalked k => (live.markWalked hashing k).2

/-- What a sequence of calls leaves behind. -/
def run (live : MarkSet crc32c) (calls : List Call) : MarkSet crc32c :=
  calls.foldl (apply hashing) live

/-- The keys that calls mark. -/
def markedBy (calls : List Call) : List Key :=
  calls.filterMap fun
    | .mark k => some k
    | .markWalked _ => none

theorem mem_markedBy_iff :
    k ∈ markedBy calls ↔ .mark k ∈ calls := by
  unfold markedBy
  rw [mem_filterMap]
  constructor
  · rintro ⟨call, isCall, isKey⟩
    cases call with
    | mark other =>
      obtain rfl := Option.some.inj isKey
      exact isCall
    | markWalked other => cases isKey
  · intro isCall
    exact ⟨_, isCall, rfl⟩

/-- Marking counts a key that is new. -/
theorem marked_mark (live : MarkSet crc32c) (k : Key) :
    (live.mark hashing k).2.marked =
      if (live.mark hashing k).1.1 then live.marked + 1 else live.marked := by
  unfold mark
  split <;> rfl

theorem marked_markWalked (live : MarkSet crc32c) (k : Key) :
    (live.markWalked hashing k).2.marked = live.marked := by
  unfold markWalked
  split <;> rfl

/-! ## The refinement -/

section Snapshot

variable (segs : List (SealedSegment crc32c)) (active : List Key)

/-- The keys that calls mark and that are there. -/
def markedKeys (calls : List Call) : Finset Key :=
  (markedBy calls).toFinset.filter fun k =>
    ((new segs active).locate hashing k).isSome

variable {segs active}

theorem mem_markedKeys_iff :
    k ∈ markedKeys hashing segs active calls ↔
      Present hashing segs active k ∧ .mark k ∈ calls := by
  rw [markedKeys, Finset.mem_filter, mem_toFinset, mem_markedBy_iff,
    isSome_locate_new_iff, and_comm]

theorem markedKeys_mark_of_present
    (there : Present hashing segs active k) (calls : List Call) :
    markedKeys hashing segs active (calls ++ [.mark k]) =
      insert k (markedKeys hashing segs active calls) := by
  ext other
  rw [Finset.mem_insert, mem_markedKeys_iff, mem_markedKeys_iff,
    mem_append, mem_singleton, Call.mark.injEq]
  constructor
  · rintro ⟨isThere, isOld | rfl⟩
    · exact Or.inr ⟨isThere, isOld⟩
    · exact Or.inl rfl
  · rintro (rfl | ⟨isThere, isOld⟩)
    · exact ⟨there, Or.inr rfl⟩
    · exact ⟨isThere, Or.inl isOld⟩

theorem markedKeys_mark_of_not_present
    (notThere : ¬Present hashing segs active k) (calls : List Call) :
    markedKeys hashing segs active (calls ++ [.mark k]) =
      markedKeys hashing segs active calls := by
  ext other
  rw [mem_markedKeys_iff, mem_markedKeys_iff, mem_append,
    mem_singleton, Call.mark.injEq]
  constructor
  · rintro ⟨isThere, isOld | rfl⟩
    · exact ⟨isThere, isOld⟩
    · exact absurd isThere notThere
  · rintro ⟨isThere, isOld⟩
    exact ⟨isThere, Or.inl isOld⟩

theorem markedKeys_markWalked (calls : List Call) (k : Key) :
    markedKeys hashing segs active (calls ++ [.markWalked k]) =
      markedKeys hashing segs active calls := by
  ext other
  rw [mem_markedKeys_iff, mem_markedKeys_iff, mem_append]
  simp

variable (segs active)

/-- The set answers for the calls that were made. -/
structure Represents (live : MarkSet crc32c) (calls : List Call) : Prop where
  present_iff : ∀ k, (live.locate hashing k).isSome ↔
    Present hashing segs active k
  contains_iff : ∀ k, live.contains hashing k = true ↔
    Present hashing segs active k ∧ .mark k ∈ calls
  hasWalked_iff : ∀ k, live.hasWalked hashing k = true ↔
    Present hashing segs active k ∧ .markWalked k ∈ calls
  marked_eq : live.marked = (markedKeys hashing segs active calls).card

theorem represents_new :
    Represents hashing segs active (new segs active) [] where
  present_iff := isSome_locate_new_iff hashing segs active
  contains_iff k := by simp [(contains_new segs active k).1]
  hasWalked_iff k := by simp [(contains_new segs active k).2]
  marked_eq := by
    change 0 = _
    rw [eq_comm, Finset.card_eq_zero, Finset.eq_empty_iff_forall_notMem]
    intro k isMarked
    cases ((mem_markedKeys_iff hashing).mp isMarked).2

variable {hashing segs active} {live : MarkSet crc32c} {calls : List Call}

namespace Represents

variable (represents : Represents hashing segs active live calls)

include represents

theorem mark_fst_iff (k : Key) :
    ((live.mark hashing k).1.1 = true ↔
      Present hashing segs active k ∧ .mark k ∉ calls) ∧
    ((live.mark hashing k).1.2 = true ↔ Present hashing segs active k) := by
  rw [mark_fst, Bool.and_eq_true, Bool.not_eq_true', ← Bool.not_eq_true,
    represents.present_iff, represents.contains_iff]
  exact ⟨⟨fun ⟨there, notMarked⟩ =>
    ⟨there, fun isMarked => notMarked ⟨there, isMarked⟩⟩,
    fun ⟨there, notMarked⟩ => ⟨there, fun isMarked => notMarked isMarked.2⟩⟩,
    Iff.rfl⟩

theorem markWalked_fst_iff (k : Key) :
    (live.markWalked hashing k).1 = true ↔
      Present hashing segs active k ∧ .markWalked k ∉ calls := by
  rw [markWalked_fst, Bool.and_eq_true, Bool.not_eq_true', ← Bool.not_eq_true,
    represents.present_iff, represents.hasWalked_iff]
  exact ⟨fun ⟨there, notWalked⟩ =>
    ⟨there, fun isWalked => notWalked ⟨there, isWalked⟩⟩,
    fun ⟨there, notWalked⟩ => ⟨there, fun isWalked => notWalked isWalked.2⟩⟩

/-- Marking is adding to the set of the marked. -/
theorem mark (k : Key) :
    Represents hashing segs active (live.mark hashing k).2
      (calls ++ [.mark k]) where
  present_iff other := by rw [locate_mark, represents.present_iff]
  contains_iff other := by
    rw [contains_mark, represents.present_iff, represents.contains_iff,
      mem_append, mem_singleton, Call.mark.injEq]
    constructor
    · rintro (⟨rfl, there⟩ | ⟨there, isOld⟩)
      · exact ⟨there, Or.inr rfl⟩
      · exact ⟨there, Or.inl isOld⟩
    · rintro ⟨there, isOld | rfl⟩
      · exact Or.inr ⟨there, isOld⟩
      · exact Or.inl ⟨rfl, there⟩
  hasWalked_iff other := by
    rw [hasWalked_mark, represents.hasWalked_iff, mem_append]
    simp
  marked_eq := by
    rw [marked_mark, represents.marked_eq]
    by_cases isNew : Present hashing segs active k ∧ .mark k ∉ calls
    · rw [if_pos ((represents.mark_fst_iff k).1.mpr isNew),
        markedKeys_mark_of_present hashing isNew.1, Finset.card_insert_of_notMem]
      exact fun isMarked => isNew.2 ((mem_markedKeys_iff hashing).mp isMarked).2
    · rw [if_neg (mt (represents.mark_fst_iff k).1.mp isNew)]
      by_cases there : Present hashing segs active k
      · rw [markedKeys_mark_of_present hashing there, Finset.insert_eq_of_mem]
        exact (mem_markedKeys_iff hashing).mpr
          ⟨there, not_not.mp fun absent => isNew ⟨there, absent⟩⟩
      · rw [markedKeys_mark_of_not_present hashing there]

/-- Following links is adding to the set of the followed. -/
theorem markWalked (k : Key) :
    Represents hashing segs active (live.markWalked hashing k).2
      (calls ++ [.markWalked k]) where
  present_iff other := by rw [locate_markWalked, represents.present_iff]
  contains_iff other := by
    rw [contains_markWalked, represents.contains_iff, mem_append]
    simp
  hasWalked_iff other := by
    rw [hasWalked_markWalked, represents.present_iff, represents.hasWalked_iff,
      mem_append, mem_singleton, Call.markWalked.injEq]
    constructor
    · rintro (⟨rfl, there⟩ | ⟨there, isOld⟩)
      · exact ⟨there, Or.inr rfl⟩
      · exact ⟨there, Or.inl isOld⟩
    · rintro ⟨there, isOld | rfl⟩
      · exact Or.inr ⟨there, isOld⟩
      · exact Or.inl ⟨rfl, there⟩
  marked_eq := by
    rw [marked_markWalked, markedKeys_markWalked, represents.marked_eq]

end Represents

variable (hashing segs active)

/-- A mark set answers for every sequence of calls. -/
theorem represents_run (calls : List Call) :
    Represents hashing segs active (run hashing (new segs active) calls)
      calls := by
  induction calls using List.reverseRecOn with
  | nil => exact represents_new hashing segs active
  | append_singleton calls call ih =>
    rw [run, foldl_append, foldl_cons, foldl_nil]
    cases call with
    | mark k => exact ih.mark k
    | markWalked k => exact ih.markWalked k

variable {hashing}

theorem contains_apply_of_ne
    (live : MarkSet crc32c) (other : call.key ≠ k) :
    (apply hashing live call).contains hashing k = live.contains hashing k := by
  cases call with
  | mark marked =>
    rw [Bool.eq_iff_iff, apply, contains_mark]
    exact or_iff_right fun same => other same.1.symm
  | markWalked walked => exact contains_markWalked walked k

theorem hasWalked_apply_of_ne
    (live : MarkSet crc32c) (other : call.key ≠ k) :
    (apply hashing live call).hasWalked hashing k =
      live.hasWalked hashing k := by
  cases call with
  | mark marked => exact hasWalked_mark marked k
  | markWalked walked =>
    rw [Bool.eq_iff_iff, apply, hasWalked_markWalked]
    exact or_iff_right fun same => other same.1.symm

theorem locate_apply (live : MarkSet crc32c) (call : Call) (k : Key) :
    (apply hashing live call).locate hashing k = live.locate hashing k := by
  cases call with
  | mark other => exact locate_mark other k
  | markWalked other => exact locate_markWalked other k

variable (hashing)

/-- After any calls, a key is contained if it is there and was marked, marking
reports it new the first time only, the count is of the keys there that were
marked, following reports the first time only, and no call touches what is
answered for another key. -/
theorem markSet_refines_set (calls : List Call) :
    let live := run hashing (new segs active) calls
    (∀ k, live.contains hashing k = true ↔
      Present hashing segs active k ∧ .mark k ∈ calls) ∧
    (∀ k, ((live.mark hashing k).1.1 = true ↔
        Present hashing segs active k ∧ .mark k ∉ calls) ∧
      ((live.mark hashing k).1.2 = true ↔ Present hashing segs active k)) ∧
    (∃ marked : Finset Key,
      (∀ k, k ∈ marked ↔ Present hashing segs active k ∧ .mark k ∈ calls) ∧
        live.marked = marked.card) ∧
    (∀ k, (live.markWalked hashing k).1 = true ↔
      Present hashing segs active k ∧ .markWalked k ∉ calls) ∧
    ∀ call k, call.key ≠ k →
      (apply hashing live call).contains hashing k = live.contains hashing k ∧
      ((apply hashing live call).mark hashing k).1 = (live.mark hashing k).1 ∧
      ((apply hashing live call).markWalked hashing k).1 =
        (live.markWalked hashing k).1 := by
  intro live
  have represents := represents_run hashing segs active calls
  refine ⟨represents.contains_iff, represents.mark_fst_iff,
    ⟨_, fun k => mem_markedKeys_iff hashing, represents.marked_eq⟩,
    represents.markWalked_fst_iff, ?_⟩
  intro call k other
  rw [mark_fst, mark_fst, markWalked_fst, markWalked_fst, locate_apply,
    contains_apply_of_ne live other, hasWalked_apply_of_ne live other]
  exact ⟨rfl, rfl, rfl⟩

end Snapshot

end AmberStore.Packstore.MarkSet

import AmberStore.Fstree.WalkSpec
import AmberStore.Gc.Mark

/-!
# What the collector's walks meet

The mark set holds what the mark met; a git key is known to be sent by its
second bit, and any other key by its first, because all links to it agree.  The
search for a key meets the same objects until it finds the key.
-/

open ByteString List

namespace AmberStore.Gc

open Fstree (objectGraph rootLinks linkTo isLeafKey Honest)
open Gitobj (Link)
open LeafWalk
open Packstore (MarkSet SealedSegment)

variable {ε : Type}

theorem readLinks_eq_ok_iff
    {get : Key → Except ε Bytes} :
    readLinks get k = .ok found ↔ (objectGraph get).out k = some found := by
  rw [Fstree.objectGraph_out, readLinks, Checked.bind_eq_ok_iff]
  simp only [Checked.mapError_eq_ok_iff]

/-! ## The mark -/

section Mark

variable {crc32c : Bytes → UInt32} (hashing : BinaryFuse.Hashing)

/-- The keys that are marked. -/
def marked (live : MarkSet crc32c) : Set Key :=
  {k | live.contains hashing k = true}

/-- The keys that were sent to be followed. -/
def walked (live : MarkSet crc32c) : Set Key :=
  {k | if k.type_ = some .gitSha1 then live.hasWalked hashing k = true
    else live.contains hashing k = true ∧ isLeafKey k = false}

variable {hashing} {get : Key → Except ε Bytes} {live : MarkSet crc32c}

theorem marked_mark
    (present : (live.mark hashing k).1.2 = true) :
    marked hashing (live.mark hashing k).2 = insert k (marked hashing live) := by
  rw [MarkSet.mark_fst] at present
  ext other
  simp only [marked, Set.mem_ofPred_eq, Set.mem_insert_iff,
    MarkSet.contains_mark]
  have isThere : (live.locate hashing k).isSome = true := present
  simp [isThere]

/-- Marking a leaf, or a git key, sends nothing. -/
theorem walked_mark
    (noMore : k.type_ = some .gitSha1 ∨ isLeafKey k = true) :
    walked hashing (live.mark hashing k).2 = walked hashing live := by
  ext other
  simp only [walked, Set.mem_ofPred_eq, MarkSet.hasWalked_mark,
    MarkSet.contains_mark]
  split
  case isTrue => rfl
  case isFalse notGit =>
    have different : ¬(other = k ∧ isLeafKey other = false) := by
      rintro ⟨rfl, notLeaf⟩
      rcases noMore with isGit | isLeaf
      · exact notGit isGit
      · exact Bool.false_ne_true (notLeaf.symm.trans isLeaf)
    tauto

/-- Whether a key was sent, told from its own bit. -/
theorem mem_walked_of_git (isGit : k.type_ = some .gitSha1) :
    k ∈ walked hashing live ↔ live.hasWalked hashing k = true := by
  simp [walked, isGit]

theorem mem_walked_of_inner
    (notGit : k.type_ ≠ some .gitSha1) (inner : isLeafKey k = false) :
    k ∈ walked hashing live ↔ live.contains hashing k = true := by
  simp [walked, notGit, inner]

/-- What comes of marking a key that no link calls a leaf, and of asking
whether to follow it. -/
theorem enter_mark
    (present : (live.mark hashing k).1.2 = true)
    (inner : k.type_ = some .gitSha1 ∨ isLeafKey k = false) :
    let entered := enter hashing (live.mark hashing k).2
      (live.mark hashing k).1.1 k
    marked hashing entered.2 = insert k (marked hashing live) ∧
      walked hashing entered.2 = insert k (walked hashing live) ∧
      (entered.1 = true ↔ k ∉ walked hashing live) := by
  have isThere : (live.locate hashing k).isSome = true := by
    rw [MarkSet.mark_fst] at present
    exact present
  have isMarked := marked_mark present
  unfold enter
  split
  case isTrue isGit =>
    refine ⟨?_, ?_, ?_⟩
    · rw [← isMarked]
      ext other
      simp [marked, MarkSet.contains_markWalked]
    · have unsent : walked hashing (live.mark hashing k).2 =
          walked hashing live := walked_mark (.inl isGit)
      rw [← unsent]
      ext other
      simp only [walked, Set.mem_ofPred_eq, Set.mem_insert_iff,
        MarkSet.contains_markWalked, MarkSet.hasWalked_markWalked,
        MarkSet.locate_mark]
      by_cases same : other = k
      · subst same
        simp [isGit, isThere]
      · simp [same]
    · rw [mem_walked_of_git isGit, MarkSet.markWalked_fst,
        MarkSet.locate_mark, MarkSet.hasWalked_mark, isThere]
      simp
  case isFalse notGit =>
    have notLeaf := inner.resolve_left notGit
    refine ⟨isMarked, ?_, ?_⟩
    · ext other
      simp only [walked, Set.mem_ofPred_eq, Set.mem_insert_iff,
        MarkSet.contains_mark, MarkSet.hasWalked_mark]
      by_cases same : other = k
      · subst same
        simp [notGit, isThere, notLeaf]
      · simp [same]
    · rw [mem_walked_of_inner notGit notLeaf, MarkSet.mark_fst, isThere]
      simp

/-- What a step of the mark that goes on does. -/
theorem markStep_eq_more
    {marking next : Marking crc32c}
    (honest : ∀ l ∈ marking.stack, Honest l)
    (more : markStep hashing get canceled marking = .more next) :
    ∃ l stack, marking.stack = l :: stack ∧
      marked hashing next.live = insert l.key (marked hashing marking.live) ∧
      ((next.stack = stack ∧
          walked hashing next.live = walked hashing marking.live ∧
          (l.leaf = false → l.key ∈ walked hashing marking.live)) ∨
        ∃ found, l.leaf = false ∧ l.key ∉ walked hashing marking.live ∧
          (objectGraph get).out l.key = some found ∧
          next.stack = found.reverse ++ stack ∧
          walked hashing next.live =
            insert l.key (walked hashing marking.live)) := by
  unfold markStep at more
  split at more
  case h_1 => cases more
  case h_2 l stack isStack =>
    have isHonest : l.key.type_ = some .gitSha1 ∨
        isLeafKey l.key = l.leaf :=
      Or.imp_right Eq.symm (honest l (by rw [isStack]; exact mem_cons_self))
    refine ⟨l, stack, isStack, ?_⟩
    split at more
    case isTrue => cases more
    case isFalse =>
      dsimp only at more
      split at more
      case isTrue => cases more
      case isFalse notMissing =>
        have present : (marking.live.mark hashing l.key).1.2 = true := by
          simpa using notMissing
        cases isLeaf : l.leaf with
        | true =>
          rw [isLeaf, if_pos rfl] at more
          rw [isLeaf] at isHonest
          cases more
          exact ⟨marked_mark present, .inl ⟨rfl, walked_mark isHonest, by simp⟩⟩
        | false =>
          rw [isLeaf, if_neg Bool.false_ne_true] at more
          rw [isLeaf] at isHonest
          obtain ⟨isMarked, isWalked, newIff⟩ := enter_mark present isHonest
          split at more
          case isTrue notNew =>
            cases more
            have wasSent : l.key ∈ walked hashing marking.live := by
              by_contra notSent
              rw [newIff.mpr notSent] at notNew
              exact absurd notNew (by simp)
            rw [Set.insert_eq_of_mem wasSent] at isWalked
            exact ⟨isMarked, .inl ⟨rfl, isWalked, fun _ => wasSent⟩⟩
          case isFalse isNew =>
            split at more
            · cases more
            · rename_i found isRead
              cases more
              exact ⟨isMarked, .inr ⟨found, rfl,
                newIff.mp (by simpa using isNew),
                readLinks_eq_ok_iff.mp isRead, rfl, isWalked⟩⟩

/-- How the mark ends. -/
theorem markStep_eq_ok
    (done : markStep hashing get canceled marking = .done (.ok result)) :
    marking.stack = [] ∧ result = marking.live := by
  unfold markStep at done
  split at done
  case h_1 isStack =>
    cases done
    exact ⟨isStack, rfl⟩
  case h_2 =>
    dsimp only at done
    repeat' split at done
    all_goals cases done

/-- How much the mark has to do at most. -/
noncomputable def Marking.size (hashing : BinaryFuse.Hashing)
    (finite : Set.Finite {k | ∃ data, get k = .ok data})
    (marking : Marking crc32c) : Nat × Nat :=
  (left (Fstree.finite_out finite) (walked hashing marking.live) ∅,
    marking.stack.length)

/-- What the mark keeps, with links still to come from other roots. -/
def Marking.Keeps (hashing : BinaryFuse.Hashing) (get : Key → Except ε Bytes)
    (roots later : Set Link) (marking : Marking crc32c) : Prop :=
  LeafWalk.Keeps (objectGraph get) roots
    ⟨marked hashing marking.live, walked hashing marking.live,
      {l | l ∈ marking.stack} ∪ later, ∅⟩

section Roots

variable {roots later : Set Link} (honestRoots : ∀ l ∈ roots, Honest l)
variable (finite : Set.Finite {k | ∃ data, get k = .ok data})

include honestRoots in
/-- A step of the mark keeps what walks keep, and there is less left to do. -/
theorem Marking.Keeps.markStep
    {next : Marking crc32c} (keeps : marking.Keeps hashing get roots later)
    (more : markStep hashing get canceled marking = .more next) :
    next.Keeps hashing get roots later ∧
      Prod.Lex (· < ·) (· < ·) (next.size hashing finite)
        (marking.size hashing finite) := by
  have honest : ∀ l ∈ marking.stack, Honest l := fun l isIn =>
    Fstree.honest_of_met honestRoots (keeps.pending l (.inl isIn))
  obtain ⟨l, stack, isStack, isMarked, steps⟩ := markStep_eq_more honest more
  unfold Marking.Keeps at keeps ⊢
  unfold Marking.size
  rw [isStack] at keeps ⊢
  rw [isMarked]
  rcases steps with
    ⟨isRest, isWalked, noMore⟩ | ⟨found, inner, notSent, isOut, isNext, isWalked⟩
  · rw [isWalked, isRest]
    exact ⟨keeps.popLook (by simpa using noMore), .right _ (by simp)⟩
  · rw [isWalked, isNext]
    exact ⟨keeps.popFollow (by simp [inner]) isOut,
      .left _ _ (left_insert_lt isOut notSent)⟩

include honestRoots finite in
/-- The mark below a root ends, and if it succeeds the root is dealt with. -/
theorem exists_markFrom
    (canceled : Nat → Bool) (live : MarkSet crc32c) (root : Key)
    (keeps : LeafWalk.Keeps (objectGraph get) roots
      ⟨marked hashing live, walked hashing live, insert (linkTo root) later, ∅⟩) :
    ∃ result,
      (∃ bound, ∀ fuel ≥ bound,
        markFrom hashing get fuel canceled live root = some result) ∧
      ∀ after, result = .ok after →
        LeafWalk.Keeps (objectGraph get) roots
          ⟨marked hashing after, walked hashing after, later, ∅⟩ := by
  have wellFounded : WellFounded (InvImage (Prod.Lex (· < ·) (· < ·))
      fun marking : Marking crc32c => marking.size hashing finite) :=
    InvImage.wf _ (WellFounded.prod_lex Nat.lt_wfRel.wf Nat.lt_wfRel.wf)
  refine Loop.exists_leaves wellFounded (·.Keeps hashing get roots later) ?_ ?_ ?_
  · exact fun marking next kept more => kept.markStep honestRoots finite more
  · rintro marking result kept done after rfl
    obtain ⟨isStack, rfl⟩ := markStep_eq_ok done
    unfold Marking.Keeps at kept
    simpa [isStack] using kept
  · have listed : {l | l ∈ [linkTo root]} ∪ later =
        insert (linkTo root) later := by
      ext l
      simp
    unfold Marking.Keeps
    rw [listed]
    exact keeps

end Roots

/-- The mark below all roots ends, and if it succeeds it has dealt with all of
them. -/
theorem exists_markLive
    (finite : Set.Finite {k | ∃ data, get k = .ok data})
    (honestRoots : ∀ l ∈ roots, Honest l)
    (later : List (Key × (Nat → Bool))) (live : MarkSet crc32c)
    (keeps : LeafWalk.Keeps (objectGraph get) roots
      ⟨marked hashing live, walked hashing live,
        rootLinks (later.map Prod.fst), ∅⟩) :
    ∃ result,
      (∃ bound, ∀ fuel ≥ bound,
        markLive hashing get fuel live later = some result) ∧
      ∀ after, result = .ok after →
        LeafWalk.Keeps (objectGraph get) roots
          ⟨marked hashing after, walked hashing after, ∅, ∅⟩ := by
  induction later generalizing live with
  | nil =>
    refine ⟨.ok live, ⟨0, fun _ _ => rfl⟩, ?_⟩
    rintro after same
    cases same
    simpa [rootLinks] using keeps
  | cons root later ih =>
    have split : rootLinks ((root :: later).map Prod.fst) =
        insert (linkTo root.1) (rootLinks (later.map Prod.fst)) := by
      ext l
      simp [rootLinks]
    rw [split] at keeps
    obtain ⟨result, ⟨bound, first⟩, kept⟩ :=
      exists_markFrom honestRoots finite root.2 live root.1 keeps
    cases result with
    | error error =>
      refine ⟨.error error, ⟨bound, fun fuel enough => ?_⟩, by simp⟩
      rw [markLive, first fuel enough]
    | ok after =>
      obtain ⟨result, ⟨others, rest⟩, isKept⟩ := ih after (kept after rfl)
      refine ⟨result, ⟨max bound others, fun fuel enough => ?_⟩, isKept⟩
      rw [markLive, first fuel (le_trans (le_max_left _ _) enough)]
      exact rest fuel (le_trans (le_max_right _ _) enough)

/-- The mark over new mark sets starts like any walk. -/
theorem keeps_new (segs : List (SealedSegment crc32c)) (active : List Key)
    (roots : Set Link) :
    LeafWalk.Keeps (objectGraph get) roots
      ⟨marked hashing (MarkSet.new segs active),
        walked hashing (MarkSet.new segs active), roots, ∅⟩ := by
  have noneMarked : marked hashing (MarkSet.new segs active) = ∅ := by
    ext k
    simp [marked, MarkSet.contains_new]
  have noneWalked : walked hashing (MarkSet.new segs active) = ∅ := by
    ext k
    simp [walked, MarkSet.contains_new]
  rw [noneMarked, noneWalked]
  exact .start _ _

end Mark

/-! ## The search -/

section Search

variable {get : Key → Except ε Bytes} {root k : Key}

/-- What the search keeps: where it has been, the key was not. -/
def Search.Keeps (get : Key → Except ε Bytes) (root k : Key)
    (search : Search) : Prop :=
  ∃ met, k ∉ met ∧ LeafWalk.Keeps (objectGraph get) (rootLinks [root])
    ⟨met, {node | search.read node = true}, {l | l ∈ search.stack} ∪ ∅, ∅⟩

/-- How much the search has to do at most. -/
noncomputable def Search.size
    (finite : Set.Finite {k | ∃ data, get k = .ok data})
    (search : Search) : Nat × Nat :=
  (left (Fstree.finite_out finite) {node | search.read node = true} ∅,
    search.stack.length)

/-- A step of the search keeps what walks keep, and there is less left to
do. -/
theorem Search.Keeps.reachesStep
    (finite : Set.Finite {k | ∃ data, get k = .ok data})
    {search next : Search} (keeps : search.Keeps get root k)
    (more : reachesStep get k search = .more next) :
    next.Keeps get root k ∧
      Prod.Lex (· < ·) (· < ·) (next.size finite) (search.size finite) := by
  obtain ⟨met, notMet, walk⟩ := keeps
  unfold Gc.reachesStep at more
  split at more
  case h_1 => cases more
  case h_2 cur stack isStack =>
    rw [isStack] at walk
    split at more
    case isTrue => cases more
    case isFalse other =>
      have stillNot : k ∉ insert cur.key met := by
        simp [notMet, Ne.symm other]
      unfold Search.size
      rw [isStack]
      split at more
      case isTrue noMore =>
        cases more
        refine ⟨⟨_, stillNot, walk.popLook ?_⟩, .right _ (by simp)⟩
        intro inner
        exact (Bool.or_eq_true _ _ ▸ noMore).resolve_left inner
      case isFalse toRead =>
        split at more
        · cases more
        · rename_i found isRead
          cases more
          simp only [Bool.or_eq_true, not_or] at toRead
          have isOut := readLinks_eq_ok_iff.mp isRead
          have inserted : {node | Function.update search.read cur.key true
                node = true} =
              insert cur.key {node | search.read node = true} := by
            ext node
            by_cases same : node = cur.key <;> simp [same]
          refine ⟨⟨_, stillNot, ?_⟩, ?_⟩
          · rw [inserted]
            exact walk.popFollow toRead.1 isOut
          · rw [inserted]
            exact .left _ _ (left_insert_lt isOut toRead.2)

/-- How the search ends. -/
theorem Search.Keeps.done
    (keeps : search.Keeps get root k)
    (done : Gc.reachesStep get k search = .done (.ok answer)) :
    answer = true ↔ (objectGraph get).Reachable (rootLinks [root]) k := by
  obtain ⟨met, notMet, walk⟩ := keeps
  unfold Gc.reachesStep at done
  split at done
  case h_1 isStack =>
    cases done
    rw [isStack] at walk
    have reachable := walk.mem_met_iff rfl (by simp) k
    simp [← reachable, notMet]
  case h_2 cur stack isStack =>
    split at done
    case isTrue same =>
      cases done
      have isMet := walk.pending cur
        (.inl (by rw [isStack]; exact mem_cons_self))
      exact ⟨fun _ => ⟨cur, isMet, same⟩, fun _ => rfl⟩
    case isFalse =>
      repeat' split at done
      all_goals cases done

/-- The search ends, and if it succeeds it knows whether the key is
reachable. -/
theorem exists_leaves_reaches
    (finite : Set.Finite {k | ∃ data, get k = .ok data}) (root k : Key) :
    ∃ result, Loop.Leaves (reachesStep get k)
        ⟨fun _ => false, [linkTo root]⟩ result ∧
      ∀ answer, result = .ok answer →
        (answer = true ↔ (objectGraph get).Reachable (rootLinks [root]) k) := by
  have wellFounded : WellFounded (InvImage (Prod.Lex (· < ·) (· < ·))
      fun search : Search => search.size finite) :=
    InvImage.wf _ (WellFounded.prod_lex Nat.lt_wfRel.wf Nat.lt_wfRel.wf)
  refine Loop.exists_leaves wellFounded (·.Keeps get root k) ?_ ?_ ?_
  · exact fun search next keeps more => keeps.reachesStep finite more
  · rintro search result keeps isDone answer rfl
    exact keeps.done isDone
  · refine ⟨∅, Set.notMem_empty k, ?_⟩
    convert Keeps.start (objectGraph get) (rootLinks [root]) using 2
    · simp
    · rw [Fstree.rootLinks_singleton]
      simp

end Search

/-! ## All walks -/

/-- All walks over the objects of a finite store end, and those that succeed
met the same keys: those that some root, or some link of an object that a root
or a link that does not say leaf names, leads to.  The mark starts from an empty
mark set and each of its roots may be canceled at any time. -/
theorem walks_meet_reachable
    {crc32c : Bytes → UInt32} (hashing : BinaryFuse.Hashing)
    (segs : List (SealedSegment crc32c)) (active : List Key)
    (get : Key → Except ε Bytes) (has : Key → Except ε Bool)
    (finite : Set.Finite {k | ∃ data, get k = .ok data})
    (isThere : ∀ k data, get k = .ok data → has k = .ok true) :
    (∀ roots : List (Key × (Nat → Bool)), ∃ result,
      (∃ bound, ∀ fuel ≥ bound,
        markLive hashing get fuel (MarkSet.new segs active) roots =
          some result) ∧
      ∀ live, result = .ok live → ∀ k, live.contains hashing k = true ↔
        (objectGraph get).Reachable (rootLinks (roots.map Prod.fst)) k) ∧
    (∀ root k, ∃ result,
      (∃ bound, ∀ fuel ≥ bound, reaches get fuel root k = some result) ∧
      ∀ answer, result = .ok answer →
        (answer = true ↔ (objectGraph get).Reachable (rootLinks [root]) k)) ∧
    (∀ root, ∃ result,
      (∃ bound, ∀ fuel ≥ bound,
        Fstree.reachableKeys get fuel root = some result) ∧
      ∀ keys, result = .ok keys → Fstree.Lists get root keys) ∧
    ∀ root, ∃ result,
      (∃ bound, ∀ fuel ≥ bound,
        Fstree.checkComplete get has fuel root = some result) ∧
      (∀ keys, result = .ok keys → Fstree.Lists get root keys) ∧
      ((∃ keys, result = .ok keys) ↔ Fstree.Complete get has root) := by
  refine ⟨fun roots => ?mark, exists_leaves_reaches finite,
    Fstree.exists_leaves_reachable finite,
    Fstree.exists_leaves_complete finite isThere⟩
  case mark =>
    obtain ⟨result, ends, kept⟩ := exists_markLive finite
      (Fstree.honest_rootLinks _) roots (MarkSet.new segs active)
      (keeps_new segs active _)
    refine ⟨result, ends, fun live isLive k => ?_⟩
    exact (kept live isLive).mem_met_iff rfl rfl k

/-- The key of the git object whose id repeats a byte. -/
def repeatedId (byte : UInt8) : Key :=
  Key.newGitSha1 ⟨List.replicate Key.gitSha1Size byte, length_replicate⟩

/-- A line of a tree for the object whose id repeats a byte. -/
def treeLine (modeAndName : String) (byte : UInt8) : Bytes :=
  utf8 modeAndName ++ [0] ++ List.replicate Key.gitSha1Size byte

/-- Objects of which the first calls the third a blob, and the second calls it
the tree that it is. -/
def sharedObjects : List (Key × Bytes) :=
  [(repeatedId 1, utf8 "tree 57" ++ [0] ++ treeLine "100644 a" 3 ++
      treeLine "40000 b" 2),
    (repeatedId 2, utf8 "tree 28" ++ [0] ++ treeLine "40000 a" 3),
    (repeatedId 3, utf8 "tree 29" ++ [0] ++ treeLine "100644 a" 4),
    (repeatedId 4, utf8 "blob 0" ++ [0])]

/-- A store that holds these objects and nothing else. -/
def sharedGet (k : Key) : Except Unit Bytes :=
  (sharedObjects.lookup k).elim (.error ()) .ok

def sharedHas (k : Key) : Except Unit Bool :=
  .ok (sharedObjects.lookup k).isSome

def sharedHashing : BinaryFuse.Hashing :=
  .standard fun _ => ⟨5, 7, by decide, by decide, by decide⟩

/-- The mark of the first object, in a store that has no segments. -/
def sharedMark (fuel : Nat) :
    Option (Except (Error Unit) (MarkSet fun _ => 0)) :=
  markLive sharedHashing sharedGet fuel
    (.new [] (sharedObjects.map Prod.fst)) [(repeatedId 1, fun _ => false)]

/-- The blob below the shared tree is marked, and a check lists every key once,
although the walks meet the tree as a leaf and not as a leaf. -/
theorem walks_meet_reachable_sharedObjects :
    (∃ live bound, (∀ fuel ≥ bound, sharedMark fuel = some (.ok live)) ∧
      (objectGraph sharedGet).Reachable (rootLinks [repeatedId 1])
        (repeatedId 4)) ∧
    Fstree.Lists sharedGet (repeatedId 1)
      [repeatedId 1, repeatedId 3, repeatedId 2, repeatedId 4] ∧
    Fstree.Complete sharedGet sharedHas (repeatedId 1) := by
  have isThere : ∀ k data, sharedGet k = .ok data → sharedHas k = .ok true := by
    intro k data isRead
    unfold sharedGet at isRead
    unfold sharedHas
    cases found : sharedObjects.lookup k with
    | none =>
      rw [found] at isRead
      cases isRead
    | some data => rfl
  have finite : Set.Finite {k | ∃ data, sharedGet k = .ok data} := by
    refine (finite_toSet (sharedObjects.map Prod.fst)).subset ?_
    rintro k ⟨data, isRead⟩
    have found := Except.ok.inj (isThere k data isRead)
    obtain ⟨held, isHeld, same⟩ := lookup_isSome_iff.mp found
    exact mem_map.mpr ⟨held, isHeld, (eq_of_beq same).symm⟩
  obtain ⟨marks, -, -, checks⟩ := walks_meet_reachable sharedHashing
    ([] : List (SealedSegment fun _ => 0)) (sharedObjects.map Prod.fst)
    sharedGet sharedHas finite isThere
  constructor
  · obtain ⟨result, ⟨bound, ends⟩, met⟩ :=
      marks [(repeatedId 1, fun _ => false)]
    have marked : (markFrom sharedHashing sharedGet 12 (fun _ => false)
        (.new ([] : List (SealedSegment fun _ => 0))
          (sharedObjects.map Prod.fst)) (repeatedId 1)).map (fun outcome =>
            outcome.toOption.map (·.contains sharedHashing (repeatedId 4))) =
        some (some true) := by
      decide +kernel
    obtain ⟨outcome, isOutcome, measured⟩ := Option.map_eq_some_iff.mp marked
    obtain ⟨live, rfl, isLive⟩ := Checked.exists_ok_of_map_toOption measured
    obtain ⟨enough, leaves⟩ := Loop.Leaves.of_run isOutcome
    have ended : ∀ fuel ≥ enough, sharedMark fuel = some (.ok live) := by
      intro fuel isEnough
      rw [sharedMark, markLive, markFrom, leaves fuel isEnough]
      rfl
    obtain rfl := Option.some.inj ((ends _ (le_max_left bound enough)).symm.trans
      (ended _ (le_max_right _ _)))
    exact ⟨live, enough, ended, (met live rfl _).mp isLive⟩
  · obtain ⟨result, leaves, lists, complete⟩ := checks (repeatedId 1)
    have listed : Fstree.checkComplete sharedGet sharedHas 12 (repeatedId 1) =
        some (.ok [repeatedId 1, repeatedId 3, repeatedId 2, repeatedId 4]) := by
      decide +kernel
    obtain rfl := Loop.Leaves.unique leaves (.of_run listed)
    exact ⟨lists _ rfl, complete.mp ⟨_, rfl⟩⟩

end AmberStore.Gc

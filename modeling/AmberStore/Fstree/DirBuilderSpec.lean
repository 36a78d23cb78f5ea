import AmberStore.Fstree.DirectorySpec

/-!
# The directory builder

A builder holds the entries it was given: those of its index, then those of the
open leaf.  What it emits is read back as the entries.
-/

open ByteString Checked
open List (append_assoc append_nil forall_mem_append forall_mem_cons nil_append)

namespace AmberStore.Fstree

open Chunkers (ItemChunker)
open Filter (atTop)

variable {blake3 : Bytes → Key.Digest Key.size} {hash : Bytes → UInt64}
variable {ε : Type} {get : Key → Except ε Bytes}

/-! ## The rule of index nodes -/

/-- The last part's last name is the whole's. -/
theorem EndsAt.flatten
    (all : List.Forall₂ (fun child part => EndsAt part child.2) children parts)
    {child : Key × Bytes} (isLast : children.getLast? = some child) :
    EndsAt parts.flatten child.2 := by
  induction all with
  | nil => cases isLast
  | @cons first part children parts ends others ih =>
    rw [List.flatten_cons]
    cases others with
    | nil =>
      cases isLast
      rwa [List.flatten_nil, append_nil]
    | cons next later =>
      rw [List.getLast?_cons_cons] at isLast
      obtain ⟨e, isEntry, isName⟩ := ih isLast
      refine ⟨e, ?_, isName⟩
      rw [List.getLast?_append, isEntry, Option.some_or]

/-- An object can be read. -/
def Readable (get : Key → Except ε Bytes) (o : Object) : Prop :=
  get o.key = .ok o.bytes ∧ o.bytes.length < 2 ^ 63

/-- A child has entries, the last of which is named by its separator. -/
def HasEntriesUpTo (get : Key → Except ε Bytes) (k : Key) (sep : Bytes)
    (entries : List Entry) : Prop :=
  HasEntries get k entries ∧ EndsAt entries sep

theorem closes_entries
    (few : ic.maxRun ≤ Cbor.maxElements) :
    IndexBuilder.Closes blake3 ic true (Readable get) (fun _ => [])
      (HasEntriesUpTo get) := by
  intro level content obj sep counted isLong full carries isNode isReadable
  obtain ⟨parts, all, rfl⟩ := carries
  rw [IndexBuilder.buildNode, if_pos rfl] at isNode
  obtain ⟨node, encoded, same⟩ := bind_eq_ok_iff.mp isNode
  cases same
  rw [mapError_eq_ok_iff] at encoded
  rw [IndexBuilder.children, if_pos rfl] at all
  rw [← List.map_uncurry_zip_eq_zipWith] at encoded
  have fewer : (level.keys.zip level.seps).length ≤ Cbor.maxElements := by
    rw [List.length_zip, counted.keys, counted.seps rfl]
    omega
  rw [append_nil]
  refine ⟨hasEntries_dirNode fewer all encoded isReadable.1 isReadable.2, ?_⟩
  -- The last separator is that of the last child.
  have same : level.keys.length = level.seps.length := by
    rw [counted.keys, counted.seps rfl]
  have present : level.keys.zip level.seps ≠ [] := by
    intro none
    have length := congrArg List.length none
    rw [List.length_zip, counted.keys, counted.seps rfl] at length
    simp at length
    omega
  have isLast := List.getLast?_eq_some_getLast present
  have isSep : level.seps.getLast? =
      some ((level.keys.zip level.seps).getLast present).2 := by
    rw [← Option.map_some, ← isLast, ← List.getLast?_map,
      List.map_snd_zip same.ge]
  rw [isSep]
  exact EndsAt.flatten (all.imp fun _ _ here => here.2) isLast

/-! ## Success -/

/-- An entry that the encoder takes. -/
def Entry.Writable (e : Entry) : Prop :=
  e.Encodable ∧ KeyField e.contentKey ∧ KeyField e.xattrsKey

namespace DirBuilder

/-- A builder that was given entries the encoder takes. -/
structure Ready (ic : ItemChunker) (db : DirBuilder) : Prop where
  isIc : db.ic = ic
  isIndex : db.idx = ⟨ic, true, db.idx.levels⟩
  levels : IndexBuilder.Ready True db.idx.levels
  leaf : ∀ e ∈ db.leaf, e.Writable

theorem ready_new (ic : ItemChunker) : Ready ic (new ic) :=
  ⟨rfl, rfl, IndexBuilder.ready_nil, by simp [new]⟩

variable {ic : ItemChunker}

theorem keyed_encodeDirLeaf
    (encoded : encodeDirLeaf blake3 entries = .ok obj) :
    obj.Keyed blake3 := by
  obtain ⟨bytes, -, encoded⟩ := bind_eq_ok_iff.mp encoded
  obtain ⟨sub, -, same⟩ := bind_eq_ok_iff.mp encoded
  cases same
  exact IndexBuilder.keyed_newObject (by decide) _ _

theorem Ready.exists_closeLeaf
    (ready : Ready ic db) :
    ∃ after emitted, db.closeLeaf blake3 hash = .ok (after, emitted) ∧
      (∀ o ∈ emitted, o.Keyed blake3) ∧ Ready ic after ∧ after.leaf = [] ∧
      after.runLen = 0 ∧
      after.idx.levels ≠ [] := by
  obtain ⟨obj, encoded⟩ := encodeDirLeaf_eq_ok blake3
    (fun e isIn => (ready.leaf e isIn).1) fun e isIn => (ready.leaf e isIn).2
  have keyed := keyed_encodeDirLeaf encoded
  obtain ⟨levels, emitted, added, allKeyed, stillReady, present⟩ :
    ∃ levels emitted, (⟨ic, true, db.idx.levels⟩ : IndexBuilder).addChild
      blake3 hash obj.key db.leafMax = .ok (⟨ic, true, levels⟩, emitted) ∧ _ :=
    ready.levels.exists_addChild keyed.canonical db.leafMax
  refine ⟨{ db with
      idx := ⟨ic, true, levels⟩, leaf := [], leafMax := [], runLen := 0 },
    obj :: emitted, ?_, forall_mem_cons.mpr ⟨keyed, allKeyed⟩,
    ⟨ready.isIc, rfl, stillReady, ?_⟩, rfl, rfl, present⟩
  · rw [closeLeaf, encoded, mapError_ok, ok_bind, ready.isIndex, added]
    rfl
  · simp

theorem Ready.exists_addEntry
    (ready : Ready ic db)
    (writable : e.Writable) :
    ∃ after emitted, db.addEntry blake3 hash e = .ok (after, emitted) ∧
      (∀ o ∈ emitted, o.Keyed blake3) ∧ Ready ic after := by
  have framed := Entry.Encodable.marshalEntries_eq_ok
    (List.forall_mem_singleton.mpr writable.1)
  have pushed : Ready ic { db with
      leafMax := e.name, leaf := db.leaf ++ [e], runLen := db.runLen + 1 } :=
    ⟨ready.isIc, ready.isIndex, ready.levels, forall_mem_append.mpr
      ⟨ready.leaf, List.forall_mem_singleton.mpr writable⟩⟩
  rw [addEntry, framed, mapError_ok, ok_bind]
  dsimp only
  split
  · obtain ⟨after, emitted, closed, allKeyed, stillReady, -⟩ :=
      pushed.exists_closeLeaf
    exact ⟨after, emitted, closed, allKeyed, stillReady⟩
  · exact ⟨_, _, rfl, by simp, pushed⟩

theorem Ready.exists_addEntries
    (ready : Ready ic db)
    (writable : ∀ e ∈ entries, e.Writable) :
    ∃ after emitted, db.addEntries blake3 hash entries =
      .ok (after, emitted) ∧ (∀ o ∈ emitted, o.Keyed blake3) ∧
      Ready ic after := by
  induction entries generalizing db with
  | nil => exact ⟨db, [], rfl, by simp, ready⟩
  | cons e rest ih =>
    obtain ⟨here, others⟩ := forall_mem_cons.mp writable
    obtain ⟨next, first, added, firstKeyed, nextReady⟩ :
      ∃ next first, db.addEntry blake3 hash e = .ok (next, first) ∧ _ :=
      ready.exists_addEntry here
    obtain ⟨after, later, addedRest, laterKeyed, stillReady⟩ :=
      ih nextReady others
    refine ⟨after, first ++ later, ?_,
      forall_mem_append.mpr ⟨firstKeyed, laterKeyed⟩, stillReady⟩
    rw [addEntries, added, ok_bind]
    dsimp only
    rw [addedRest]
    rfl

theorem Ready.exists_finish
    (ready : Ready ic db) :
    ∃ root emitted, db.finish blake3 hash = .ok (root, emitted) ∧
      ∀ o ∈ emitted, o.Keyed blake3 := by
  unfold finish
  split
  case isTrue =>
    obtain ⟨after, first, closed, firstKeyed, stillReady, -, -, present⟩ :
      ∃ after first, db.closeLeaf blake3 hash = .ok (after, first) ∧ _ :=
      ready.exists_closeLeaf
    obtain ⟨root, later, finished, laterKeyed⟩ :
      ∃ root later, (⟨ic, true, after.idx.levels⟩ : IndexBuilder).finish
        blake3 hash = .ok (root, later) ∧ _ :=
      stillReady.levels.exists_finish present
    refine ⟨root, first ++ later, ?_,
      forall_mem_append.mpr ⟨firstKeyed, laterKeyed⟩⟩
    rw [closed, ok_bind]
    dsimp only
    rw [stillReady.isIndex, finished]
    rfl
  case isFalse notOpen =>
    rw [ready.isIndex]
    refine ready.levels.exists_finish fun none => notOpen (.inr ?_)
    rw [none]
    rfl

/-! ## Content -/

/-- The builder holds the entries: those of its index, then the open leaf. -/
structure Holds (get : Key → Except ε Bytes) (ic : ItemChunker)
    (db : DirBuilder) (content : List Entry) : Prop where
  isIc : db.ic = ic
  isIndex : db.idx = ⟨ic, true, db.idx.levels⟩
  counted : db.runLen = db.leaf.length
  room : db.runLen < ic.maxRun
  leafMax : db.leaf ≠ [] → EndsAt db.leaf db.leafMax
  index : ∃ before, IndexBuilder.Holds ic true (HasEntriesUpTo get)
    db.idx.levels before ∧ content = before ++ db.leaf

theorem holds_new (ic : ItemChunker) : Holds get ic (new ic) [] where
  isIc := rfl
  isIndex := rfl
  counted := rfl
  room := Nat.lt_of_lt_of_le Nat.zero_lt_two ic.two_le_maxRun
  leafMax absent := absurd rfl absent
  index := ⟨[], rfl, rfl⟩

section Content

variable (few : ic.maxRun ≤ Cbor.maxElements)

include few in
/-- A leaf that is closed goes to the index with its entries. -/
theorem holds_closeLeaf
    {db : DirBuilder}
    (closed : db.closeLeaf blake3 hash = .ok (after, emitted))
    (isIc : db.ic = ic) (isIndex : db.idx = ⟨ic, true, db.idx.levels⟩)
    (short : db.leaf.length ≤ ic.maxRun)
    (writable : ∀ e ∈ db.leaf, e.Writable)
    (ends : EndsAt db.leaf db.leafMax)
    (holds : IndexBuilder.Holds ic true (HasEntriesUpTo get) db.idx.levels
      before)
    (allReadable : ∀ o ∈ emitted, Readable get o) :
    Holds get ic after (before ++ db.leaf) ∧ after.leaf = [] := by
  obtain ⟨obj, encoded, closed⟩ := bind_eq_ok_iff.mp closed
  rw [mapError_eq_ok_iff] at encoded
  obtain ⟨⟨idx, later⟩, added, same⟩ := bind_eq_ok_iff.mp closed
  cases same
  rw [isIndex] at added
  obtain ⟨⟨levels, _⟩, added, same⟩ := bind_eq_ok_iff.mp added
  cases same
  obtain ⟨leafReadable, laterReadable⟩ := forall_mem_cons.mp allReadable
  have leafHas := hasEntries_dirLeaf (le_trans short few)
    (fun e isIn => (writable e isIn).1) encoded leafReadable.1 leafReadable.2
  obtain ⟨stillHolds, -⟩ := IndexBuilder.Holds.addFrom (closes_entries few)
    holds ⟨leafHas, ends⟩ added laterReadable
  rw [IndexBuilder.flatMap_nothing, append_nil] at stillHolds
  refine ⟨⟨isIc, rfl, rfl, ?_, fun absent => absurd rfl absent,
    before ++ db.leaf, stillHolds, (append_nil _).symm⟩, rfl⟩
  exact Nat.lt_of_lt_of_le Nat.zero_lt_two ic.two_le_maxRun

include few in
theorem Holds.addEntry
    {db : DirBuilder}
    (holds : Holds get ic db content)
    (ready : Ready ic db) (writable : e.Writable)
    (added : db.addEntry blake3 hash e = .ok (after, emitted))
    (allReadable : ∀ o ∈ emitted, Readable get o) :
    Holds get ic after (content ++ [e]) := by
  obtain ⟨before, indexHolds, rfl⟩ := holds.index
  have stillWritable : ∀ other ∈ db.leaf ++ [e], other.Writable :=
    forall_mem_append.mpr
      ⟨ready.leaf, List.forall_mem_singleton.mpr writable⟩
  have ends : EndsAt (db.leaf ++ [e]) e.name := ⟨e, List.getLast?_concat, rfl⟩
  obtain ⟨framed, -, added⟩ := bind_eq_ok_iff.mp added
  dsimp only at added
  split at added
  case isTrue =>
    have short : (db.leaf ++ [e]).length ≤ ic.maxRun := by
      have room := holds.room
      rw [holds.counted] at room
      rw [List.length_append]
      exact room
    obtain ⟨stillHolds, -⟩ := holds_closeLeaf few added holds.isIc
      holds.isIndex short stillWritable ends indexHolds allReadable
    rwa [append_assoc]
  case isFalse goesOn =>
    cases added
    rw [holds.isIc] at goesOn
    refine ⟨holds.isIc, holds.isIndex, ?_,
      ItemChunker.lt_maxRun_of_not_isBoundary goesOn, fun _ => ends,
      before, indexHolds, append_assoc _ _ _⟩
    simp [holds.counted]

include few in
theorem Holds.addEntries
    (holds : Holds get ic db content)
    (ready : Ready ic db) (writable : ∀ e ∈ entries, e.Writable)
    (added : db.addEntries blake3 hash entries = .ok (after, emitted))
    (allReadable : ∀ o ∈ emitted, Readable get o) :
    Holds get ic after (content ++ entries) := by
  induction entries generalizing db content emitted with
  | nil =>
    cases added
    rwa [append_nil]
  | cons e rest ih =>
    obtain ⟨here, others⟩ := forall_mem_cons.mp writable
    obtain ⟨⟨next, first⟩, isAdded, added⟩ := bind_eq_ok_iff.mp added
    obtain ⟨⟨_, later⟩, restAdded, same⟩ := bind_eq_ok_iff.mp added
    cases same
    obtain ⟨firstReadable, laterReadable⟩ :=
      forall_mem_append.mp allReadable
    have nextHolds := holds.addEntry few ready here isAdded firstReadable
    obtain ⟨same, emitted', again, -, nextReady⟩ : ∃ same emitted', db.addEntry
      blake3 hash e = .ok (same, emitted') ∧ _ := ready.exists_addEntry here
    cases isAdded.symm.trans again
    have all := ih nextHolds nextReady others restAdded laterReadable
    rwa [append_assoc] at all

include few in
/-- A builder with entries finishes with a root that has them. -/
theorem Holds.finish
    {db : DirBuilder}
    (holds : Holds get ic db content)
    (ready : Ready ic db) (present : content ≠ [])
    (finished : db.finish blake3 hash = .ok (root, emitted))
    (allReadable : ∀ o ∈ emitted, Readable get o) :
    HasEntries get root content := by
  obtain ⟨before, indexHolds, rfl⟩ := holds.index
  unfold DirBuilder.finish at finished
  split at finished
  case isTrue isOpen =>
    have notEmpty : db.leaf ≠ [] := by
      intro none
      rcases isOpen with some | noLevels
      · rw [holds.counted, none] at some
        exact absurd some (Nat.lt_irrefl 0)
      · rw [List.isEmpty_iff.mp noLevels] at indexHolds
        rw [none, append_nil] at present
        exact present indexHolds
    obtain ⟨⟨after, first⟩, closed, finished⟩ := bind_eq_ok_iff.mp finished
    obtain ⟨⟨_, later⟩, isFinished, same⟩ := bind_eq_ok_iff.mp finished
    cases same
    obtain ⟨firstReadable, laterReadable⟩ :=
      forall_mem_append.mp allReadable
    have short : db.leaf.length ≤ ic.maxRun :=
      holds.counted ▸ Nat.le_of_lt holds.room
    obtain ⟨stillHolds, noLeaf⟩ := holds_closeLeaf few closed holds.isIc
      holds.isIndex short ready.leaf (holds.leafMax notEmpty) indexHolds
      firstReadable
    obtain ⟨all, allHeld, isAll⟩ := stillHolds.index
    rw [noLeaf, append_nil] at isAll
    rw [stillHolds.isIndex] at isFinished
    obtain ⟨⟨_, rootHas⟩, -⟩ := IndexBuilder.Holds.finishFrom
      (closes_entries few) allHeld isFinished laterReadable
    rw [IndexBuilder.flatMap_nothing, append_nil] at rootHas
    rw [isAll]
    exact rootHas.1
  case isFalse notOpen =>
    have noLeaf : db.leaf = [] := by
      rw [← List.length_eq_zero_iff, ← holds.counted]
      exact Nat.eq_zero_of_not_pos fun some => notOpen (.inl some)
    rw [holds.isIndex] at finished
    obtain ⟨⟨_, rootHas⟩, -⟩ := IndexBuilder.Holds.finishFrom
      (closes_entries few) indexHolds finished allReadable
    rw [IndexBuilder.flatMap_nothing, append_nil] at rootHas
    rw [noLeaf, append_nil]
    exact rootHas.1

/-- The empty directory is one leaf. -/
theorem hasEntries_build_nil
    (built : build blake3 hash ic [] = .ok (root, emitted))
    (allReadable : ∀ o ∈ emitted, Readable get o) :
    HasEntries get root [] := by
  obtain ⟨⟨db, first⟩, added, built⟩ := bind_eq_ok_iff.mp built
  cases added
  obtain ⟨⟨_, later⟩, finished, same⟩ := bind_eq_ok_iff.mp built
  cases same
  rw [nil_append] at allReadable
  have isOpen : 0 < (new ic).runLen ∨ (new ic).idx.levels.isEmpty = true :=
    .inr rfl
  rw [DirBuilder.finish, if_pos isOpen] at finished
  obtain ⟨⟨after, closedObjects⟩, closed, finished⟩ :=
    bind_eq_ok_iff.mp finished
  obtain ⟨⟨_, last⟩, isFinished, same⟩ := bind_eq_ok_iff.mp finished
  cases same
  obtain ⟨obj, encoded, closed⟩ := bind_eq_ok_iff.mp closed
  rw [mapError_eq_ok_iff] at encoded
  obtain ⟨⟨idx, more⟩, isAdded, same⟩ := bind_eq_ok_iff.mp closed
  cases same
  cases isAdded
  have single : IndexBuilder.finish blake3 hash _ = _ :=
    @IndexBuilder.finish_single blake3 hash ic true
      (IndexBuilder.push true {} obj.key []) rfl
  cases isFinished.symm.trans single
  have leafReadable := allReadable obj (by simp)
  exact hasEntries_dirLeaf (by decide) (by simp) encoded leafReadable.1
    leafReadable.2

include few in
/-- The root of a directory that is built has its entries. -/
theorem hasEntries_build
    (writable : ∀ e ∈ entries, e.Writable)
    (built : build blake3 hash ic entries = .ok (root, emitted))
    (allReadable : ∀ o ∈ emitted, Readable get o) :
    HasEntries get root entries := by
  by_cases none : entries = []
  · subst none
    exact hasEntries_build_nil built allReadable
  · obtain ⟨⟨db, first⟩, added, built⟩ := bind_eq_ok_iff.mp built
    obtain ⟨⟨_, later⟩, finished, same⟩ := bind_eq_ok_iff.mp built
    cases same
    obtain ⟨firstReadable, laterReadable⟩ :=
      forall_mem_append.mp allReadable
    have holds := (holds_new ic).addEntries few (ready_new ic) writable added
      firstReadable
    obtain ⟨after, emitted, again, -, ready⟩ :
      ∃ after emitted, (new ic).addEntries blake3 hash entries =
        .ok (after, emitted) ∧ _ := (ready_new ic).exists_addEntries writable
    cases added.symm.trans again
    exact holds.finish few ready none finished laterReadable

end Content

theorem exists_build
    (writable : ∀ e ∈ entries, e.Writable) :
    ∃ root emitted, build blake3 hash ic entries = .ok (root, emitted) ∧
      ∀ o ∈ emitted, o.Keyed blake3 := by
  obtain ⟨db, first, added, firstKeyed, ready⟩ :
    ∃ db first, (new ic).addEntries blake3 hash entries = .ok (db, first) ∧
      _ := (ready_new ic).exists_addEntries writable
  obtain ⟨root, later, finished, laterKeyed⟩ : ∃ root later, db.finish blake3
    hash = .ok (root, later) ∧ _ := ready.exists_finish
  refine ⟨root, first ++ later, ?_,
    forall_mem_append.mpr ⟨firstKeyed, laterKeyed⟩⟩
  rw [build, added, ok_bind]
  dsimp only
  rw [finished]
  rfl

end DirBuilder

/-! ## Pages -/

/-- A page takes entries up to the limit, and tells whether some remain. -/
theorem pushUpTo_eq
    (room : out.length ≤ limit)
    (entries : List Entry) :
    pushUpTo limit out entries =
      (out ++ entries.take (limit - out.length),
        decide (limit - out.length < entries.length)) := by
  induction entries generalizing out with
  | nil => simp [pushUpTo]
  | cons e rest ih =>
    rw [pushUpTo]
    by_cases full : out.length = limit
    · simp [full]
    · have left : limit - out.length = (limit - (out ++ [e]).length) + 1 := by
        rw [List.length_append, List.length_singleton]
        omega
      rw [if_neg full, ih (by simp; omega), left,
        List.take_succ_cons, List.length_cons]
      simp

/-- Calls for pages, each after the last name seen, until no more remain. -/
def pages (get : Key → Except ε Bytes) (fuel : Nat) (dir : Key)
    (limit : Nat) : (calls : Nat) → (after : Bytes) →
      Walking ε (List (List Entry × Bool))
  | 0, _ => outOfFuel
  | calls + 1, after => do
      let (page, more) ← listEntries get fuel dir after limit
      if more then
        let rest ← pages get fuel dir limit calls
          ((page.getLast?.map Entry.name).getD after)
        pure ((page, more) :: rest)
      else
        pure [(page, more)]

/-- Pages make up the entries, and each tells whether some remain after it. -/
structure PagesOf (entries : List Entry) (ps : List (List Entry × Bool)) :
    Prop where
  whole : (ps.map Prod.fst).flatten = entries
  remain : ∀ front page more back, ps = front ++ (page, more) :: back →
    (more = true ↔ entries ≠ (front.map Prod.fst).flatten ++ page)

theorem PagesOf.cons
    (rest : PagesOf remaining ps) (present : remaining ≠ []) :
    PagesOf (page ++ remaining) ((page, true) :: ps) where
  whole := by rw [List.map_cons, List.flatten_cons, rest.whole]
  remain := by
    intro front page' more back isAt
    cases front with
    | nil =>
      cases isAt
      simpa using present
    | cons first front =>
      obtain ⟨rfl, isLater⟩ := List.cons.inj isAt
      rw [rest.remain front page' more back isLater, List.map_cons,
        List.flatten_cons, append_assoc, ne_eq, ne_eq,
        List.append_right_inj]

theorem pagesOf_single (page : List Entry) : PagesOf page [(page, false)] where
  whole := append_nil page
  remain := by
    intro front page' more back isAt
    cases front with
    | nil =>
      cases isAt
      simp
    | cons first front =>
      have empty := (List.cons.inj isAt).2
      simp at empty

/-- What comes after the last name of the front is the back. -/
theorem filter_after
    (ordered : InOrder (front ++ back))
    (ends : EndsAt front name) :
    (front ++ back).filter (fun e => name < e.name) = back := by
  obtain ⟨frontOrdered, -, before⟩ := List.pairwise_append.mp ordered
  obtain ⟨last, isLast, isName⟩ := ends.exists_mem
  rw [List.filter_append, List.filter_eq_nil_iff.mpr, nil_append,
    List.filter_eq_self.mpr]
  · intro e isIn
    have isAfter := before last isLast e isIn
    rw [isName] at isAfter
    exact decide_eq_true isAfter
  · intro e isIn isAfter
    exact List.not_le.mpr (of_decide_eq_true isAfter)
      (ends.name_le frontOrdered isIn)

section Pages

variable {dir : Key} {fuel limit : Nat} {entries : List Entry}

/-- If every call lists the entries after a name, the calls make up the
entries. -/
theorem exists_pages
    (positive : 1 ≤ limit) (ordered : InOrder entries)
    (lists : ∀ after, listEntries get fuel dir after limit =
      pure (pushUpTo limit [] (entries.filter fun e => after < e.name)))
    (isSplit : entries = before ++ remaining)
    (isAfter : entries.filter (fun e => after < e.name) = remaining)
    (enough : remaining.length < calls) :
    ∃ ps, pages get fuel dir limit calls after = pure ps ∧
      PagesOf remaining ps := by
  induction calls generalizing before remaining after with
  | zero => omega
  | succ calls ih =>
    rw [pages, lists, isAfter, pushUpTo_eq (Nat.zero_le limit), pure_bind]
    simp only [List.length_nil, Nat.sub_zero, nil_append]
    by_cases more : limit < remaining.length
    · rw [if_pos (decide_eq_true more)]
      have cut := List.take_append_drop limit remaining
      have pageLength : (remaining.take limit).length = limit := by
        rw [List.length_take]
        omega
      have present : remaining.take limit ≠ [] := fun none => by
        rw [none, List.length_nil] at pageLength
        omega
      have isLast := List.getLast?_eq_some_getLast present
      rw [isLast, Option.map_some, Option.getD_some]
      have ends : EndsAt (before ++ remaining.take limit)
          ((remaining.take limit).getLast present).name := by
        refine ⟨_, ?_, rfl⟩
        rw [List.getLast?_append, isLast, Option.some_or]
      have isWhole : entries =
          (before ++ remaining.take limit) ++ remaining.drop limit := by
        rw [append_assoc, cut, isSplit]
      have left : (remaining.drop limit).length < calls := by
        rw [List.length_drop]
        omega
      obtain ⟨ps, called, rest⟩ := ih isWhole
        (by rw [isWhole] at ordered ⊢; exact filter_after ordered ends) left
      refine ⟨(remaining.take limit, true) :: ps, ?_, ?_⟩
      · rw [called, decide_eq_true more, pure_bind]
      · have some : remaining.drop limit ≠ [] := fun none => by
          have length := congrArg List.length none
          rw [List.length_drop, List.length_nil] at length
          omega
        have paged : PagesOf (remaining.take limit ++ remaining.drop limit) _ :=
          rest.cons some
        rwa [cut] at paged
    · rw [if_neg (by simpa using more), decide_eq_false more,
        List.take_of_length_le (Nat.not_lt.mp more)]
      exact ⟨_, rfl, pagesOf_single remaining⟩

end Pages

/-! ## Directories -/

/-- Every directory is built, and reading what was emitted gives its entries:
all of them, each by its name, and page by page. -/
theorem reads_build
    (blake3 : Bytes → Key.Digest Key.size) (hash : Bytes → UInt64)
    (ic : ItemChunker) (few : ic.maxRun ≤ 131072) (entries : List Entry)
    (ordered : InOrder entries) (named : ∀ e ∈ entries, e.name ≠ [])
    (writable : ∀ e ∈ entries, e.Writable) (missing : ε) :
    ∃ root objects,
      DirBuilder.build blake3 hash ic entries = .ok (root, objects) ∧
      (∀ o ∈ objects, o.Keyed blake3) ∧
      (KeysDistinct objects → (∀ o ∈ objects, o.bytes.length < 2 ^ 63) →
        ∃ depth, ∀ fuel ≥ depth,
          collectEntries (getFrom missing objects) fuel root = pure entries ∧
          (∀ name, lookupEntry (getFrom missing objects) fuel root name =
            some (found entries name)) ∧
          ∀ limit ≥ 1, ∀ calls > entries.length, ∃ ps,
            pages (getFrom missing objects) fuel root limit calls [] =
              pure ps ∧ PagesOf entries ps) := by
  obtain ⟨root, objects, built, keyed⟩ :
    ∃ root objects, DirBuilder.build blake3 hash ic entries =
      .ok (root, objects) ∧ _ := DirBuilder.exists_build writable
  refine ⟨root, objects, built, keyed, fun distinct sized => ?_⟩
  have has := DirBuilder.hasEntries_build few writable built fun o isIn =>
    ⟨distinct.getFrom missing isIn, sized o isIn⟩
  have isDir : dirOf (getFrom missing objects) root = .ok root := by
    unfold dirOf
    rcases has.isDirectory with isLeaf | isNode
    · rw [isLeaf]
    · rw [isNode]
  have all := has.collects.and ((has.finds ordered).and (has.lists ordered))
  obtain ⟨depth, reads⟩ := Filter.eventually_atTop.mp all
  refine ⟨depth, fun fuel enough => ?_⟩
  obtain ⟨collects, finds, lists⟩ := reads fuel enough
  refine ⟨?_, fun name => ?_, fun limit positive calls many => ?_⟩
  · rw [collectEntries, isDir, answered_bind]
    exact collects [] ordered
  · rw [lookupEntry, isDir]
    exact finds name
  · have isAll : entries.filter (fun e => [] < e.name) = entries := by
      rw [List.filter_eq_self]
      intro e isIn
      obtain ⟨first, rest, isName⟩ := List.exists_cons_of_ne_nil (named e isIn)
      rw [isName]
      rfl
    refine exists_pages positive ordered (fun after => ?_)
      (nil_append entries).symm isAll many
    rw [listEntries, if_neg (by omega), isDir, answered_bind]
    exact lists after limit []

/-- Five empty files. -/
def fiveEntries : List Entry :=
  [{ name := [0x61], mode := 0o100644 }, { name := [0x62], mtime := -1 },
    { name := [0x63] }, { name := [0x64] }, { name := [0x65] }]

theorem reads_build_fiveEntries :
    ∃ root objects,
      DirBuilder.build startDigest (fun _ => 0)
        ⟨2, 4, 0, by decide, by decide⟩ fiveEntries = .ok (root, objects) ∧
      ∃ depth, ∀ fuel ≥ depth,
        collectEntries (getFrom () objects) fuel root = pure fiveEntries := by
  have writable : ∀ e ∈ fiveEntries, e.Writable := by
    simp only [fiveEntries, forall_mem_cons]
    refine ⟨?_, ?_, ?_, ?_, ?_, nofun⟩ <;>
      exact ⟨⟨by constructor <;> decide, by decide, .inl rfl⟩, .inl rfl,
        .inl rfl⟩
  have ordered : InOrder fiveEntries := by
    unfold InOrder
    decide
  obtain ⟨root, objects, built, -, reads⟩ := reads_build
    startDigest (fun _ => 0) ⟨2, 4, 0, by decide, by decide⟩ (by decide)
    fiveEntries ordered (by decide) writable ()
  -- Three leaves and two nodes above them.
  have distinct : ∀ built ∈ (DirBuilder.build startDigest (fun _ => 0)
      ⟨2, 4, 0, by decide, by decide⟩ fiveEntries).toOption,
      KeysDistinct built.2 ∧ ∀ o ∈ built.2, o.bytes.length < 2 ^ 63 := by
    unfold KeysDistinct
    decide +kernel
  obtain ⟨areDistinct, sized⟩ := distinct (root, objects) (by rw [built]; rfl)
  obtain ⟨depth, enough⟩ := reads areDistinct sized
  exact ⟨root, objects, built, depth, fun fuel isEnough =>
    (enough fuel isEnough).1⟩

end AmberStore.Fstree

import AmberStore.Fstree.LookupSpec
import Mathlib.Data.List.Pairwise
import Mathlib.Data.List.Nodup

/-!
# What collecting a directory fetches

Collecting goes down every child of an index node, and an object that occurs at
two positions is fetched twice.  Entries must be in order across leaves, so that
this ends in an error where the object holds an entry.  An object that holds none
adds nothing that could be out of order: nothing stops an index node from
repeating it.
-/

open ByteString Checked

namespace AmberStore.Fstree

section Calls

variable {ε : Type} (get : Key → Except ε Bytes)

/-! ## Calls of the getter -/

/-- `collectInner` with the keys that were asked for, in order. -/
def collectCalls : (fuel : Nat) → (calls : List Key) → (out : List Entry) →
    Key → Walking ε (List Key × List Entry)
  | 0, _, _, _ => outOfFuel
  | fuel + 1, calls, out, k => do
      let data ← answered ((get k).mapError (.read k))
      let calls := calls ++ [k]
      match k.type_ with
      | some .dirLeaf =>
        let entries ← answered
          ((decodeDirLeaf data).mapError (.decodeDirLeaf k))
        let out ← answered (pushEntries k out entries)
        pure (calls, out)
      | some .dirNode =>
        let pairs ← answered
          ((decodeDirNode data).mapError (.decodeDirNode k))
        pairs.foldlM (fun (state : List Key × List Entry) p => do
          let child ← answered
            ((Key.parse p.childKey).mapError (.childKey k))
          collectCalls fuel state.1 state.2 child) (calls, out)
      | _ => answered (.error (.notDirObject k))

/-- `collectEntries` with the keys that were asked for, in order. -/
def collectEntriesCalls (fuel : Nat) (k : Key) :
    Walking ε (List Key × List Entry) := do
  let dir ← answered (dirOf get k)
  collectCalls get fuel (if k.type_ = some .commit then [k] else []) [] dir

end Calls

section Walking

variable {ε : Type} {α β : Type}

/-- A walk that goes on gives a value exactly when both of its parts do. -/
theorem walking_bind_eq_pure_iff
    {next : α → Walking ε β} {result : β} :
    first >>= next = pure result ↔
      ∃ value, first = pure value ∧ next value = pure result := by
  constructor
  · intro isResult
    rcases first with _ | (failure | value)
    · cases isResult
    · cases isResult
    · exact ⟨value, rfl, isResult⟩
  · rintro ⟨value, rfl, isResult⟩
    rw [pure_bind]
    exact isResult

theorem answered_eq_pure_iff :
    answered outcome = (pure value : Walking ε α) ↔ outcome = .ok value :=
  ⟨fun same => Option.some.inj same, fun same => congrArg some same⟩

/-- Leaving out a part of the state leaves it out of a fold. -/
theorem map_foldlM
    {project : σ → τ} {step : σ → α → Walking ε σ}
    {rest : τ → α → Walking ε τ}
    (same : ∀ state value,
      project <$> step state value = rest (project state) value)
    (values : List α) (state : σ) :
    project <$> values.foldlM step state =
      values.foldlM rest (project state) := by
  induction values generalizing state with
  | nil => simp
  | cons value values ih =>
    rw [List.foldlM_cons, List.foldlM_cons, map_bind, ← same, bind_map_left]
    congr 1
    funext after
    exact ih after

end Walking

section Calls

variable {ε : Type} {get : Key → Except ε Bytes}

/-- The calls are those of `collectInner`. -/
theorem map_collectCalls
    (fuel : Nat) (calls : List Key) (out : List Entry) (k : Key) :
    Prod.snd <$> collectCalls get fuel calls out k =
      collectInner get fuel out k := by
  induction fuel generalizing calls out k with
  | zero => rfl
  | succ fuel ih =>
    rw [collectCalls, collectInner, map_bind]
    congr 1
    funext data
    dsimp only
    generalize k.type_ = type
    cases type with
    | none => rfl
    | some type =>
      cases type with
      | dirLeaf =>
        dsimp only
        rw [map_bind]
        congr 1
        funext entries
        rw [map_bind]
        simp only [map_pure, bind_pure]
      | dirNode =>
        dsimp only
        rw [map_bind]
        congr 1
        funext pairs
        apply map_foldlM
        intro state p
        rw [map_bind]
        congr 1
        funext child
        exact ih _ _ _
      | blob | fileNode | xattrSet | commit | gitSha1 => rfl

/-- The calls are those of `collectEntries`. -/
theorem map_collectEntriesCalls (fuel : Nat) (k : Key) :
    Prod.snd <$> collectEntriesCalls get fuel k =
      collectEntries get fuel k := by
  rw [collectEntriesCalls, collectEntries, map_bind]
  congr 1
  funext dir
  exact map_collectCalls _ _ _ _

end Calls

/-! ## Positions -/

section Positions

variable {ε : Type} (get : Key → Except ε Bytes)

/-- A position below a directory object, as the indices of the children on the
way to it, and the object there. -/
inductive Below : Key → List Nat → Key → Prop
  | here (k : Key) : Below k [] k
  | child {k c key : Key} {data : Bytes} {pairs : List DirPair} {p : DirPair}
      {index : Nat} {path : List Nat}
      (isNode : k.type_ = some .dirNode) (isStored : get k = .ok data)
      (decoded : decodeDirNode data = .ok pairs)
      (isPair : pairs[index]? = some p)
      (parsed : Key.parse p.childKey = .ok c) (below : Below c path key) :
      Below k (index :: path) key

/-- The entries of a leaf; other objects have none of their own. -/
def leafEntries (k : Key) : List Entry :=
  if k.type_ = some .dirLeaf then
    match get k with
    | .ok data => (decodeDirLeaf data).toOption.getD []
    | .error _ => []
  else []

/-- No leaf at a position below holds an entry. -/
def Hollow (k : Key) : Prop :=
  ∀ path leaf, Below get k path leaf → leafEntries get leaf = []

/-- The positions below a directory object, each once. -/
structure Positions (k : Key) (visits : List (List Nat × Key)) : Prop where
  nodup : (visits.map Prod.fst).Nodup
  complete : ∀ path key, (path, key) ∈ visits ↔ Below get k path key

/-- The positions below the children of an index node, each once, where the
children are counted from a number on. -/
structure ChildPositions (first : Nat) (pairs : List DirPair)
    (visits : List (List Nat × Key)) : Prop where
  nodup : (visits.map Prod.fst).Nodup
  complete : ∀ path key, (path, key) ∈ visits ↔
    ∃ index p c rest, path = (first + index) :: rest ∧
      pairs[index]? = some p ∧ Key.parse p.childKey = .ok c ∧
      Below get c rest key

variable {get}

theorem Below.append
    (upper : Below get k front middle) (lower : Below get middle back key) :
    Below get k (front ++ back) key := by
  induction upper with
  | here k => exact lower
  | child isNode isStored decoded isPair parsed _ ih =>
    exact .child isNode isStored decoded isPair parsed (ih lower)

theorem below_of_not_node
    (notNode : k.type_ ≠ some .dirNode) :
    Below get k path key ↔ path = [] ∧ key = k := by
  constructor
  · intro below
    cases below with
    | here => exact ⟨rfl, rfl⟩
    | child isNode => exact (notNode isNode).elim
  · rintro ⟨rfl, rfl⟩
    exact .here _

theorem below_of_node
    (isNode : k.type_ = some .dirNode) (isStored : get k = .ok data)
    (decoded : decodeDirNode data = .ok pairs) :
    Below get k path key ↔ (path = [] ∧ key = k) ∨
      ∃ index p c rest, path = (0 + index) :: rest ∧
        pairs[index]? = some p ∧ Key.parse p.childKey = .ok c ∧
        Below get c rest key := by
  constructor
  · intro below
    cases below with
    | here => exact .inl ⟨rfl, rfl⟩
    | child _ stored otherDecoded isPair parsed below =>
      cases isStored.symm.trans stored
      cases decoded.symm.trans otherDecoded
      exact .inr ⟨_, _, _, _, by rw [Nat.zero_add], isPair, parsed, below⟩
  · rintro (⟨rfl, rfl⟩ | ⟨index, p, c, rest, rfl, isPair, parsed, below⟩)
    · exact .here _
    · rw [Nat.zero_add]
      exact .child isNode isStored decoded isPair parsed below

theorem positions_leaf (notNode : k.type_ ≠ some .dirNode) :
    Positions get k [([], k)] where
  nodup := List.nodup_singleton _
  complete path key := by
    rw [below_of_not_node notNode, List.mem_singleton, Prod.mk.injEq]

theorem positions_node
    (isNode : k.type_ = some .dirNode) (isStored : get k = .ok data)
    (decoded : decodeDirNode data = .ok pairs)
    (children : ChildPositions get 0 pairs visits) :
    Positions get k (([], k) :: visits) where
  nodup := by
    rw [List.map_cons, List.nodup_cons]
    refine ⟨?_, children.nodup⟩
    intro isPath
    obtain ⟨⟨path, key⟩, isVisit, isNil⟩ := List.mem_map.mp isPath
    obtain ⟨_, _, _, _, isCons, -⟩ := (children.complete _ _).mp isVisit
    cases isNil.symm.trans isCons
  complete path key := by
    rw [below_of_node isNode isStored decoded, List.mem_cons, Prod.mk.injEq,
      children.complete]

theorem childPositions_nil (first : Nat) : ChildPositions get first [] [] where
  nodup := List.nodup_nil
  complete path key := by simp

theorem childPositions_cons
    (parsed : Key.parse p.childKey = .ok c) (below : Positions get c here)
    (others : ChildPositions get (first + 1) pairs later) :
    ChildPositions get first (p :: pairs)
      (here.map (fun visit => (first :: visit.1, visit.2)) ++ later) where
  nodup := by
    rw [List.map_append, List.map_map, List.nodup_append]
    refine ⟨?_, others.nodup, ?_⟩
    · have prepended := below.nodup.map (@List.cons_injective _ first)
      rw [List.map_map] at prepended
      exact prepended
    · rintro left isLeft right isRight rfl
      obtain ⟨visit, -, rfl⟩ := List.mem_map.mp isLeft
      obtain ⟨⟨path, key⟩, isVisit, isPath⟩ := List.mem_map.mp isRight
      obtain ⟨index, _, _, _, isCons, -⟩ := (others.complete _ _).mp isVisit
      have sameHead := (List.cons.inj (isPath.symm.trans isCons)).1
      omega
  complete path key := by
    rw [List.mem_append, others.complete]
    constructor
    · rintro (isHere | ⟨index, q, d, rest, rfl, isPair, isKey, isBelow⟩)
      · obtain ⟨⟨rest, found⟩, isVisit, same⟩ := List.mem_map.mp isHere
        obtain ⟨rfl, rfl⟩ := Prod.mk.inj same
        exact ⟨0, p, c, rest, rfl, rfl, parsed, (below.complete _ _).mp isVisit⟩
      · exact ⟨index + 1, q, d, rest, by rw [Nat.add_right_comm, Nat.add_assoc],
          isPair, isKey, isBelow⟩
    · rintro ⟨index, q, d, rest, rfl, isPair, isKey, isBelow⟩
      cases index with
      | zero =>
        cases isPair
        cases parsed.symm.trans isKey
        exact .inl (List.mem_map.mpr
          ⟨(rest, key), (below.complete _ _).mpr isBelow, rfl⟩)
      | succ index =>
        exact .inr ⟨index, q, d, rest,
          by rw [Nat.add_right_comm, Nat.add_assoc], isPair, isKey, isBelow⟩

end Positions

/-! ## What is fetched -/

section Fetched

variable {ε : Type} {get : Key → Except ε Bytes}

theorem InOrder.concat
    (ordered : InOrder out)
    (isAfter : ∀ prev, out.getLast? = some prev → prev.name < e.name) :
    InOrder (out ++ [e]) := by
  rw [InOrder, List.pairwise_append]
  refine ⟨ordered, List.pairwise_singleton _ _, ?_⟩
  intro earlier isEarlier last isLast
  rw [List.mem_singleton.mp isLast]
  rcases List.eq_nil_or_concat out with rfl | ⟨front, prev, isOut⟩
  · cases isEarlier
  · rw [List.concat_eq_append] at isOut
    subst isOut
    have next := isAfter prev (by simp)
    rcases List.mem_append.mp isEarlier with isFront | isPrev
    · exact List.lt_trans ((List.pairwise_append.mp ordered).2.2 earlier isFront
        prev List.mem_cons_self) next
    · rw [List.mem_singleton.mp isPrev]
      exact next

/-- Entries that are added go on in order. -/
theorem pushEntries_spec
    (success : (pushEntries k out entries : Except (WalkError ε) _) =
      .ok pushed) :
    pushed = out ++ entries ∧ (InOrder out → InOrder pushed) := by
  induction entries generalizing out with
  | nil =>
    cases success
    exact ⟨(List.append_nil _).symm, id⟩
  | cons e rest ih =>
    unfold pushEntries at success
    cases isLast : out.getLast? with
    | none =>
      rw [isLast] at success
      obtain ⟨rfl, later⟩ := ih success
      refine ⟨by simp, fun ordered => later (ordered.concat ?_)⟩
      intro prev isPrev
      cases isLast.symm.trans isPrev
    | some prev =>
      rw [isLast] at success
      dsimp only at success
      obtain ⟨isAfter, success⟩ := errorIf_eq_ok_iff.mp success
      obtain ⟨rfl, later⟩ := ih success
      refine ⟨by simp, fun ordered => later (ordered.concat ?_)⟩
      intro other isOther
      cases isLast.symm.trans isOther
      exact List.not_le.mp isAfter

/-- What collecting did: it fetched the object at every position below once for
each position, and added the entries of the leaves there, in order. -/
structure Collected (get : Key → Except ε Bytes)
    (before after : List Key × List Entry)
    (visits : List (List Nat × Key)) : Prop where
  calls : after.1 = before.1 ++ visits.map Prod.snd
  entries : after.2 = before.2 ++
    visits.flatMap fun visit => leafEntries get visit.2
  ordered : InOrder before.2 → InOrder after.2
  directories : ∀ visit ∈ visits, visit.2.type_ ≠ some .commit

theorem Collected.append
    (first : Collected get before middle front)
    (second : Collected get middle after back) :
    Collected get before after (front ++ back) where
  calls := by
    rw [second.calls, first.calls, List.map_append, List.append_assoc]
  entries := by
    rw [second.entries, first.entries, List.flatMap_append, List.append_assoc]
  ordered := fun ordered => second.ordered (first.ordered ordered)
  directories := fun visit isVisit => (List.mem_append.mp isVisit).elim
    (first.directories visit) (second.directories visit)

theorem Collected.prepend
    (collected : Collected get before after visits) (index : Nat) :
    Collected get before after
      (visits.map fun visit => (index :: visit.1, visit.2)) where
  calls := by
    rw [collected.calls, List.map_map]
    rfl
  entries := by
    rw [collected.entries, List.flatMap_map]
  ordered := collected.ordered
  directories := by
    intro visit isVisit
    obtain ⟨inner, isInner, rfl⟩ := List.mem_map.mp isVisit
    exact collected.directories inner isInner

/-- The loop over the children of an index node. -/
theorem foldlM_collected
    {collect : List Key × List Entry → Key → Walking ε (List Key × List Entry)}
    {k : Key}
    (each : ∀ before after c, collect before c = pure after →
      ∃ visits, Positions get c visits ∧ Collected get before after visits)
    {pairs : List DirPair} {before after : List Key × List Entry} (first : Nat)
    (success : pairs.foldlM (fun state p => do
      let child ← answered ((Key.parse p.childKey).mapError (.childKey k))
      collect state child) before = pure after) :
    ∃ visits, ChildPositions get first pairs visits ∧
      Collected get before after visits := by
  induction pairs generalizing first before with
  | nil =>
    rw [List.foldlM_nil] at success
    cases success
    exact ⟨[], childPositions_nil first, by simp, by simp, id, by simp⟩
  | cons p pairs ih =>
    rw [List.foldlM_cons] at success
    obtain ⟨middle, step, rest⟩ := walking_bind_eq_pure_iff.mp success
    obtain ⟨c, isKey, collected⟩ := walking_bind_eq_pure_iff.mp step
    rw [answered_eq_pure_iff, mapError_eq_ok_iff] at isKey
    obtain ⟨here, below, hereCollected⟩ := each _ _ _ collected
    obtain ⟨later, others, laterCollected⟩ := ih (first + 1) rest
    exact ⟨_, childPositions_cons isKey below others,
      (hereCollected.prepend first).append laterCollected⟩

/-- Collecting fetches the object at every position below. -/
theorem collectCalls_spec
    {fuel : Nat} {before after : List Key × List Entry} {k : Key}
    (success : collectCalls get fuel before.1 before.2 k = pure after) :
    ∃ visits, Positions get k visits ∧ Collected get before after visits := by
  induction fuel generalizing before after k with
  | zero => cases success
  | succ fuel ih =>
    rw [collectCalls] at success
    obtain ⟨data, isStored, success⟩ := walking_bind_eq_pure_iff.mp success
    rw [answered_eq_pure_iff, mapError_eq_ok_iff] at isStored
    dsimp only at success
    split at success
    · rename_i isLeaf
      obtain ⟨entries, decoded, success⟩ := walking_bind_eq_pure_iff.mp success
      rw [answered_eq_pure_iff, mapError_eq_ok_iff] at decoded
      obtain ⟨pushed, isPushed, same⟩ := walking_bind_eq_pure_iff.mp success
      rw [answered_eq_pure_iff] at isPushed
      cases same
      obtain ⟨rfl, goesOn⟩ := pushEntries_spec isPushed
      have own : leafEntries get k = entries := by
        rw [leafEntries, if_pos isLeaf, isStored]
        dsimp only
        rw [decoded]
        rfl
      refine ⟨[([], k)], positions_leaf (by rw [isLeaf]; decide), rfl, ?_,
        goesOn, ?_⟩
      · rw [List.flatMap_singleton, own]
      · rw [List.forall_mem_singleton, isLeaf]
        decide
    · rename_i isNode
      obtain ⟨pairs, decoded, success⟩ := walking_bind_eq_pure_iff.mp success
      rw [answered_eq_pure_iff, mapError_eq_ok_iff] at decoded
      obtain ⟨visits, children, collected⟩ :=
        @foldlM_collected _ _
          (fun state c => collectCalls get fuel state.1 state.2 c) k
          (fun before after c isDone => ih isDone) _
          (before.1 ++ [k], before.2) after 0 success
      have own : leafEntries get k = [] := by
        rw [leafEntries, if_neg (by rw [isNode]; decide)]
      refine ⟨([], k) :: visits, positions_node isNode isStored decoded
        children, ?_, ?_, collected.ordered, ?_⟩
      · rw [collected.calls, List.map_cons, List.append_assoc]
        rfl
      · rw [collected.entries, List.flatMap_cons, own, List.nil_append]
      · rw [List.forall_mem_cons, isNode]
        exact ⟨by decide, collected.directories⟩
    · cases success

/-! ## Where an object is fetched twice -/

/-- An object at two positions holds no entry. -/
theorem hollow_of_twice
    (positions : Positions get k visits)
    (ordered : InOrder (visits.flatMap fun visit => leafEntries get visit.2))
    (atLeft : Below get k left key) (atRight : Below get k right key)
    (different : left ≠ right) : Hollow get key := by
  intro path leaf below
  by_contra present
  obtain ⟨e, rest, isEntries⟩ := List.exists_cons_of_ne_nil present
  have isLeft := (positions.complete _ _).mpr (atLeft.append below)
  have isRight := (positions.complete _ _).mpr (atRight.append below)
  have apart : (left ++ path, leaf) ≠ (right ++ path, leaf) := by
    intro same
    exact different (List.append_cancel_right (Prod.mk.inj same).1)
  -- whichever of the two positions comes first, the entry precedes itself
  have once : visits.Pairwise fun first second =>
      ¬(first.2 = leaf ∧ second.2 = leaf) := by
    refine (List.pairwise_flatMap.mp ordered).2.imp ?_
    rintro ⟨_, _⟩ ⟨_, _⟩ inOrder ⟨rfl, rfl⟩
    have isEntry : e ∈ leafEntries get _ := isEntries ▸ List.mem_cons_self
    exact List.lt_irrefl _ (inOrder e isEntry e isEntry)
  have : Std.Symm fun first second : List Nat × Key =>
      ¬(first.2 = leaf ∧ second.2 = leaf) :=
    ⟨fun _ _ notBoth both => notBoth both.symm⟩
  exact once.forall isLeft isRight apart ⟨rfl, rfl⟩

/-- No object that holds no entry occurs at two positions below a directory. -/
def NoHollowTwice (get : Key → Except ε Bytes) (dir : Key) : Prop :=
  ∀ left right key, Below get dir left key → Below get dir right key →
    left ≠ right → ¬Hollow get key

/-- Where collecting succeeds, it asked for no object twice exactly when no
object that holds no entry occurs at two positions. -/
theorem collect_fetches_once_iff
    {fuel : Nat} {root : Key} {calls : List Key} {entries : List Entry}
    (success : collectEntriesCalls get fuel root = pure (calls, entries)) :
    calls.Nodup ↔ ∀ dir, dirOf get root = .ok dir → NoHollowTwice get dir := by
  obtain ⟨dir, isDir, success⟩ := walking_bind_eq_pure_iff.mp success
  rw [answered_eq_pure_iff] at isDir
  obtain ⟨visits, positions, collected⟩ := @collectCalls_spec _ _ _
    (if root.type_ = some .commit then [root] else [], []) _ _ success
  have isCalls := collected.calls
  have ordered := collected.ordered List.Pairwise.nil
  rw [collected.entries, List.nil_append] at ordered
  have visitsNodup : visits.Nodup := List.Nodup.of_map _ positions.nodup
  have callsNodup : calls.Nodup ↔ (visits.map Prod.snd).Nodup := by
    change calls = (if root.type_ = some .commit then [root] else []) ++ _
      at isCalls
    rw [isCalls]
    split_ifs with isCommit
    · rw [List.singleton_append, List.nodup_cons, and_iff_right]
      intro isVisited
      obtain ⟨visit, isVisit, rfl⟩ := List.mem_map.mp isVisited
      exact collected.directories visit isVisit isCommit
    · rw [List.nil_append]
  rw [callsNodup]
  constructor
  · intro nodup other isOther
    cases isDir.symm.trans isOther
    intro left right key atLeft atRight different
    have isLeft := (positions.complete _ _).mpr atLeft
    have isRight := (positions.complete _ _).mpr atRight
    have same := List.inj_on_of_nodup_map nodup isLeft isRight rfl
    exact (different (Prod.mk.inj same).1).elim
  · intro once
    refine (List.nodup_map_iff_inj_on visitsNodup).mpr ?_
    rintro ⟨left, key⟩ isLeft ⟨right, other⟩ isRight rfl
    by_contra different
    have atLeft := (positions.complete _ _).mp isLeft
    have atRight := (positions.complete _ _).mp isRight
    have apart : left ≠ right := fun same => different (by rw [same])
    exact once dir isDir left right _ atLeft atRight apart
      (hollow_of_twice positions ordered atLeft atRight apart)

end Fetched

/-! ## A tower of index nodes -/

namespace Tower

/-- The object at a level: an empty leaf at the bottom, and index nodes above
it. -/
def level (n : Nat) : Key :=
  Key.newFromHash (if n = 0 then .dirLeaf else .dirNode) (.ofNat n)
    ⟨List.replicate 32 5, rfl⟩

/-- The pairs of an index node: the level below, twice. -/
def pairs (n : Nat) : List DirPair :=
  [⟨[0x61], (level n).bytes⟩, ⟨[0x62], (level n).bytes⟩]

/-- The objects of all levels.  The length field of a key tells its level. -/
def get (k : Key) : Except Unit Bytes :=
  if k.type_ = some .dirLeaf then .ok (marshalPairs [])
  else .ok (marshalPairs (pairs (k.length - 1)))

theorem canonical_level (n : Nat) : (level n).Canonical := by
  apply Key.canonical_newFromHash
  split_ifs
  · decide
  · decide

theorem parse_level (n : Nat) : Key.parse (level n).bytes = .ok (level n) :=
  (Key.parse_eq_ok_iff _ _).mpr ⟨rfl, canonical_level n⟩

theorem type_level_zero : (level 0).type_ = some .dirLeaf :=
  Key.type_newFromHash _ _ _

theorem type_level_succ (n : Nat) : (level (n + 1)).type_ = some .dirNode :=
  Key.type_newFromHash _ _ _

theorem decode_pairs (n : Nat) :
    decodeDirNode (marshalPairs (pairs n)) = .ok (pairs n) := by
  apply decodeDirNode_marshalPairs
  · change 2 ≤ _
    decide
  · have sized : (level n).bytes.length < 2 ^ 63 := by
      rw [Key.bytes_length]
      decide
    have short : [(0 : UInt8)].length < 2 ^ 63 := by decide
    rw [pairs, List.forall_mem_cons, List.forall_mem_singleton]
    exact ⟨⟨short, sized⟩, ⟨short, sized⟩⟩

theorem get_level_succ (small : n + 1 < 2 ^ 64) :
    get (level (n + 1)) = .ok (marshalPairs (pairs n)) := by
  rw [get, type_level_succ, if_neg (by decide), level, Key.length_newFromHash,
    UInt64.toNat_ofNat_of_lt' small, Nat.add_sub_cancel]

theorem collectCalls_level_zero (calls : List Key) (out : List Entry) :
    collectCalls get 1 calls out (level 0) =
      pure (calls ++ [level 0], out) := by
  have decoded : decodeDirLeaf (marshalPairs []) = .ok [] :=
    @decodeDirLeaf_parts Unit (fun _ => []) (fun _ => {}) [] (Nat.zero_le _)
      (List.forall_mem_nil _) (List.forall_mem_nil _)
  rw [collectCalls, get, type_level_zero, if_pos rfl, mapError_ok,
    answered_bind]
  dsimp only
  rw [decoded, mapError_ok, answered_bind]
  rfl

/-- Collecting a tower asks for every level twice as often as for the one
above it. -/
theorem collectCalls_level
    (small : n < 2 ^ 64) (calls : List Key) (out : List Entry) :
    ∃ asked, collectCalls get (n + 1) calls out (level n) =
        pure (calls ++ asked, out) ∧
      asked.length + 1 = 2 ^ (n + 1) ∧
      ∀ key ∈ asked, key ∈ (List.range (n + 1)).map level := by
  induction n generalizing calls with
  | zero =>
    exact ⟨[level 0], collectCalls_level_zero calls out, rfl,
      fun key isKey => isKey⟩
  | succ n ih =>
    obtain ⟨first, isFirst, firstLength, firstLevels⟩ :=
      ih (by omega) (calls ++ [level (n + 1)])
    obtain ⟨second, isSecond, secondLength, secondLevels⟩ :=
      ih (by omega) (calls ++ [level (n + 1)] ++ first)
    have lower {key : Key} (isLower : key ∈ (List.range (n + 1)).map level) :
        key ∈ (List.range (n + 2)).map level := by
      rw [List.range_succ, List.map_append]
      exact List.mem_append_left _ isLower
    refine ⟨level (n + 1) :: (first ++ second), ?_, ?_, ?_⟩
    · rw [collectCalls, get_level_succ small, mapError_ok,
        answered_bind, type_level_succ]
      dsimp only
      rw [decode_pairs, mapError_ok, answered_bind, pairs]
      simp only [List.foldlM_cons, List.foldlM_nil, parse_level,
        mapError_ok, answered_bind, isFirst, pure_bind, isSecond]
      simp
    · rw [List.length_cons, List.length_append, Nat.pow_succ]
      omega
    · intro key isKey
      rw [List.mem_cons, List.mem_append] at isKey
      rcases isKey with rfl | isKey | isKey
      · exact List.mem_map.mpr ⟨n + 1, by simp, rfl⟩
      · exact lower (firstLevels key isKey)
      · exact lower (secondLevels key isKey)

end Tower

/-- A directory of 41 objects, none of which holds an entry, is collected with
more than two to the 40 calls. -/
theorem collect_expands_tower :
    ∃ calls, collectEntriesCalls Tower.get 41 (Tower.level 40) =
        pure (calls, []) ∧
      calls.length + 1 = 2 ^ 41 ∧
      (∀ key ∈ calls, key ∈ (List.range 41).map Tower.level) ∧
      ¬calls.Nodup := by
  obtain ⟨calls, isCalls, length, levels⟩ :=
    @Tower.collectCalls_level 40 (by decide) [] []
  rw [List.nil_append] at isCalls
  have isDir : dirOf Tower.get (Tower.level 40) = .ok (Tower.level 40) := by
    rw [dirOf, Tower.type_level_succ 39]
  refine ⟨calls, ?_, length, levels, ?_⟩
  · rw [collectEntriesCalls, isDir, answered_bind, Tower.type_level_succ 39,
      if_neg (by decide)]
    exact isCalls
  · intro nodup
    have few := (List.subperm_of_subset nodup levels).length_le
    rw [List.length_map, List.length_range] at few
    omega

/-- An entry with a name of one byte. -/
def namedEntry (byte : UInt8) : Entry :=
  { name := [byte] }

/-- The key of the leaf that holds this entry. -/
def leafOf (byte : UInt8) : Key :=
  Key.newFromHash .dirLeaf 0 ⟨List.replicate 32 byte, List.length_replicate⟩

/-- An index node over the leaves of two entries. -/
def twoLeavesGet (k : Key) : Except Unit Bytes :=
  if k = leafOf 0x61 ∨ k = leafOf 0x62 then
    (marshalEntries [namedEntry (byteAt k.bytes 0)]).mapError fun _ => ()
  else
    .ok (marshalPairs [⟨[0x61], (leafOf 0x61).bytes⟩,
      ⟨[0x62], (leafOf 0x62).bytes⟩])

/-- The node and its leaves are asked for once, so nothing hollow occurs twice
below the node. -/
theorem collect_fetches_once_iff_twoLeaves :
    collectEntriesCalls twoLeavesGet 2 (Tower.level 1) =
        pure ([Tower.level 1, leafOf 0x61, leafOf 0x62],
          [namedEntry 0x61, namedEntry 0x62]) ∧
      NoHollowTwice twoLeavesGet (Tower.level 1) := by
  have success : collectEntriesCalls twoLeavesGet 2 (Tower.level 1) =
      pure ([Tower.level 1, leafOf 0x61, leafOf 0x62],
        [namedEntry 0x61, namedEntry 0x62]) := by
    change ExceptT.run _ = some (.ok _)
    decide +kernel
  refine ⟨success, (collect_fetches_once_iff success).mp (by decide) _ ?_⟩
  rw [dirOf, Tower.type_level_succ]

end AmberStore.Fstree

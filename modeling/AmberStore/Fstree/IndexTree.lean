import AmberStore.Fstree.BuilderSpec

/-!
# The tree of an index

An index is a tree with the children it was built from as its leaves.  Its nodes
are emitted in post-order, so that a node follows all that is below it and the
root comes last.
-/

open ByteString Checked List

namespace AmberStore.Fstree.IndexBuilder

open Chunkers (ItemChunker)

/-! ## Building an index -/

section Build

variable (blake3 : Bytes → Key.Digest Key.size) (hash : Bytes → UInt64)

/-- Adds children in order. -/
def addChildren (ib : IndexBuilder) : List (Key × Bytes) →
    Except BuildError (IndexBuilder × List Object)
  | [] => .ok (ib, [])
  | (ck, sep) :: rest => do
      let (ib, emitted) ← ib.addChild blake3 hash ck sep
      let (ib, later) ← addChildren ib rest
      .ok (ib, emitted ++ later)

/-- Builds the index of some children. -/
def build (ic : ItemChunker) (isDir : Bool) (children : List (Key × Bytes)) :
    Except BuildError (Key × List Object) := do
  let (ib, emitted) ← addChildren blake3 hash ⟨ic, isDir, []⟩ children
  let (root, later) ← ib.finish blake3 hash
  .ok (root, emitted ++ later)

end Build

/-! ## Trees -/

/-- A child of an index with its separator, or a node over others. -/
inductive Tree
  | leaf (ck : Key) (sep : Bytes)
  | node (obj : Object) (kids : List Tree)

namespace Tree

def key : Tree → Key
  | leaf ck _ => ck
  | node obj _ => obj.key

/-- The leaves and the nodes of a tree in post-order. -/
def listing : Tree → List ((Key × Bytes) ⊕ Object)
  | leaf ck sep => [.inl (ck, sep)]
  | node obj kids => kids.flatMap listing ++ [.inr obj]

/-- The leaves from left to right. -/
def leaves (tree : Tree) : List (Key × Bytes) :=
  tree.listing.filterMap Sum.getLeft?

/-- The nodes, each after all that is below it. -/
def nodes (tree : Tree) : List Object :=
  tree.listing.filterMap Sum.getRight?

/-- The separator of the last leaf. -/
def sep (tree : Tree) : Bytes :=
  (tree.leaves.getLast?.map Prod.snd).getD []

/-- Every node has from two children to the longest run of them, and encodes
them: by their keys, and in a directory by their separators as well. -/
inductive Formed (blake3 : Bytes → Key.Digest Key.size) (ic : ItemChunker)
    (isDir : Bool) : Tree → Prop
  | leaf (ck : Key) (sep : Bytes) : Formed blake3 ic isDir (.leaf ck sep)
  | node {obj : Object} {kids : List Tree}
      (several : 2 ≤ kids.length) (room : kids.length ≤ ic.maxRun)
      (below : ∀ kid ∈ kids, Formed blake3 ic isDir kid)
      (isNode : (if isDir then
          encodeDirNode blake3 (kids.map fun kid => ⟨kid.sep, kid.key.bytes⟩)
        else .ok (encodeFileNode blake3 (kids.map key))) = .ok obj) :
      Formed blake3 ic isDir (.node obj kids)

variable {blake3 : Bytes → Key.Digest Key.size} {ic : ItemChunker}
variable {isDir : Bool} {tree : Tree} {kids : List Tree}

theorem leaves_node (obj : Object) (kids : List Tree) :
    (node obj kids).leaves = kids.flatMap leaves := by
  rw [leaves, listing, filterMap_append, filterMap_flatMap]
  exact append_nil _

theorem leaves_ne_nil (formed : tree.Formed blake3 ic isDir) :
    tree.leaves ≠ [] := by
  induction formed with
  | leaf ck sep => simp [leaves, listing]
  | @node obj kids several _ _ _ ih =>
    obtain ⟨kid, isKid⟩ := exists_mem_of_length_pos
      (Nat.lt_of_lt_of_le Nat.zero_lt_two several)
    rw [leaves_node, Ne, flatMap_eq_nil_iff]
    exact fun none => ih kid isKid (none kid isKid)

/-- The separator of a node is that of its last child. -/
theorem sep_node
    (obj : Object) (below : ∀ kid ∈ kids, kid.Formed blake3 ic isDir) :
    (node obj kids).sep = (kids.map sep).getLast?.getD [] := by
  rcases eq_nil_or_concat kids with rfl | ⟨before, last, rfl⟩
  · simp [sep, leaves_node]
  · have present := leaves_ne_nil (below last (by simp))
    rw [sep, leaves_node, concat_eq_append, flatMap_append,
      flatMap_singleton, getLast?_append_of_ne_nil _ present]
    simp [sep]

end Tree

/-! ## What is built is a tree -/

variable {blake3 : Bytes → Key.Digest Key.size} {hash : Bytes → UInt64}
variable {ic : ItemChunker} {isDir : Bool}

/-- A key stands for a tree with a listing. -/
def IsTree (blake3 : Bytes → Key.Digest Key.size) (ic : ItemChunker)
    (isDir : Bool) (k : Key) (sep : Bytes)
    (listing : List ((Key × Bytes) ⊕ Object)) : Prop :=
  ∃ tree : Tree, tree.Formed blake3 ic isDir ∧ tree.key = k ∧
    (if isDir then tree.sep else []) = sep ∧ tree.listing = listing

theorem exists_kids
    {children : List (Key × Bytes)}
    (all : List.Forall₂ (fun child part =>
      IsTree blake3 ic isDir child.1 child.2 part) children parts) :
    ∃ kids : List Tree, (∀ kid ∈ kids, kid.Formed blake3 ic isDir) ∧
      children = kids.map (fun kid =>
        (kid.key, if isDir then kid.sep else [])) ∧
      parts = kids.map Tree.listing := by
  induction all with
  | nil => exact ⟨[], by simp, rfl, rfl⟩
  | @cons child part _ _ first _ ih =>
    obtain ⟨kids, formed, rfl, rfl⟩ := ih
    obtain ⟨kid, isFormed, isKey, isSep, rfl⟩ := first
    refine ⟨kid :: kids, forall_mem_cons.mpr ⟨isFormed, formed⟩, ?_, rfl⟩
    rw [map_cons, isKey, isSep]

theorem map_fst_children (counted : WellCounted isDir level) :
    (children isDir level).map Prod.fst = level.keys := by
  unfold children
  cases dir : isDir with
  | false =>
    rw [if_neg (by decide), map_map]
    exact map_id _
  | true =>
    rw [if_pos rfl, map_fst_zip]
    rw [counted.keys, counted.seps dir]

/-- Index levels keep to the rule of index nodes. -/
theorem closes_isTree :
    Closes blake3 ic isDir (fun _ => True) (fun obj => [.inr obj])
      (IsTree blake3 ic isDir) := by
  intro level content obj sep counted several room carries isNode _
  obtain ⟨parts, all, rfl⟩ := carries
  obtain ⟨kids, formed, areKids, rfl⟩ := exists_kids all
  have sized : kids.length = level.runLen := by
    rw [← length_children counted, areKids, length_map]
  have isListing : (Tree.node obj kids).listing =
      (kids.map Tree.listing).flatten ++ [.inr obj] := by
    rw [Tree.listing, flatMap_def]
  have areKeys : level.keys = kids.map Tree.key := by
    rw [← map_fst_children counted, areKids, map_map]
    rfl
  cases isDir with
  | false =>
    cases isNode
    refine ⟨.node _ kids, .node (sized ▸ several) (sized ▸ room) formed ?_, rfl,
      rfl, isListing⟩
    rw [← areKeys]
    rfl
  | true =>
    have areSeps : level.seps = kids.map Tree.sep := by
      have isSnd := congrArg (List.map Prod.snd) areKids
      rw [children, if_pos rfl, map_snd_zip
        (by rw [counted.keys, counted.seps rfl]), map_map] at isSnd
      exact isSnd
    obtain ⟨node, encoded, isObj⟩ := bind_eq_ok_iff.mp isNode
    cases isObj
    rw [mapError_eq_ok_iff, areKeys, areSeps, zipWith_map,
      zipWith_self] at encoded
    refine ⟨.node obj kids, .node (sized ▸ several) (sized ▸ room) formed
      encoded, rfl, ?_, isListing⟩
    rw [if_pos rfl, if_pos rfl, Tree.sep_node obj formed, areSeps]

theorem Holds.addChildren
    {children : List (Key × Bytes)} {levels : List IdxLevel}
    (holds : Holds ic isDir (IsTree blake3 ic isDir) levels listing)
    (added : addChildren blake3 hash ⟨ic, isDir, levels⟩ children =
      .ok (ib, emitted)) :
    ∃ after more, ib = ⟨ic, isDir, after⟩ ∧
      Holds ic isDir (IsTree blake3 ic isDir) after (listing ++ more) ∧
      more.filterMap Sum.getLeft? = children ∧
      more.filterMap Sum.getRight? = emitted := by
  induction children generalizing levels listing emitted with
  | nil =>
    cases added
    exact ⟨levels, [], rfl, by rwa [append_nil], rfl, rfl⟩
  | cons child children ih =>
    obtain ⟨ck, sep⟩ := child
    obtain ⟨⟨_, first⟩, isAdded, added⟩ := bind_eq_ok_iff.mp added
    obtain ⟨⟨_, later⟩, addedRest, same⟩ := bind_eq_ok_iff.mp added
    cases same
    obtain ⟨⟨next, _⟩, isAdded, same⟩ := bind_eq_ok_iff.mp isAdded
    cases same
    have isLeaf : IsTree blake3 ic isDir ck (if isDir then sep else [])
        [.inl (ck, sep)] := by
      refine ⟨.leaf ck sep, .leaf ck sep, rfl, ?_, by rw [Tree.listing]⟩
      simp [Tree.sep, Tree.leaves, Tree.listing]
    obtain ⟨nextHolds, -⟩ := holds.addFrom closes_isTree isLeaf isAdded
      fun _ _ => trivial
    obtain ⟨after, more, rfl, stillHolds, rfl, rfl⟩ := ih nextHolds addedRest
    refine ⟨after, [.inl (ck, sep)] ++ first.flatMap (fun obj => [.inr obj]) ++
      more, rfl, by simpa only [append_assoc] using stillHolds, ?_, ?_⟩
    · simp [filterMap_flatMap]
    · rw [filterMap_append, filterMap_append, filterMap_flatMap]
      exact congrArg (· ++ _) (flatMap_singleton' first)

theorem Ready.outcome_addChildren
    {levels : List IdxLevel} (ready : Ready canonical levels)
    {children : List (Key × Bytes)}
    (each : canonical → ∀ child ∈ children, child.1.Canonical) :
    Outcome isDir canonical
      (fun added => ∃ after, added.1 = ⟨ic, isDir, after⟩ ∧
        Ready canonical after ∧ (children ≠ [] ∨ levels ≠ [] → after ≠ []))
      (addChildren blake3 hash ⟨ic, isDir, levels⟩ children) := by
  induction children generalizing levels with
  | nil => exact .ok ⟨levels, rfl, ready, by simp⟩
  | cons child children ih =>
    obtain ⟨ck, sep⟩ := child
    rw [IndexBuilder.addChildren]
    refine (ready.outcome_addChild
      (fun sound => each sound _ mem_cons_self) sep).bind ?_
    rintro ⟨_, emitted⟩ - ⟨next, rfl, -, nextReady, present⟩
    refine (ih nextReady fun sound other isIn =>
      each sound other (mem_cons_of_mem _ isIn)).bind ?_
    rintro ⟨_, later⟩ - ⟨after, rfl, stillReady, stillPresent⟩
    exact .ok ⟨after, rfl, stillReady, fun _ => stillPresent (.inr present)⟩

/-- Whatever the boundaries, some children in order become a tree over them:
the nodes are emitted in post-order, each with a run of children and, in a
directory, with the separator of the last child below each of these.  The root
comes last, unless it is the only child.  A build only fails where a child of a
directory has a key that is not canonical, and never for want of children. -/
theorem build_isTree
    (blake3 : Bytes → Key.Digest Key.size) (hash : Bytes → UInt64)
    (ic : ItemChunker) (isDir : Bool) (first : Key × Bytes)
    (rest : List (Key × Bytes)) :
    build blake3 hash ic isDir (first :: rest) ≠ .error .noChildren ∧
    ((isDir = true → ∀ child ∈ first :: rest, child.1.Canonical) →
      ∃ root emitted, build blake3 hash ic isDir (first :: rest) =
        .ok (root, emitted)) ∧
    ∀ root emitted,
      build blake3 hash ic isDir (first :: rest) = .ok (root, emitted) →
      (∃ tree : Tree, tree.Formed blake3 ic isDir ∧ tree.key = root ∧
        tree.leaves = first :: rest ∧ tree.nodes = emitted) ∧
      (emitted = [] ∧ rest = [] ∧ root = first.1 ∨
        ∃ earlier last, emitted = earlier ++ [last] ∧ root = last.key) := by
  have comes : Outcome isDir (∀ child ∈ first :: rest, child.1.Canonical)
      (fun _ => True) (build blake3 hash ic isDir (first :: rest)) := by
    refine (ready_nil.outcome_addChildren fun sound => sound).bind ?_
    rintro ⟨_, emitted⟩ - ⟨after, rfl, ready, present⟩
    exact (outcome_finishFrom ready.runs
      (ready.topped.resolve_left (present (.inl nofun)))).bind
        fun _ _ _ => .ok trivial
  refine ⟨?_, ?_, ?_⟩
  · intro failed
    rw [failed] at comes
    cases comes
  · intro sound
    obtain ⟨⟨root, emitted⟩, built, -⟩ := comes.exists_ok sound
    exact ⟨root, emitted, built⟩
  · intro root emitted built
    obtain ⟨⟨ib, early⟩, added, built⟩ := bind_eq_ok_iff.mp built
    obtain ⟨⟨_, later⟩, finished, same⟩ := bind_eq_ok_iff.mp built
    cases same
    have start : Holds ic isDir (IsTree blake3 ic isDir) [] [] := rfl
    obtain ⟨after, more, rfl, holds, areLeaves, areNodes⟩ :=
      start.addChildren added
    obtain ⟨⟨sep, tree, formed, isRoot, -, isListing⟩, -⟩ :=
      holds.finishFrom closes_isTree finished fun _ _ => trivial
    have leaves : tree.leaves = first :: rest := by
      simp [Tree.leaves, isListing, areLeaves, filterMap_flatMap]
    have nodes : tree.nodes = early ++ later := by
      simp [Tree.nodes, isListing, areNodes, filterMap_flatMap]
    refine ⟨⟨tree, formed, isRoot, leaves, nodes⟩, ?_⟩
    rw [← nodes, ← isRoot]
    cases tree with
    | leaf ck sep =>
      left
      simp only [Tree.leaves, Tree.listing] at leaves
      cases leaves
      exact ⟨by simp [Tree.nodes, Tree.listing], rfl, rfl⟩
    | node obj kids =>
      right
      rw [Tree.nodes, Tree.listing, filterMap_append]
      exact ⟨_, obj, rfl, rfl⟩

end AmberStore.Fstree.IndexBuilder

import Mathlib.Data.List.Forall2
import Mathlib.Data.Set.Finite.Basic

/-!
# Walks over links that may call their target a leaf

A link names a node and may say that the node is a leaf.  Two links may
disagree, so a walk that takes a node for a leaf must still follow it when
another link denies that.

A walk has met some nodes and has sent some of them to be followed.  It still
has links to look at, and nodes that were sent but not followed yet.  The rules
say what it keeps, whatever it keeps these in and in whatever order it takes
them.
-/

open List

namespace LeafWalk

variable {κ ℓ : Type*}

/-- Nodes with the links they have, where they can be followed at all. -/
structure Graph (κ ℓ : Type*) where
  /-- The node a link names. -/
  key : ℓ → κ
  /-- The link says that the node is a leaf. -/
  leaf : ℓ → Prop
  out : κ → Option (List ℓ)

namespace Graph

variable (graph : Graph κ ℓ)

/-- The links met from the roots by following what no link to it calls a
leaf. -/
inductive Met (roots : Set ℓ) : ℓ → Prop
  | root {link : ℓ} (isRoot : link ∈ roots) : Met roots link
  | follow {link target : ℓ} {links : List ℓ} (met : Met roots link)
      (inner : ¬graph.leaf link) (isOut : graph.out (graph.key link) = some links)
      (isLink : target ∈ links) : Met roots target

/-- Some link that is met names the node. -/
def Reachable (roots : Set ℓ) (node : κ) : Prop :=
  ∃ link, graph.Met roots link ∧ graph.key link = node

/-- Some link that is met names the node and does not call it a leaf. -/
def Followed (roots : Set ℓ) (node : κ) : Prop :=
  ∃ link, graph.Met roots link ∧ ¬graph.leaf link ∧ graph.key link = node

end Graph

/-- Where a walk stands. -/
structure Position (κ ℓ : Type*) where
  met : Set κ
  /-- The nodes that were sent to be followed. -/
  sent : Set κ
  pending : Set ℓ
  /-- The nodes that were sent and not followed yet. -/
  frontier : Set κ

variable {graph : Graph κ ℓ} {roots : Set ℓ} {position : Position κ ℓ}

/-- A link is dealt with, or will be. -/
def Covers (graph : Graph κ ℓ) (position : Position κ ℓ) (link : ℓ) : Prop :=
  link ∈ position.pending ∨
    (graph.key link ∈ position.met ∧
      (¬graph.leaf link → graph.key link ∈ position.sent))

/-- What a walk keeps. -/
structure Keeps (graph : Graph κ ℓ) (roots : Set ℓ)
    (position : Position κ ℓ) : Prop where
  met : ∀ node ∈ position.met, graph.Reachable roots node
  sent : ∀ node ∈ position.sent, graph.Followed roots node
  pending : ∀ link ∈ position.pending, graph.Met roots link
  roots : ∀ link ∈ roots, Covers graph position link
  followed : ∀ node ∈ position.sent, node ∉ position.frontier →
    ∃ links, graph.out node = some links ∧
      ∀ link ∈ links, Covers graph position link

/-- At the start all there is are the roots to look at. -/
theorem Keeps.start (graph : Graph κ ℓ) (roots : Set ℓ) :
    Keeps graph roots ⟨∅, ∅, roots, ∅⟩ where
  met := by simp
  sent := by simp
  pending _ isRoot := .root isRoot
  roots _ isRoot := .inl isRoot
  followed := by simp

variable {pending : Set ℓ}

/-- A link to a leaf, or to a node that was sent before, is only met. -/
theorem Keeps.look
    (keeps : Keeps graph roots position)
    (isPending : link ∈ position.pending)
    (noMore : ¬graph.leaf link → graph.key link ∈ position.sent)
    (fewer : pending ⊆ position.pending)
    (rest : ∀ later ∈ position.pending, later = link ∨ later ∈ pending) :
    Keeps graph roots ⟨insert (graph.key link) position.met, position.sent,
      pending, position.frontier⟩ := by
  have stays : ∀ other, Covers graph position other →
      Covers graph ⟨insert (graph.key link) position.met, position.sent,
        pending, position.frontier⟩ other := by
    rintro other (isPending | ⟨isMet, isSent⟩)
    · rcases rest other isPending with rfl | stillPending
      · exact .inr ⟨Set.mem_insert _ _, noMore⟩
      · exact .inl stillPending
    · exact .inr ⟨Set.mem_insert_of_mem _ isMet, isSent⟩
  refine ⟨?met, keeps.sent, fun later isIn => keeps.pending later (fewer isIn),
    fun root isRoot => stays root (keeps.roots root isRoot), ?followed⟩
  case met =>
    rintro node (rfl | wasMet)
    · exact ⟨link, keeps.pending link isPending, rfl⟩
    · exact keeps.met node wasMet
  case followed =>
    intro node isSent notWaiting
    obtain ⟨links, isOut, covered⟩ := keeps.followed node isSent notWaiting
    exact ⟨links, isOut, fun other isLink => stays other (covered other isLink)⟩

/-- A link that does not say leaf sends its node. -/
theorem Keeps.send
    (keeps : Keeps graph roots position)
    (isPending : link ∈ position.pending) (inner : ¬graph.leaf link)
    (fewer : pending ⊆ position.pending)
    (rest : ∀ later ∈ position.pending, later = link ∨ later ∈ pending) :
    Keeps graph roots ⟨insert (graph.key link) position.met,
      insert (graph.key link) position.sent, pending,
      insert (graph.key link) position.frontier⟩ := by
  have stays : ∀ other, Covers graph position other →
      Covers graph ⟨position.met, insert (graph.key link) position.sent,
        position.pending, insert (graph.key link) position.frontier⟩ other :=
    fun other covers => covers.imp_right fun dealt =>
      ⟨dealt.1, fun inner => Set.mem_insert_of_mem _ (dealt.2 inner)⟩
  have waits : Keeps graph roots ⟨position.met,
      insert (graph.key link) position.sent, position.pending,
      insert (graph.key link) position.frontier⟩ := by
    refine ⟨keeps.met, ?sent, keeps.pending,
      fun root isRoot => stays root (keeps.roots root isRoot), ?followed⟩
    case sent =>
      rintro node (rfl | wasSent)
      · exact ⟨link, keeps.pending link isPending, inner, rfl⟩
      · exact keeps.sent node wasSent
    case followed =>
      intro node isSent notWaiting
      rw [Set.mem_insert_iff, not_or] at notWaiting
      obtain ⟨links, isOut, covered⟩ := keeps.followed node
        (Set.mem_of_mem_insert_of_ne isSent notWaiting.1) notWaiting.2
      exact ⟨links, isOut,
        fun other isLink => stays other (covered other isLink)⟩
  exact waits.look isPending (fun _ => Set.mem_insert _ _) fewer rest

/-- A node that waits is followed: its links are to be looked at. -/
theorem Keeps.follow
    (keeps : Keeps graph roots position) {frontier : Set κ}
    (isSent : node ∈ position.sent) (isOut : graph.out node = some links)
    (rest : ∀ other ∈ position.frontier, other = node ∨ other ∈ frontier)
    (kept : position.pending ⊆ pending)
    (added : ∀ link ∈ links, link ∈ pending)
    (noOthers : ∀ link ∈ pending, link ∈ position.pending ∨ link ∈ links) :
    Keeps graph roots ⟨position.met, position.sent, pending, frontier⟩ := by
  have stays : ∀ other, Covers graph position other →
      Covers graph ⟨position.met, position.sent, pending, frontier⟩ other :=
    fun other covers => covers.imp_left fun isPending => kept isPending
  refine ⟨keeps.met, keeps.sent, ?pending,
    fun root isRoot => stays root (keeps.roots root isRoot), ?followed⟩
  case pending =>
    intro link isPending
    rcases noOthers link isPending with before | isLink
    · exact keeps.pending link before
    · obtain ⟨named, isMet, inner, rfl⟩ := keeps.sent node isSent
      exact .follow isMet inner isOut isLink
  case followed =>
    intro other otherSent notWaiting
    by_cases same : other = node
    · subst same
      exact ⟨links, isOut, fun link isLink => .inl (added link isLink)⟩
    · have notBefore : other ∉ position.frontier := fun waited =>
      (rest other waited).elim same notWaiting
      obtain ⟨otherLinks, otherOut, covered⟩ :=
        keeps.followed other otherSent notBefore
      exact ⟨otherLinks, otherOut,
        fun link isLink => stays link (covered link isLink)⟩

/-- Several nodes that wait are followed. -/
theorem Keeps.followAll
    {met sent : Set κ}
    {node : α → Option κ}
    (keeps : Keeps graph roots
      ⟨met, sent, pending, {k | ∃ a ∈ waiting, node a = some k} ∪ rest⟩)
    (each : List.Forall₂ (fun a links =>
      (∀ k, node a = some k → k ∈ sent ∧ graph.out k = some links) ∧
        (node a = none → links = [])) waiting lists) :
    Keeps graph roots
      ⟨met, sent, pending ∪ {link | link ∈ lists.flatten}, rest⟩ := by
  induction each generalizing pending with
  | nil => simpa using keeps
  | @cons a links waiting lists first _ ih =>
    cases isNode : node a with
    | none =>
      rw [first.2 isNode, flatten_cons, nil_append]
      refine ih ?_
      convert keeps using 3
      simp [isNode]
    | some k =>
      obtain ⟨isSent, isOut⟩ := first.1 k isNode
      have others : ∀ other ∈ {k | ∃ b ∈ a :: waiting, node b = some k} ∪ rest,
          other = k ∨ other ∈ {k | ∃ b ∈ waiting, node b = some k} ∪ rest := by
        rintro other (⟨b, isIn, isOther⟩ | isRest)
        · rcases mem_cons.mp isIn with rfl | isLater
          · rw [isNode, Option.some.injEq] at isOther
            exact .inl isOther.symm
          · exact .inr (.inl ⟨b, isLater, isOther⟩)
        · exact .inr (.inr isRest)
      have followed : Keeps graph roots
          ⟨met, sent, pending ∪ {link | link ∈ links},
            {k | ∃ b ∈ waiting, node b = some k} ∪ rest⟩ :=
        keeps.follow isSent isOut others Set.subset_union_left
          (fun link isLink => .inr isLink) (fun link isIn => isIn)
      have split : pending ∪ {link | link ∈ (links :: lists).flatten} =
          pending ∪ {link | link ∈ links} ∪ {link | link ∈ lists.flatten} := by
        ext link
        simp [or_assoc]
      rw [split]
      exact ih followed

section Stack

variable {met sent : Set κ} {link : ℓ} {stack : List ℓ} {later : Set ℓ}

theorem rest_subset_pending :
    {other | other ∈ stack} ∪ later ⊆ {other | other ∈ link :: stack} ∪ later :=
  Set.union_subset_union_left later fun _ isIn => mem_cons_of_mem _ isIn

theorem eq_or_mem_rest
    (isIn : other ∈ {other | other ∈ link :: stack} ∪ later) :
    other = link ∨ other ∈ {other | other ∈ stack} ∪ later := by
  rcases isIn with isIn | isLater
  · exact (mem_cons.mp isIn).imp_right .inl
  · exact .inr (.inr isLater)

/-- The top of the stack is only looked at. -/
theorem Keeps.popLook
    (keeps : Keeps graph roots
      ⟨met, sent, {other | other ∈ link :: stack} ∪ later, ∅⟩)
    (noMore : ¬graph.leaf link → graph.key link ∈ sent) :
    Keeps graph roots
      ⟨insert (graph.key link) met, sent, {other | other ∈ stack} ∪ later, ∅⟩ :=
  keeps.look (.inl mem_cons_self) noMore rest_subset_pending
    fun _ isIn => eq_or_mem_rest isIn

/-- The top of the stack is followed: its node's links go onto the stack. -/
theorem Keeps.popFollow
    (keeps : Keeps graph roots
      ⟨met, sent, {other | other ∈ link :: stack} ∪ later, ∅⟩)
    (inner : ¬graph.leaf link) {links : List ℓ}
    (isOut : graph.out (graph.key link) = some links) :
    Keeps graph roots
      ⟨insert (graph.key link) met, insert (graph.key link) sent,
        {other | other ∈ links.reverse ++ stack} ∪ later, ∅⟩ := by
  have isSent := keeps.send (.inl mem_cons_self) inner rest_subset_pending
    fun _ isIn => eq_or_mem_rest isIn
  refine isSent.follow (Set.mem_insert _ _) isOut ?rest ?kept ?added ?noOthers
  case rest => exact fun other waits => .inl (by simpa using waits)
  case kept =>
    exact Set.union_subset_union_left later fun other isIn =>
      mem_append_right _ isIn
  case added =>
    exact fun other isLink =>
      .inl (mem_append_left _ (mem_reverse.mpr isLink))
  case noOthers =>
    rintro other (isIn | isLater)
    · rcases mem_append.mp isIn with isNew | isOld
      · exact .inr (mem_reverse.mp isNew)
      · exact .inl (.inl isOld)
    · exact .inl (.inr isLater)

end Stack

/-- When nothing is left to do, every link that is met was dealt with. -/
theorem Keeps.covers_of_met
    (keeps : Keeps graph roots position)
    (noFrontier : position.frontier = ∅) (noPending : position.pending = ∅)
    (isMet : graph.Met roots link) :
    graph.key link ∈ position.met ∧
      (¬graph.leaf link → graph.key link ∈ position.sent) := by
  have settled : ∀ other, Covers graph position other →
      graph.key other ∈ position.met ∧
        (¬graph.leaf other → graph.key other ∈ position.sent) := by
    intro other covers
    rcases covers with isPending | dealt
    · rw [noPending] at isPending
      exact absurd isPending (Set.notMem_empty _)
    · exact dealt
  induction isMet with
  | root isRoot => exact settled _ (keeps.roots _ isRoot)
  | follow _ inner isOut isLink ih =>
    obtain ⟨found, foundOut, covered⟩ := keeps.followed _
      (ih.2 inner) (by rw [noFrontier]; exact Set.notMem_empty _)
    rw [isOut, Option.some.injEq] at foundOut
    subst foundOut
    exact settled _ (covered _ isLink)

/-- A walk that is through met what is reachable. -/
theorem Keeps.mem_met_iff
    (keeps : Keeps graph roots position)
    (noFrontier : position.frontier = ∅) (noPending : position.pending = ∅)
    (node : κ) : node ∈ position.met ↔ graph.Reachable roots node := by
  refine ⟨keeps.met node, ?_⟩
  rintro ⟨link, isMet, rfl⟩
  exact (keeps.covers_of_met noFrontier noPending isMet).1

/-- A walk that is through could follow what it had to. -/
theorem Keeps.out_of_followed
    (keeps : Keeps graph roots position)
    (noFrontier : position.frontier = ∅) (noPending : position.pending = ∅)
    (isFollowed : graph.Followed roots node) :
    ∃ links, graph.out node = some links := by
  obtain ⟨link, isMet, inner, rfl⟩ := isFollowed
  obtain ⟨links, isOut, -⟩ := keeps.followed _
    ((keeps.covers_of_met noFrontier noPending isMet).2 inner)
    (by rw [noFrontier]; exact Set.notMem_empty _)
  exact ⟨links, isOut⟩

/-! ## How much is left -/

open Classical in
/-- How many nodes that could be followed were not. -/
noncomputable def left {nodes : Set κ} (finite : nodes.Finite)
    (sent frontier : Set κ) : Nat :=
  (finite.toFinset.filter fun node => node ∈ sent → node ∈ frontier).card

section Left

variable {nodes : Set κ} {finite : nodes.Finite}
variable {sent frontier laterSent laterFrontier : Set κ}
variable (stays : ∀ node, node ∈ sent → node ∉ frontier →
  node ∈ laterSent ∧ node ∉ laterFrontier)
include stays

open Classical in
theorem filter_left_subset :
    (finite.toFinset.filter fun node =>
        node ∈ laterSent → node ∈ laterFrontier) ⊆
      finite.toFinset.filter fun node => node ∈ sent → node ∈ frontier := by
  refine Finset.monotone_filter_right _ fun node _ isLeft isSent => ?_
  by_contra notWaiting
  obtain ⟨stillSent, stillNot⟩ := stays node isSent notWaiting
  exact stillNot (isLeft stillSent)

/-- What was followed stays followed. -/
theorem left_le :
    left finite laterSent laterFrontier ≤ left finite sent frontier :=
  Finset.card_le_card (filter_left_subset stays)

/-- One more node is followed. -/
theorem left_lt
    (isNode : node ∈ nodes) (before : node ∈ sent → node ∈ frontier)
    (after : node ∈ laterSent ∧ node ∉ laterFrontier) :
    left finite laterSent laterFrontier < left finite sent frontier := by
  classical
  apply Finset.card_lt_card
  rw [Finset.ssubset_iff_of_subset (filter_left_subset stays)]
  refine ⟨node, ?_, ?_⟩
  · simpa only [Finset.mem_filter, Set.Finite.mem_toFinset] using
      ⟨isNode, before⟩
  · simp only [Finset.mem_filter, not_and]
    exact fun _ waits => after.2 (waits after.1)

end Left

/-- A node is sent and followed at once. -/
theorem left_insert_lt
    {finite : Set.Finite {node | graph.out node ≠ none}}
    (isOut : graph.out node = some links)
    (notSent : node ∉ sent) :
    left finite (insert node sent) ∅ < left finite sent ∅ := by
  have canFollow : node ∈ {node | graph.out node ≠ none} := by
    rw [Set.mem_ofPred_eq, isOut]
    exact Option.some_ne_none links
  exact left_lt
    (fun other isSent _ =>
      ⟨Set.mem_insert_of_mem _ isSent, Set.notMem_empty other⟩)
    canFollow (fun isSent => absurd isSent notSent)
    ⟨Set.mem_insert _ _, Set.notMem_empty _⟩

end LeafWalk

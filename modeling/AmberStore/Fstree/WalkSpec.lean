import AmberStore.Fstree.Walk
import AmberStore.Lib.LeafWalk

/-!
# What the breadth-first walks meet

Both walks go over the graph of the objects level by level.  A level is fetched
as a whole and its links are recorded one by one; the rules of walks say what
that keeps, and both walks end because a level that is fetched is never fetched
again.
-/

open ByteString Checked Function
open List hiding after

namespace AmberStore.Fstree

open Gitobj (Link)
open LeafWalk

variable {ε : Type}

/-- The objects of a store, and the links of those that can be read. -/
def objectGraph (get : Key → Except ε Bytes) :
    LeafWalk.Graph Key Link where
  key := Link.key
  leaf l := l.leaf
  out k := (get k).toOption.bind fun data => (links k data).toOption

section Graph

variable {get : Key → Except ε Bytes}

@[simp] theorem objectGraph_key (l : Link) : (objectGraph get).key l = l.key :=
  rfl

@[simp] theorem objectGraph_leaf (l : Link) :
    (objectGraph get).leaf l ↔ l.leaf = true :=
  Iff.rfl

theorem objectGraph_out :
    (objectGraph get).out k = some found ↔
      ∃ data, get k = .ok data ∧ links k data = .ok found := by
  unfold objectGraph
  dsimp only
  cases get k with
  | error failure => simp [Except.toOption]
  | ok data => cases isRead : links k data <;> simp [Except.toOption, isRead]

theorem fetch_eq_ok_iff :
    fetch get k = .ok found ↔ (objectGraph get).out k = some found := by
  rw [objectGraph_out, fetch, bind_eq_ok_iff]
  simp only [mapError_eq_ok_iff]

/-- Every link that is met says what the key says, or names a git object. -/
theorem honest_of_met
    (honestRoots : ∀ l ∈ roots, Honest l)
    (isMet : (objectGraph get).Met roots l) : Honest l := by
  cases isMet with
  | root isRoot => exact honestRoots l isRoot
  | follow _ _ isOut isLink =>
    obtain ⟨data, -, isRead⟩ := objectGraph_out.mp isOut
    exact honest_of_links isRead l isLink

/-- The links to some roots. -/
def rootLinks (roots : List Key) : Set Link :=
  {l | ∃ root ∈ roots, l = linkTo root}

theorem honest_rootLinks (roots : List Key) :
    ∀ l ∈ rootLinks roots, Honest l := by
  rintro _ ⟨root, -, rfl⟩
  exact honest_linkTo root

theorem rootLinks_singleton (root : Key) :
    rootLinks [root] = {linkTo root} := by
  ext l
  simp [rootLinks]

/-- Where objects can be followed they can be read. -/
theorem finite_out
    (finite : Set.Finite {k | ∃ data, get k = .ok data}) :
    Set.Finite {k | (objectGraph get).out k ≠ none} := by
  refine finite.subset fun k isOut => ?_
  obtain ⟨found, isFound⟩ := Option.ne_none_iff_exists'.mp isOut
  obtain ⟨data, isRead, -⟩ := objectGraph_out.mp isFound
  exact ⟨data, isRead⟩

end Graph

/-! ## Recording links -/

namespace Visits

/-- The keys that were met. -/
def met (seen : Visits) : Set Key := {k | seen k ≠ none}

/-- The keys that were sent to be read. -/
def sent (seen : Visits) : Set Key := {k | seen k = some true}

/-- The keys of the links that say there is more below. -/
def below (links : List Link) : Set Key :=
  {k | ∃ l ∈ links, l.leaf = false ∧ l.key = k}

theorem below_cons (l : Link) (links : List Link) :
    below (l :: links) = (if l.leaf then ∅ else {l.key}) ∪ below links := by
  ext k
  cases isLeaf : l.leaf <;> simp [below, isLeaf, @eq_comm _ l.key]

/-- What recording links does. -/
structure Records (seen : Visits) (links : List Link)
    (after : Visits) (news : List Key) (acts : List Link) : Prop where
  met : after.met = seen.met ∪ {k | k ∈ news}
  sent : after.sent = seen.sent ∪ below acts
  distinct : news.Nodup
  unseen : ∀ k ∈ news, k ∉ seen.met
  fresh : ∀ k ∈ below acts, k ∉ seen.sent
  acted : ∀ k ∈ news, ∃ l ∈ acts, l.key = k
  given : ∀ l ∈ acts, l ∈ links

theorem met_update (seen : Visits) (k : Key) (read : Bool) :
    met (update seen k (some read)) = insert k seen.met := by
  ext other
  by_cases same : other = k
  · subst same
    simp [met]
  · simp [met, same]

theorem sent_update (seen : Visits) (k : Key) (read : Bool)
    (notSent : k ∉ seen.sent) :
    sent (update seen k (some read)) =
      if read then insert k seen.sent else seen.sent := by
  ext other
  by_cases same : other = k
  · subst same
    have notRead : seen other ≠ some true := notSent
    cases read <;> simp [sent, notRead]
  · cases read <;> simp [sent, same]

/-- There is nothing to do for a link to what was met unless it is the first to
say that there is more below. -/
theorem visit_cases (seen : Visits) (l : Link) :
    (seen.visit l = ((false, false), seen) ∧ l.key ∈ seen.met ∧
        (l.leaf = false → l.key ∈ seen.sent)) ∨
      ∃ isNew, seen.visit l =
          ((isNew, true), update seen l.key (some (!l.leaf))) ∧
        (isNew = true ↔ l.key ∉ seen.met) ∧ l.key ∉ seen.sent := by
  unfold visit met sent
  cases isSeen : seen l.key with
  | none => exact .inr ⟨true, by simp [isSeen]⟩
  | some read =>
    cases read <;> cases l.leaf <;> simp [isSeen]

/-- A link there is something to do for is recorded before the others. -/
theorem Records.cons
    {seen : Visits} {links : List Link}
    (newIff : isNew = true ↔ l.key ∉ seen.met) (notSent : l.key ∉ seen.sent)
    (rest : Records (update seen l.key (some (!l.leaf))) links
      after news acts) :
    Records seen (l :: links) after
      (if isNew then l.key :: news else news) (l :: acts) := by
  obtain ⟨met, sent, distinct, unseen, fresh, acted, given⟩ := rest
  rw [met_update] at met unseen
  rw [sent_update _ _ _ notSent] at sent fresh
  have listed : ∀ k, k ∈ (if isNew then l.key :: news else news) ↔
      (k = l.key ∧ l.key ∉ seen.met) ∨ k ∈ news := by
    intro k
    cases isNew <;> simp [← newIff]
  refine ⟨?met, ?sent, ?distinct, ?unseen, ?fresh, ?acted, ?given⟩
  case met =>
    ext k
    simp only [met, Set.mem_union, Set.mem_insert_iff, Set.mem_ofPred_eq, listed]
    by_cases same : k = l.key
    · subst same
      tauto
    · tauto
  case sent =>
    rw [sent, below_cons]
    cases l.leaf <;> simp [Set.insert_union, Set.union_comm]
  case distinct =>
    cases isNew with
    | false => exact distinct
    | true =>
      exact nodup_cons.mpr
        ⟨fun isIn => unseen _ isIn (Set.mem_insert _ _), distinct⟩
  case unseen =>
    intro k isIn
    rcases (listed k).mp isIn with ⟨rfl, isUnseen⟩ | later
    · exact isUnseen
    · exact fun wasMet => unseen k later (Set.mem_insert_of_mem _ wasMet)
  case fresh =>
    rintro k ⟨other, isIn, isInner, rfl⟩
    rcases mem_cons.mp isIn with rfl | later
    · exact notSent
    · intro wasSent
      refine fresh other.key ⟨other, later, isInner, rfl⟩ ?_
      split
      · exact Set.mem_insert_of_mem _ wasSent
      · exact wasSent
  case acted =>
    intro k isIn
    rcases (listed k).mp isIn with ⟨rfl, -⟩ | later
    · exact ⟨l, mem_cons_self, rfl⟩
    · obtain ⟨other, isAct, same⟩ := acted k later
      exact ⟨other, mem_cons_of_mem _ isAct, same⟩
  case given =>
    exact forall_mem_cons.mpr ⟨mem_cons_self,
      fun other isAct => mem_cons_of_mem _ (given other isAct)⟩

theorem records_visitAll (seen : Visits) (links : List Link) :
    Records seen links (seen.visitAll links).1 (seen.visitAll links).2.1
      (seen.visitAll links).2.2 := by
  induction links generalizing seen with
  | nil =>
    constructor <;> simp [visitAll, below]
  | cons l links ih =>
    rcases seen.visit_cases l with
      ⟨visited, -, -⟩ | ⟨isNew, visited, newIff, notSent⟩
    · have rest := ih seen
      simp only [visitAll, visited, if_neg Bool.false_ne_true]
      exact { rest with
        given := fun other isIn => mem_cons_of_mem _ (rest.given other isIn) }
    · simp only [visitAll, visited, if_pos]
      exact .cons newIff notSent (ih _)

/-- Links that are recorded are looked at, and those that say there is more
below send their node. -/
theorem keeps_visitAll
    {get : Key → Except ε Bytes} {seen : Visits}
    {links : List Link}
    (keeps : Keeps (objectGraph get) roots
      ⟨seen.met, seen.sent, {l | l ∈ links}, waiting⟩) :
    Keeps (objectGraph get) roots
      ⟨(seen.visitAll links).1.met, (seen.visitAll links).1.sent, ∅,
        waiting ∪ below (seen.visitAll links).2.2⟩ := by
  induction links generalizing seen waiting with
  | nil => simpa [visitAll, below] using keeps
  | cons l links ih =>
    have fewer : {other | other ∈ links} ⊆ {other | other ∈ l :: links} :=
      fun other isIn => mem_cons_of_mem _ isIn
    have others : ∀ other ∈ {other | other ∈ l :: links},
        other = l ∨ other ∈ {other | other ∈ links} :=
      fun other isIn => mem_cons.mp isIn
    rcases seen.visit_cases l with
      ⟨visited, isMet, isSent⟩ | ⟨isNew, visited, -, notSent⟩
    · simp only [visitAll, visited, if_neg Bool.false_ne_true]
      apply ih
      rw [← Set.insert_eq_of_mem isMet]
      exact keeps.look mem_cons_self (by simpa using isSent) fewer others
    · simp only [visitAll, visited, if_pos]
      have added : waiting ∪ below (l :: (visitAll (update seen l.key
            (some (!l.leaf))) links).2.2) =
          (if l.leaf then waiting else insert l.key waiting) ∪
            below (visitAll (update seen l.key
              (some (!l.leaf))) links).2.2 := by
        rw [below_cons]
        cases l.leaf <;> simp [Set.insert_union]
      rw [added]
      apply ih
      rw [met_update, sent_update _ _ _ notSent]
      cases isLeaf : l.leaf with
      | true =>
        exact keeps.look mem_cons_self (by simp [isLeaf]) fewer others
      | false =>
        exact keeps.send mem_cons_self (by simp [isLeaf]) fewer others

end Visits

/-! ## A level -/

open Visits (below)

/-- What a walk keeps between two levels, where `node` says which object an
element of the frontier stands to be read for. -/
structure Sweep.Keeps (get : Key → Except ε Bytes) (root : Key)
    {α : Type} (node : α → Option Key) (sweep : Sweep α) : Prop where
  walk : LeafWalk.Keeps (objectGraph get) (rootLinks [root])
    ⟨sweep.seen.met, sweep.seen.sent, ∅,
      {k | ∃ a ∈ sweep.frontier, node a = some k}⟩
  waiting : ∀ a ∈ sweep.frontier, ∀ k, node a = some k → k ∈ sweep.seen.sent
  distinct : sweep.out.Nodup
  mem_out : ∀ k, k ∈ sweep.out ↔ k ∈ sweep.seen.met
  first : sweep.out.head? = some root

/-- How much a walk has to read at most. -/
noncomputable def Sweep.left {get : Key → Except ε Bytes}
    (finite : Set.Finite {k | ∃ data, get k = .ok data})
    {α : Type} (node : α → Option Key) (sweep : Sweep α) : Nat :=
  LeafWalk.left (finite_out finite) sweep.seen.sent
    {k | ∃ a ∈ sweep.frontier, node a = some k}

section Level

variable {get : Key → Except ε Bytes} {root : Key} {α : Type}
variable {node : α → Option Key} {sweep : Sweep α} {lists : List (List Link)}

/-- The level that comes after one whose objects have these links. -/
def Sweep.after (sweep : Sweep α) (lists : List (List Link))
    (select : List Link → List α) : Sweep α :=
  ⟨(sweep.seen.visitAll lists.flatten).1,
    sweep.out ++ (sweep.seen.visitAll lists.flatten).2.1,
    select (sweep.seen.visitAll lists.flatten).2.2⟩

/-- What the elements of a level have to do with the lists read for them. -/
abbrev ReadFor (get : Key → Except ε Bytes) (node : α → Option Key)
    (sent : Set Key) (a : α) (found : List Link) : Prop :=
  (∀ k, node a = some k → k ∈ sent ∧ (objectGraph get).out k = some found) ∧
    (node a = none → found = [])

section Lists

variable (each : List.Forall₂ (ReadFor get node sweep.seen.sent)
  sweep.frontier lists)
include each

theorem Sweep.Keeps.pending (keeps : sweep.Keeps get root node) :
    LeafWalk.Keeps (objectGraph get) (rootLinks [root])
      ⟨sweep.seen.met, sweep.seen.sent, {l | l ∈ lists.flatten}, ∅⟩ := by
  have walk := keeps.walk
  rw [← Set.union_empty {k | ∃ a ∈ sweep.frontier, node a = some k}] at walk
  rw [← Set.empty_union {l | l ∈ lists.flatten}]
  exact walk.followAll each

variable {select : List Link → List α}
variable (selects : ∀ acts, {k | ∃ a ∈ select acts, node a = some k} =
  below acts)
include selects

/-- A level that is read is kept. -/
theorem Sweep.Keeps.after (keeps : sweep.Keeps get root node) :
    (sweep.after lists select).Keeps get root node := by
  have records := sweep.seen.records_visitAll lists.flatten
  have visited := Visits.keeps_visitAll (keeps.pending each)
  rw [Set.empty_union, ← selects] at visited
  refine ⟨visited, ?waiting, ?distinct, ?mem_out, ?first⟩
  case waiting =>
    intro a isIn k isNode
    have isInner : k ∈ below (sweep.seen.visitAll lists.flatten).2.2 := by
      rw [← selects]
      exact ⟨a, isIn, isNode⟩
    change k ∈ (sweep.seen.visitAll lists.flatten).1.sent
    rw [records.sent]
    exact .inr isInner
  case distinct =>
    refine nodup_append'.mpr ⟨keeps.distinct, records.distinct, ?_⟩
    intro k isOut isNew
    exact records.unseen k isNew ((keeps.mem_out k).mp isOut)
  case mem_out =>
    intro k
    change k ∈ sweep.out ++ _ ↔ k ∈ (sweep.seen.visitAll lists.flatten).1.met
    rw [mem_append, keeps.mem_out, records.met]
    rfl
  case first =>
    change (sweep.out ++ _).head? = _
    rw [head?_append, keeps.first]
    rfl

/-- There is less to read after a level that had something to read. -/
theorem Sweep.Keeps.left_after
    (finite : Set.Finite {k | ∃ data, get k = .ok data}) :
    (sweep.after lists select).left finite node ≤ sweep.left finite node ∧
      ((∃ a ∈ sweep.frontier, node a ≠ none) →
        (sweep.after lists select).left finite node <
          sweep.left finite node) := by
  have records := sweep.seen.records_visitAll lists.flatten
  have stays : ∀ k ∈ sweep.seen.sent,
      k ∈ (sweep.after lists select).seen.sent ∧
        k ∉ {k | ∃ a ∈ (sweep.after lists select).frontier, node a = some k} := by
    intro k isSent
    constructor
    · change k ∈ (sweep.seen.visitAll lists.flatten).1.sent
      rw [records.sent]
      exact .inl isSent
    · intro waits
      refine records.fresh k ?_ isSent
      rw [← selects]
      exact waits
  refine ⟨left_le fun k isSent _ => stays k isSent, ?_⟩
  rintro ⟨a, isIn, isNode⟩
  obtain ⟨k, isNode⟩ := Option.ne_none_iff_exists'.mp isNode
  obtain ⟨found, -, readFor⟩ := exists_of_forall₂ each isIn
  obtain ⟨isSent, isOut⟩ := readFor.1 k isNode
  have canFollow : k ∈ {k | (objectGraph get).out k ≠ none} := by
    rw [Set.mem_ofPred_eq, isOut]
    exact Option.some_ne_none found
  exact left_lt (fun k isSent _ => stays k isSent) canFollow
    (fun _ => ⟨a, isIn, isNode⟩) (stays k isSent)

end Lists

/-- A walk that has nothing left to read met what is reachable. -/
theorem Sweep.Keeps.mem_out_iff
    (keeps : sweep.Keeps get root node) (ended : sweep.frontier = [])
    (k : Key) :
    k ∈ sweep.out ↔ (objectGraph get).Reachable (rootLinks [root]) k := by
  rw [keeps.mem_out]
  exact keeps.walk.mem_met_iff (by simp [ended]) rfl k

/-- A walk starts with its root recorded. -/
theorem Sweep.keeps_start (get : Key → Except ε Bytes) (root : Key)
    {frontier : List α}
    (selects : {k | ∃ a ∈ frontier, node a = some k} = below [linkTo root]) :
    Sweep.Keeps get root node
      ⟨(Visits.empty.visit (linkTo root)).2, [root], frontier⟩ := by
  have visited : Visits.empty.visit (linkTo root) =
      ((true, true), update Visits.empty root
        (some (!(linkTo root).leaf))) := rfl
  have noneMet : Visits.empty.met = ∅ := by
    simp [Visits.met, Visits.empty]
  have noneSent : Visits.empty.sent = ∅ := by
    simp [Visits.sent, Visits.empty]
  have listed : rootLinks [root] = {l | l ∈ [linkTo root]} := by
    rw [rootLinks_singleton]
    simp
  have start : LeafWalk.Keeps (objectGraph get) (rootLinks [root])
      ⟨Visits.empty.met, Visits.empty.sent, {l | l ∈ [linkTo root]}, ∅⟩ := by
    rw [noneMet, noneSent, ← listed]
    exact .start _ _
  have kept := Visits.keeps_visitAll start
  have records := Visits.empty.records_visitAll [linkTo root]
  simp only [Visits.visitAll, visited, if_pos, Set.empty_union] at kept records
  rw [visited]
  refine ⟨by rw [selects]; exact kept, ?_, by simp, ?_, rfl⟩
  · intro a isIn k isNode
    change k ∈ Visits.sent (update Visits.empty root _)
    rw [records.sent, ← selects]
    exact .inr ⟨a, isIn, isNode⟩
  · intro k
    change _ ↔ k ∈ Visits.met (update Visits.empty root _)
    rw [Visits.met_update, noneMet]
    simp

end Level

/-- The keys of what is reachable from a root, each once and the root first. -/
def Lists (get : Key → Except ε Bytes) (root : Key) (keys : List Key) : Prop :=
  keys.Nodup ∧ keys.head? = some root ∧
    ∀ k, k ∈ keys ↔ (objectGraph get).Reachable (rootLinks [root]) k

/-! ## Everything reachable -/

section Reachable

variable {get : Key → Except ε Bytes} {root : Key}

/-- The keys to read after a level. -/
def innerKeys (acts : List Link) : List Key :=
  (acts.filter fun l => !l.leaf).map Link.key

theorem mem_innerKeys (acts : List Link) :
    {k | ∃ a ∈ innerKeys acts, some a = some k} = below acts := by
  ext k
  simp [innerKeys, below, and_assoc]

theorem reachableStep_eq_more
    (more : reachableStep get sweep = .more later) :
    sweep.frontier ≠ [] ∧ ∃ lists,
      List.Forall₂ (fun k found => fetch get k = .ok found)
        sweep.frontier lists ∧
      later = sweep.after lists innerKeys := by
  unfold reachableStep at more
  split at more
  case isTrue => cases more
  case isFalse someLeft =>
    refine ⟨by simpa using someLeft, ?_⟩
    cases fetched : sweep.frontier.mapM (fetch get) with
    | error error =>
      rw [fetched] at more
      cases more
    | ok lists =>
      rw [fetched] at more
      cases more
      exact ⟨lists, mapM_eq_ok_iff.mp fetched, rfl⟩

theorem reachableStep_eq_ok
    (done : reachableStep get sweep = .done (.ok found)) :
    sweep.frontier = [] ∧ found = sweep.out := by
  unfold reachableStep at done
  split at done
  case isTrue noneLeft =>
    cases done
    exact ⟨by simpa using noneLeft, rfl⟩
  case isFalse =>
    split at done
    · cases done
    · cases done

theorem keeps_reachableStart (get : Key → Except ε Bytes) (root : Key) :
    (reachableStart root).Keeps get root some := by
  apply Sweep.keeps_start
  rw [Visits.below_cons]
  cases (linkTo root).leaf
  · ext k
    simp [below, linkTo, @eq_comm _ k]
  · simp [below]

/-- The walk ends, and if it succeeds it lists what is reachable. -/
theorem exists_leaves_reachable
    (finite : Set.Finite {k | ∃ data, get k = .ok data}) (root : Key) :
    ∃ result, Loop.Leaves (reachableStep get) (reachableStart root) result ∧
      ∀ keys, result = .ok keys → Lists get root keys := by
  have wellFounded := (measure (Sweep.left finite some)).wf
  refine Loop.exists_leaves wellFounded (·.Keeps get root some) ?_ ?_
    (keeps_reachableStart get root)
  · intro sweep next keeps more
    obtain ⟨someLeft, lists, fetched, rfl⟩ := reachableStep_eq_more more
    have each : List.Forall₂ (ReadFor get some sweep.seen.sent)
        sweep.frontier lists := by
      refine ((List.forall₂_and_left _ _).mpr ⟨keeps.waiting, fetched⟩).imp ?_
      rintro k found ⟨isSent, isFetched⟩
      exact ⟨fun other same => ⟨isSent other same, by
        cases same
        exact fetch_eq_ok_iff.mp isFetched⟩,
        fun isNone => absurd isNone (Option.some_ne_none k)⟩
    refine ⟨keeps.after each mem_innerKeys, ?_⟩
    obtain ⟨k, isIn⟩ := exists_mem_of_ne_nil _ someLeft
    exact (Sweep.Keeps.left_after each mem_innerKeys finite).2
      ⟨k, isIn, Option.some_ne_none k⟩
  · rintro sweep result keeps done keys rfl
    obtain ⟨ended, rfl⟩ := reachableStep_eq_ok done
    exact ⟨keeps.distinct, keeps.first, keeps.mem_out_iff ended⟩

end Reachable

/-! ## Completeness -/

section Complete

variable {get : Key → Except ε Bytes} {has : Key → Except ε Bool} {root : Key}

/-- The object can be read and decoded.  Any bytes are the content of a
leaf. -/
def Decodes (get : Key → Except ε Bytes) (k : Key) : Prop :=
  isLeafKey k ∨ ∃ data found, get k = .ok data ∧ links k data = .ok found

/-- All that is reachable from the root is there, and what the root or a link
that does not say leaf names can be decoded. -/
def Complete (get : Key → Except ε Bytes) (has : Key → Except ε Bool)
    (root : Key) : Prop :=
  (∀ k, (objectGraph get).Reachable (rootLinks [root]) k → has k = .ok true) ∧
    ∀ k, k = root ∨ (objectGraph get).Followed (rootLinks [root]) k →
      Decodes get k

/-- The object that a link stands to be read for. -/
def toRead (l : Link) : Option Key :=
  if l.leaf then none else some l.key

theorem mem_toRead (acts : List Link) :
    {k | ∃ l ∈ acts, toRead l = some k} = below acts := by
  ext k
  simp [toRead, below]

theorem inspect_eq_ok_iff :
    inspect get has l = .ok found ↔
      if l.leaf then has l.key = .ok true ∧ found = []
      else (objectGraph get).out l.key = some found := by
  unfold inspect
  cases l.leaf with
  | false => exact fetch_eq_ok_iff
  | true =>
    rcases has l.key with source | (_ | _) <;> simp [eq_comm]

theorem completeStep_eq_more
    (more : completeStep get has sweep = .more later) :
    sweep.frontier ≠ [] ∧ ∃ lists,
      List.Forall₂ (fun l found => inspect get has l = .ok found)
        sweep.frontier lists ∧
      later = sweep.after lists id := by
  unfold completeStep at more
  split at more
  case isTrue => cases more
  case isFalse someLeft =>
    refine ⟨by simpa using someLeft, ?_⟩
    cases inspected : sweep.frontier.mapM (inspect get has) with
    | error error =>
      rw [inspected] at more
      cases more
    | ok lists =>
      rw [inspected] at more
      cases more
      exact ⟨lists, mapM_eq_ok_iff.mp inspected, rfl⟩

/-- The check ends when there is nothing left to look at, or when it cannot
look at something. -/
theorem completeStep_eq_done
    (done : completeStep get has sweep = .done result) :
    (sweep.frontier = [] ∧ result = .ok sweep.out) ∨
      ((∃ error, result = .error error) ∧
        ∃ l ∈ sweep.frontier, ∀ found, inspect get has l ≠ .ok found) := by
  unfold completeStep at done
  split at done
  case isTrue noneLeft =>
    cases done
    exact .inl ⟨by simpa using noneLeft, rfl⟩
  case isFalse =>
    cases inspected : sweep.frontier.mapM (inspect get has) with
    | ok lists =>
      rw [inspected] at done
      cases done
    | error error =>
      rw [inspected] at done
      cases done
      refine .inr ⟨⟨error, rfl⟩, ?_⟩
      by_contra! all
      obtain ⟨lists, isLists⟩ := exists_mapM_eq_ok all
      rw [inspected] at isLists
      cases isLists

/-- What the check keeps between two levels: what it met is there or is to be
looked at next. -/
structure Sweep.Checks (get : Key → Except ε Bytes) (has : Key → Except ε Bool)
    (root : Key) (sweep : Sweep Link) : Prop
    extends Sweep.Keeps get root toRead sweep where
  present : ∀ k ∈ sweep.seen.met,
    has k = .ok true ∨ ∃ l ∈ sweep.frontier, l.key = k
  isMet : ∀ l ∈ sweep.frontier, (objectGraph get).Met (rootLinks [root]) l

/-- What is looked at is there. -/
theorem present_of_inspect
    (isThere : ∀ k data, get k = .ok data → has k = .ok true)
    (inspected : inspect get has l = .ok found) :
    has l.key = .ok true := by
  have known := inspect_eq_ok_iff.mp inspected
  split at known
  · exact known.1
  · obtain ⟨data, isRead, -⟩ := objectGraph_out.mp known
    exact isThere _ data isRead

variable {sweep : Sweep Link}

theorem Sweep.Checks.readFor
    (checks : sweep.Checks get has root)
    (inspected : List.Forall₂ (fun l found => inspect get has l = .ok found)
      sweep.frontier lists) :
    List.Forall₂ (ReadFor get toRead sweep.seen.sent) sweep.frontier lists := by
  refine ((List.forall₂_and_left _ _).mpr ⟨checks.waiting, inspected⟩).imp ?_
  rintro l found ⟨isSent, isInspected⟩
  have known := inspect_eq_ok_iff.mp isInspected
  cases isLeaf : l.leaf with
  | true =>
    rw [isLeaf, if_pos rfl] at known
    exact ⟨by simp [toRead, isLeaf], fun _ => known.2⟩
  | false =>
    rw [isLeaf, if_neg Bool.false_ne_true] at known
    refine ⟨fun k isNode => ⟨isSent k isNode, ?_⟩, by simp [toRead, isLeaf]⟩
    have same : l.key = k := by simpa [toRead, isLeaf] using isNode
    exact same ▸ known

/-- A level that is looked at is kept. -/
theorem Sweep.Checks.after
    (isThere : ∀ k data, get k = .ok data → has k = .ok true)
    (checks : sweep.Checks get has root)
    (inspected : List.Forall₂ (fun l found => inspect get has l = .ok found)
      sweep.frontier lists) :
    (sweep.after lists id).Checks get has root := by
  have each := checks.readFor inspected
  have records := sweep.seen.records_visitAll lists.flatten
  refine ⟨checks.toKeeps.after each mem_toRead, ?present, ?isMet⟩
  case present =>
    intro k isMet
    change k ∈ (sweep.seen.visitAll lists.flatten).1.met at isMet
    rw [records.met] at isMet
    rcases isMet with before | isNew
    · rcases checks.present k before with there | ⟨l, isIn, rfl⟩
      · exact .inl there
      · obtain ⟨found, -, isInspected⟩ := exists_of_forall₂ inspected isIn
        exact .inl (present_of_inspect isThere isInspected)
    · exact .inr (records.acted k isNew)
  case isMet =>
    intro l isAct
    exact (checks.pending each).pending l (records.given l isAct)

theorem checks_completeStart (get : Key → Except ε Bytes)
    (has : Key → Except ε Bool) (root : Key) :
    (completeStart root).Checks get has root where
  toKeeps := Sweep.keeps_start get root (mem_toRead _)
  present k isMet := by
    have same : k = root := by
      by_contra other
      refine isMet ?_
      simp [completeStart, Visits.visit, Visits.empty, linkTo, other]
    exact .inr ⟨linkTo root, mem_singleton_self _, same.symm⟩
  isMet l isIn := .root ⟨root, mem_singleton_self _, mem_singleton.mp isIn⟩

/-- In a complete store everything can be looked at. -/
theorem Complete.inspect
    (complete : Complete get has root)
    (isMet : (objectGraph get).Met (rootLinks [root]) l) :
    ∃ found, inspect get has l = .ok found := by
  cases isLeaf : l.leaf with
  | true =>
    refine ⟨[], inspect_eq_ok_iff.mpr ?_⟩
    rw [isLeaf, if_pos rfl]
    exact ⟨complete.1 l.key ⟨l, isMet, rfl⟩, rfl⟩
  | false =>
    have notLeaf : ¬isLeafKey l.key := by
      rcases honest_of_met (honest_rootLinks _) isMet with isGit | same
      · simp [isLeafKey, isGit]
      · rw [← same, isLeaf]
        exact Bool.false_ne_true
    have decodes := complete.2 l.key (.inr ⟨l, isMet, by simp [isLeaf], rfl⟩)
    obtain ⟨data, found, isRead, isLinks⟩ := decodes.resolve_left notLeaf
    refine ⟨found, inspect_eq_ok_iff.mpr ?_⟩
    rw [isLeaf, if_neg Bool.false_ne_true]
    exact objectGraph_out.mpr ⟨data, isRead, isLinks⟩

/-- A check that has nothing left to look at found the store complete. -/
theorem Sweep.Checks.complete
    (checks : sweep.Checks get has root)
    (ended : sweep.frontier = []) : Complete get has root := by
  have noFrontier :
      {k | ∃ l ∈ sweep.frontier, toRead l = some k} = ∅ := by
    simp [ended]
  constructor
  · intro k isReachable
    have isMet := (checks.walk.mem_met_iff noFrontier rfl k).mpr isReachable
    refine (checks.present k isMet).resolve_right ?_
    simp [ended]
  · have decodes : ∀ k, (objectGraph get).Followed (rootLinks [root]) k →
        Decodes get k := by
      intro k isFollowed
      obtain ⟨found, isOut⟩ :=
        checks.walk.out_of_followed noFrontier rfl isFollowed
      obtain ⟨data, isRead, isLinks⟩ := objectGraph_out.mp isOut
      exact .inr ⟨data, found, isRead, isLinks⟩
    rintro k (rfl | isFollowed)
    · by_cases isLeaf : isLeafKey k
      · exact .inl isLeaf
      · exact decodes k ⟨linkTo k, .root ⟨k, by simp, rfl⟩, isLeaf, rfl⟩
    · exact decodes k isFollowed

/-- The check ends; it succeeds exactly if the store is complete, and then it
lists what is reachable. -/
theorem exists_leaves_complete
    (finite : Set.Finite {k | ∃ data, get k = .ok data})
    (isThere : ∀ k data, get k = .ok data → has k = .ok true) (root : Key) :
    ∃ result, Loop.Leaves (completeStep get has) (completeStart root) result ∧
      (∀ keys, result = .ok keys → Lists get root keys) ∧
      ((∃ keys, result = .ok keys) ↔ Complete get has root) := by
  -- A level without an object to read is the last but one.
  have wellFounded : WellFounded (InvImage (Prod.Lex (· < ·) (· < ·))
      fun sweep : Sweep Link =>
        (sweep.left finite toRead, sweep.frontier.length)) :=
    InvImage.wf _ (WellFounded.prod_lex Nat.lt_wfRel.wf Nat.lt_wfRel.wf)
  refine Loop.exists_leaves wellFounded (·.Checks get has root) ?_ ?_
    (checks_completeStart get has root)
  · intro sweep next checks more
    obtain ⟨someLeft, lists, inspected, rfl⟩ := completeStep_eq_more more
    have each := checks.readFor inspected
    refine ⟨checks.after isThere inspected, ?_⟩
    obtain ⟨atMost, less⟩ := Sweep.Keeps.left_after each mem_toRead finite
    by_cases reads : ∃ l ∈ sweep.frontier, toRead l ≠ none
    · exact .left _ _ (less reads)
    · have nothing : lists.flatten = [] := by
        rw [flatten_eq_nil_iff]
        intro found isIn
        obtain ⟨l, isLink, readFor⟩ := exists_of_forall₂ each.flip isIn
        refine readFor.2 ?_
        by_contra isNode
        exact reads ⟨l, isLink, isNode⟩
      have ended : (sweep.after lists id).frontier.length <
          sweep.frontier.length := by
        rw [Sweep.after, nothing]
        exact length_pos_of_ne_nil someLeft
      exact Prod.Lex.right' _ atMost ended
  · intro sweep result checks done
    rcases completeStep_eq_done done with
      ⟨ended, rfl⟩ | ⟨⟨error, rfl⟩, l, isIn, fails⟩
    · refine ⟨?_, fun _ => checks.complete ended, fun _ => ⟨_, rfl⟩⟩
      rintro keys same
      cases same
      exact ⟨checks.distinct, checks.first, checks.mem_out_iff ended⟩
    · refine ⟨by simp, by simp, fun complete => ?_⟩
      obtain ⟨found, isFound⟩ := complete.inspect (checks.isMet l isIn)
      exact absurd isFound (fails found)

end Complete

end AmberStore.Fstree

import AmberStore.Fstree.DirectoryReader
import AmberStore.Fstree.LookupSpec

/-!
# A reader answers as the functions do

What a reader keeps is what it would decode again, so that it answers as the
functions that keep nothing, errors included.  It never keeps more than its
capacity; what it keeps is a beginning of the list of all directories it used,
the last used first, and an eviction cuts that in half.
-/

open ByteString LexicalPath Checked

namespace AmberStore.Fstree

variable {ε σ : Type}

/-! ## Paths -/

/-- From every state of a kind, the step gives this outcome and leaves a state of
that kind. -/
def Gives {α : Type} (kind : σ → Prop) (step : Step ε σ α)
    (outcome : Option (Except (WalkError ε) α)) : Prop :=
  ∀ state, kind state → (step state).1 = outcome ∧ kind (step state).2

section Paths

variable {kind : σ → Prop} {lookup : Key → Bytes → Step ε σ Entry}
  {free : Key → Bytes → Option (Except (WalkError ε) Entry)}
  (gives : ∀ k name, Gives kind (lookup k name) (free k name))

include gives

theorem walkPathFrom_gives (path : Bytes) (k : Key) (comps : List Bytes) :
    Gives kind (walkPathFrom lookup path k comps)
      (walkPathFrom (fun k name state => (free k name, state)) path k comps
        ()).1 := by
  induction comps generalizing k with
  | nil => exact fun state isKind => ⟨rfl, isKind⟩
  | cons comp rest ih =>
    intro state isKind
    rw [walkPathFrom, walkPathFrom]
    by_cases skipped : comp = [] ∨ comp = [dot]
    · rw [if_pos skipped, if_pos skipped]
      exact ih k state isKind
    rw [if_neg skipped, if_neg skipped]
    by_cases parent : comp = dotDot
    · rw [if_pos parent, if_pos parent]
      exact ⟨rfl, isKind⟩
    rw [if_neg parent, if_neg parent]
    obtain ⟨isOutcome, isAfter⟩ := gives k comp state isKind
    generalize lookup k comp state = looked at isOutcome isAfter
    obtain ⟨outcome, after⟩ := looked
    obtain rfl : outcome = free k comp := isOutcome
    rcases free k comp with _ | (error | found)
    · exact ⟨rfl, isAfter⟩
    · exact ⟨rfl, isAfter⟩
    · dsimp only
      cases contentKeyOf comp found with
      | error error => exact ⟨rfl, isAfter⟩
      | ok k => exact ih k after isAfter

theorem walkEntryFrom_gives
    (path : Bytes) (dir : Key) (cur : Option Entry) (comps : List Bytes) :
    Gives kind (walkEntryFrom lookup path dir cur comps)
      (walkEntryFrom (fun k name state => (free k name, state)) path dir cur
        comps ()).1 := by
  induction comps generalizing dir cur with
  | nil => exact fun state isKind => ⟨rfl, isKind⟩
  | cons comp rest ih =>
    intro state isKind
    unfold walkEntryFrom
    by_cases skipped : comp = [] ∨ comp = [dot]
    · rw [if_pos skipped, if_pos skipped]
      exact ih dir cur state isKind
    rw [if_neg skipped, if_neg skipped]
    by_cases parent : comp = dotDot
    · rw [if_pos parent, if_pos parent]
      exact ⟨rfl, isKind⟩
    rw [if_neg parent, if_neg parent]
    dsimp only
    split
    case h_1 => exact ⟨rfl, isKind⟩
    case h_2 below _ =>
      obtain ⟨isOutcome, isAfter⟩ := gives below comp state isKind
      generalize lookup below comp state = looked at isOutcome isAfter
      obtain ⟨outcome, after⟩ := looked
      obtain rfl : outcome = free below comp := isOutcome
      rcases free below comp with _ | (error | found)
      · exact ⟨rfl, isAfter⟩
      · exact ⟨rfl, isAfter⟩
      · exact ih below (some found) after isAfter

end Paths

/-! ## What a reader keeps -/

namespace DirectoryReader

variable (get : Key → Except ε Bytes) (requested : Nat)

/-- The states that a reader goes through, with the directories it used, the last
used first. -/
inductive Moment : DirectoryReader → List Key → Prop
  | start : Moment (withCapacity requested) []
  | dirOf {reader : DirectoryReader} {uses : List Key}
      (before : Moment reader uses) (k : Key) :
      Moment (reader.dirOf get k).2 uses
  | used {reader after : DirectoryReader} {uses : List Key} {k : Key}
      {decoded : DecodedDirectory} (before : Moment reader uses)
      (isUse : reader.directory get k = (.ok decoded, after)) :
      Moment after (k :: uses)
  | failed {reader after : DirectoryReader} {uses : List Key} {k : Key}
      {error : WalkError ε} (before : Moment reader uses)
      (isUse : reader.directory get k = (.error error, after)) :
      Moment after uses

/-- What a reader keeps is right, not too much, and what was used last. -/
structure Keeps (reader : DirectoryReader) (uses : List Key) : Prop where
  capacity_eq : reader.capacity = max requested 1
  decoded : ∀ slot ∈ reader.directories, decode get slot.key = .ok slot.value
  few : reader.directories.length ≤ reader.capacity
  lately : ∃ ordered, Recency.InOrder reader.directories reader.clock ordered ∧
    ordered.map Recency.Slot.key <+: Recency.recent uses
  trees : ∀ pair ∈ reader.commits, Fstree.dirOf get pair.1 = .ok pair.2
  fewCommits : reader.commits.length ≤ reader.capacity

variable {get requested} {reader : DirectoryReader} {uses : List Key}

theorem keeps_withCapacity :
    Keeps get requested (withCapacity requested) [] where
  capacity_eq := rfl
  decoded := by simp [withCapacity]
  few := Nat.zero_le _
  lately := ⟨[], Recency.inOrder_nil 0, List.nil_prefix⟩
  trees := by simp [withCapacity]
  fewCommits := Nat.zero_le _

namespace Keeps

variable (keeps : Keeps get requested reader uses)

include keeps

theorem capacity_pos : 0 < reader.capacity := by
  rw [keeps.capacity_eq]
  omega

/-- The reader finds the directory that a key stands for. -/
theorem dirOf_fst (k : Key) : (reader.dirOf get k).1 = Fstree.dirOf get k := by
  unfold dirOf
  split
  case isTrue => rfl
  case isFalse =>
    split
    case h_1 tree isTree =>
      obtain ⟨before, after, isCommits, -⟩ := List.lookup_eq_some_iff.mp isTree
      exact (keeps.trees (k, tree) (by rw [isCommits]; simp)).symm
    case h_2 => cases Fstree.dirOf get k <;> rfl

theorem dirOf (k : Key) : Keeps get requested (reader.dirOf get k).2 uses := by
  unfold DirectoryReader.dirOf
  split
  case isTrue => exact keeps
  case isFalse =>
    split
    case h_1 => exact keeps
    case h_2 =>
      cases isTree : Fstree.dirOf get k with
      | error error => exact keeps
      | ok tree =>
        have positive := keeps.capacity_pos
        have few := keeps.fewCommits
        refine { keeps with trees := ?_, fewCommits := ?_ }
        · dsimp only
          split_ifs
          · exact List.forall_mem_singleton.mpr isTree
          · exact List.forall_mem_cons.mpr ⟨isTree, keeps.trees⟩
        · dsimp only
          split_ifs with full
          · exact positive
          · exact Nat.lt_of_not_le full

/-- A full reader keeps the half that was used last. -/
theorem evict (full : reader.capacity ≤ reader.directories.length) :
    Keeps get requested reader.evict uses ∧
      reader.evict.directories.length = reader.capacity / 2 ∧
      (reader.evict.directories.map Recency.Slot.key).Perm
        ((Recency.recent uses).take (reader.capacity / 2)) := by
  obtain ⟨ordered, inOrder, isPrefix⟩ := keeps.lately
  have enough : reader.capacity / 2 ≤ ordered.length := by
    rw [inOrder.length_eq]
    omega
  have after := inOrder.evict enough
  have length : reader.evict.directories.length = reader.capacity / 2 := by
    rw [← List.length_take_of_le enough]
    exact after.length_eq.symm
  have isTaken : (ordered.take (reader.capacity / 2)).map Recency.Slot.key =
      (Recency.recent uses).take (reader.capacity / 2) := by
    obtain ⟨rest, isRecent⟩ := isPrefix
    rw [← isRecent, List.take_append_of_le_length (by simpa using enough),
      List.map_take]
  refine ⟨{ keeps with decoded := ?_, few := ?_, lately := ?_ }, length, ?_⟩
  · intro slot isSlot
    have isOrdered := List.mem_of_mem_take (after.perm.mem_iff.mpr isSlot)
    exact keeps.decoded slot (inOrder.perm.mem_iff.mp isOrdered)
  · change reader.evict.directories.length ≤ reader.capacity
    omega
  · refine ⟨_, after, ?_⟩
    rw [isTaken]
    exact List.take_prefix _ _
  · rw [← isTaken]
    exact after.perm.symm.map _

/-- There is room after making some. -/
theorem makeRoom :
    Keeps get requested reader.makeRoom uses ∧
      reader.makeRoom.directories.length < reader.capacity ∧
      reader.makeRoom.capacity = reader.capacity ∧
      reader.makeRoom.clock = reader.clock ∧
      ∀ slot ∈ reader.makeRoom.directories, slot ∈ reader.directories := by
  have positive := keeps.capacity_pos
  unfold DirectoryReader.makeRoom
  split
  case isTrue full =>
    obtain ⟨kept, length, -⟩ := keeps.evict full
    exact ⟨kept, by omega, rfl, rfl, fun _ => Recency.mem_of_mem_evict⟩
  case isFalse room =>
    exact ⟨keeps, Nat.lt_of_not_le room, rfl, rfl, fun _ isSlot => isSlot⟩

/-- The reader has the directory that it would decode, and remembers that it was
used. -/
theorem directory (k : Key) :
    (reader.directory get k).1 = decode get k ∧
      ∀ outcome after, reader.directory get k = (outcome, after) →
        Keeps get requested after
          (if outcome.isOk then k :: uses else uses) := by
  obtain ⟨ordered, inOrder, isPrefix⟩ := keeps.lately
  unfold DirectoryReader.directory
  dsimp only
  cases isFound : Recency.find reader.directories k with
  | some slot =>
    obtain ⟨isSlot, rfl⟩ := inOrder.mem_keys_of_find isFound
    have isDecoded := keeps.decoded slot (inOrder.perm.mem_iff.mp isSlot)
    refine ⟨isDecoded.symm, ?_⟩
    rintro _ _ ⟨⟩
    obtain ⟨moved, inOrderMoved, isMoved⟩ := inOrder.restamp isSlot
    refine { keeps with decoded := ?_, few := ?_, lately := ?_ }
    · intro stamped isStamped
      obtain ⟨before, isBefore, sameKey, sameValue⟩ :=
        Recency.exists_of_mem_restamp isStamped
      rw [← sameKey, ← sameValue]
      exact keeps.decoded before isBefore
    · rw [Recency.length_restamp]
      exact keeps.few
    · refine ⟨moved, inOrderMoved, ?_⟩
      rw [isMoved]
      exact Recency.prefix_recent_of_mem isPrefix (List.mem_map_of_mem isSlot)
  | none =>
    dsimp only
    cases isDecoded : decode get k with
    | error error =>
      refine ⟨rfl, ?_⟩
      rintro _ _ ⟨⟩
      exact { keeps with lately := ⟨ordered, inOrder.tick, isPrefix⟩ }
    | ok decoded =>
      obtain ⟨kept, room, sameCapacity, sameClock, among⟩ := keeps.makeRoom
      refine ⟨rfl, ?_⟩
      rintro _ _ ⟨⟩
      obtain ⟨orderedKept, inOrderKept, isPrefixKept⟩ := kept.lately
      rw [sameClock] at inOrderKept
      have isNew : k ∉ orderedKept.map Recency.Slot.key := by
        intro isKey
        obtain ⟨slot, isSlot, isSame⟩ := List.mem_map.mp isKey
        have isHeld := among slot (inOrderKept.perm.mem_iff.mp isSlot)
        exact inOrder.not_mem_keys_of_find isFound (List.mem_map.mpr
          ⟨slot, inOrder.perm.mem_iff.mpr isHeld, isSame⟩)
      refine { kept with decoded := ?_, few := ?_, lately := ?_ }
      · exact List.forall_mem_cons.mpr ⟨isDecoded, kept.decoded⟩
      · rw [sameCapacity]
        exact room
      · exact ⟨_, inOrderKept.insert isNew decoded,
          Recency.prefix_recent_of_not_mem isPrefixKept isNew⟩

end Keeps

/-- At every moment a reader keeps what it should. -/
theorem Moment.keeps (moment : Moment get requested reader uses) :
    Keeps get requested reader uses := by
  induction moment with
  | start => exact keeps_withCapacity
  | dirOf _ k ih => exact ih.dirOf k
  | used _ isUse ih | failed _ isUse ih =>
    exact (ih.directory _).2 _ _ isUse

/-! ## Lookups -/

/-- The reader is at some moment. -/
def Reached (get : Key → Except ε Bytes) (requested : Nat)
    (reader : DirectoryReader) : Prop :=
  ∃ uses, Moment get requested reader uses

theorem reached_directory
    (reached : Reached get requested reader)
    (isUse : reader.directory get k = (outcome, after)) :
    outcome = decode get k ∧ Reached get requested after := by
  obtain ⟨uses, moment⟩ := reached
  have isOutcome := (moment.keeps.directory k).1
  rw [isUse] at isOutcome
  refine ⟨isOutcome, ?_⟩
  cases outcome with
  | error error => exact ⟨uses, moment.failed isUse⟩
  | ok decoded => exact ⟨k :: uses, moment.used isUse⟩

section Sized

variable (sized : ∀ k data, get k = .ok data → data.length < 2 ^ 63)

include sized

/-- Going down one level is decoding a directory and searching in it. -/
theorem lookupStep_of_ok
    (name : Bytes)
    (isDecoded : decode get k = .ok decoded) :
    lookupStep get name k = search name k decoded := by
  obtain ⟨data, isData, isObject⟩ := bind_eq_ok_iff.mp isDecoded
  have isRead := mapError_eq_ok_iff.mp isData
  split at isObject
  case h_1 isLeaf =>
    obtain ⟨entries, isEntries, same⟩ := bind_eq_ok_iff.mp isObject
    obtain rfl := Except.ok.inj same
    rw [lookupStep, isRead, mapError_ok, isLeaf]
    dsimp only
    rw [leafEntry_eq_decodedEntry k (sized k data isRead), decodedEntry,
      isEntries, ok_bind, search]
    cases findEntry entries name <;> rfl
  case h_2 isNode =>
    obtain ⟨pairs, isPairs, same⟩ := bind_eq_ok_iff.mp isObject
    obtain rfl := Except.ok.inj same
    rw [lookupStep, isRead, mapError_ok, isNode]
    dsimp only
    rw [nodeChild_eq_decodedChild k (sized k data isRead), decodedChild,
      isPairs, ok_bind, search]
    cases findChild pairs name <;> rfl
  case h_3 => cases isObject

theorem lookupStep_of_error
    (name : Bytes)
    (notDecoded : decode get k = .error error) :
    lookupStep get name k = .done (.error error) := by
  unfold decode at notDecoded
  cases isRead : get k with
  | error source =>
    rw [isRead] at notDecoded
    cases notDecoded
    rw [lookupStep, isRead]
    rfl
  | ok data =>
    rw [isRead, mapError_ok, ok_bind] at notDecoded
    split at notDecoded
    case h_1 isLeaf =>
      rw [lookupStep, isRead, mapError_ok, isLeaf]
      dsimp only
      rw [leafEntry_eq_decodedEntry k (sized k data isRead), decodedEntry]
      cases isEntries : decodeDirLeaf data with
      | error source =>
        rw [isEntries] at notDecoded
        cases notDecoded
        rfl
      | ok entries =>
        rw [isEntries] at notDecoded
        cases notDecoded
    case h_2 isNode =>
      rw [lookupStep, isRead, mapError_ok, isNode]
      dsimp only
      rw [nodeChild_eq_decodedChild k (sized k data isRead), decodedChild]
      cases isPairs : decodeDirNode data with
      | error source =>
        rw [isPairs] at notDecoded
        cases notDecoded
        rfl
      | ok pairs =>
        rw [isPairs] at notDecoded
        cases notDecoded
    case h_3 notLeaf notNode =>
      cases notDecoded
      rw [lookupStep, isRead, mapError_ok]
      dsimp only
      split
      case h_1 isLeaf => exact absurd isLeaf notLeaf
      case h_2 isNode => exact absurd isNode notNode
      case h_3 => rfl

/-- A reader goes down as the function does. -/
theorem lookupFrom_gives (name : Bytes) (fuel : Nat) (k : Key) :
    Gives (Reached get requested) (lookupFrom get name fuel k)
      (Loop.run (lookupStep get name) fuel k) := by
  induction fuel generalizing k with
  | zero => exact fun reader reached => ⟨rfl, reached⟩
  | succ fuel ih =>
    intro reader reached
    rw [lookupFrom]
    cases isUse : reader.directory get k with
    | mk outcome after =>
      obtain ⟨isOutcome, isAfter⟩ := reached_directory reached isUse
      cases outcome with
      | error error =>
        rw [Loop.run_done (lookupStep_of_error sized name isOutcome.symm)]
        exact ⟨rfl, isAfter⟩
      | ok decoded =>
        have step := lookupStep_of_ok sized name isOutcome.symm
        dsimp only
        cases isSearch : search name k decoded with
        | done answer =>
          rw [Loop.run_done (step.trans isSearch)]
          exact ⟨rfl, isAfter⟩
        | more child =>
          rw [Loop.run_more (step.trans isSearch)]
          exact ih child after isAfter

theorem lookupEntry_gives (fuel : Nat) (dir : Key) (name : Bytes) :
    Gives (Reached get requested) (lookupEntry get fuel dir name)
      (Fstree.lookupEntry get fuel dir name) := by
  rintro reader ⟨uses, moment⟩
  have isDir := moment.keeps.dirOf_fst dir
  have isAfter := moment.dirOf dir
  unfold lookupEntry Fstree.lookupEntry
  generalize reader.dirOf get dir = looked at isDir isAfter
  obtain ⟨outcome, after⟩ := looked
  obtain rfl : outcome = Fstree.dirOf get dir := isDir
  cases Fstree.dirOf get dir with
  | error error => exact ⟨rfl, uses, isAfter⟩
  | ok k => exact lookupFrom_gives sized name fuel k after ⟨uses, isAfter⟩

end Sized

/-! ## Calls -/

/-- A getter of objects.  What it gives is a vector, which is not longer than any
allocation. -/
structure Getter (ε : Type) where
  get : Key → Except ε Bytes
  sized : ∀ k data, get k = .ok data → data.length < 2 ^ 63

/-- A call of a reader. -/
inductive Call
  | lookupEntry (dir : Key) (name : Bytes)
  | resolvePath (root : Key) (path : Bytes)
  | resolveEntry (root : Key) (path : Bytes)

/-- What a call finds. -/
inductive Found
  | entry (e : Entry)
  | key (k : Key)
  | entryAt (e : Option Entry)

/-- The answer of the function that keeps nothing. -/
def Call.free (get : Key → Except ε Bytes) (fuel : Nat) :
    Call → Option (Except (WalkError ε) Found)
  | lookupEntry dir name =>
    (Fstree.lookupEntry get fuel dir name).map (Except.map .entry)
  | resolvePath root path =>
    (Fstree.resolvePath get fuel root path).map (Except.map .key)
  | resolveEntry root path =>
    (Fstree.resolveEntry get fuel root path).map (Except.map .entryAt)

/-- A step with its result wrapped. -/
def mapStep {α β : Type} (wrap : α → β) (step : Step ε σ α) : Step ε σ β :=
  fun state => ((step state).1.map (Except.map wrap), (step state).2)

/-- The answer of a reader. -/
def Call.answer (get : Key → Except ε Bytes) (fuel : Nat) :
    Call → Step ε DirectoryReader Found
  | lookupEntry dir name =>
    mapStep .entry (DirectoryReader.lookupEntry get fuel dir name)
  | resolvePath root path =>
    mapStep .key (DirectoryReader.resolvePath get fuel root path)
  | resolveEntry root path =>
    mapStep .entryAt (DirectoryReader.resolveEntry get fuel root path)

/-- The answers to calls in sequence, and the reader after them. -/
def answers (get : Key → Except ε Bytes) (fuel : Nat) :
    List Call → DirectoryReader →
      List (Option (Except (WalkError ε) Found)) × DirectoryReader
  | [], reader => ([], reader)
  | call :: calls, reader =>
    let (answer, reader) := call.answer get fuel reader
    let (rest, reader) := answers get fuel calls reader
    (answer :: rest, reader)

theorem Gives.map
    {outcome : Option (Except (WalkError ε) α)}
    (gives : Gives kind step outcome) (wrap : α → β) :
    Gives kind (mapStep wrap step) (outcome.map (Except.map wrap)) := by
  intro state isKind
  obtain ⟨isOutcome, isAfter⟩ := gives state isKind
  exact ⟨congrArg (Option.map (Except.map wrap)) isOutcome, isAfter⟩

theorem Call.answer_gives (getter : Getter ε) (fuel : Nat) (call : Call) :
    Gives (Reached getter.get requested) (call.answer getter.get fuel)
      (call.free getter.get fuel) := by
  have looksUp := @lookupEntry_gives ε getter.get requested getter.sized fuel
  cases call with
  | lookupEntry dir name => exact Gives.map (looksUp dir name) Found.entry
  | resolvePath root path =>
    exact Gives.map (walkPathFrom_gives looksUp path root _) Found.key
  | resolveEntry root path =>
    exact Gives.map (walkEntryFrom_gives looksUp path root none _) Found.entryAt

theorem answers_gives (getter : Getter ε) (fuel : Nat) (calls : List Call)
    (reached : Reached getter.get requested reader) :
    (answers getter.get fuel calls reader).1 =
        calls.map (Call.free getter.get fuel) ∧
      Reached getter.get requested (answers getter.get fuel calls reader).2 := by
  induction calls generalizing reader with
  | nil => exact ⟨rfl, reached⟩
  | cons call calls ih =>
    obtain ⟨isAnswer, isAfter⟩ := call.answer_gives getter fuel reader reached
    obtain ⟨areAnswers, isLast⟩ := ih isAfter
    exact ⟨by rw [answers, List.map_cons, ← isAnswer, ← areAnswers], isLast⟩

/-- A reader answers every sequence of calls as the functions that keep nothing.
At every moment it keeps at most its capacity of directories and of commits'
trees, and an eviction keeps the half that was used last.  A capacity of zero is
taken as one. -/
theorem directoryReader_agrees (getter : Getter ε) (requested : Nat) :
    (∀ fuel calls,
      (answers getter.get fuel calls (withCapacity requested)).1 =
          calls.map (Call.free getter.get fuel) ∧
        ∃ uses, Moment getter.get requested
          (answers getter.get fuel calls (withCapacity requested)).2 uses) ∧
    ∀ reader uses, Moment getter.get requested reader uses →
      reader.directories.length ≤ max requested 1 ∧
      reader.commits.length ≤ max requested 1 ∧
      (reader.capacity ≤ reader.directories.length →
        reader.evict.directories.length = max requested 1 / 2 ∧
        (reader.evict.directories.map Recency.Slot.key).Perm
          ((Recency.recent uses).take (max requested 1 / 2))) := by
  constructor
  · intro fuel calls
    exact answers_gives getter fuel calls ⟨[], .start⟩
  · intro reader uses moment
    have keeps := moment.keeps
    have few := keeps.few
    have fewCommits := keeps.fewCommits
    rw [keeps.capacity_eq] at few fewCommits
    refine ⟨few, fewCommits, fun full => ?_⟩
    have evicted := (keeps.evict full).2
    rw [keeps.capacity_eq] at evicted
    exact evicted

/-- The key of a leaf. -/
def sampleLeaf : Key :=
  Key.newFromHash .dirLeaf 0 ⟨List.replicate 32 4, rfl⟩

/-- A getter of leaves without entries. -/
def sampleGet : Key → Except Unit Bytes := fun _ => .ok [0x80]

theorem decode_sampleLeaf : decode sampleGet sampleLeaf = .ok (.leaf []) := by
  have isLeaf : sampleLeaf.type_ = some .dirLeaf := by decide
  have isDecoded : decodeDirLeaf [0x80] = .ok [] :=
    @decodeDirLeaf_scanned [] (Nat.zero_le _)
  unfold decode sampleGet
  rw [isLeaf, mapError_ok, ok_bind]
  dsimp only
  rw [isDecoded, mapError_ok, ok_bind]

/-- A getter that gives short vectors. -/
def sampleGetter : Getter Unit where
  get := sampleGet
  sized _ _ isRead := by
    cases isRead
    decide

/-- Lookups in two directories that fill a reader. -/
def sampleCalls : List Call :=
  [.lookupEntry sampleLeaf [0x61],
    .lookupEntry (Key.newFromHash .dirLeaf 1 ⟨List.replicate 32 4, rfl⟩) [0x61],
    .lookupEntry sampleLeaf [0x62]]

/-- The lookups are answered, and one directory is left after an eviction. -/
theorem directoryReader_agrees_sampleCalls :
    (answers sampleGet 1 sampleCalls (withCapacity 2)).1 =
        sampleCalls.map (Call.free sampleGet 1) ∧
      (answers sampleGet 1 sampleCalls
        (withCapacity 2)).2.evict.directories.length = 1 := by
  obtain ⟨agree, bounded⟩ := directoryReader_agrees sampleGetter 2
  obtain ⟨same, uses, moment⟩ := agree 1 sampleCalls
  obtain ⟨-, -, evicted⟩ := bounded _ uses moment
  exact ⟨same, (evicted (by decide +kernel)).1⟩

/-- A reader of capacity zero keeps a directory after one lookup. -/
theorem withCapacity_zero_keeps_one :
    ¬(answers sampleGet 1 [.lookupEntry sampleLeaf [0x61]]
      (withCapacity 0)).2.directories.length ≤ 0 := by
  have isDir : (withCapacity 0).dirOf sampleGet sampleLeaf =
      (.ok sampleLeaf, withCapacity 0) := by
    rfl
  have isUse : (withCapacity 0).directory sampleGet sampleLeaf =
      (.ok (.leaf []), ⟨1, 1, [⟨sampleLeaf, .leaf [], 1⟩], []⟩) := by
    unfold directory
    rw [decode_sampleLeaf]
    rfl
  have isLookup : lookupEntry sampleGet 1 sampleLeaf [0x61] (withCapacity 0) =
      (some (.error (.notFound [0x61])),
        ⟨1, 1, [⟨sampleLeaf, .leaf [], 1⟩], []⟩) := by
    rw [lookupEntry, isDir]
    dsimp only
    rw [lookupFrom, isUse]
    rfl
  simp only [answers, Call.answer, mapStep, isLookup]
  decide

end DirectoryReader

end AmberStore.Fstree

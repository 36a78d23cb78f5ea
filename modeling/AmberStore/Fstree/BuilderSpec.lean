import AmberStore.Fstree.Builder
import AmberStore.Fstree.CodecSpec
import AmberStore.KeySpec

/-!
# What the index levels hold

Every child that was added has some content.  The open runs hold, from the top
level down, the content of all children in the order they were added; whatever a
build closes keeps that, given a rule for the content of an index node.
-/

open ByteString Checked
open List hiding after

namespace AmberStore.Fstree

/-! ## Emitted objects -/

/-- The emitted objects as a store. -/
def getFrom (missing : ε) (objects : List Object) (k : Key) : Except ε Bytes :=
  match objects.find? fun o => o.key = k with
  | some o => .ok o.bytes
  | none => .error missing

/-- Distinct objects have distinct keys. -/
def KeysDistinct (objects : List Object) : Prop :=
  ∀ o ∈ objects, ∀ other ∈ objects, o.key = other.key → o = other

/-- Every object is found under its key. -/
theorem KeysDistinct.getFrom
    (distinct : KeysDistinct objects) (missing : ε)
    (isIn : o ∈ objects) :
    getFrom missing objects o.key = .ok o.bytes := by
  unfold Fstree.getFrom
  cases found : objects.find? fun other => other.key = o.key with
  | none => exact absurd (find?_eq_none.mp found o isIn) (by simp)
  | some other =>
    have sameKey : other.key = o.key := by
      simpa using find?_some found
    rw [distinct other (mem_of_find?_eq_some found) o isIn sameKey]

/-- A digest that tells bytes apart by how they start. -/
def startDigest (b : Bytes) : Key.Digest Key.size :=
  ⟨(b ++ List.replicate Key.size 0).take Key.size, by simp⟩

/-- The key of an object is made from its bytes. -/
def Object.Keyed (blake3 : Bytes → Key.Digest Key.size) (o : Object) : Prop :=
  ∃ type_ length, type_ ≠ .gitSha1 ∧ o = newObject blake3 type_ length o.bytes

theorem Object.Keyed.canonical
    {o : Object} (keyed : o.Keyed blake3) : o.key.Canonical := by
  obtain ⟨type_, length, notGit, made⟩ := keyed
  rw [made]
  exact Key.canonical_newFromHash _ _ _ notGit

namespace IndexBuilder

open Chunkers (ItemChunker)

variable {blake3 : Bytes → Key.Digest Key.size} {hash : Bytes → UInt64}
variable {ic : ItemChunker} {isDir : Bool} {β : Type}

/-! ## What runs hold -/

/-- The children of a run with their separators. -/
def children (isDir : Bool) (level : IdxLevel) : List (Key × Bytes) :=
  if isDir then level.keys.zip level.seps else level.keys.map fun k => (k, [])

/-- The run is as long as it says. -/
structure WellCounted (isDir : Bool) (level : IdxLevel) : Prop where
  keys : level.keys.length = level.runLen
  seps : isDir = true → level.seps.length = level.runLen

/-- The children of a run have the content. -/
def Carries (isDir : Bool) (good : Key → Bytes → List β → Prop)
    (level : IdxLevel) (content : List β) : Prop :=
  ∃ parts, List.Forall₂ (fun child part => good child.1 child.2 part)
    (children isDir level) parts ∧ content = parts.flatten

/-- The levels hold the content, the upper ones what comes first. -/
def Holds (ic : ItemChunker) (isDir : Bool)
    (good : Key → Bytes → List β → Prop) :
    List IdxLevel → List β → Prop
  | [], content => content = []
  | level :: upper, content =>
    WellCounted isDir level ∧ level.runLen < ic.maxRun ∧
      ∃ above here, Holds ic isDir good upper above ∧
        Carries isDir good level here ∧ content = above ++ here

theorem wellCounted_empty : WellCounted isDir {} :=
  ⟨rfl, fun _ => rfl⟩

theorem WellCounted.push
    (counted : WellCounted isDir level)
    (ck : Key) (sep : Bytes) :
    WellCounted isDir (push isDir level ck sep) := by
  constructor
  · simp [IndexBuilder.push, counted.keys]
  · intro dir
    simp [IndexBuilder.push, dir, counted.seps dir]

theorem children_push
    (counted : WellCounted isDir level)
    (ck : Key) (sep : Bytes) :
    children isDir (push isDir level ck sep) =
      children isDir level ++ [(ck, if isDir then sep else [])] := by
  unfold children IndexBuilder.push
  cases dir : isDir with
  | false => simp
  | true =>
    have same : level.keys.length = level.seps.length := by
      rw [counted.keys, counted.seps dir]
    simp [zip_append same]

theorem length_children
    (counted : WellCounted isDir level) :
    (children isDir level).length = level.runLen := by
  unfold children
  cases dir : isDir with
  | false => simp [counted.keys]
  | true => simp [counted.keys, counted.seps dir]

theorem carries_empty (good : Key → Bytes → List β → Prop) :
    Carries isDir good {} [] := by
  refine ⟨[], ?_, rfl⟩
  cases isDir <;> exact .nil

/-- A child that is added comes last. -/
theorem Carries.push
    (carries : Carries isDir good level content)
    (counted : WellCounted isDir level)
    (isGood : good ck (if isDir then sep else []) part) :
    Carries isDir good (push isDir level ck sep) (content ++ part) := by
  obtain ⟨parts, all, rfl⟩ := carries
  refine ⟨parts ++ [part], ?_, by simp⟩
  rw [children_push counted]
  exact rel_append all (.cons isGood .nil)

/-! ## Closing -/

/-- The rule for the content of an index node: it has that of its children and
what the node adds to it, once it is stored. -/
def Closes (blake3 : Bytes → Key.Digest Key.size) (ic : ItemChunker)
    (isDir : Bool) (stored : Object → Prop) (adds : Object → List β)
    (good : Key → Bytes → List β → Prop) : Prop :=
  ∀ level content obj sep, WellCounted isDir level →
    2 ≤ level.runLen → level.runLen ≤ ic.maxRun →
    Carries isDir good level content →
    buildNode blake3 isDir level = .ok (obj, sep) → stored obj →
    good obj.key (if isDir then sep else []) (content ++ adds obj)

theorem flatMap_nothing (emitted : List Object) :
    emitted.flatMap (fun _ => ([] : List β)) = [] := by
  simp

section Closing

variable {stored : Object → Prop} {adds : Object → List β}
variable {good : Key → Bytes → List β → Prop}
variable (closes : Closes blake3 ic isDir stored adds good)

include closes in
/-- What is added comes after what the levels hold, and every node that is
emitted has some content. -/
theorem Holds.addFrom
    {levels : List IdxLevel}
    (holds : Holds ic isDir good levels content)
    (isGood : good ck (if isDir then sep else []) part)
    (added : addFrom blake3 hash ic isDir levels ck sep = .ok (after, emitted))
    (allStored : ∀ o ∈ emitted, stored o) :
    Holds ic isDir good after (content ++ part ++ emitted.flatMap adds) ∧
      ∀ o ∈ emitted, ∃ sep content, good o.key sep content := by
  induction levels generalizing after ck sep emitted content part with
  | nil =>
    cases added
    cases holds
    refine ⟨⟨wellCounted_empty.push ck sep, ?_, [], part, rfl, ?_, by simp⟩,
      by simp⟩
    · exact Nat.lt_of_lt_of_le (Nat.lt_succ_self 1) ic.two_le_maxRun
    · have carries := (carries_empty good).push wellCounted_empty isGood
      simpa using carries
  | cons level upper ih =>
    obtain ⟨counted, room, above, here, held, carries, rfl⟩ := holds
    have pushed := carries.push counted isGood
    have stillCounted := counted.push ck sep
    rw [IndexBuilder.addFrom] at added
    dsimp only at added
    split at added
    case isFalse goesOn =>
      cases added
      exact ⟨⟨stillCounted, ItemChunker.lt_maxRun_of_not_isBoundary goesOn,
        above, here ++ part, held, pushed, by simp⟩, by simp⟩
    case isTrue ends =>
      obtain ⟨⟨obj, top⟩, isNode, added⟩ := bind_eq_ok_iff.mp added
      obtain ⟨⟨upper', later⟩, isAdded, same⟩ := bind_eq_ok_iff.mp added
      cases same
      obtain ⟨isStored, othersStored⟩ := forall_mem_cons.mp allStored
      have nodeGood := closes _ _ _ _ stillCounted
        (ItemChunker.two_le_of_isBoundary ends) room pushed isNode isStored
      obtain ⟨stillHeld, othersGood⟩ := ih held nodeGood isAdded othersStored
      refine ⟨⟨wellCounted_empty, ?_, _, [], stillHeld, carries_empty good, ?_⟩,
        forall_mem_cons.mpr ⟨⟨_, _, nodeGood⟩, othersGood⟩⟩
      · exact Nat.lt_of_lt_of_le Nat.zero_lt_two ic.two_le_maxRun
      · simp only [flatMap_cons, append_assoc, append_nil]

end Closing

/-! ## The steps of finishing -/

/-- The child that a run of one has. -/
abbrev onlyKey (level : IdxLevel) : Key := level.keys.headD (Key.repeated 0)

/-- The separator of that child. -/
abbrev onlySep (level : IdxLevel) : Bytes := level.seps.headD []

section Finish

variable (blake3 hash ic isDir)

/-- What closing the lowest level comes to. -/
inductive FinishStep (level : IdxLevel) (upper : List IdxLevel) :
    Except BuildError (Key × List Object) → Prop
  | empty (isRun : level.runLen = 0) :
      FinishStep level upper (finishFrom blake3 hash ic isDir upper)
  | root (isRun : level.runLen = 1) (isTop : upper = []) :
      FinishStep level upper (.ok (onlyKey level, []))
  | promoted (isRun : level.runLen = 1) (notTop : upper ≠ []) :
      FinishStep level upper
        (addFrom blake3 hash ic isDir upper (onlyKey level) (onlySep level) >>=
          fun (after, emitted) =>
            finishFrom blake3 hash ic isDir after >>= fun (root, later) =>
              .ok (root, emitted ++ later))
  | closed (isRun : 2 ≤ level.runLen) :
      FinishStep level upper
        (buildNode blake3 isDir level >>= fun (obj, sep) =>
          addFrom blake3 hash ic isDir upper obj.key sep >>=
            fun (after, emitted) =>
              finishFrom blake3 hash ic isDir after >>= fun (root, later) =>
                .ok (root, obj :: emitted ++ later))

theorem finishStep (level : IdxLevel) (upper : List IdxLevel) :
    FinishStep blake3 hash ic isDir level upper
      (finishFrom blake3 hash ic isDir (level :: upper)) := by
  rw [finishFrom]
  split
  case h_1 isRun => exact .empty isRun
  case h_2 isRun =>
    by_cases isTop : upper = []
    · rw [dif_pos isTop]
      exact .root isRun isTop
    · rw [dif_neg isTop]
      convert FinishStep.promoted isRun isTop using 1
      split
      · rename_i error added
        rw [added]
        rfl
      · rename_i after emitted added
        rw [added]
        rfl
  case h_3 count isRun =>
    have isLong : 2 ≤ level.runLen := by omega
    convert FinishStep.closed isLong using 1
    cases buildNode blake3 isDir level with
    | error error => rfl
    | ok built =>
      rw [ok_bind]
      dsimp only
      split
      · rename_i error added
        rw [added]
        rfl
      · rename_i after emitted added
        rw [added]
        rfl

end Finish

/-- The top level has a child. -/
def Topped : List IdxLevel → Prop
  | [] => False
  | [level] => 0 < level.runLen
  | _ :: upper => Topped upper

theorem topped_cons
    (topped : Topped upper) :
    Topped (level :: upper) := by
  cases upper with
  | nil => exact topped.elim
  | cons next upper => exact topped

theorem topped_of_cons
    (topped : Topped (level :: upper)) : upper = [] ∨ Topped upper := by
  cases upper with
  | nil => exact .inl rfl
  | cons next upper => exact .inr topped

theorem Topped.addFrom
    {levels : List IdxLevel}
    (topped : levels = [] ∨ Topped levels)
    (added : addFrom blake3 hash ic isDir levels ck sep =
      .ok (after, emitted)) : Topped after := by
  induction levels generalizing after ck sep emitted with
  | nil =>
    cases added
    exact Nat.zero_lt_one
  | cons level upper ih =>
    have above : upper = [] ∨ Topped upper :=
      topped.elim (fun empty => (cons_ne_nil _ _ empty).elim)
        topped_of_cons
    rw [IndexBuilder.addFrom] at added
    dsimp only at added
    split at added
    case isFalse =>
      cases added
      rcases above with rfl | above
      · exact Nat.succ_pos _
      · exact topped_cons above
    case isTrue =>
      obtain ⟨⟨obj, top⟩, -, added⟩ := bind_eq_ok_iff.mp added
      obtain ⟨⟨upper', later⟩, isAdded, same⟩ := bind_eq_ok_iff.mp added
      cases same
      exact topped_cons (ih above isAdded)

section Root

variable {stored : Object → Prop} {adds : Object → List β}
variable {good : Key → Bytes → List β → Prop}

theorem carries_of_empty
    (counted : WellCounted isDir level) (isRun : level.runLen = 0)
    (carries : Carries isDir good level content) : content = [] := by
  obtain ⟨parts, all, rfl⟩ := carries
  have length := all.length_eq
  rw [length_children counted, isRun] at length
  rw [length_eq_zero_iff.mp length.symm]
  rfl

theorem good_of_only
    (counted : WellCounted isDir level) (isRun : level.runLen = 1)
    (carries : Carries isDir good level content) :
    good (onlyKey level) (if isDir then onlySep level else []) content := by
  obtain ⟨parts, all, rfl⟩ := carries
  obtain ⟨k, isKeys⟩ := length_eq_one_iff.mp (counted.keys.trans isRun)
  unfold children at all
  cases dir : isDir with
  | false =>
    rw [dir, isKeys] at all
    cases all with
    | cons isGood rest =>
      cases rest
      simpa [isKeys] using isGood
  | true =>
    obtain ⟨sep, isSeps⟩ :=
      length_eq_one_iff.mp ((counted.seps dir).trans isRun)
    rw [dir, isKeys, isSeps] at all
    cases all with
    | cons isGood rest =>
      cases rest
      simpa [isKeys, isSeps] using isGood

variable (closes : Closes blake3 ic isDir stored adds good)

include closes in
/-- The root has the content of all children. -/
theorem Holds.finishFrom
    {levels : List IdxLevel}
    (holds : Holds ic isDir good levels content)
    (finished : finishFrom blake3 hash ic isDir levels = .ok (root, emitted))
    (allStored : ∀ o ∈ emitted, stored o) :
    (∃ sep, good root sep (content ++ emitted.flatMap adds)) ∧
      ∀ o ∈ emitted, ∃ sep content, good o.key sep content := by
  induction size : openSize levels using Nat.strong_induction_on
    generalizing levels content emitted with
  | _ size ih =>
    cases levels with
    | nil =>
      rw [IndexBuilder.finishFrom] at finished
      cases finished
    | cons level upper =>
      obtain ⟨counted, room, above, here, held, carries, rfl⟩ := holds
      have step := finishStep blake3 hash ic isDir level upper
      generalize IndexBuilder.finishFrom blake3 hash ic isDir
        (level :: upper) = result at step finished
      rw [openSize_cons] at size
      cases step with
      | empty isRun =>
        cases carries_of_empty counted isRun carries
        rw [append_nil]
        exact ih (openSize upper) (by omega) held finished allStored rfl
      | root isRun isTop =>
        subst isTop
        cases held
        cases finished
        rw [nil_append, flatMap_nil, append_nil]
        exact ⟨⟨_, good_of_only counted isRun carries⟩, by simp⟩
      | promoted isRun notTop =>
        obtain ⟨⟨after, first⟩, added, finished⟩ := bind_eq_ok_iff.mp finished
        obtain ⟨⟨_, later⟩, isFinished, same⟩ := bind_eq_ok_iff.mp finished
        cases same
        obtain ⟨firstStored, laterStored⟩ := forall_mem_append.mp allStored
        obtain ⟨stillHeld, firstGood⟩ := held.addFrom closes
          (good_of_only counted isRun carries) added firstStored
        have smaller := (openSize_addFrom added).2 notTop
        obtain ⟨rootGood, laterGood⟩ := ih
          (openSize after) (by omega) stillHeld isFinished laterStored rfl
        refine ⟨?_, forall_mem_append.mpr ⟨firstGood, laterGood⟩⟩
        rwa [flatMap_append, ← append_assoc]
      | closed isRun =>
        obtain ⟨⟨obj, sep⟩, isNode, finished⟩ := bind_eq_ok_iff.mp finished
        obtain ⟨⟨after, first⟩, added, finished⟩ := bind_eq_ok_iff.mp finished
        obtain ⟨⟨_, later⟩, isFinished, same⟩ := bind_eq_ok_iff.mp finished
        cases same
        rw [cons_append, forall_mem_cons, forall_mem_append] at allStored
        obtain ⟨nodeStored, firstStored, laterStored⟩ := allStored
        have nodeGood := closes _ _ _ _ counted isRun
          (Nat.le_of_lt room) carries isNode nodeStored
        obtain ⟨stillHeld, firstGood⟩ :=
          held.addFrom closes nodeGood added firstStored
        have smaller := (openSize_addFrom added).1
        obtain ⟨rootGood, laterGood⟩ := ih
          (openSize after) (by omega) stillHeld isFinished laterStored rfl
        rw [cons_append, forall_mem_cons, forall_mem_append]
        refine ⟨?_, ⟨_, _, nodeGood⟩, firstGood, laterGood⟩
        simpa only [flatMap_cons, flatMap_append, append_assoc] using rootGood

end Root

/-! ## Success -/

/-- What a step of a build comes to: a result, or an object that cannot be
encoded, which only a directory has and not over canonical keys. -/
inductive Outcome (isDir : Bool) (canonical : Prop) (good : α → Prop) :
    Except BuildError α → Prop
  | ok {result : α} (isGood : good result) :
      Outcome isDir canonical good (.ok result)
  | failed (source : Error) (dir : isDir = true) (notCanonical : ¬canonical) :
      Outcome isDir canonical good (.error (.encode source))

namespace Outcome

variable {canonical : Prop} {α γ : Type} {good : α → Prop} {next : γ → Prop}
  {outcome : Except BuildError α}

theorem bind
    (first : Outcome isDir canonical good outcome)
    (steps : ∀ result, outcome = .ok result → good result →
      Outcome isDir canonical next (step result)) :
    Outcome isDir canonical next (outcome >>= step) := by
  cases first with
  | ok isGood => exact steps _ rfl isGood
  | failed source dir notCanonical => exact .failed source dir notCanonical

theorem exists_ok
    (comes : Outcome isDir canonical good outcome)
    (sound : isDir = true → canonical) :
    ∃ result, outcome = .ok result ∧ good result := by
  cases comes with
  | ok isGood => exact ⟨_, rfl, isGood⟩
  | failed source dir notCanonical => exact absurd (sound dir) notCanonical

end Outcome

variable {canonical : Prop}

/-- A run has as many keys as it says, and they are canonical if they are to
be. -/
structure CanonicalRun (canonical : Prop) (level : IdxLevel) : Prop where
  counted : level.keys.length = level.runLen
  keys : canonical → ∀ k ∈ level.keys, k.Canonical

theorem keyed_newObject
    (notGit : type_ ≠ .gitSha1) (length : Nat)
    (bytes : Bytes) :
    (newObject blake3 type_ length bytes).Keyed blake3 :=
  ⟨type_, length, notGit, rfl⟩

/-- An index node of a directory is encoded if its children are. -/
theorem outcome_encodeDirNode
    (keys : canonical →
      ∀ p ∈ pairs, ∃ k : Key, k.Canonical ∧ p.childKey = k.bytes) :
    Outcome true canonical (Object.Keyed blake3)
      ((encodeDirNode blake3 pairs).mapError .encode) := by
  cases encoded : encodeDirNode blake3 pairs with
  | ok obj =>
    obtain ⟨sub, -, same⟩ := bind_eq_ok_iff.mp encoded
    cases same
    exact .ok (keyed_newObject (by decide) _ _)
  | error source =>
    refine .failed source rfl fun isCanonical => ?_
    obtain ⟨sub, isSub⟩ : ∃ sub, (pairs.mapM fun p => do
        let key ← (Key.parse p.childKey).mapError Error.dirNodeChildKey
        .ok key.length) = .ok sub := by
      apply exists_mapM_eq_ok
      intro p isPair
      obtain ⟨k, here, isBytes⟩ := keys isCanonical p isPair
      have parsed : Key.parse p.childKey = .ok k :=
        (Key.parse_eq_ok_iff _ _).mpr ⟨isBytes.symm, here⟩
      exact ⟨k.length, by rw [parsed]; rfl⟩
    rw [encodeDirNode, isSub] at encoded
    cases encoded

namespace CanonicalRun

theorem empty : CanonicalRun canonical {} :=
  ⟨rfl, by simp⟩

theorem push
    (isRun : CanonicalRun canonical level)
    (isCanonical : canonical → ck.Canonical) (sep : Bytes) :
    CanonicalRun canonical (push isDir level ck sep) := by
  constructor
  · rw [IndexBuilder.push, length_append, isRun.counted]
    rfl
  · intro sound
    exact forall_mem_append.mpr ⟨isRun.keys sound,
      forall_mem_singleton.mpr (isCanonical sound)⟩

theorem outcome_buildNode (isRun : CanonicalRun canonical level) :
    Outcome isDir canonical (fun built => built.1.Keyed blake3)
      (buildNode blake3 isDir level) := by
  unfold buildNode
  cases isDir with
  | false => exact .ok (keyed_newObject (by decide) _ _)
  | true =>
    rw [if_pos rfl]
    refine (outcome_encodeDirNode fun sound p isPair => ?_).bind
      fun obj _ keyed => .ok keyed
    rw [← map_uncurry_zip_eq_zipWith] at isPair
    obtain ⟨⟨k, sep⟩, isIn, rfl⟩ := mem_map.mp isPair
    exact ⟨k, isRun.keys sound k (of_mem_zip isIn).1, rfl⟩

end CanonicalRun

/-- A child is added. -/
theorem outcome_addFrom
    {levels : List IdxLevel}
    (runs : ∀ level ∈ levels, CanonicalRun canonical level)
    (isCanonical : canonical → ck.Canonical) (sep : Bytes) :
    Outcome isDir canonical
      (fun added => (∀ level ∈ added.1, CanonicalRun canonical level) ∧
        ∀ o ∈ added.2, o.Keyed blake3)
      (addFrom blake3 hash ic isDir levels ck sep) := by
  induction levels generalizing ck sep with
  | nil =>
    exact .ok ⟨forall_mem_singleton.mpr
      (CanonicalRun.empty.push isCanonical sep), by simp⟩
  | cons level upper ih =>
    obtain ⟨here, others⟩ := forall_mem_cons.mp runs
    have pushed : CanonicalRun canonical (push isDir level ck sep) :=
      here.push isCanonical sep
    rw [IndexBuilder.addFrom]
    dsimp only
    split
    case isFalse =>
      exact .ok ⟨forall_mem_cons.mpr ⟨pushed, others⟩, by simp⟩
    case isTrue =>
      refine pushed.outcome_buildNode.bind fun built _ keyed => ?_
      refine (ih others (fun _ => keyed.canonical)
        built.2).bind fun added _ kept => ?_
      exact .ok ⟨forall_mem_cons.mpr ⟨.empty, kept.1⟩,
        forall_mem_cons.mpr ⟨keyed, kept.2⟩⟩

/-- Levels with a child at the top are finished. -/
theorem outcome_finishFrom
    {levels : List IdxLevel}
    (runs : ∀ level ∈ levels, CanonicalRun canonical level)
    (topped : Topped levels) :
    Outcome isDir canonical (fun finished => ∀ o ∈ finished.2, o.Keyed blake3)
      (finishFrom blake3 hash ic isDir levels) := by
  induction size : openSize levels using Nat.strong_induction_on
    generalizing levels with
  | _ size ih =>
    cases levels with
    | nil => exact topped.elim
    | cons level upper =>
      obtain ⟨here, others⟩ := forall_mem_cons.mp runs
      have above := topped_of_cons topped
      rw [openSize_cons] at size
      have step := finishStep blake3 hash ic isDir level upper
      generalize IndexBuilder.finishFrom blake3 hash ic isDir
        (level :: upper) = result at step ⊢
      cases step with
      | empty isRun =>
        refine ih (openSize upper) (by omega) others (above.resolve_left ?_) rfl
        rintro rfl
        exact (Nat.ne_of_gt topped) isRun
      | root isRun isTop => exact .ok (by simp)
      | promoted isRun notTop =>
        obtain ⟨k, isKeys⟩ := length_eq_one_iff.mp (here.counted.trans isRun)
        have isCanonical : canonical → (onlyKey level).Canonical := by
          intro sound
          rw [onlyKey, isKeys]
          exact here.keys sound k (by simp [isKeys])
        refine (outcome_addFrom others isCanonical _).bind
          fun added isAdded ⟨stillRuns, allKeyed⟩ => ?_
        have smaller := (openSize_addFrom isAdded).2 notTop
        exact (ih (openSize added.1) (by omega) stillRuns
          (Topped.addFrom above isAdded) rfl).bind fun _ _ laterKeyed =>
            .ok (forall_mem_append.mpr ⟨allKeyed, laterKeyed⟩)
      | closed isRun =>
        refine here.outcome_buildNode.bind fun built _ keyed => ?_
        refine (outcome_addFrom others (fun _ => keyed.canonical) _).bind
          fun added isAdded ⟨stillRuns, allKeyed⟩ => ?_
        have smaller := (openSize_addFrom isAdded).1
        exact (ih (openSize added.1) (by omega) stillRuns
          (Topped.addFrom above isAdded) rfl).bind fun _ _ laterKeyed =>
            .ok (forall_mem_append.mpr
              ⟨forall_mem_cons.mpr ⟨keyed, allKeyed⟩, laterKeyed⟩)

/-- The levels of a builder to which children were added. -/
structure Ready (canonical : Prop) (levels : List IdxLevel) : Prop where
  runs : ∀ level ∈ levels, CanonicalRun canonical level
  topped : levels = [] ∨ Topped levels

theorem ready_nil : Ready canonical [] :=
  ⟨by simp, .inl rfl⟩

/-- Such a builder takes another child. -/
theorem Ready.outcome_addChild
    {levels : List IdxLevel} (ready : Ready canonical levels)
    (isCanonical : canonical → ck.Canonical) (sep : Bytes) :
    Outcome isDir canonical
      (fun added => ∃ after, added.1 = ⟨ic, isDir, after⟩ ∧
        (∀ o ∈ added.2, o.Keyed blake3) ∧ Ready canonical after ∧ after ≠ [])
      ((⟨ic, isDir, levels⟩ : IndexBuilder).addChild blake3 hash ck sep) := by
  refine (outcome_addFrom ready.runs isCanonical sep).bind
    fun added isAdded ⟨runs, allKeyed⟩ => ?_
  have topped := Topped.addFrom ready.topped isAdded
  refine .ok ⟨added.1, rfl, allKeyed, ⟨runs, .inr topped⟩, ?_⟩
  intro none
  rw [none] at topped
  exact topped

/-- A child with a canonical key is taken. -/
theorem Ready.exists_addChild
    {levels : List IdxLevel} (ready : Ready True levels)
    (isCanonical : ck.Canonical) (sep : Bytes) :
    ∃ after emitted,
      (⟨ic, isDir, levels⟩ : IndexBuilder).addChild blake3 hash ck sep =
        .ok (⟨ic, isDir, after⟩, emitted) ∧
      (∀ o ∈ emitted, o.Keyed blake3) ∧ Ready True after ∧ after ≠ [] := by
  obtain ⟨⟨_, emitted⟩, added, after, rfl, stillReady⟩ :=
    (ready.outcome_addChild (fun _ => isCanonical) sep).exists_ok
      fun _ => trivial
  exact ⟨after, emitted, added, stillReady⟩

/-- Once it has a child, it finishes. -/
theorem Ready.exists_finish
    {levels : List IdxLevel} (ready : Ready True levels)
    (present : levels ≠ []) :
    ∃ root emitted, (⟨ic, isDir, levels⟩ : IndexBuilder).finish blake3 hash =
      .ok (root, emitted) ∧ ∀ o ∈ emitted, o.Keyed blake3 := by
  obtain ⟨⟨root, emitted⟩, finished⟩ := (outcome_finishFrom ready.runs
    (ready.topped.resolve_left present)).exists_ok fun _ => trivial
  exact ⟨root, emitted, finished⟩

/-- A builder with one child finishes with it. -/
theorem finish_single
    (isRun : level.runLen = 1) :
    (⟨ic, isDir, [level]⟩ : IndexBuilder).finish blake3 hash =
      .ok (onlyKey level, []) := by
  have step := finishStep blake3 hash ic isDir level []
  unfold finish
  dsimp only
  generalize finishFrom blake3 hash ic isDir [level] = result at step ⊢
  cases step with
  | empty isEmpty => omega
  | root _ _ => rfl
  | promoted _ notTop => exact absurd rfl notTop
  | closed isLong => omega

end IndexBuilder
end AmberStore.Fstree

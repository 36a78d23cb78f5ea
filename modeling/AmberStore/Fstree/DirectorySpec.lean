import AmberStore.Fstree.BuilderSpec
import AmberStore.Fstree.LookupSpec
import AmberStore.Lib.Fuel

/-!
# A directory that is built is read back

Below every key that a build of a directory adds there are entries, and every
way to read finds them: collecting, looking a name up, and listing a page.
-/

open ByteString Checked

namespace AmberStore.Fstree

open Chunkers (ItemChunker)
open Filter (atTop)

variable {blake3 : Bytes → Key.Digest Key.size} {hash : Bytes → UInt64}
variable {ε : Type} {get : Key → Except ε Bytes}

/-! ## Entries below a key -/

/-- What a lookup of a name should find. -/
def found (entries : List Entry) (name : Bytes) :
    Except (WalkError ε) Entry :=
  match entries.find? fun e => e.name = name with
  | some e => .ok e
  | none => .error (.notFound name)

/-- A key has entries below it: if they are in order, every way to read finds
them. -/
structure HasEntries (get : Key → Except ε Bytes) (k : Key)
    (entries : List Entry) : Prop where
  canonical : k.Canonical
  isDirectory : k.type_ = some .dirLeaf ∨ k.type_ = some .dirNode
  collects : ∀ᶠ fuel in atTop, ∀ out, InOrder (out ++ entries) →
    collectInner get fuel out k = pure (out ++ entries)
  finds : InOrder entries → ∀ᶠ fuel in atTop, ∀ name,
    Loop.run (lookupStep get name) fuel k = some (found entries name)
  lists : InOrder entries → ∀ᶠ fuel in atTop, ∀ after limit out,
    listInto get after limit fuel out k =
      pure (pushUpTo limit out (entries.filter fun e => after < e.name))

/-! ## Leaves -/

/-- Entries that go on in order are added. -/
theorem pushEntries_eq_ok
    (k : Key)
    (ordered : InOrder (out ++ entries)) :
    (pushEntries k out entries : Except (WalkError ε) _) =
      .ok (out ++ entries) := by
  induction entries generalizing out with
  | nil => simp [pushEntries]
  | cons e rest ih =>
    have goesOn : InOrder ((out ++ [e]) ++ rest) := by
      simpa using ordered
    have pushed := ih goesOn
    rw [List.append_assoc, List.singleton_append] at pushed
    unfold pushEntries
    cases isLast : out.getLast? with
    | none => exact pushed
    | some prev =>
      have isBefore : prev.name < e.name :=
        (List.pairwise_append.mp ordered).2.2 prev
          (List.mem_of_getLast? isLast) e List.mem_cons_self
      dsimp only
      rw [if_neg (List.not_le.mpr isBefore)]
      exact pushed

/-- What comes after a name is what the search leaves. -/
theorem drop_after
    {name : α → Bytes} {values : List α}
    (ordered : values.Pairwise fun left right => name left < name right)
    (after : Bytes) :
    values.drop (Sorted.partitionPoint
        (fun value => decide (name value ≤ after)) values) =
      values.filter fun value => after < name value := by
  have turnsOff : values.Pairwise fun left right =>
      decide (name right ≤ after) = true → decide (name left ≤ after) = true :=
    ordered.imp fun isBefore isBelow => by
      simp only [decide_eq_true_eq] at isBelow ⊢
      exact List.le_trans (List.le_of_lt isBefore) isBelow
  rw [Sorted.drop_partitionPoint turnsOff]
  congr 1
  funext value
  rw [← decide_not, decide_eq_decide]
  exact List.not_le

theorem hasEntries_dirLeaf
    (few : entries.length ≤ Cbor.maxElements)
    (encodable : ∀ e ∈ entries, e.Encodable)
    (encoded : encodeDirLeaf blake3 entries = .ok obj)
    (isStored : get obj.key = .ok obj.bytes)
    (sized : obj.bytes.length < 2 ^ 63) :
    HasEntries get obj.key entries := by
  obtain ⟨bytes, marshalled, encoded⟩ := bind_eq_ok_iff.mp encoded
  obtain ⟨sub, -, same⟩ := bind_eq_ok_iff.mp encoded
  cases same
  have isLeaf : (newObject blake3 .dirLeaf (bytes.length + sub.sum)
      bytes).key.type_ = some .dirLeaf := Key.type_newFromHash _ _ _
  have decoded : decodeDirLeaf bytes = .ok entries :=
    decodeDirLeaf_marshalEntries few encodable marshalled
  refine ⟨(IndexBuilder.keyed_newObject (by decide) _ _).canonical, .inl isLeaf,
    ?_, fun ordered => ?_, fun ordered => ?_⟩
  · apply Fuel.eventually_succ
    apply Filter.Eventually.of_forall
    intro fuel out goesOn
    rw [collectInner, isStored, mapError_ok, answered_bind, isLeaf]
    dsimp only
    rw [newObject, decoded, mapError_ok, answered_bind,
      pushEntries_eq_ok _ goesOn]
    rfl
  · apply Fuel.eventually_succ
    apply Filter.Eventually.of_forall
    intro fuel name
    apply Loop.run_done
    rw [lookupStep, isStored, mapError_ok]
    dsimp only
    rw [isLeaf]
    dsimp only
    rw [leafEntry_eq_decodedEntry _ sized, decodedEntry, newObject, decoded,
      mapError_ok, ok_bind, findEntry_eq_find? ordered]
    rfl
  · apply Fuel.eventually_succ
    apply Filter.Eventually.of_forall
    intro fuel after limit out
    rw [listInto, isStored, mapError_ok, answered_bind, isLeaf]
    dsimp only
    rw [newObject, decoded, mapError_ok, answered_bind, drop_after ordered]

/-! ## Index nodes -/

/-- The pair of a child. -/
def pairOf (child : Key × Bytes) : DirPair := ⟨child.2, child.1.bytes⟩

/-- The last name of the entries. -/
def EndsAt (entries : List Entry) (sep : Bytes) : Prop :=
  ∃ e, entries.getLast? = some e ∧ e.name = sep

theorem EndsAt.exists_mem
    (ends : EndsAt entries sep) :
    ∃ e ∈ entries, e.name = sep := by
  obtain ⟨e, isLast, isName⟩ := ends
  exact ⟨e, List.mem_of_getLast? isLast, isName⟩

/-- No name is after the last one. -/
theorem EndsAt.name_le
    (ends : EndsAt entries sep)
    (ordered : InOrder entries) (isIn : e ∈ entries) :
    e.name ≤ sep := by
  obtain ⟨last, isLast, rfl⟩ := ends
  obtain ⟨front, rfl⟩ := List.getLast?_eq_some_iff.mp isLast
  rcases List.mem_append.mp isIn with before | isIt
  · exact List.le_of_lt ((List.pairwise_append.mp ordered).2.2 e before last
      List.mem_cons_self)
  · rw [List.mem_singleton.mp isIt]
    exact List.le_refl _

/-- The parts of a list in order: each is, and each is before the later ones. -/
theorem inOrder_cons :
    InOrder (part :: parts).flatten ↔
      InOrder part ∧ InOrder parts.flatten ∧
        ∀ e ∈ part, ∀ later ∈ parts.flatten, e.name < later.name := by
  rw [List.flatten_cons]
  exact List.pairwise_append

section Node

variable {children : List (Key × Bytes)} {parts : List (List Entry)}

/-- The separators of parts in order are in order. -/
theorem pairsInOrder_children
    (all : List.Forall₂ (fun child part => EndsAt part child.2) children parts)
    (ordered : InOrder parts.flatten) :
    PairsInOrder (children.map pairOf) := by
  induction all with
  | nil => exact .nil
  | @cons child part children parts ends others ih =>
    obtain ⟨-, restOrdered, before⟩ := inOrder_cons.mp ordered
    refine List.pairwise_cons.mpr ⟨?_, ih restOrdered⟩
    intro pair isPair
    obtain ⟨later, isChild, rfl⟩ := List.mem_map.mp isPair
    obtain ⟨laterPart, isPart, laterEnds⟩ := exists_of_forall₂ others isChild
    obtain ⟨e, isIn, isSep⟩ := ends.exists_mem
    obtain ⟨next, isNext, isNextSep⟩ := laterEnds.exists_mem
    have isBefore := before e isIn next
      (List.mem_flatten.mpr ⟨laterPart, isPart, isNext⟩)
    rwa [isSep, isNextSep] at isBefore

/-- A name is found below the first child whose separator is not before it, or
nowhere. -/
theorem find?_flatten
    {related : Key × Bytes → List Entry → Prop}
    (all : List.Forall₂ (fun child part =>
      related child part ∧ EndsAt part child.2) children parts)
    (ordered : InOrder parts.flatten) (name : Bytes) :
    (children.find? (fun child => name ≤ child.2) = none ∧
        parts.flatten.find? (fun e => e.name = name) = none) ∨
      ∃ child part, children.find? (fun child => name ≤ child.2) = some child ∧
        related child part ∧
        parts.flatten.find? (fun e => e.name = name) =
          part.find? fun e => e.name = name := by
  induction all with
  | nil => exact .inl ⟨rfl, rfl⟩
  | @cons child part children parts here others ih =>
    obtain ⟨partOrdered, restOrdered, before⟩ := inOrder_cons.mp ordered
    rw [List.find?_cons, List.flatten_cons, List.find?_append]
    by_cases isHere : name ≤ child.2
    · have absent : parts.flatten.find? (fun e => decide (e.name = name)) =
          none := by
        rw [List.find?_eq_none]
        intro later isLater same
        have same : later.name = name := by simpa using same
        obtain ⟨e, isIn, isSep⟩ := here.2.exists_mem
        have isBefore := before e isIn later isLater
        rw [isSep, same] at isBefore
        exact List.not_le.mpr isBefore isHere
      refine .inr ⟨child, part, ?_, here.1, ?_⟩
      · simp [isHere]
      · rw [absent, Option.or_none]
    · have absent : part.find? (fun e => decide (e.name = name)) = none := by
        rw [List.find?_eq_none]
        intro e isIn same
        have same : e.name = name := by simpa using same
        exact isHere (same ▸ here.2.name_le partOrdered isIn)
      rw [absent, Option.none_or]
      simpa [isHere] using ih restOrdered

/-! ### Pages -/

/-- A page that is full stays as it is; otherwise it goes on. -/
theorem pushUpTo_append (limit : Nat) (out first rest : List Entry) :
    pushUpTo limit out (first ++ rest) =
      if (pushUpTo limit out first).2 then pushUpTo limit out first
      else pushUpTo limit (pushUpTo limit out first).1 rest := by
  induction first generalizing out with
  | nil => rfl
  | cons e first ih =>
    rw [List.cons_append, pushUpTo, pushUpTo]
    by_cases full : out.length = limit
    · simp [full]
    · simp only [if_neg full]
      exact ih _

/-- The children after a name make up the page of the entries after it. -/
theorem listChildren_eq
    (all : List.Forall₂ (fun child part => child.1.Canonical ∧
      EndsAt part child.2 ∧ ∀ out, visit out child.1 =
        pure (pushUpTo limit out (part.filter fun e => after < e.name)))
      children parts)
    (ordered : InOrder parts.flatten) (out : List Entry) :
    listChildren visit k out
        ((children.map pairOf).filter fun p => after < p.sepName) =
      pure (pushUpTo limit out
        (parts.flatten.filter fun e => after < e.name)) := by
  induction all generalizing out with
  | nil => rfl
  | @cons child part children parts here others ih =>
    obtain ⟨partOrdered, restOrdered, before⟩ := inOrder_cons.mp ordered
    obtain ⟨canonical, ends, visited⟩ := here
    rw [List.map_cons, List.flatten_cons, List.filter_append, pushUpTo_append]
    by_cases isAfter : after < child.2
    · have parsed : Key.parse (pairOf child).childKey = .ok child.1 :=
        (Key.parse_eq_ok_iff _ _).mpr ⟨rfl, canonical⟩
      have isKept : decide (after < (pairOf child).sepName) = true :=
        decide_eq_true isAfter
      rw [List.filter_cons, if_pos isKept, listChildren, parsed,
        mapError_ok, answered_bind, visited, pure_bind]
      generalize pushUpTo limit out _ = page
      obtain ⟨page, more⟩ := page
      cases more with
      | true => rfl
      | false => exact ih restOrdered page
    · have empty : part.filter (fun e => decide (after < e.name)) = [] := by
        rw [List.filter_eq_nil_iff]
        intro e isIn later
        have later : after < e.name := by simpa using later
        exact List.not_le.mpr later
          (List.le_trans (ends.name_le partOrdered isIn)
            (List.not_lt.mp isAfter))
      have isDropped : ¬decide (after < (pairOf child).sepName) = true :=
        fun isKept => isAfter (of_decide_eq_true isKept)
      rw [List.filter_cons, if_neg isDropped, empty]
      exact ih restOrdered out

omit children parts in
/-- A lookup goes to the first child whose separator is not before the name. -/
theorem lookupStep_of_decoded
    (isNode : k.type_ = some .dirNode) (isStored : get k = .ok data)
    (sized : data.length < 2 ^ 63) (decoded : decodeDirNode data = .ok pairs)
    (ordered : PairsInOrder pairs) (name : Bytes) :
    lookupStep get name k =
      match pairs.find? fun p => decide (name ≤ p.sepName) with
      | none => .done (.error (.notFound name))
      | some p =>
        match (Key.parse p.childKey).mapError (.childKey k) with
        | .error error => .done (.error error)
        | .ok child => .more child := by
  rw [lookupStep, isStored, mapError_ok]
  dsimp only
  rw [isNode]
  dsimp only
  rw [nodeChild_eq_decodedChild _ sized, decodedChild, decoded,
    mapError_ok, ok_bind, findChild_eq_find? ordered]
  cases pairs.find? fun p => decide (name ≤ p.sepName) with
  | none | some p => rfl

/-- An index node has the entries of its children. -/
theorem hasEntries_dirNode
    {obj : Object} (few : children.length ≤ Cbor.maxElements)
    (all : List.Forall₂ (fun child part =>
      HasEntries get child.1 part ∧ EndsAt part child.2) children parts)
    (encoded : encodeDirNode blake3 (children.map pairOf) = .ok obj)
    (isStored : get obj.key = .ok obj.bytes)
    (sized : obj.bytes.length < 2 ^ 63) :
    HasEntries get obj.key parts.flatten := by
  obtain ⟨sub, -, same⟩ := bind_eq_ok_iff.mp encoded
  cases same
  have isNode : (newObject blake3 .dirNode
      ((marshalPairs (children.map pairOf)).length + sub.sum)
      (marshalPairs (children.map pairOf))).key.type_ = some .dirNode :=
    Key.type_newFromHash _ _ _
  have decoded : decodeDirNode (marshalPairs (children.map pairOf)) =
      .ok (children.map pairOf) :=
    decodeDirNode_marshalPairs (by rwa [List.length_map]) (pairs_sized sized)
  have canonical : ∀ child ∈ children, child.1.Canonical := by
    intro child isChild
    obtain ⟨part, -, has, -⟩ := exists_of_forall₂ all isChild
    exact has.canonical
  have parsed : ∀ child ∈ children,
      Key.parse (pairOf child).childKey = .ok child.1 := fun child isChild =>
    (Key.parse_eq_ok_iff _ _).mpr ⟨rfl, canonical child isChild⟩
  have ends : List.Forall₂ (fun child part => EndsAt part child.2) children
      parts := all.imp fun _ _ here => here.2
  have partOrdered : InOrder parts.flatten → ∀ part ∈ parts, InOrder part :=
    fun ordered => (List.pairwise_flatten.mp ordered).1
  refine ⟨(IndexBuilder.keyed_newObject (by decide) _ _).canonical, .inr isNode,
    ?_, fun ordered => ?_, fun ordered => ?_⟩
  · apply Fuel.eventually_succ
    filter_upwards [Fuel.eventually_forall₂
      (all.imp fun _ _ here => here.1.collects)] with fuel collects out goesOn
    rw [collectInner, isStored, mapError_ok, answered_bind, isNode]
    dsimp only
    rw [newObject, decoded, mapError_ok, answered_bind, List.foldlM_map]
    refine Fuel.foldlM_parts
      (fun _ _ ordered => (List.pairwise_append.mp ordered).1) ?_ out goesOn
    refine List.Forall₂.imp ?_ ((List.forall₂_and_left _ _).mpr
      ⟨parsed, collects⟩)
    rintro child part ⟨isParsed, collected⟩ out goesOn
    rw [isParsed, mapError_ok, answered_bind]
    exact collected out goesOn
  · apply Fuel.eventually_succ
    have finds : List.Forall₂ (fun child part => ∀ᶠ fuel in atTop,
        (∀ name, Loop.run (lookupStep get name) fuel child.1 =
          some (found part name)) ∧ EndsAt part child.2) children parts :=
      (Fuel.forall₂_and_right all (partOrdered ordered)).imp
        fun _ _ here => ((here.1.1.finds here.2).and
          (.of_forall fun _ => here.1.2))
    filter_upwards [Fuel.eventually_forall₂ finds] with fuel finds name
    have step := lookupStep_of_decoded isNode isStored sized decoded
      (pairsInOrder_children ends ordered) name
    have isPair : (children.map pairOf).find?
        (fun p => decide (name ≤ p.sepName)) =
          (children.find? fun child => decide (name ≤ child.2)).map pairOf :=
      List.find?_map
    rw [isPair] at step
    rcases find?_flatten finds ordered name with
      ⟨isNone, absent⟩ | ⟨child, part, isSome, finds, same⟩
    · rw [isNone] at step
      rw [found, absent]
      exact Loop.run_done step fuel
    · rw [isSome, Option.map_some] at step
      dsimp only at step
      rw [parsed child (List.mem_of_find?_eq_some isSome), mapError_ok] at step
      rw [Loop.run_more step, finds, found, found, same]
  · apply Fuel.eventually_succ
    have lists : List.Forall₂ (fun child part => ∀ᶠ fuel in atTop,
        ∀ after limit, child.1.Canonical ∧ EndsAt part child.2 ∧
          ∀ out, listInto get after limit fuel out child.1 =
            pure (pushUpTo limit out
              (part.filter fun e => after < e.name))) children parts := by
      refine (Fuel.forall₂_and_right all (partOrdered ordered)).imp ?_
      rintro child part ⟨⟨has, ends⟩, isOrdered⟩
      filter_upwards [has.lists isOrdered] with fuel lists after limit
      exact ⟨has.canonical, ends, lists after limit⟩
    filter_upwards [Fuel.eventually_forall₂ lists] with fuel lists after limit
      out
    rw [listInto, isStored, mapError_ok, answered_bind, isNode]
    dsimp only
    rw [newObject, decoded, mapError_ok, answered_bind,
      drop_after (pairsInOrder_children ends ordered)]
    exact listChildren_eq (lists.imp fun _ _ here => here after limit)
      ordered out

end Node

end AmberStore.Fstree

import AmberStore.Tar.Path
import Mathlib.Data.List.TakeWhile

/-!
# Cleaning and joining paths

Cleaning a path gives the normal form of its components.  Joining a member's
name to a destination adds the name's components to the destination's, except
where the destination is empty: then the result starts at the root.
-/

open ByteString LexicalPath
open List (append_assoc length_append mem_cons_self replicate)

namespace AmberStore.Tar

/-! ## What has been written -/

/-- What is written for a stack of components. -/
def outOf (rooted : Bool) (stack : List Bytes) : Bytes :=
  (if rooted then [slash] else []) ++ [slash].intercalate stack

theorem intercalate_ne_nil
    (present : stack ≠ [])
    (proper : ∀ part ∈ stack, IsComponent part) :
    [slash].intercalate stack ≠ [] := by
  obtain ⟨part, rest, rfl⟩ := List.exists_cons_of_ne_nil present
  have partPresent := (proper part mem_cons_self).present
  cases rest with
  | nil => simpa [List.intercalate] using partPresent
  | cons next rest =>
    rw [List.intercalate_cons_cons, append_assoc]
    exact List.append_ne_nil_of_left_ne_nil partPresent _

/-- The loop puts a slash before an element unless it is the first. -/
theorem withSlash_outOf
    (rooted : Bool) (present : front ≠ [])
    (proper : ∀ part ∈ front, IsComponent part) :
    withSlash rooted (outOf rooted front) = outOf rooted front ++ [slash] := by
  have written := intercalate_ne_nil present proper
  have positive := List.length_pos_iff.mpr written
  apply if_pos
  cases rooted with
  | true =>
    refine .inl ⟨rfl, ?_⟩
    simp only [outOf, if_pos, length_append, List.length_singleton]
    omega
  | false => exact .inr ⟨Bool.false_ne_true, written⟩

theorem outOf_concat
    (rooted : Bool) (last : Bytes)
    (proper : ∀ part ∈ front, IsComponent part) :
    outOf rooted (front ++ [last]) =
      withSlash rooted (outOf rooted front) ++ last := by
  by_cases isNil : front = []
  · subst isNil
    cases rooted <;> simp [outOf, withSlash, List.intercalate]
  · rw [withSlash_outOf rooted isNil proper, outOf,
      intercalate_append isNil (List.cons_ne_nil _ _), outOf]
    simp [List.intercalate]

theorem render_eq_outOf
    (rooted : Bool)
    (proper : ∀ part ∈ stack, IsComponent part) :
    render rooted stack =
      if outOf rooted stack = [] then [dot] else outOf rooted stack := by
  cases rooted with
  | true =>
    rw [if_neg (by simp [outOf])]
    rfl
  | false =>
    by_cases isNil : stack = []
    · subst isNil
      rfl
    · have written : outOf false stack ≠ [] := intercalate_ne_nil isNil proper
      rw [if_neg written]
      unfold render
      rw [if_neg Bool.false_ne_true, if_neg (by simpa using isNil)]
      rfl

/-! ## Going back -/

/-- Going back ends at the last slash, or at the end of the parents. -/
theorem cutBack_eq
    (fromDots : dotdot ≤ stop)
    (isBefore : stop ≤ w)
    (noSlash : ∀ i, stop < i → i ≤ w → byteAt out i ≠ slash)
    (atStop : stop = dotdot ∨ byteAt out stop = slash) :
    cutBack out dotdot w = stop := by
  induction w with
  | zero => exact (Nat.le_zero.mp isBefore).symm
  | succ w ih =>
    rw [cutBack]
    by_cases isStop : stop = w + 1
    · rw [if_neg, isStop]
      rintro ⟨isPast, notSlash⟩
      rcases atStop with isDots | isSlash
      · omega
      · rw [isStop] at isSlash
        exact notSlash isSlash
    · rw [if_pos ⟨by omega, noSlash (w + 1) (by omega) (le_refl _)⟩]
      exact ih (by omega) (fun i isPast isUpTo => noSlash i isPast (by omega))

/-- What has been written ends with the last component, which has no slash. -/
theorem take_cutBack
    (rooted : Bool)
    (proper : ∀ part ∈ front ++ [last], IsComponent part)
    (fromDots : dotdot ≤ (outOf rooted front).length)
    (atStart : front = [] → dotdot = (outOf rooted front).length) :
    (outOf rooted (front ++ [last])).take
        (cutBack (outOf rooted (front ++ [last])) dotdot
          ((outOf rooted (front ++ [last])).length - 1)) =
      outOf rooted front := by
  obtain ⟨lastPresent, -, noSlash⟩ :=
    proper last (List.mem_append_right _ mem_cons_self)
  have positive := List.length_pos_iff.mpr lastPresent
  have frontProper : ∀ part ∈ front, IsComponent part :=
    fun part isPart => proper part (List.mem_append_left _ isPart)
  have isLast {base : Bytes} {i : Nat} (isPast : base.length ≤ i)
      (isUpTo : i < (base ++ last).length) :
      byteAt (base ++ last) i ≠ slash := by
    rw [length_append] at isUpTo
    rw [byteAt, List.getD_append_right _ _ _ _ isPast,
      List.getD_eq_getElem _ _ (by omega)]
    intro isSlash
    exact noSlash (isSlash ▸ List.getElem_mem _)
  rw [outOf_concat rooted last frontProper]
  by_cases isNil : front = []
  · have isPlain : withSlash rooted (outOf rooted front) =
        outOf rooted front := by
      subst isNil
      cases rooted <;> rfl
    rw [isPlain, cutBack_eq fromDots (by rw [length_append]; omega) ?_
      (.inl (atStart isNil).symm)]
    · rw [List.take_left]
    · intro i isPast isUpTo
      rw [length_append] at isUpTo
      apply isLast (Nat.le_of_lt isPast)
      rw [length_append]
      omega
  · rw [withSlash_outOf rooted isNil frontProper]
    have isStop : byteAt (outOf rooted front ++ [slash] ++ last)
        (outOf rooted front).length = slash := by
      simp [byteAt]
    rw [cutBack_eq fromDots (by simp only [length_append,
        List.length_singleton]; omega) ?_ (.inr isStop)]
    · rw [append_assoc, List.take_left]
    · intro i isPast isUpTo
      apply isLast
      · rw [length_append, List.length_singleton]
        omega
      · simp only [length_append, List.length_singleton] at isUpTo ⊢
        omega

/-! ## The loop -/

/-- The stack of the loop: parents, then names. -/
structure Stacked (rooted : Bool) (dots : Nat) (names : List Bytes) : Prop where
  atRoot : rooted = true → dots = 0
  noParent : dotDot ∉ names
  proper : ∀ name ∈ names, IsComponent name

theorem isComponent_dotDot : IsComponent dotDot :=
  ⟨by decide, by decide, by decide⟩

section Loop

variable {rooted : Bool} {dots : Nat} {names : List Bytes}

theorem Stacked.isComponent
    (stacked : Stacked rooted dots names) :
    ∀ part ∈ replicate dots dotDot ++ names, IsComponent part := by
  intro part isPart
  rcases List.mem_append.mp isPart with isParent | isName
  · rw [List.eq_of_mem_replicate isParent]
    exact isComponent_dotDot
  · exact stacked.proper part isName

theorem Stacked.concat
    (stacked : Stacked rooted dots names)
    (isComponent : IsComponent name) (notParent : name ≠ dotDot) :
    Stacked rooted dots (names ++ [name]) := by
  refine ⟨stacked.atRoot, ?_, ?_⟩
  · rw [List.mem_append, not_or, List.mem_singleton]
    exact ⟨stacked.noParent, Ne.symm notParent⟩
  · intro other isName
    rcases List.mem_append.mp isName with isEarlier | isLast
    · exact stacked.proper other isEarlier
    · exact List.mem_singleton.mp isLast ▸ isComponent

theorem Stacked.dropLast
    (stacked : Stacked rooted dots (names ++ [last])) :
    Stacked rooted dots names ∧ last ≠ dotDot := by
  refine ⟨⟨stacked.atRoot, ?_, ?_⟩, ?_⟩
  · exact fun isName => stacked.noParent (List.mem_append_left _ isName)
  · exact fun name isName =>
    stacked.proper name (List.mem_append_left _ isName)
  · rintro rfl
    exact stacked.noParent (List.mem_append_right _ mem_cons_self)

theorem length_le_withSlash (rooted : Bool) (out : Bytes) :
    out.length ≤ (withSlash rooted out).length := by
  unfold withSlash
  split_ifs
  · rw [length_append]
    omega
  · exact le_refl _

/-- What is written for some parents and then some names. -/
def written (rooted : Bool) (dots : Nat) (names : List Bytes) : Bytes :=
  outOf rooted (replicate dots dotDot ++ names)

theorem written_concat
    (stacked : Stacked rooted dots names) (last : Bytes) :
    written rooted dots (names ++ [last]) =
      withSlash rooted (written rooted dots names) ++ last := by
  rw [written, ← append_assoc, outOf_concat rooted last
    stacked.isComponent, written]

/-- The parents are written first. -/
theorem length_written_le (stacked : Stacked rooted dots names) :
    (written rooted dots []).length ≤ (written rooted dots names).length := by
  induction names using List.reverseRecOn with
  | nil => exact le_refl _
  | append_singleton names last ih =>
    have front := stacked.dropLast.1
    rw [written_concat front, length_append]
    have kept := length_le_withSlash rooted (written rooted dots names)
    have earlier := ih front
    omega

/-- The names are written after the parents. -/
theorem length_written_lt
    (stacked : Stacked rooted dots (names ++ [last])) :
    (written rooted dots []).length <
      (written rooted dots (names ++ [last])).length := by
  have front := stacked.dropLast.1
  have positive := List.length_pos_iff.mpr
    (stacked.proper last (List.mem_append_right _ mem_cons_self)).present
  have earlier := length_written_le front
  have kept := length_le_withSlash rooted (written rooted dots names)
  rw [written_concat front, length_append]
  omega

theorem push_dots (rooted : Bool) (dots : Nat) :
    push rooted (replicate dots dotDot) dotDot =
      if rooted then replicate dots dotDot
      else replicate (dots + 1) dotDot := by
  rcases push_cases rooted (replicate dots dotDot) with
    ⟨front, last, isStack, notParent, -⟩ | isPushed
  · have isMember : last ∈ replicate dots dotDot := by
      rw [isStack]
      exact List.mem_append_right _ mem_cons_self
    exact (notParent (List.eq_of_mem_replicate isMember)).elim
  · rw [isPushed, List.replicate_succ']

theorem dropWhile_ends (path : Bytes) :
    path.dropWhile (· != slash) = [] ∨
      (path.dropWhile (· != slash)).head? = some slash := by
  induction path with
  | nil => exact .inl rfl
  | cons byte path ih =>
    rw [List.dropWhile_cons]
    split_ifs with notSlash
    · exact ih
    · rw [Bool.not_eq_true, bne_eq_false_iff_eq] at notSlash
      exact .inr (congrArg some notSlash)

theorem components_parent
    (ends : rest = [] ∨ rest.head? = some slash) :
    components (dot :: dot :: rest) = dotDot :: components rest := by
  have element := components_element dotDot ends
  rw [components_of_isComponent isComponent_dotDot] at element
  exact element

/-- What the loop makes of a rest, whatever was written before. -/
def Cleans (rooted : Bool) (rounds : Nat) (rest : Bytes) : Prop :=
  ∀ dots names, Stacked rooted dots names →
    cleanFrom rooted rounds rest (written rooted dots names)
        (written rooted dots []).length =
      outOf rooted ((components rest).foldl (push rooted)
        (replicate dots dotDot ++ names))

theorem cleanFrom_parent
    (ends : rest = [] ∨ rest.head? = some slash) (out : Bytes)
    (dotdot : Nat) :
    cleanFrom rooted (rounds + 1) (dot :: dot :: rest) out dotdot =
      if dotdot < out.length then
        cleanFrom rooted rounds rest
          (out.take (cutBack out dotdot (out.length - 1))) dotdot
      else if rooted then cleanFrom rooted rounds rest out dotdot
      else
        let out := (if out = [] then out else out ++ [slash]) ++ dotDot
        cleanFrom rooted rounds rest out out.length := by
  rw [cleanFrom, if_neg (by decide),
    if_neg (by simp [show dot ≠ slash by decide]), if_pos ⟨rfl, rfl, ends⟩]
  rfl

/-- A round that meets a parent: it takes back the last name, or stays at the
root, or is written. -/
theorem Cleans.parent
    (cleans : Cleans rooted rounds rest)
    (ends : rest = [] ∨ rest.head? = some slash) :
    Cleans rooted (rounds + 1) (dot :: dot :: rest) := by
  intro dots names stacked
  rw [cleanFrom_parent ends, components_parent ends, List.foldl_cons]
  rcases List.eq_nil_or_concat names with rfl | ⟨front, last, rfl⟩
  · rw [if_neg (Nat.lt_irrefl _), List.append_nil, push_dots]
    by_cases isRoot : rooted = true
    · rw [if_pos isRoot, if_pos isRoot]
      simpa using cleans dots [] stacked
    · rw [if_neg isRoot, if_neg isRoot]
      have isWritten : (if written rooted dots [] = []
          then written rooted dots []
          else written rooted dots [] ++ [slash]) ++ dotDot =
          written rooted (dots + 1) [] := by
        rw [written, written, List.append_nil, List.append_nil,
          List.replicate_succ', outOf_concat rooted _
            (by simpa using stacked.isComponent), withSlash]
        congr 1
        simp only [isRoot, Bool.false_eq_true, false_and, false_or,
          not_false_eq_true, true_and, ite_not]
      dsimp only
      rw [isWritten]
      simpa using cleans (dots + 1) []
        ⟨fun isTrue => (isRoot isTrue).elim, stacked.noParent, stacked.proper⟩
  · rw [List.concat_eq_append] at stacked ⊢
    obtain ⟨frontStacked, notParent⟩ := stacked.dropLast
    have proper := stacked.isComponent
    rw [if_pos (length_written_lt stacked), ← append_assoc,
      push_parent rooted _ notParent, ← cleans dots front frontStacked]
    congr 1
    rw [← append_assoc] at proper
    rw [written, ← append_assoc]
    refine take_cutBack rooted proper (length_written_le frontStacked) ?_
    intro isNil
    rw [isNil, written, (List.append_eq_nil_iff.mp isNil).1]
    rfl

section Name

variable (notSlash : byte ≠ slash)
variable (notDot : ¬(byte = dot ∧ (rest = [] ∨ rest.head? = some slash)))
variable (notParent : ¬(byte = dot ∧ rest.head? = some dot ∧
  (rest.tail = [] ∨ rest.tail.head? = some slash)))
include notSlash notDot notParent

/-- An element that is neither empty, nor the directory itself or its parent. -/
theorem isComponent_element :
    IsComponent ((byte :: rest).takeWhile (· != slash)) ∧
      (byte :: rest).takeWhile (· != slash) ≠ dotDot := by
  have isPath := @List.takeWhile_append_dropWhile _ (· != slash) (byte :: rest)
  have ends := dropWhile_ends (byte :: rest)
  refine ⟨⟨?_, ?_, ?_⟩, ?_⟩
  · rw [List.takeWhile_cons, if_pos (bne_iff_ne.mpr notSlash)]
    exact List.cons_ne_nil _ _
  · intro isDot
    rw [isDot] at isPath
    obtain ⟨rfl, isRest⟩ := List.cons_eq_cons.mp isPath
    rw [List.append_eq, List.nil_append] at isRest
    rw [isRest] at ends
    exact notDot ⟨rfl, ends⟩
  · intro isMember
    have notItself := List.mem_takeWhile_imp isMember
    rw [bne_self_eq_false] at notItself
    cases notItself
  · intro isParent
    rw [isParent] at isPath
    obtain ⟨rfl, isRest⟩ := List.cons_eq_cons.mp isPath
    rw [List.append_eq, List.singleton_append] at isRest
    rw [← isRest] at notParent
    exact notParent ⟨rfl, rfl, isRest ▸ ends⟩

/-- A round that meets a name: it is written after what there is. -/
theorem Cleans.name
    (cleans : Cleans rooted rounds ((byte :: rest).dropWhile (· != slash))) :
    Cleans rooted (rounds + 1) (byte :: rest) := by
  intro dots names stacked
  obtain ⟨isName, isPlain⟩ := isComponent_element notSlash notDot notParent
  have split := components_element ((byte :: rest).takeWhile (· != slash))
    (dropWhile_ends (byte :: rest))
  rw [List.takeWhile_append_dropWhile, components_of_isComponent isName,
    List.singleton_append] at split
  rw [cleanFrom, if_neg notSlash, if_neg notDot, if_neg notParent,
    ← written_concat stacked, split, List.foldl_cons,
    push_of_ne rooted _ isPlain, append_assoc]
  exact cleans dots _ (stacked.concat isName isPlain)

end Name

/-- The loop writes the normal form. -/
theorem cleans_of_le
    (enough : rest.length ≤ rounds) :
    Cleans rooted rounds rest := by
  induction rounds generalizing rest with
  | zero =>
    cases List.length_eq_zero_iff.mp (Nat.le_zero.mp enough)
    exact fun dots names stacked => rfl
  | succ rounds ih =>
    cases rest with
    | nil => exact fun dots names stacked => rfl
    | cons byte rest =>
      rw [List.length_cons] at enough
      by_cases isSlash : byte = slash
      · intro dots names stacked
        rw [cleanFrom, if_pos isSlash, isSlash, components_slash]
        exact ih (by omega) dots names stacked
      by_cases isDot : byte = dot ∧ (rest = [] ∨ rest.head? = some slash)
      · intro dots names stacked
        rw [cleanFrom, if_neg isSlash, if_pos isDot, isDot.1,
          ← List.singleton_append, components_element [dot] isDot.2]
        exact ih (by omega) dots names stacked
      by_cases isParent : byte = dot ∧ rest.head? = some dot ∧
          (rest.tail = [] ∨ rest.tail.head? = some slash)
      · obtain ⟨rfl, starts, ends⟩ := isParent
        obtain ⟨tail, rfl⟩ := List.head?_eq_some_iff.mp starts
        rw [List.length_cons] at enough
        exact (ih (by omega)).parent ends
      · refine (ih ?_).name isSlash isDot isParent
        rw [List.dropWhile_cons, if_pos (bne_iff_ne.mpr isSlash)]
        have shorter : (rest.dropWhile (· != slash)).length ≤ rest.length :=
          (List.dropWhile_suffix _).length_le
        omega

end Loop

/-! ## Cleaning -/

/-- Cleaning gives the normal form of the components. -/
theorem pathClean_eq (path : Bytes) :
    pathClean path =
      render (isRooted path) (reduce (isRooted path) (components path)) := by
  by_cases isNil : path = []
  · subst isNil
    rfl
  · have stacked (rooted : Bool) : Stacked rooted 0 [] :=
      ⟨fun _ => rfl, List.not_mem_nil, fun name isName => by cases isName⟩
    rw [pathClean, if_neg isNil, render_eq_outOf _
      (fun part isPart => isComponent_of_mem_reduce isPart)]
    obtain ⟨byte, path, rfl⟩ := List.exists_cons_of_ne_nil isNil
    by_cases isRoot : byte = slash
    · subst isRoot
      have cleaned := cleans_of_le (Nat.le_succ path.length) 0 [] (stacked true)
      rw [components_slash]
      change (if cleanFrom true (path.length + 1) path [slash] 1 = [] then
        [dot] else cleanFrom true (path.length + 1) path [slash] 1) = _
      rw [show cleanFrom true (path.length + 1) path [slash] 1 =
        outOf true (reduce true (components path)) from cleaned]
      rfl
    · have notRooted : isRooted (byte :: path) = false :=
        beq_eq_false_iff_ne.mpr (fun same => isRoot (Option.some.inj same))
      have cleaned := cleans_of_le (le_refl (byte :: path).length) 0 []
        (stacked false)
      dsimp only
      rw [show ((byte :: path).head? == some slash) = false from notRooted,
        notRooted, if_neg Bool.false_ne_true]
      rw [show cleanFrom false (byte :: path).length (byte :: path) [] 0 =
        outOf false (reduce false (components (byte :: path))) from cleaned]

theorem isRooted_pathClean (path : Bytes) :
    isRooted (pathClean path) = isRooted path := by
  rw [pathClean_eq]
  exact isRooted_render _ fun part isPart => isComponent_of_mem_reduce isPart

theorem components_pathClean (path : Bytes) :
    components (pathClean path) = reduce (isRooted path) (components path) := by
  rw [pathClean_eq]
  exact components_render _ fun part isPart => isComponent_of_mem_reduce isPart

theorem pathClean_ne_nil (path : Bytes) : pathClean path ≠ [] := by
  unfold pathClean
  dsimp only
  split_ifs <;> first | exact List.cons_ne_nil _ _ | assumption

/-- Cleaning gives the normal form of the components.  So cleaning again
changes nothing, and parts of a path may be cleaned first. -/
theorem pathClean_normalForm :
    (∀ path, pathClean path =
      render (isRooted path) (reduce (isRooted path) (components path))) ∧
    (∀ path, pathClean (pathClean path) = pathClean path) ∧
    ∀ front back : Bytes, front ≠ [] → back ≠ [] → isRooted back = false →
      pathClean (front ++ slash :: back) =
        pathClean (pathClean front ++ slash :: pathClean back) := by
  refine ⟨pathClean_eq, ?_, ?_⟩
  · intro path
    rw [pathClean_eq (pathClean path), isRooted_pathClean,
      components_pathClean, reduce_reduce, ← pathClean_eq]
  · intro front back present _ notRooted
    have cleanRooted : isRooted (pathClean front ++ slash :: pathClean back) =
        isRooted front := by
      rw [isRooted_append (pathClean_ne_nil front), isRooted_pathClean]
    rw [pathClean_eq, pathClean_eq (pathClean front ++ _), cleanRooted,
      isRooted_append present, components_append, components_append,
      components_pathClean, components_pathClean, notRooted, reduce, reduce,
      List.foldl_append, List.foldl_append, foldl_push_reduce]
    rw [show (reduce (isRooted front) (components front)).foldl
        (push (isRooted front)) [] =
      (components front).foldl (push (isRooted front)) [] from
        reduce_reduce _ _]

end AmberStore.Tar

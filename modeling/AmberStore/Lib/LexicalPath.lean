import AmberStore.Lib.ByteString

/-!
# Lexical paths

Paths as lists of components: the components of a path, the normal form that
resolves parents without looking at a file system, and how a list of components
is written.
-/

open ByteString List

namespace LexicalPath

abbrev slash : UInt8 := 0x2f
abbrev dot : UInt8 := 0x2e

/-- The component that names the parent. -/
abbrev dotDot : Bytes := [dot, dot]

/-- Whether a path starts at the root. -/
def isRooted (path : Bytes) : Bool := path.head? == some slash

/-- What a component can be: neither empty nor the directory itself. -/
structure IsComponent (component : Bytes) : Prop where
  present : component ≠ []
  notDot : component ≠ [dot]
  noSlash : slash ∉ component

/-- The components of a path. -/
def components (path : Bytes) : List Bytes :=
  (path.splitOn slash).filter fun part => !(part.isEmpty || part == [dot])

/-- One component more: a parent takes the last one away, and there is none
above the root. -/
def push (rooted : Bool) (stack : List Bytes) (component : Bytes) :
    List Bytes :=
  if component = dotDot then
    if stack.getLast?.any (· != dotDot) then stack.dropLast
    else if rooted then stack
    else stack ++ [component]
  else stack ++ [component]

/-- The components with parents resolved. -/
def reduce (rooted : Bool) (parts : List Bytes) : List Bytes :=
  parts.foldl (push rooted) []

/-- The path of these components. -/
def render (rooted : Bool) (parts : List Bytes) : Bytes :=
  if rooted then slash :: [slash].intercalate parts
  else if parts.isEmpty then [dot]
  else [slash].intercalate parts

/-! ## Components -/

theorem components_append (front back : Bytes) :
    components (front ++ slash :: back) =
      components front ++ components back := by
  unfold components List.splitOn
  rw [@splitOnP_append_cons _ (· == slash) front back slash
    (beq_self_eq_true slash), filter_append]

@[simp] theorem components_nil : components [] = [] := rfl

theorem components_slash (path : Bytes) :
    components (slash :: path) = components path := by
  rw [← nil_append (slash :: path), components_append, components_nil,
    nil_append]

theorem slash_notMem_of_mem_splitOn
    {path : Bytes} (isPart : part ∈ path.splitOn slash) :
    slash ∉ part := by
  unfold List.splitOn at isPart
  induction path generalizing part with
  | nil =>
    rw [splitOnP_nil, mem_singleton] at isPart
    rw [isPart]
    exact not_mem_nil
  | cons byte path ih =>
    rw [splitOnP_cons_eq_if_modifyHead] at isPart
    split_ifs at isPart with isSlash
    · rcases mem_cons.mp isPart with rfl | isLater
      · exact not_mem_nil
      · exact ih isLater
    · obtain ⟨first, rest, isSplit⟩ := exists_cons_of_ne_nil
        (splitOnP_ne_nil (· == slash) path)
      rw [isSplit] at isPart ih
      rw [modifyHead_cons] at isPart
      rcases mem_cons.mp isPart with rfl | isLater
      · rw [mem_cons, not_or]
        refine ⟨?_, ih mem_cons_self⟩
        rintro rfl
        exact isSlash (beq_self_eq_true slash)
      · exact ih (mem_cons_of_mem _ isLater)

theorem isComponent_of_mem
    (isPart : part ∈ components path) :
    IsComponent part := by
  obtain ⟨isSplit, isKept⟩ := mem_filter.mp isPart
  rw [Bool.not_eq_true', Bool.or_eq_false_iff, isEmpty_eq_false_iff,
    beq_eq_false_iff_ne] at isKept
  exact ⟨isKept.1, isKept.2, slash_notMem_of_mem_splitOn isSplit⟩

theorem filter_components
    {parts : List Bytes} (proper : ∀ part ∈ parts, IsComponent part) :
    parts.filter (fun part => !(part.isEmpty || part == [dot])) = parts := by
  rw [filter_eq_self]
  intro part isPart
  rw [Bool.not_eq_true', Bool.or_eq_false_iff, isEmpty_eq_false_iff,
    beq_eq_false_iff_ne]
  exact ⟨(proper part isPart).present, (proper part isPart).notDot⟩

theorem components_intercalate
    (proper : ∀ part ∈ parts, IsComponent part) :
    components ([slash].intercalate parts) = parts := by
  cases parts with
  | nil => rfl
  | cons part parts =>
    unfold components
    rw [splitOn_intercalate slash
      (fun other isPart => (proper other isPart).noSlash)
      (cons_ne_nil _ _), filter_components proper]

theorem components_of_isComponent
    (isComponent : IsComponent component) :
    components component = [component] := by
  have single := @components_intercalate [component]
    (fun part isPart => mem_singleton.mp isPart ▸ isComponent)
  simpa [List.intercalate] using single

/-- An element that ends at a slash or at the end of the path. -/
theorem components_element
    (element : Bytes)
    (ends : rest = [] ∨ rest.head? = some slash) :
    components (element ++ rest) = components element ++ components rest := by
  rcases ends with rfl | starts
  · rw [append_nil, components_nil, append_nil]
  · obtain ⟨rest, rfl⟩ := head?_eq_some_iff.mp starts
    rw [components_append, components_slash]

/-- The components of a path that was written are those it was written of. -/
theorem components_render
    (rooted : Bool)
    (proper : ∀ part ∈ parts, IsComponent part) :
    components (render rooted parts) = parts := by
  unfold render
  split_ifs with isRoot isEmpty
  · rw [components_slash, components_intercalate proper]
  · rw [isEmpty_iff.mp isEmpty]
    rfl
  · exact components_intercalate proper

theorem isRooted_append (present : front ≠ []) (back : Bytes) :
    isRooted (front ++ back) = isRooted front := by
  obtain ⟨byte, front, rfl⟩ := exists_cons_of_ne_nil present
  rfl

theorem isRooted_intercalate
    (proper : ∀ part ∈ parts, IsComponent part) :
    isRooted ([slash].intercalate parts) = false := by
  cases parts with
  | nil => rfl
  | cons part parts =>
    obtain ⟨present, -, noSlash⟩ := proper part mem_cons_self
    obtain ⟨byte, part, rfl⟩ := exists_cons_of_ne_nil present
    have starts : ([slash].intercalate ((byte :: part) :: parts)).head? =
        some byte := by
      cases parts with
      | nil => simp [List.intercalate]
      | cons next parts =>
        rw [intercalate_cons_cons]
        rfl
    rw [isRooted, starts, beq_eq_false_iff_ne]
    intro same
    rw [Option.some.inj same] at noSlash
    exact noSlash mem_cons_self

theorem isRooted_render
    (rooted : Bool)
    (proper : ∀ part ∈ parts, IsComponent part) :
    isRooted (render rooted parts) = rooted := by
  unfold render
  split_ifs with isRoot isEmpty
  · rw [isRoot]
    rfl
  · rw [Bool.not_eq_true] at isRoot
    rw [isRoot]
    rfl
  · rw [Bool.not_eq_true] at isRoot
    rw [isRoot, isRooted_intercalate proper]

theorem intercalate_append
    (frontPresent : front ≠ [])
    (backPresent : back ≠ []) :
    [slash].intercalate (front ++ back) =
      [slash].intercalate front ++ slash :: [slash].intercalate back := by
  induction front with
  | nil => exact (frontPresent rfl).elim
  | cons part front ih =>
    obtain ⟨first, rest, isBack⟩ := exists_cons_of_ne_nil backPresent
    cases front with
    | nil =>
      rw [singleton_append, isBack, intercalate_cons_cons]
      simp [List.intercalate]
    | cons next front =>
      rw [cons_append, cons_append, intercalate_cons_cons,
        intercalate_cons_cons, ← cons_append, ih (cons_ne_nil _ _)]
      simp only [append_assoc]

theorem render_append
    (rooted : Bool) (frontPresent : front ≠ [])
    (backPresent : back ≠ []) :
    render rooted (front ++ back) =
      render rooted front ++ slash :: [slash].intercalate back := by
  have bothPresent : front ++ back ≠ [] :=
    append_ne_nil_of_left_ne_nil frontPresent back
  cases rooted with
  | true =>
    unfold render
    rw [if_pos rfl, if_pos rfl, intercalate_append frontPresent backPresent]
    rfl
  | false =>
    unfold render
    rw [if_neg Bool.false_ne_true, if_neg Bool.false_ne_true,
      if_neg (by simpa using bothPresent),
      if_neg (by simpa using frontPresent),
      intercalate_append frontPresent backPresent]

/-! ## Resolving parents -/

theorem push_of_ne
    (rooted : Bool) (stack : List Bytes)
    (notParent : component ≠ dotDot) :
    push rooted stack component = stack ++ [component] :=
  if_neg notParent

/-- A parent takes away the component before it. -/
theorem push_parent
    (rooted : Bool) (stack : List Bytes)
    (notParent : component ≠ dotDot) :
    push rooted (stack ++ [component]) dotDot = stack := by
  rw [push, if_pos rfl, getLast?_append, dropLast_concat, if_pos]
  rw [getLast?_singleton, Option.some_or, Option.any_some, bne_iff_ne]
  exact notParent

theorem foldl_push_of_notMem
    (rooted : Bool) (stack : List Bytes)
    (noParent : dotDot ∉ parts) :
    parts.foldl (push rooted) stack = stack ++ parts := by
  induction parts generalizing stack with
  | nil => exact (append_nil stack).symm
  | cons part parts ih =>
    rw [mem_cons, not_or] at noParent
    rw [foldl_cons, push_of_ne rooted stack (Ne.symm noParent.1),
      ih _ noParent.2, append_assoc, singleton_append]

theorem reduce_append_of_notMem
    (rooted : Bool) (front : List Bytes)
    (noParent : dotDot ∉ back) :
    reduce rooted (front ++ back) = reduce rooted front ++ back := by
  rw [reduce, foldl_append, foldl_push_of_notMem rooted _ noParent]
  rfl

theorem reduce_concat (rooted : Bool) (parts : List Bytes) (part : Bytes) :
    reduce rooted (parts ++ [part]) = push rooted (reduce rooted parts) part := by
  rw [reduce, foldl_append]
  rfl

/-- Pushing on a stack of which the last component is no parent's. -/
theorem push_cases (rooted : Bool) (stack : List Bytes) :
    (∃ front last, stack = front ++ [last] ∧ last ≠ dotDot ∧
        push rooted stack dotDot = front) ∨
      (push rooted stack dotDot =
        if rooted then stack else stack ++ [dotDot]) := by
  rcases eq_nil_or_concat stack with rfl | ⟨front, last, rfl⟩
  · exact .inr rfl
  · by_cases isParent : last = dotDot
    · right
      rw [push, if_pos rfl, if_neg]
      simp [isParent]
    · exact .inl ⟨front, last, by simp, isParent,
        by simpa using push_parent rooted front isParent⟩

/-- Resolving a part of a path first changes nothing. -/
theorem foldl_push_reduce
    (rooted : Bool) (stack parts : List Bytes) :
    (reduce false parts).foldl (push rooted) stack =
      parts.foldl (push rooted) stack := by
  induction parts using List.reverseRecOn with
  | nil => rfl
  | append_singleton parts part ih =>
    rw [reduce_concat, foldl_append, foldl_cons, foldl_nil, ← ih]
    by_cases isParent : part = dotDot
    · subst isParent
      rcases push_cases false (reduce false parts) with
        ⟨front, last, isStack, notParent, isPushed⟩ | isPushed
      · rw [isPushed, isStack, foldl_append, foldl_cons,
          foldl_nil, push_of_ne rooted _ notParent,
          push_parent rooted _ notParent]
      · rw [isPushed, if_neg Bool.false_ne_true, foldl_append]
        rfl
    · rw [push_of_ne false _ isParent, foldl_append]
      rfl

theorem mem_of_mem_push
    (isPart : part ∈ push rooted stack component) :
    part ∈ stack ∨ part = component := by
  unfold push at isPart
  split_ifs at isPart
  · exact .inl (dropLast_subset stack isPart)
  · exact .inl isPart
  · exact (mem_append.mp isPart).imp id mem_singleton.mp
  · exact (mem_append.mp isPart).imp id mem_singleton.mp

theorem mem_of_mem_reduce
    (isPart : part ∈ reduce rooted parts) : part ∈ parts := by
  induction parts using List.reverseRecOn with
  | nil => cases isPart
  | append_singleton parts last ih =>
    rw [reduce_concat] at isPart
    rcases mem_of_mem_push isPart with isEarlier | rfl
    · exact mem_append_left _ (ih isEarlier)
    · exact mem_append_right _ mem_cons_self

/-- At the root, no parent is left. -/
theorem dotDot_notMem_reduce (parts : List Bytes) :
    dotDot ∉ reduce true parts := by
  induction parts using List.reverseRecOn with
  | nil => exact not_mem_nil
  | append_singleton parts last ih =>
    rw [reduce_concat]
    by_cases isParent : last = dotDot
    · subst isParent
      rcases push_cases true (reduce true parts) with
        ⟨front, top, isStack, -, isPushed⟩ | isPushed
      · rw [isStack] at ih
        rw [isPushed]
        exact fun isPart =>
          ih (mem_append_left _ isPart)
      · rw [isPushed, if_pos rfl]
        exact ih
    · rw [push_of_ne true _ isParent, mem_append, not_or]
      exact ⟨ih, fun isLast => isParent (mem_singleton.mp isLast).symm⟩

/-- Resolving parents again changes nothing. -/
theorem reduce_reduce (rooted : Bool) (parts : List Bytes) :
    reduce rooted (reduce rooted parts) = reduce rooted parts := by
  cases rooted with
  | true =>
    have noParent := dotDot_notMem_reduce parts
    exact foldl_push_of_notMem true [] noParent
  | false => exact foldl_push_reduce false [] parts

theorem isComponent_of_mem_reduce
    (isPart : part ∈ reduce rooted (components path)) : IsComponent part :=
  isComponent_of_mem (mem_of_mem_reduce isPart)

end LexicalPath

import AmberStore.Tar.PathSpec

/-!
# Where a member goes

A member's name is joined to the destination and the result compared with the
destination bytewise.  For a destination that is not empty the result is the
destination and the components of the name; but an empty one, which names the
current directory, is dropped by the join, and the comparison with a slash added
refuses everything below the root and the current directory.
-/

open ByteString LexicalPath List

namespace AmberStore.Tar

/-! ## The law -/

/-- A path as it is found from a current directory, cleaned. -/
def absolute (cwd path : Bytes) : Bytes :=
  pathClean (if isRooted path then path else cwd ++ slash :: path)

/-- The path is the base, or lies below it. -/
def AtOrBelow (base path : Bytes) : Prop := components base <+: components path

/-- What joining a name to a destination should do. -/
structure SafeJoinLaw (dest name : Bytes) : Prop where
  confined : ∀ target, safeJoin dest name = .ok target →
    ∀ cwd, isRooted cwd = true →
      AtOrBelow (absolute cwd dest) (absolute cwd target)
  succeeds : pathClean dest = dest →
    ((∃ target, safeJoin dest name = .ok target) ↔ dotDot ∉ name.splitOn slash)
  follows : pathClean dest = dest →
    ∀ target, safeJoin dest name = .ok target →
      isRooted target = isRooted dest ∧
        components target = components dest ++ components name

/-! ## Targets -/

theorem mem_components_dotDot_iff :
    dotDot ∈ components name ↔ dotDot ∈ name.splitOn slash := by
  unfold components
  rw [mem_filter, and_iff_left]
  decide

section Join

variable {name : Bytes} (noParent : dotDot ∉ components name)

include noParent

/-- The name, taken from the root. -/
theorem pathClean_name :
    pathClean (slash :: name) = render true (components name) := by
  have reduced := reduce_append_of_notMem true [] noParent
  rw [nil_append] at reduced
  rw [pathClean_eq, components_slash]
  change render true (reduce true (components name)) = _
  rw [reduced]
  rfl

theorem components_pathClean_name :
    components (pathClean (slash :: name)) = components name := by
  rw [pathClean_name noParent, components_render true
    (fun part isPart => isComponent_of_mem isPart)]

/-- The name's components follow the destination's. -/
theorem pathJoin_eq (present : dest ≠ []) :
    pathJoin [dest, pathClean (slash :: name)] =
      render (isRooted dest)
        (reduce (isRooted dest) (components dest) ++ components name) := by
  have joined : [slash].intercalate [dest, pathClean (slash :: name)] =
      dest ++ slash :: pathClean (slash :: name) := by
    rw [intercalate_cons_cons]
    simp [List.intercalate]
  have sameRoot : isRooted (dest ++ slash :: pathClean (slash :: name)) =
      isRooted dest := by
    obtain ⟨byte, rest, rfl⟩ := exists_cons_of_ne_nil present
    rfl
  rw [pathJoin, if_neg present, joined, pathClean_eq, sameRoot,
    components_append, components_pathClean_name noParent,
    reduce_append_of_notMem _ _ noParent]

/-- Without a destination, the name is taken from the root. -/
theorem pathJoin_nil :
    pathJoin [[], pathClean (slash :: name)] =
      render true (components name) := by
  have isName := pathClean_name noParent
  have rooted : pathClean (slash :: name) ≠ [] := by
    rw [isName]
    exact cons_ne_nil _ _
  rw [pathJoin, if_pos rfl, pathJoin, if_neg rooted]
  have single : [slash].intercalate [pathClean (slash :: name)] =
      pathClean (slash :: name) := by
    simp [List.intercalate]
  rw [single, pathClean_eq, components_pathClean_name noParent, isName,
    isRooted_render true (fun part isPart => isComponent_of_mem isPart)]
  have reduced := reduce_append_of_notMem true [] noParent
  rw [nil_append] at reduced
  rw [reduced]
  rfl

end Join

theorem isComponent_target
    (rooted : Bool) (dest name : Bytes) :
    ∀ part ∈ reduce rooted (components dest) ++ components name,
      IsComponent part := by
  intro part isPart
  rcases mem_append.mp isPart with isDest | isName
  · exact isComponent_of_mem_reduce isDest
  · exact isComponent_of_mem isName

/-- A name with a parent in it is refused. -/
theorem safeJoin_of_parent
    (hasParent : dotDot ∈ name.splitOn slash) :
    safeJoin dest name = .error (.unsafeName name) := by
  rw [safeJoin, if_pos]
  rw [any_eq_true]
  exact ⟨dotDot, hasParent, beq_self_eq_true _⟩

theorem safeJoin_eq
    (dest : Bytes) (noParent : dotDot ∉ name.splitOn slash) :
    safeJoin dest name =
      if pathJoin [dest, pathClean (slash :: name)] ≠ dest ∧
          ¬(dest ++ [slash]).isPrefixOf
            (pathJoin [dest, pathClean (slash :: name)]) then
        .error (.unsafeName name)
      else .ok (pathJoin [dest, pathClean (slash :: name)]) := by
  rw [safeJoin, if_neg]
  rw [any_eq_true]
  rintro ⟨part, isPart, isParent⟩
  exact noParent (beq_iff_eq.mp isParent ▸ isPart)

/-! ## Confinement -/

theorem components_absolute
    (rooted : isRooted cwd = true) (path : Bytes) :
    components (absolute cwd path) =
      reduce true
        (if isRooted path then components path
          else components cwd ++ components path) := by
  rw [absolute, components_pathClean]
  split_ifs with isRoot
  · rw [isRoot]
  · have sameRoot : isRooted (cwd ++ slash :: path) = true := by
      cases cwd with
      | nil => rfl
      | cons byte cwd => exact rooted
    rw [sameRoot, components_append]

/-- From every current directory, the target is below the destination. -/
theorem atOrBelow_pathJoin
    (present : dest ≠ [])
    (noParent : dotDot ∉ components name) (rooted : isRooted cwd = true) :
    AtOrBelow (absolute cwd dest)
      (absolute cwd (pathJoin [dest, pathClean (slash :: name)])) := by
  have proper := isComponent_target (isRooted dest) dest name
  rw [AtOrBelow, components_absolute rooted, components_absolute rooted,
    pathJoin_eq noParent present, isRooted_render _ proper,
    components_render _ proper]
  refine ⟨components name, ?_⟩
  by_cases isRoot : isRooted dest = true
  · have unchanged := reduce_append_of_notMem true []
      (dotDot_notMem_reduce (components dest))
    rw [nil_append] at unchanged
    rw [if_pos isRoot, if_pos isRoot, isRoot,
      reduce_append_of_notMem _ _ noParent, unchanged]
    rfl
  · have notRoot := Bool.eq_false_iff.mpr isRoot
    rw [if_neg isRoot, if_neg isRoot, notRoot, ← append_assoc,
      reduce_append_of_notMem _ _ noParent]
    congr 1
    rw [reduce, reduce, foldl_append, foldl_append, foldl_push_reduce]

/-! ## Clean destinations -/

section Clean

variable {dest name : Bytes} (isClean : pathClean dest = dest)
  (noParent : dotDot ∉ components name)

include isClean

theorem clean_eq :
    dest = render (isRooted dest)
      (reduce (isRooted dest) (components dest)) := by
  rw [← pathClean_eq, isClean]

theorem components_clean :
    reduce (isRooted dest) (components dest) = components dest := by
  rw [← components_pathClean, isClean]

include noParent

theorem pathJoin_clean (present : dest ≠ []) :
    pathJoin [dest, pathClean (slash :: name)] =
      render (isRooted dest) (components dest ++ components name) := by
  rw [pathJoin_eq noParent present, components_clean isClean]

/-- Below a destination that has components, the comparison holds. -/
theorem isPrefixOf_pathJoin
    (present : dest ≠ []) (destPresent : components dest ≠ [])
    (namePresent : components name ≠ []) :
    (dest ++ [slash]).isPrefixOf
      (pathJoin [dest, pathClean (slash :: name)]) = true := by
  have isDest := clean_eq isClean
  rw [components_clean isClean] at isDest
  rw [pathJoin_clean isClean noParent present,
    render_append _ destPresent namePresent, ← isDest,
    isPrefixOf_iff_prefix]
  exact ⟨[slash].intercalate (components name), by simp⟩

/-- At the root and in the current directory, it does not. -/
theorem not_isPrefixOf_pathJoin
    (present : dest ≠ []) (noDest : components dest = [])
    (namePresent : components name ≠ []) :
    pathJoin [dest, pathClean (slash :: name)] ≠ dest ∧
      ¬(dest ++ [slash]).isPrefixOf
        (pathJoin [dest, pathClean (slash :: name)]) = true := by
  have proper : ∀ part ∈ components name, IsComponent part :=
    fun part isPart => isComponent_of_mem isPart
  have isDest := clean_eq isClean
  rw [components_clean isClean, noDest] at isDest
  have isTarget := pathJoin_clean isClean noParent present
  rw [noDest, nil_append] at isTarget
  rw [isTarget]
  constructor
  · intro same
    have sameParts := congrArg components same
    rw [components_render _ proper, noDest] at sameParts
    exact namePresent sameParts
  · rw [List.isPrefixOf_iff_prefix]
    rintro ⟨rest, starts⟩
    cases isRoot : isRooted dest with
    | true =>
      rw [isRoot] at isDest starts
      rw [isDest] at starts
      have isSlash : slash :: rest = [slash].intercalate (components name) :=
        tail_eq_of_cons_eq starts
      have notRooted := isRooted_intercalate proper
      rw [← isSlash] at notRooted
      cases notRooted
    | false =>
      rw [isRoot] at isDest starts
      have isName : render false (components name) =
          [slash].intercalate (components name) := by
        unfold render
        rw [if_neg Bool.false_ne_true, if_neg (by simpa using namePresent)]
      have split := splitOn_intercalate slash
        (fun part isPart => (proper part isPart).noSlash) namePresent
      rw [← isName, ← starts, isDest] at split
      have first : ([dot] ++ slash :: rest).splitOn slash =
          [dot] :: rest.splitOn slash :=
        @splitOnP_append_cons _ (· == slash) [dot] rest slash
          (beq_self_eq_true slash)
      have isMember : [dot] ∈ components name := by
        rw [← split]
        exact first.symm ▸ mem_cons_self
      exact (proper [dot] isMember).notDot rfl

end Clean

/-! ## Where the law holds -/

theorem safeJoinLaw_of_parent
    (hasParent : dotDot ∈ name.splitOn slash) :
    SafeJoinLaw dest name := by
  have isError := @safeJoin_of_parent dest name hasParent
  refine ⟨?_, ?_, ?_⟩
  · intro target isTarget
    rw [isError] at isTarget
    cases isTarget
  · intro _
    constructor
    · rintro ⟨target, isTarget⟩
      rw [isError] at isTarget
      cases isTarget
    · intro noParent
      exact (noParent hasParent).elim
  · intro _ target isTarget
    rw [isError] at isTarget
    cases isTarget

theorem eq_of_safeJoin
    (noParent : dotDot ∉ name.splitOn slash)
    (isTarget : safeJoin dest name = .ok target) :
    target = pathJoin [dest, pathClean (slash :: name)] := by
  rw [safeJoin_eq dest noParent] at isTarget
  split_ifs at isTarget
  exact (Except.ok.inj isTarget).symm

/-- An empty destination leads to the root. -/
theorem not_safeJoinLaw_nil
    (noParent : dotDot ∉ name.splitOn slash) :
    ¬SafeJoinLaw [] name := by
  intro law
  have noComponent := mt mem_components_dotDot_iff.mp noParent
  have isTarget : safeJoin [] name = .ok (render true (components name)) := by
    rw [safeJoin_eq [] noParent, pathJoin_nil noComponent, if_neg]
    exact fun differs => differs.2 rfl
  -- a current directory of one component that the name does not start with
  obtain ⟨byte, isOther, rooted, isDirectory⟩ :
      ∃ byte : UInt8, (components name).head? ≠ some [byte] ∧
        isRooted [slash, byte] = true ∧
        components [slash, byte] = [[byte]] := by
    by_cases isFirst : (components name).head? = some [0x61]
    · refine ⟨0x62, ?_, rfl, by decide⟩
      rw [isFirst]
      decide
    · exact ⟨0x61, isFirst, rfl, by decide⟩
  obtain ⟨more, below⟩ := law.confined _ isTarget [slash, byte] rooted
  rw [components_absolute rooted, components_absolute rooted,
    isRooted_render true (fun part isPart => isComponent_of_mem isPart),
    components_render true (fun part isPart => isComponent_of_mem isPart),
    if_pos rfl, if_neg (by decide), isDirectory] at below
  have unchanged := reduce_append_of_notMem true [] noComponent
  rw [nil_append] at unchanged
  rw [unchanged] at below
  have notParent : dotDot ∉ [[byte]] := by simp
  have directory := reduce_append_of_notMem true [] notParent
  rw [nil_append] at directory
  rw [components_nil, append_nil, directory] at below
  apply isOther
  change [byte] :: more = [] ++ components name at below
  rw [nil_append] at below
  rw [← below]
  rfl

theorem components_eq_nil_iff
    (isClean : pathClean dest = dest) :
    components dest = [] ↔ dest = [dot] ∨ dest = [slash] := by
  constructor
  · intro noDest
    have isDest := clean_eq isClean
    rw [components_clean isClean, noDest] at isDest
    cases isRoot : isRooted dest with
    | true =>
      rw [isRoot] at isDest
      exact .inr isDest
    | false =>
      rw [isRoot] at isDest
      exact .inl isDest
  · rintro (rfl | rfl) <;> decide

/-- For a clean destination, joining succeeds unless it has no components and
the name has some. -/
theorem safeJoin_clean_iff
    (isClean : pathClean dest = dest)
    (noParent : dotDot ∉ name.splitOn slash) :
    (∃ target, safeJoin dest name = .ok target) ↔
      components dest ≠ [] ∨ components name = [] := by
  have noComponent := mt mem_components_dotDot_iff.mp noParent
  have present : dest ≠ [] := by
    rintro rfl
    cases isClean
  constructor
  · rintro ⟨target, isTarget⟩
    by_contra neither
    push Not at neither
    rw [safeJoin_eq dest noParent, if_pos (not_isPrefixOf_pathJoin isClean
      noComponent present neither.1 neither.2)] at isTarget
    cases isTarget
  · intro either
    refine ⟨_, (safeJoin_eq dest noParent).trans (if_neg ?_)⟩
    rintro ⟨differs, notBelow⟩
    by_cases noName : components name = []
    · apply differs
      rw [pathJoin_clean isClean noComponent present, noName, append_nil]
      conv_rhs => rw [clean_eq isClean, components_clean isClean]
    · exact notBelow (isPrefixOf_pathJoin isClean noComponent present
        (either.resolve_right noName) noName)

/-- The law holds for a name with a parent in it, which is refused; and
otherwise for a destination that is not empty, and neither the root nor the
current directory unless the name has no components. -/
theorem safeJoinLaw_iff (dest name : Bytes) :
    SafeJoinLaw dest name ↔
      dotDot ∈ name.splitOn slash ∨
        (dest ≠ [] ∧
          ((dest ≠ [dot] ∧ dest ≠ [slash]) ∨ components name = [])) := by
  by_cases hasParent : dotDot ∈ name.splitOn slash
  · exact ⟨fun _ => .inl hasParent, fun _ => safeJoinLaw_of_parent hasParent⟩
  · have noComponent := mt mem_components_dotDot_iff.mp hasParent
    constructor
    · intro law
      have present : dest ≠ [] := by
        rintro rfl
        exact not_safeJoinLaw_nil hasParent law
      refine .inr ⟨present, ?_⟩
      by_contra neither
      rw [not_or, not_and_or, not_not, not_not] at neither
      have isClean : pathClean dest = dest := by
        rcases neither.1 with rfl | rfl <;> decide
      rcases (safeJoin_clean_iff isClean hasParent).mp
        ((law.succeeds isClean).mpr hasParent) with destPresent | noName
      · exact destPresent ((components_eq_nil_iff isClean).mpr neither.1)
      · exact neither.2 noName
    · rintro (isParent | ⟨present, either⟩)
      · exact (hasParent isParent).elim
      · refine ⟨?_, ?_, ?_⟩
        · intro target isTarget cwd rooted
          rw [eq_of_safeJoin hasParent isTarget]
          exact atOrBelow_pathJoin present noComponent rooted
        · intro isClean
          rw [safeJoin_clean_iff isClean hasParent]
          refine ⟨fun _ => hasParent, fun _ => ?_⟩
          refine either.imp (fun notEmpty noDest => ?_) id
          rcases (components_eq_nil_iff isClean).mp noDest with rfl | rfl
          · exact notEmpty.1 rfl
          · exact notEmpty.2 rfl
        · intro isClean target isTarget
          have proper := isComponent_target (isRooted dest) dest name
          rw [components_clean isClean] at proper
          rw [eq_of_safeJoin hasParent isTarget,
            pathJoin_clean isClean noComponent present,
            isRooted_render _ proper, components_render _ proper]
          exact ⟨rfl, rfl⟩

/-- From the empty destination, the member `a` goes to `/a`: in the directory
`/b` that is not below the destination. -/
theorem safeJoin_empty_escapes :
    safeJoin [] [0x61] = .ok [slash, 0x61] ∧
      isRooted [slash, 0x62] = true ∧
      ¬AtOrBelow (absolute [slash, 0x62] []) (absolute [slash, 0x62]
        [slash, 0x61]) := by
  refine ⟨by decide, by decide, ?_⟩
  rw [AtOrBelow]
  decide

end AmberStore.Tar

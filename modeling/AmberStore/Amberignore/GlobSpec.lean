import AmberStore.Amberignore.FmatchSpec
import AmberStore.Amberignore.Pattern

/-!
# Patterns of several parts

A pattern of several parts should match when its parts can be divided over the
components, a double star taking any number of them.  The matcher takes for the
part after a double star the first component that matches, and never goes back
to it: what it matches can be divided, but it misses divisions.  It finds them
all exactly when no later part of the same run can fail.
-/

open ByteString
open List hiding after

namespace AmberStore.Amberignore.Pattern

/-! ## Divisions -/

/-- The parts divide the components: a double star takes any number of them and
another part one that it matches. -/
inductive Divides : List Bytes → List Bytes → Prop
  | nil : Divides [] []
  | stars
      (covered : List Bytes) {parts path : List Bytes}
      (rest : Divides parts path) :
      Divides (doubleStar :: parts) (covered ++ path)
  | one
      {part name : Bytes} {parts path : List Bytes}
      (notStars : part ≠ doubleStar)
      (isMatched : fmatch part name = .ok true)
      (rest : Divides parts path) : Divides (part :: parts) (name :: path)

/-- The parts divide the first components of a path. -/
def DividesFront (parts path : List Bytes) : Prop :=
  ∃ front, front ≠ [] ∧ front <+: path ∧ Divides parts front

/-- A part that is a double star or a pattern of its own without one. -/
def IsPart (part : Bytes) : Prop :=
  part = doubleStar ∨ (part ≠ [] ∧ WellFormed part ∧ hasDoubleStar part = false)

/-- A component of a path. -/
def IsComponent (name : Bytes) : Prop := name ≠ [] ∧ IsName name

instance (name : Bytes) : Decidable (IsComponent name) :=
  decidable_of_iff (name.isEmpty = false ∧ IsName name) (by simp [IsComponent])

/-- Every component matches the part. -/
def MatchesAll (part : Bytes) : Prop :=
  ∀ name, IsComponent name → fmatch part name = .ok true

/-- No component matches the part. -/
def MatchesNone (part : Bytes) : Prop :=
  ∀ name, IsComponent name → fmatch part name ≠ .ok true

/-- What the matcher needs: a part that is no double star, and after a double
star no two such parts together of which the second can fail. -/
structure Unambiguous (parts : List Bytes) : Prop where
  present : ∃ part ∈ parts, part ≠ doubleStar
  later : ∀ front part next back, parts = front ++ part :: next :: back →
    doubleStar ∈ front → part ≠ doubleStar → next ≠ doubleStar →
    MatchesAll next

/-! ## The matcher's steps -/

section Steps

variable {parts path : List Bytes} {matched canTraverse : Bool}

theorem globFrom_stars (present : parts ≠ []) :
    globFrom (doubleStar :: parts) path matched canTraverse =
      globFrom parts path matched true := by
  rw [globFrom.eq_def]
  dsimp only
  rw [if_neg (by decide), if_pos rfl, if_neg (by simpa using present)]

theorem globFrom_last_stars :
    globFrom [doubleStar] path matched canTraverse = some (matched, path) := by
  rw [globFrom.eq_def]
  dsimp only
  rw [if_neg (by decide), if_pos rfl, if_pos isEmpty_nil]

variable {part : Bytes} (isPart : IsPart part) (notStars : part ≠ doubleStar)

include isPart notStars

theorem globFrom_part_nil :
    globFrom (part :: parts) [] matched canTraverse = none := by
  obtain ⟨present, -, single⟩ := isPart.resolve_left notStars
  rw [globFrom.eq_def]
  dsimp only
  rw [if_neg (by simpa using present), if_neg notStars,
    if_neg (by rw [single]; decide)]

theorem globFrom_part :
    globFrom (part :: parts) (name :: path) matched canTraverse =
      if canTraverse then
        (traverse part matched (name :: path)).bind
          fun found => globFrom parts found.2 found.1 false
      else if fmatch part name = .ok true then
        globFrom parts path true false
      else none := by
  obtain ⟨present, -, single⟩ := isPart.resolve_left notStars
  rw [globFrom.eq_def]
  dsimp only
  rw [if_neg (by simpa using present), if_neg notStars,
    if_neg (by rw [single]; decide)]
  cases canTraverse with
  | true =>
    rw [if_pos rfl, if_pos rfl]
    cases traverse part matched (name :: path) <;> rfl
  | false =>
    rw [if_neg Bool.false_ne_true, if_neg Bool.false_ne_true]
    cases fmatch part name with
    | error failure => rfl
    | ok isMatch => cases isMatch <;> rfl

theorem globFrom_traverse (present : path ≠ []) :
    globFrom (part :: parts) path matched true =
      (traverse part matched path).bind
        fun found => globFrom parts found.2 found.1 false := by
  obtain ⟨name, path, rfl⟩ := exists_cons_of_ne_nil present
  rw [globFrom_part isPart notStars, if_pos rfl]

omit notStars in
/-- No part is found malformed. -/
theorem exists_fmatch (name : Bytes) (notStars : part ≠ doubleStar) :
    ∃ isMatch, fmatch part name = .ok isMatch :=
  exists_fmatchFrom le_rfl (isPart.resolve_left notStars).2.1 name

/-- The components are gone over to the first that matches. -/
theorem traverse_cases (matched : Bool) (path : List Bytes) :
    (∃ skipped name later, path = skipped ++ name :: later ∧
        fmatch part name = .ok true ∧
        (∀ other ∈ skipped, fmatch part other ≠ .ok true) ∧
        traverse part matched path = some (true, later)) ∨
      ((∀ other ∈ path, fmatch part other ≠ .ok true) ∧
        ∃ result, traverse part matched path = some (result, []) ∧
          (path ≠ [] → result = false)) := by
  induction path generalizing matched with
  | nil =>
    exact .inr ⟨forall_mem_nil _, matched, rfl,
      fun present => (present rfl).elim⟩
  | cons name path ih =>
    obtain ⟨isMatch, isRead⟩ := exists_fmatch isPart name notStars
    cases isMatch with
    | true =>
      exact .inl ⟨[], name, path, rfl, isRead, forall_mem_nil _,
        by rw [traverse, isRead]⟩
    | false =>
      have misses : fmatch part name ≠ .ok true := by
        rw [isRead]
        decide
      have goesOn : traverse part matched (name :: path) =
          traverse part (if path.isEmpty then false else matched) path := by
        rw [traverse, isRead]
      rw [goesOn]
      rcases ih
          (if path.isEmpty then false else matched) with
        ⟨skipped, found, later, rfl, isFound, earlier, result⟩ |
        ⟨allMiss, result, isResult, isFalse⟩
      · exact .inl ⟨name :: skipped, found, later, rfl, isFound,
          forall_mem_cons.mpr ⟨misses, earlier⟩, result⟩
      · refine .inr ⟨forall_mem_cons.mpr ⟨misses, allMiss⟩, result,
          isResult, fun _ => ?_⟩
        by_cases isEmpty : path = []
        · subst isEmpty
          cases isResult
          rfl
        · exact isFalse isEmpty

end Steps

/-! ## What is matched can be divided -/

variable {parts : List Bytes}

theorem divides_of_globFrom
    (areParts : ∀ part ∈ parts, IsPart part)
    (isMatched : globFrom parts path matched canTraverse = some (true, rest)) :
    ∃ covered front, path = covered ++ front ++ rest ∧
      (canTraverse = false → covered = []) ∧ Divides parts front ∧
      (matched = false → front ≠ []) := by
  induction parts generalizing path matched canTraverse with
  | nil =>
    cases isMatched
    exact ⟨[], [], rfl, fun _ => rfl, .nil, Bool.noConfusion⟩
  | cons part parts ih =>
    obtain ⟨isPart, laterParts⟩ := forall_mem_cons.mp areParts
    by_cases isStars : part = doubleStar
    · subst isStars
      by_cases isLast : parts = []
      · subst isLast
        rw [globFrom_last_stars] at isMatched
        cases isMatched
        exact ⟨[], [], rfl, fun _ => rfl, .stars [] .nil, Bool.noConfusion⟩
      · rw [globFrom_stars isLast] at isMatched
        obtain ⟨covered, front, rfl, -, isDivided, present⟩ :=
          ih laterParts isMatched
        exact ⟨[], covered ++ front, rfl, fun _ => rfl,
          .stars covered isDivided, fun isFalse =>
            append_ne_nil_of_right_ne_nil covered (present isFalse)⟩
    · cases path with
      | nil =>
        rw [globFrom_part_nil isPart isStars] at isMatched
        cases isMatched
      | cons name path =>
        rw [globFrom_part isPart isStars] at isMatched
        split_ifs at isMatched with traverses isMatch
        · rcases traverse_cases isPart isStars matched (name :: path)
            with ⟨skipped, found, later, isPath, isFound, -, result⟩ |
              ⟨-, result, isResult, isFalse⟩
          · rw [result] at isMatched
            obtain ⟨covered, front, rfl, isNil, isDivided, -⟩ :=
              ih laterParts isMatched
            cases isNil rfl
            refine ⟨skipped, found :: front, ?_, ?_,
              .one isStars isFound isDivided,
              fun _ => cons_ne_nil _ _⟩
            · rw [isPath, nil_append, append_assoc, cons_append]
            · rw [traverses]
              exact Bool.noConfusion
          · cases isFalse (cons_ne_nil _ _)
            rw [isResult] at isMatched
            obtain ⟨covered, front, isNil, -, -, present⟩ :=
              ih laterParts isMatched
            have empty := append_eq_nil_iff.mp
              (append_eq_nil_iff.mp isNil.symm).1
            exact (present rfl empty.2).elim
        · obtain ⟨covered, front, rfl, isNil, isDivided, -⟩ :=
            ih laterParts isMatched
          cases isNil rfl
          exact ⟨[], name :: front, rfl, fun _ => rfl,
            .one isStars isMatch isDivided,
            fun _ => cons_ne_nil _ _⟩

/-! ## What can be divided is matched -/

/-- After a double star, no two parts together of which the second can fail. -/
def Later (seen : Prop) (parts : List Bytes) : Prop :=
  ∀ front part next back, parts = front ++ part :: next :: back →
    (seen ∨ doubleStar ∈ front) → part ≠ doubleStar → next ≠ doubleStar →
    MatchesAll next

theorem Later.tail
    {part : Bytes}
    (later : Later seen (part :: parts))
    (isSeen : after → seen ∨ part = doubleStar) : Later after parts := by
  intro front first next back isSplit afterStars
  apply later (part :: front) first next back (by rw [isSplit]; rfl)
  rcases afterStars with isAfter | isMember
  · rcases isSeen isAfter with isSeen | rfl
    · exact .inl isSeen
    · exact .inr mem_cons_self
  · exact .inr (mem_cons_of_mem _ isMember)

/-- The parts divide components from here, or after a double star from
later. -/
def DividesFrom (canTraverse : Bool) (parts path : List Bytes) : Prop :=
  ∃ covered front rest, path = covered ++ front ++ rest ∧
    (canTraverse = false → covered = []) ∧ Divides parts front

/-- The parts after one that was matched earlier than it need be can be matched
earlier as well. -/
theorem DividesFrom.earlier
    (skipped : List Bytes)
    (components : ∀ name ∈ skipped ++ path, IsComponent name)
    (later : Later True (before :: parts)) (notStars : before ≠ doubleStar)
    (isDivided : DividesFrom false parts path) :
    DividesFrom false parts (skipped ++ path) := by
  obtain ⟨covered, front, rest, rfl, isNil, isFront⟩ := isDivided
  cases isNil rfl
  clear isNil
  induction isFront generalizing before skipped with
  | nil => exact ⟨[], [], _, rfl, fun _ => rfl, .nil⟩
  | stars covered isRest _ =>
    refine ⟨[], skipped ++ covered ++ _, rest, ?_, fun _ => rfl,
      .stars (skipped ++ covered) isRest⟩
    simp only [nil_append, append_assoc]
  | @one part name parts path nextNotStars isMatched isRest
      ih =>
      have matchesAll : MatchesAll part :=
        later [] before part parts rfl (.inl trivial) notStars nextNotStars
      have laterTail : Later True (part :: parts) := later.tail .inl
      cases skipped with
      | nil =>
        exact ⟨[], name :: path, rest, rfl, fun _ => rfl,
          .one nextNotStars isMatched isRest⟩
      | cons first skipped =>
        have shifted : first :: skipped ++ ([] ++ name :: path ++ rest) =
            first :: ((skipped ++ [name]) ++ ([] ++ path ++ rest)) := by
          simp
        rw [shifted] at components ⊢
        obtain ⟨covered, front, more, isPath, isNil, isFront⟩ :=
          ih (skipped ++ [name]) laterTail nextNotStars
            (forall_mem_cons.mp components).2
        cases isNil rfl
        exact ⟨[], first :: front, more, by rw [isPath]; rfl, fun _ => rfl,
          .one nextNotStars
            (matchesAll first (forall_mem_cons.mp components).1) isFront⟩

/-- The first component that matches is not after another that does. -/
theorem exists_skipped
    (isMatched : fmatch part name = .ok true)
    (earlier : ∀ other ∈ skipped, fmatch part other ≠ .ok true)
    (isPath : covered ++ name :: left = skipped ++ found :: later) :
    ∃ between, later = between ++ left := by
  rcases append_eq_append_iff.mp isPath with
    ⟨between, rfl, isFound⟩ | ⟨between, rfl, isFound⟩
  · cases between with
    | nil =>
      cases isFound
      exact ⟨[], rfl⟩
    | cons first between =>
      cases isFound
      exact (earlier name (by simp) isMatched).elim
  · cases between with
    | nil =>
      cases isFound
      exact ⟨[], rfl⟩
    | cons first between =>
      cases isFound
      exact ⟨between ++ [name], by simp⟩

/-- A division that can be made earlier is found. -/
theorem exists_globFrom
    {matched canTraverse : Bool} {seen : Prop}
    (areParts : ∀ part ∈ parts, IsPart part)
    (components : ∀ name ∈ path, IsComponent name)
    (later : Later seen parts) (isSeen : canTraverse = true → seen)
    (isDivided : DividesFrom canTraverse parts path) :
    ∃ result rest, globFrom parts path matched canTraverse =
        some (result, rest) ∧
      (result = matched ∨ result = true) ∧
      ((∃ part ∈ parts, part ≠ doubleStar) → result = true) := by
  induction parts generalizing path matched canTraverse seen with
  | nil =>
    refine ⟨matched, path, rfl, .inl rfl, ?_⟩
    rintro ⟨part, isMember, -⟩
    cases isMember
  | cons part parts ih =>
    obtain ⟨isPart, laterParts⟩ := forall_mem_cons.mp areParts
    obtain ⟨covered, front, rest, rfl, isNil, isFront⟩ := isDivided
    cases isFront with
    | @stars skipped _ path isRest =>
      by_cases isLast : parts = []
      · subst isLast
        refine ⟨matched, _, globFrom_last_stars, .inl rfl, ?_⟩
        rintro ⟨part, isMember, notStars⟩
        exact (notStars (mem_singleton.mp isMember)).elim
      · rw [globFrom_stars isLast]
        obtain ⟨result, left, isResult, isKept, isTrue⟩ :=
          @ih _ matched true True laterParts components
            (later.tail fun _ => .inr rfl) (fun _ => trivial)
            ⟨covered ++ skipped, path, rest,
              by simp only [append_assoc], Bool.noConfusion, isRest⟩
        refine ⟨result, left, isResult, isKept, ?_⟩
        rintro ⟨other, isMember, notStars⟩
        rcases mem_cons.mp isMember with rfl | isLater
        · exact (notStars rfl).elim
        · exact isTrue ⟨other, isLater, notStars⟩
    | @one _ name _ path notStars isMatched isRest =>
      -- once the part has matched, the later parts decide nothing but
      -- what is left
      have goesOn {left : List Bytes}
          (leftComponents : ∀ other ∈ left, IsComponent other)
          (leftDivided : DividesFrom false parts left) :
          ∃ result rest, globFrom parts left true false =
              some (result, rest) ∧
            (result = matched ∨ result = true) ∧
            ((∃ other ∈ part :: parts, other ≠ doubleStar) →
              result = true) := by
        obtain ⟨result, rest, isResult, isKept, -⟩ :=
          @ih left true false seen laterParts
            leftComponents (later.tail .inl) Bool.noConfusion leftDivided
        have isTrue : result = true := isKept.elim id id
        exact ⟨result, rest, isResult, .inr isTrue, fun _ => isTrue⟩
      cases canTraverse with
      | false =>
        cases isNil rfl
        have steps := @globFrom_part parts (path ++ rest) matched false
          part isPart notStars name
        rw [if_neg Bool.false_ne_true, if_pos isMatched] at steps
        change ∃ result rest', globFrom (part :: parts)
          (name :: (path ++ rest)) matched false = some (result, rest') ∧ _
        rw [steps]
        exact goesOn (forall_mem_cons.mp components).2
          ⟨[], path, rest, rfl, fun _ => rfl, isRest⟩
      | true =>
        have laterTrue : Later True (part :: parts) :=
          fun front first next back isSplit afterStars =>
            later front first next back isSplit
              (afterStars.imp (fun _ => isSeen rfl) id)
        rw [globFrom_traverse isPart notStars (by simp)]
        rcases traverse_cases isPart notStars matched
            (covered ++ name :: path ++ rest) with
          ⟨skipped, found, left, isPath, -, earlier, result⟩ |
          ⟨allMiss, -⟩
        · rw [append_assoc, cons_append] at isPath
          obtain ⟨between, rfl⟩ := exists_skipped isMatched earlier isPath
          have leftComponents :
              ∀ other ∈ between ++ (path ++ rest), IsComponent other := by
            intro other isMember
            apply components
            rw [append_assoc, cons_append, isPath]
            exact mem_append_right _ (mem_cons_of_mem _ isMember)
          rw [result]
          exact goesOn leftComponents
            (DividesFrom.earlier between leftComponents laterTrue
              notStars ⟨[], path, rest, rfl, fun _ => rfl, isRest⟩)
        · exact (allMiss name (by simp) isMatched).elim

/-! ## Divisions that are missed -/

/-- Each part takes a component of its own, a double star none. -/
inductive Takes : List Bytes → List Bytes → Prop
  | nil : Takes [] []
  | stars {parts names : List Bytes} (rest : Takes parts names) :
      Takes (doubleStar :: parts) names
  | one
      {part name : Bytes} {parts names : List Bytes}
      (notStars : part ≠ doubleStar)
      (isMatched : fmatch part name = .ok true)
      (rest : Takes parts names) : Takes (part :: parts) (name :: names)

theorem Takes.divides (takes : Takes parts names) :
    Divides parts names := by
  induction takes with
  | nil => exact .nil
  | stars _ ih => exact .stars [] ih
  | one notStars isMatched _ ih =>
    exact .one notStars isMatched ih

theorem Divides.append
    (isFront : Divides front frontNames) (isBack : Divides back backNames) :
    Divides (front ++ back) (frontNames ++ backNames) := by
  induction isFront with
  | nil => exact isBack
  | stars covered _ ih =>
    rw [append_assoc]
    exact .stars covered ih
  | one notStars isMatched _ ih =>
    exact .one notStars isMatched ih

theorem exists_name (matchesSome : ¬MatchesNone part) :
    ∃ name, IsComponent name ∧ fmatch part name = .ok true := by
  unfold MatchesNone at matchesSome
  push Not at matchesSome
  exact matchesSome

theorem Takes.append
    (isFront : Takes front frontNames) (isBack : Takes back backNames) :
    Takes (front ++ back) (frontNames ++ backNames) := by
  induction isFront with
  | nil => exact isBack
  | stars _ ih => exact .stars ih
  | one notStars isMatched _ ih =>
    exact .one notStars isMatched ih

theorem exists_takes
    (matchable : ∀ part ∈ parts, part ≠ doubleStar → ¬MatchesNone part) :
    ∃ names, Takes parts names ∧ ∀ name ∈ names, IsComponent name := by
  induction parts with
  | nil => exact ⟨[], .nil, forall_mem_nil _⟩
  | cons part parts ih =>
    obtain ⟨here, others⟩ := forall_mem_cons.mp matchable
    obtain ⟨names, takes, components⟩ := ih others
    by_cases isStars : part = doubleStar
    · subst isStars
      exact ⟨names, .stars takes, components⟩
    · obtain ⟨name, isComponent, isMatched⟩ := exists_name (here isStars)
      exact ⟨name :: names, .one isStars isMatched takes,
        forall_mem_cons.mpr ⟨isComponent, components⟩⟩

/-- A part that matches the next component takes it, after a double star or
not. -/
theorem globFrom_takes_one
    (isPart : IsPart part) (notStars : part ≠ doubleStar)
    (isMatched : fmatch part name = .ok true) :
    globFrom (part :: parts) (name :: path) matched canTraverse =
      globFrom parts path true false := by
  rw [globFrom_part isPart notStars, if_pos isMatched, traverse, isMatched]
  cases canTraverse <;> rfl

theorem globFrom_takes
    (takes : Takes front names)
    (areParts : ∀ other ∈ front, IsPart other) (isPart : IsPart part)
    (notStars : part ≠ doubleStar) (isMatched : fmatch part name = .ok true) :
    globFrom (front ++ part :: parts) (names ++ name :: path) matched
        canTraverse =
      globFrom parts path true false := by
  induction takes generalizing matched canTraverse with
  | nil => exact globFrom_takes_one isPart notStars isMatched
  | @stars front names _ ih =>
    have present : front ++ part :: parts ≠ [] := by simp
    rw [cons_append, globFrom_stars present]
    exact ih (forall_mem_cons.mp areParts).2
  | one firstNotStars firstMatched _ ih =>
    obtain ⟨first, others⟩ := forall_mem_cons.mp areParts
    rw [cons_append, cons_append,
      globFrom_takes_one first firstNotStars firstMatched]
    exact ih others

/-- Where the next part can fail, some division is missed: the matcher takes the
first components, and they are the double star's. -/
theorem exists_missed
    {next : Bytes}
    (areParts : ∀ other ∈ front ++ part :: next :: back, IsPart other)
    (matchable : ∀ other ∈ front ++ part :: next :: back,
      other ≠ doubleStar → ¬MatchesNone other)
    (afterStars : doubleStar ∈ front) (notStars : part ≠ doubleStar)
    (nextNotStars : next ≠ doubleStar) (canFail : ¬MatchesAll next) :
    ∃ path, path ≠ [] ∧ (∀ name ∈ path, IsComponent name) ∧
      globFrom (front ++ part :: next :: back) path false false = none ∧
      DividesFront (front ++ part :: next :: back) path := by
  obtain ⟨before, after, rfl⟩ := append_of_mem afterStars
  have matchableIn {others : List Bytes}
      (isSublist : ∀ other ∈ others,
        other ∈ before ++ doubleStar :: after ++ part :: next :: back) :
      ∀ other ∈ others, other ≠ doubleStar → ¬MatchesNone other :=
    fun other isMember => matchable other (isSublist other isMember)
  obtain ⟨first, firstTakes, firstComponents⟩ :=
    exists_takes (@matchableIn before (by simp +contextual))
  obtain ⟨second, secondTakes, secondComponents⟩ :=
    exists_takes (@matchableIn after (by simp +contextual))
  obtain ⟨last, lastTakes, lastComponents⟩ :=
    exists_takes (@matchableIn back (by simp +contextual))
  obtain ⟨name, isComponent, isMatched⟩ :=
    exists_name (matchable part (by simp) notStars)
  obtain ⟨nextName, nextIsComponent, nextIsMatched⟩ :=
    exists_name (matchable next (by simp) nextNotStars)
  unfold MatchesAll at canFail
  push Not at canFail
  obtain ⟨other, otherIsComponent, otherFails⟩ := canFail
  refine ⟨first ++ second ++ name :: other ::
    (second ++ name :: nextName :: last), by simp, ?_, ?_, ?_⟩
  · simp only [forall_mem_append, forall_mem_cons]
    exact ⟨⟨firstComponents, secondComponents⟩, isComponent, otherIsComponent,
      secondComponents, isComponent, nextIsComponent, lastComponents⟩
  · rw [globFrom_takes (firstTakes.append secondTakes.stars)
      (fun some isMember => areParts some (mem_append_left _ isMember))
      (areParts part (by simp)) notStars isMatched,
      globFrom_part (areParts next (by simp)) nextNotStars,
      if_neg Bool.false_ne_true, if_neg otherFails]
  · refine ⟨_, by simp, prefix_rfl, ?_⟩
    have isDivided := firstTakes.divides.append
      (Divides.stars (second ++ [name, other]) (secondTakes.divides.append
        (.one notStars isMatched
          (.one nextNotStars nextIsMatched lastTakes.divides))))
    simpa using isDivided

/-! ## The matcher -/

/-- Double stars alone match nothing. -/
theorem globFrom_all_stars
    (allStars : ∀ part ∈ parts, part = doubleStar)
    (path : List Bytes) (canTraverse : Bool) :
    globFrom parts path false canTraverse = some (false, path) := by
  induction parts generalizing canTraverse with
  | nil => rfl
  | cons part parts ih =>
    obtain ⟨rfl, others⟩ := forall_mem_cons.mp allStars
    by_cases isLast : parts = []
    · subst isLast
      exact globFrom_last_stars
    · rw [globFrom_stars isLast]
      exact ih others true

theorem divides_all_stars
    (allStars : ∀ part ∈ parts, part = doubleStar) :
    Divides parts [] := by
  induction parts with
  | nil => exact .nil
  | cons part parts ih =>
    obtain ⟨rfl, others⟩ := forall_mem_cons.mp allStars
    exact .stars [] (ih others)

/-- Without a restriction to directories, the matcher's answer. -/
theorem globMatch_eq_true_iff
    {pattern : Pattern} (anyKind : pattern.dirOnly = false)
    (path : List Bytes) (isDir : Bool) :
    pattern.globMatch path isDir = true ↔
      ∃ rest, globFrom pattern.parts path false false = some (true, rest) := by
  unfold globMatch
  cases globFrom pattern.parts path false false with
  | none => simp
  | some found =>
    obtain ⟨matched, rest⟩ := found
    simp [anyKind]

theorem dividesFront_of_globMatch
    {pattern : Pattern} (anyKind : pattern.dirOnly = false)
    (areParts : ∀ part ∈ pattern.parts, IsPart part)
    (isMatched : pattern.globMatch path isDir = true) :
    DividesFront pattern.parts path := by
  obtain ⟨rest, isFound⟩ := (globMatch_eq_true_iff anyKind path isDir).mp
    isMatched
  obtain ⟨covered, front, rfl, isNil, isDivided, present⟩ :=
    divides_of_globFrom areParts isFound
  cases isNil rfl
  exact ⟨front, present rfl, prefix_append front rest, isDivided⟩

theorem not_divides_of_matchesNone
    (isMember : part ∈ parts)
    (notStars : part ≠ doubleStar) (matchesNone : MatchesNone part)
    (components : ∀ name ∈ path, IsComponent name) : ¬Divides parts path := by
  intro isDivided
  induction isDivided with
  | nil => cases isMember
  | stars covered _ ih =>
    rcases mem_cons.mp isMember with rfl | isLater
    · exact notStars rfl
    · exact ih isLater (forall_mem_append.mp components).2
  | one _ isMatched _ ih =>
    rcases mem_cons.mp isMember with rfl | isLater
    · exact matchesNone _ (forall_mem_cons.mp components).1 isMatched
    · exact ih isLater (forall_mem_cons.mp components).2

/-- The matcher finds every division of every path exactly when the pattern has
no part that matches nothing and every part that could fail after another one
starts its run. -/
theorem globMatch_finds_divisions_iff
    (pattern : Pattern)
    (several : 2 ≤ pattern.parts.length)
    (anyKind : pattern.dirOnly = false)
    (areParts : ∀ part ∈ pattern.parts, IsPart part) :
    (∀ path, path ≠ [] → (∀ name ∈ path, IsComponent name) → ∀ isDir,
      (pattern.globMatch path isDir = true ↔ DividesFront pattern.parts path)) ↔
      (∃ part ∈ pattern.parts, part ≠ doubleStar ∧ MatchesNone part) ∨
        Unambiguous pattern.parts := by
  constructor
  · intro finds
    by_cases matchesNone :
        ∃ part ∈ pattern.parts, part ≠ doubleStar ∧ MatchesNone part
    · exact .inl matchesNone
    · push Not at matchesNone
      right
      constructor
      · by_contra noPart
        push Not at noPart
        -- one component, which the first double star takes
        have component : IsComponent [0x61] := by decide
        have isFound := (finds [[0x61]] (cons_ne_nil _ _)
          (forall_mem_singleton.mpr component) false).mpr
        obtain ⟨part, parts, isParts⟩ := exists_cons_of_length_pos
          (show 0 < pattern.parts.length by omega)
        rw [isParts] at noPart
        obtain ⟨rfl, others⟩ := forall_mem_cons.mp noPart
        have isDivided : DividesFront pattern.parts [[0x61]] := by
          refine ⟨[[0x61]], cons_ne_nil _ _, prefix_rfl, ?_⟩
          rw [isParts]
          exact .stars [[0x61]] (divides_all_stars others)
        obtain ⟨rest, isMatched⟩ :=
          (globMatch_eq_true_iff anyKind _ _).mp (isFound isDivided)
        rw [isParts, globFrom_all_stars noPart] at isMatched
        cases isMatched
      · intro front part next back isSplit afterStars notStars nextNotStars
        by_contra canFail
        rw [isSplit] at areParts matchesNone
        obtain ⟨path, present, components, notMatched, isDivided⟩ :=
          exists_missed areParts matchesNone afterStars notStars nextNotStars
            canFail
        rw [← isSplit] at notMatched isDivided
        obtain ⟨rest, isMatched⟩ := (globMatch_eq_true_iff anyKind _ _).mp
          ((finds path present components false).mpr isDivided)
        rw [notMatched] at isMatched
        cases isMatched
  · intro condition path present components isDir
    refine ⟨dividesFront_of_globMatch anyKind areParts, ?_⟩
    rintro ⟨front, frontPresent, ⟨rest, rfl⟩, isDivided⟩
    rcases condition with ⟨part, isMember, notStars, matchesNone⟩ |
      ⟨hasPart, later⟩
    · exact (not_divides_of_matchesNone isMember notStars matchesNone
        (forall_mem_append.mp components).1 isDivided).elim
    · have laterFalse : Later False pattern.parts :=
        fun front part next back isSplit afterStars =>
          later front part next back isSplit
            (afterStars.resolve_left False.elim)
      obtain ⟨result, left, isResult, -, isTrue⟩ :=
        @exists_globFrom _ _ false false False areParts components laterFalse
          Bool.noConfusion ⟨[], front, rest, rfl, fun _ => rfl, isDivided⟩
      cases isTrue hasPart
      exact (globMatch_eq_true_iff anyKind _ _).mpr ⟨left, isResult⟩

theorem isPart_letter
    (isLetter : 0x61 ≤ byte.toNat) : IsPart [byte] := by
  refine .inr ⟨cons_ne_nil _ _, ⟨[.literal byte],
    (OpOf.literal byte ?_ ?_ ?_ ?_).spells⟩, rfl⟩
  all_goals
    rintro rfl
    revert isLetter
    decide

/-- The parts of `a/**/b`: each path that can be divided is matched. -/
theorem globMatch_finds_divisions_aStarsB :
    (Pattern.parse [0x61, 0x2f, 0x2a, 0x2a, 0x2f, 0x62] []).parts =
        [[0x61], doubleStar, [0x62]] ∧
      ∀ path, path ≠ [] → (∀ name ∈ path, IsComponent name) → ∀ isDir,
        ((Pattern.parse [0x61, 0x2f, 0x2a, 0x2a, 0x2f, 0x62] []).globMatch
            path isDir = true ↔
          DividesFront [[0x61], doubleStar, [0x62]] path) := by
  refine ⟨by decide, ?_⟩
  have areParts : ∀ part ∈ (Pattern.parse
      [0x61, 0x2f, 0x2a, 0x2a, 0x2f, 0x62] []).parts, IsPart part := by
    change ∀ part ∈ [[0x61], doubleStar, [0x62]], IsPart part
    rw [forall_mem_cons, forall_mem_cons, forall_mem_singleton]
    exact ⟨isPart_letter (by decide), .inl rfl, isPart_letter (by decide)⟩
  apply (globMatch_finds_divisions_iff
    (Pattern.parse [0x61, 0x2f, 0x2a, 0x2a, 0x2f, 0x62] []) (by decide)
    (by decide) areParts).mpr
  refine .inr ⟨⟨[0x61], by decide, by decide⟩, ?_⟩
  intro front part next back isSplit afterStars notStars
  change [[0x61], doubleStar, [0x62]] = _ at isSplit
  rcases front with - | ⟨_, - | ⟨_, front⟩⟩
  · cases afterStars
  · cases isSplit
    exact (notStars rfl).elim
  · have lengths := congrArg List.length isSplit
    simp only [length_cons, length_append, length_nil] at lengths
    omega

/-- The pattern `**/b/c` should match `b/x/b/c`: the double star takes the first
two components. -/
theorem globMatch_misses_division :
    (Pattern.parse [0x2a, 0x2a, 0x2f, 0x62, 0x2f, 0x63] []).parts =
        [doubleStar, [0x62], [0x63]] ∧
      (Pattern.parse [0x2a, 0x2a, 0x2f, 0x62, 0x2f, 0x63] []).dirOnly = false ∧
      (∀ part ∈ [doubleStar, [0x62], [0x63]], IsPart part) ∧
      (∀ name ∈ [[0x62], [0x78], [0x62], [0x63]], IsComponent name) ∧
      DividesFront [doubleStar, [0x62], [0x63]]
        [[0x62], [0x78], [0x62], [0x63]] ∧
      (Pattern.parse [0x2a, 0x2a, 0x2f, 0x62, 0x2f, 0x63] []).globMatch
        [[0x62], [0x78], [0x62], [0x63]] false = false := by
  refine ⟨by decide, by decide, ?_, ?_, ?_, by decide⟩
  · rw [forall_mem_cons, forall_mem_cons, forall_mem_singleton]
    exact ⟨.inl rfl, isPart_letter (by decide), isPart_letter (by decide)⟩
  · decide
  · exact ⟨_, cons_ne_nil _ _, prefix_rfl,
      .stars [[0x62], [0x78]] (.one (by decide) (by decide)
        (.one (by decide) (by decide) .nil))⟩

end AmberStore.Amberignore.Pattern

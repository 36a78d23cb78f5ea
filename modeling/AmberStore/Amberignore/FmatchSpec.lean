import AmberStore.Amberignore.Grammar

/-!
# The language of a pattern

The matcher decides both the grammar and the language: the leftmost match of a
chunk after a star leaves the most for the chunks after it.
-/

open ByteString Checked
open List hiding count

namespace AmberStore.Amberignore

/-! ## Patterns -/

/-- The scanner cuts the pattern in two, the second part empty or at a star. -/
theorem scanFrom_spec (inrange : Bool) (pattern : Bytes) :
    (scanFrom inrange pattern).1 ++ (scanFrom inrange pattern).2 = pattern ∧
      ((scanFrom inrange pattern).2 = [] ∨
        (scanFrom inrange pattern).2.head? = some asterisk) := by
  fun_induction scanFrom inrange pattern with
  | case1 | case2 => exact ⟨rfl, .inl rfl⟩
  | case3 inrange escaped rest scanned ih =>
    exact ⟨congrArg (fun rest => backslash :: escaped :: rest) ih.1, ih.2⟩
  | case4 inrange c rest notEscape isStar =>
    exact ⟨rfl, .inr (congrArg some isStar.1)⟩
  | case5 inrange c rest notEscape notStar scanned ih =>
    exact ⟨congrArg (List.cons c) ih.1, ih.2⟩

theorem scanFrom_star (rest : Bytes) :
    scanFrom false (asterisk :: rest) = ([], asterisk :: rest) := by
  rw [scanFrom.eq_def]
  dsimp only
  rw [if_neg (by decide), if_pos ⟨rfl, rfl⟩]

theorem Spells.append
    (isFront : Spells front frontOps) (isBack : Spells back backOps) :
    Spells (front ++ back) (frontOps ++ backOps) := by
  obtain ⟨frontPieces, frontSpelled, rfl⟩ := isFront
  obtain ⟨backPieces, backSpelled, rfl⟩ := isBack
  exact ⟨frontPieces ++ backPieces, rel_append frontSpelled backSpelled,
    flatten_append.symm⟩

theorem spells_nil : Spells [] [] := ⟨[], .nil, rfl⟩

theorem OpOf.spells (isOp : OpOf piece op) :
    Spells piece [op] :=
  ⟨[piece], .cons isOp .nil, by simp⟩

theorem OpOf.eq_of_star
    (isOp : OpOf piece op)
    (starts : asterisk :: pattern = piece ++ rest) :
    op = .star ∧ pattern = rest := by
  cases isOp with
  | literal byte notStar _ _ _ =>
    cases starts
    exact (notStar rfl).elim
  | escaped byte | any => cases starts
  | star =>
    cases starts
    exact ⟨rfl, rfl⟩
  | cls negated _ _ _ => cases starts

/-- A star of a pattern is only spelled by a star. -/
theorem spells_star_iff :
    Spells (asterisk :: pattern) ops ↔
      ∃ later, ops = .star :: later ∧ Spells pattern later := by
  constructor
  · rintro ⟨pieces, spelled, isFlat⟩
    cases spelled with
    | nil => cases isFlat
    | @cons piece op pieces later isOp spelled =>
      obtain ⟨rfl, rfl⟩ := isOp.eq_of_star isFlat
      exact ⟨later, rfl, pieces, spelled, rfl⟩
  · rintro ⟨later, rfl, spelled⟩
    exact OpOf.star.spells.append spelled

/-- What is spelled is cut at its first star. -/
theorem exists_scan_of_spelled
    (spelled : List.Forall₂ OpOf pieces ops) :
    ∃ front back, ops = front ++ back ∧ .star ∉ front ∧
      Spells (scanFrom false pieces.flatten).1 front ∧
      Spells (scanFrom false pieces.flatten).2 back := by
  induction spelled with
  | nil => exact ⟨[], [], rfl, not_mem_nil, spells_nil, spells_nil⟩
  | @cons piece op pieces ops isOp spelled ih =>
    by_cases isStar : op = .star
    · subst isStar
      cases isOp with
      | star =>
        refine ⟨[], .star :: ops, rfl, not_mem_nil, ?_, ?_⟩
        · exact (scanFrom_star pieces.flatten).symm ▸ spells_nil
        · exact (scanFrom_star pieces.flatten).symm ▸
            OpOf.star.spells.append ⟨pieces, spelled, rfl⟩
    · obtain ⟨front, back, rfl, plain, isFront, isBack⟩ := ih
      refine ⟨op :: front, back, rfl, ?_, ?_, ?_⟩
      · rw [mem_cons, not_or]
        exact ⟨Ne.symm isStar, plain⟩
      · rw [flatten_cons, isOp.passes isStar]
        exact isOp.spells.append isFront
      · rw [flatten_cons, isOp.passes isStar]
        exact isBack

/-- A chunk that the parser accepts is spelled. -/
theorem exists_ops_of_matchFrom
    (isChunk : scanFrom false (chunk ++ rest) = (chunk, rest))
    (enough : chunk.length ≤ rounds)
    (isMatched : matchFrom rounds chunk failed s = .ok out) :
    ∃ ops, Spells chunk ops ∧ .star ∉ ops := by
  induction rounds generalizing chunk failed s with
  | zero =>
    cases length_eq_zero_iff.mp (Nat.le_zero.mp enough)
    exact ⟨[], spells_nil, not_mem_nil⟩
  | succ rounds ih =>
    cases chunk with
    | nil => exact ⟨[], spells_nil, not_mem_nil⟩
    | cons c chunk =>
      have notStar : c ≠ asterisk := by
        rintro rfl
        rw [cons_append, scanFrom_star] at isChunk
        cases isChunk
      obtain ⟨piece, op, more, failed', s', isOp, opPlain, isPiece,
        isLater⟩ := exists_op_of_matchFrom isMatched notStar
      have positive := length_pos_iff.mpr isOp.ne_nil
      have lengths := congrArg List.length isPiece
      rw [length_append, length_cons] at lengths
      rw [length_cons] at enough
      rw [isPiece, append_assoc, isOp.passes opPlain] at isChunk
      obtain ⟨isFront, isRest⟩ := Prod.mk.inj isChunk
      obtain ⟨ops, spelled, plain⟩ := ih
        (Prod.ext (append_cancel_left isFront) isRest) (by omega)
        isLater
      refine ⟨op :: ops, ?_, ?_⟩
      · rw [isPiece]
        exact isOp.spells.append spelled
      · rw [mem_cons, not_or]
        exact ⟨Ne.symm opPlain, plain⟩

theorem matchChunk_spelled
    (spelled : Spells chunk ops)
    (plain : .star ∉ ops) (s : Bytes) :
    matchChunk chunk s = .ok (eat ops s) := by
  obtain ⟨pieces, areOps, rfl⟩ := spelled
  exact matchFrom_spelled areOps plain le_rfl false s

/-- A pattern is spelled as its first chunk and the rest are. -/
theorem spells_iff_scan :
    Spells pattern ops ↔
      ∃ front back, ops = front ++ back ∧ .star ∉ front ∧
        Spells (scanFrom false pattern).1 front ∧
        Spells (scanFrom false pattern).2 back := by
  constructor
  · rintro ⟨pieces, spelled, rfl⟩
    exact exists_scan_of_spelled spelled
  · rintro ⟨front, back, rfl, -, isFront, isBack⟩
    rw [← (scanFrom_spec false pattern).1]
    exact isFront.append isBack

theorem scanFrom_chunk (pattern : Bytes) :
    scanFrom false
        ((scanFrom false pattern).1 ++ (scanFrom false pattern).2) =
      ((scanFrom false pattern).1, (scanFrom false pattern).2) := by
  rw [(scanFrom_spec false pattern).1]

/-! ## Names -/

/-- An ASCII name without a separator. -/
def IsName (name : Bytes) : Prop :=
  ∀ c ∈ name, c.toNat < 0x80 ∧ c ≠ separator

instance (name : Bytes) : Decidable (IsName name) :=
  decidable_of_iff
    ((name.all fun c => decide (c.toNat < 0x80) && c != separator) = true)
    (by simp [IsName])

theorem IsName.drop (isName : IsName name) (count : Nat) :
    IsName (name.drop count) :=
  fun c isMember => isName c (mem_of_mem_drop isMember)

theorem eatOp_eq_some_iff
    (isName : IsName name) :
    eatOp op name = some t ↔ ∃ c, name = c :: t ∧ op.Accepts c := by
  cases name with
  | nil =>
    cases op <;> simp [eatOp]
  | cons c name =>
    obtain ⟨isAscii, notSeparator⟩ := isName c mem_cons_self
    have decoded : decodeRune (c :: name) = (c.toNat, 1) := by
      rw [decodeRune_cons, if_pos isAscii]
    have first : (∃ other, c :: name = other :: t ∧ op.Accepts other) ↔
        op.Accepts c ∧ name = t := by
      constructor
      · rintro ⟨other, isCons, accepts⟩
        cases isCons
        exact ⟨accepts, rfl⟩
      · rintro ⟨accepts, rfl⟩
        exact ⟨c, rfl, accepts⟩
    rw [first]
    cases op with
    | literal byte => simp [eatOp, Op.Accepts]
    | any => simp [eatOp, Op.Accepts, decoded, notSeparator]
    | star => simp [eatOp, Op.Accepts]
    | cls negated ranges =>
      simp only [eatOp, Op.Accepts, decoded, ← inRanges_iff]
      cases negated <;> cases inRanges ranges c.toNat <;> simp

/-- Characters are taken one by one. -/
theorem eat_eq_drop
    (isName : IsName name)
    (isEaten : eat ops name = some t) : t = name.drop ops.length := by
  induction ops generalizing name with
  | nil => exact (Option.some.inj isEaten).symm
  | cons op ops ih =>
    rw [eat, Option.bind_eq_some_iff] at isEaten
    obtain ⟨left, isFirst, isLater⟩ := isEaten
    obtain ⟨c, rfl, -⟩ := (eatOp_eq_some_iff isName).mp isFirst
    exact ih (isName.drop 1) isLater

theorem denotes_append_iff
    (plain : .star ∉ front)
    (isName : IsName name) :
    Denotes (front ++ back) name ↔
      ∃ t, eat front name = some t ∧ Denotes back t := by
  induction front generalizing name with
  | nil => simp [eat]
  | cons op front ih =>
    rw [mem_cons, not_or] at plain
    constructor
    · intro isDenoted
      cases isDenoted with
      | star skipped rest => exact (plain.1 rfl).elim
      | @one _ c name _ accepts rest =>
        have later : IsName name := isName.drop 1
        obtain ⟨t, isEaten, isRest⟩ := (ih plain.2 later).mp rest
        refine ⟨t, ?_, isRest⟩
        rw [eat, (eatOp_eq_some_iff isName).mpr ⟨c, rfl, accepts⟩]
        exact isEaten
    · rintro ⟨t, isEaten, isRest⟩
      rw [eat, Option.bind_eq_some_iff] at isEaten
      obtain ⟨left, isFirst, isLater⟩ := isEaten
      obtain ⟨c, rfl, accepts⟩ := (eatOp_eq_some_iff isName).mp isFirst
      exact .one accepts ((ih plain.2 (isName.drop 1)).mpr ⟨t, isLater, isRest⟩)

/-- The name is in the language of the pattern. -/
def InLanguage (pattern name : Bytes) : Prop :=
  ∃ ops, Spells pattern ops ∧ Denotes ops name

theorem inLanguage_nil_iff :
    InLanguage [] name ↔ name = [] := by
  constructor
  · rintro ⟨ops, ⟨pieces, spelled, isFlat⟩, isDenoted⟩
    cases spelled with
    | nil =>
      cases isDenoted
      rfl
    | cons isOp _ =>
      exact (isOp.ne_nil (append_eq_nil_iff.mp isFlat.symm).1).elim
  · rintro rfl
    exact ⟨[], spells_nil, .nil⟩

/-- A star skips some characters. -/
theorem inLanguage_star_iff :
    InLanguage (asterisk :: pattern) name ↔
      ∃ count, InLanguage pattern (name.drop count) := by
  constructor
  · rintro ⟨ops, spelled, isDenoted⟩
    obtain ⟨later, rfl, isLater⟩ := spells_star_iff.mp spelled
    cases isDenoted with
    | star skipped rest =>
      exact ⟨skipped.length, later, isLater, by rwa [drop_left]⟩
    | one accepts rest => exact accepts.elim
  · rintro ⟨count, ops, spelled, isDenoted⟩
    refine ⟨.star :: ops, spells_star_iff.mpr ⟨ops, rfl, spelled⟩, ?_⟩
    rw [← take_append_drop count name]
    exact .star _ isDenoted

/-- Stars skip some characters. -/
theorem inLanguage_dropWhile_iff :
    InLanguage pattern name ↔
      ∃ count, (pattern.head? ≠ some asterisk → count = 0) ∧
        InLanguage (pattern.dropWhile (· == asterisk)) (name.drop count) := by
  induction pattern generalizing name with
  | nil =>
    constructor
    · intro isIn
      exact ⟨0, fun _ => rfl, isIn⟩
    · rintro ⟨count, isZero, isIn⟩
      cases isZero (by decide)
      exact isIn
  | cons c pattern ih =>
    by_cases isStar : c = asterisk
    · subst isStar
      have dropped : (asterisk :: pattern).dropWhile (· == asterisk) =
          pattern.dropWhile (· == asterisk) := rfl
      rw [dropped, inLanguage_star_iff]
      constructor
      · rintro ⟨count, isIn⟩
        obtain ⟨more, -, isLater⟩ := ih.mp isIn
        rw [drop_drop] at isLater
        exact ⟨_, fun notStar => (notStar rfl).elim, isLater⟩
      · rintro ⟨count, -, isIn⟩
        refine ⟨count, ih.mpr ⟨0, fun _ => rfl, ?_⟩⟩
        exact isIn
    · rw [dropWhile_cons_of_neg (by simpa using isStar)]
      constructor
      · intro isIn
        exact ⟨0, fun _ => rfl, isIn⟩
      · rintro ⟨count, isZero, isIn⟩
        cases isZero (fun same => isStar (Option.some.inj same))
        exact isIn

/-- A chunk takes characters from the name's start, the rest the others. -/
theorem inLanguage_iff_scan
    (isName : IsName name) :
    InLanguage pattern name ↔
      ∃ t, matchChunk (scanFrom false pattern).1 name = .ok (some t) ∧
        InLanguage (scanFrom false pattern).2 t := by
  constructor
  · rintro ⟨ops, spelled, isDenoted⟩
    obtain ⟨front, back, rfl, plain, isFront, isBack⟩ :=
      spells_iff_scan.mp spelled
    obtain ⟨t, isEaten, isRest⟩ :=
      (denotes_append_iff plain isName).mp isDenoted
    exact ⟨t, by rw [matchChunk_spelled isFront plain, isEaten], back, isBack,
      isRest⟩
  · rintro ⟨t, isMatched, back, isBack, isRest⟩
    obtain ⟨front, isFront, plain⟩ := exists_ops_of_matchFrom
      (scanFrom_chunk pattern) le_rfl isMatched
    rw [matchChunk_spelled isFront plain] at isMatched
    exact ⟨front ++ back, spells_iff_scan.mpr
      ⟨front, back, rfl, plain, isFront, isBack⟩,
      (denotes_append_iff plain isName).mpr
        ⟨t, Except.ok.inj isMatched, isRest⟩⟩

/-! ## The search for a chunk -/

section Search

variable {chunk : Bytes} {ops : List Op} {last : Bool}

/-- The chunk matches here, the last one to the end of the name. -/
def Hits (ops : List Op) (last : Bool) (name t : Bytes) : Prop :=
  eat ops name = some t ∧ (last = true → t = [])

/-- The chunk does not match here, or the last one not to the end. -/
def Misses (ops : List Op) (last : Bool) (name : Bytes) : Prop :=
  ∀ t, eat ops name = some t → last = true ∧ t ≠ []

/-- The chunk first matches after so many characters. -/
def FirstHit
    (ops : List Op) (last : Bool) (name : Bytes) (count : Nat) (t : Bytes) :
    Prop :=
  Hits ops last (name.drop count) t ∧
    ∀ fewer < count, Misses ops last (name.drop fewer)

theorem FirstHit.cons
    (misses : Misses ops last (c :: name))
    (isFirst : FirstHit ops last name count t) :
    FirstHit ops last (c :: name) (count + 1) t := by
  obtain ⟨hits, earlier⟩ := isFirst
  refine ⟨hits, ?_⟩
  intro fewer isFewer
  cases fewer with
  | zero => exact misses
  | succ fewer => exact earlier fewer (by omega)

theorem misses_of_not_eaten
    (notEaten : eat ops name = none) :
    Misses ops last name := by
  intro t isEaten
  rw [notEaten] at isEaten
  cases isEaten

theorem misses_of_eaten
    (isEaten : eat ops name = some t)
    (isMiss : last = true ∧ t ≠ []) : Misses ops last name := by
  intro other isOther
  rw [isEaten] at isOther
  cases isOther
  exact isMiss

/-- The matcher's test of a chunk at one position. -/
theorem hits_or_misses (ops : List Op) (last : Bool) (name : Bytes) :
    (∃ t, (eat ops name).filter (fun t => t.isEmpty || !last) = some t ∧
        Hits ops last name t) ∨
      ((eat ops name).filter (fun t => t.isEmpty || !last) = none ∧
        Misses ops last name) := by
  cases isEaten : eat ops name with
  | none => exact .inr ⟨rfl, misses_of_not_eaten isEaten⟩
  | some t =>
    by_cases isMiss : last = true ∧ t ≠ []
    · refine .inr ⟨?_, misses_of_eaten isEaten isMiss⟩
      simp [Option.filter, isMiss.1, isMiss.2]
    · refine .inl ⟨t, ?_, isEaten, ?_⟩
      · cases last <;> simp_all [Option.filter]
      · intro isLast
        by_contra present
        exact isMiss ⟨isLast, present⟩

theorem skipMatch_cases
    (spelled : Spells chunk ops) (plain : .star ∉ ops)
    (isName : IsName name) (misses : Misses ops last name) :
    (∃ count t, skipMatch chunk last name = .ok (some t) ∧
        FirstHit ops last name count t) ∨
      (skipMatch chunk last name = .ok none ∧
        ∀ count, Misses ops last (name.drop count)) := by
  induction name with
  | nil =>
    refine .inr ⟨rfl, fun count => ?_⟩
    rw [drop_nil]
    exact misses
  | cons c name ih =>
    have notSeparator := (isName c mem_cons_self).2
    -- what the rest of the search finds, when the chunk misses at the next
    have later (nextMisses : Misses ops last name) :
        (∃ count t, skipMatch chunk last name = .ok (some t) ∧
            FirstHit ops last (c :: name) count t) ∨
          (skipMatch chunk last name = .ok none ∧
            ∀ count, Misses ops last ((c :: name).drop count)) := by
      rcases ih (isName.drop 1) nextMisses with
        ⟨count, t, isFound, isFirst⟩ | ⟨notFound, allMiss⟩
      · exact .inl ⟨_, t, isFound, isFirst.cons misses⟩
      · refine .inr ⟨notFound, fun count => ?_⟩
        cases count with
        | zero => exact misses
        | succ count => exact allMiss count
    rw [skipMatch, if_neg notSeparator, matchChunk_spelled spelled plain,
      ok_bind]
    cases isEaten : eat ops name with
    | none => exact later (misses_of_not_eaten isEaten)
    | some t =>
      dsimp only
      by_cases isMiss : last = true ∧ t ≠ []
      · rw [if_pos (by simpa using isMiss)]
        exact later (misses_of_eaten isEaten isMiss)
      · rw [if_neg (by simpa using isMiss)]
        refine .inl ⟨1, t, rfl, ⟨isEaten, ?_⟩, ?_⟩
        · intro isLast
          by_contra present
          exact isMiss ⟨isLast, present⟩
        · intro fewer isFewer
          cases Nat.lt_one_iff.mp isFewer
          exact misses

/-- A chunk is placed where it first matches, without stars at the start. -/
theorem placeChunk_cases
    (spelled : Spells chunk ops) (plain : .star ∉ ops) {name : Bytes}
    (isName : IsName name) (star : Bool) :
    (∃ count t, placeChunk star chunk last name = .ok (some t) ∧
        (star = false → count = 0) ∧ FirstHit ops last name count t) ∨
      (placeChunk star chunk last name = .ok none ∧
        ∀ count, (star = false → count = 0) →
          Misses ops last (name.drop count)) := by
  rw [placeChunk, matchChunk_spelled spelled plain, ok_bind]
  rcases hits_or_misses ops last name with ⟨t, isHit, hits⟩ | ⟨isMiss, misses⟩
  · rw [isHit]
    exact .inl ⟨0, t, rfl, fun _ => rfl, hits, nofun⟩
  · rw [isMiss]
    cases star with
    | false =>
      refine .inr ⟨rfl, ?_⟩
      intro count isZero
      cases isZero rfl
      exact misses
    | true =>
      rcases skipMatch_cases spelled plain isName misses with
        ⟨count, t, isFound, isFirst⟩ | ⟨notFound, allMiss⟩
      · exact .inl ⟨count, t, isFound, Bool.noConfusion, isFirst⟩
      · exact .inr ⟨notFound, fun count _ => allMiss count⟩

/-- A first match leaves the most for a rest that starts with a star. -/
theorem FirstHit.inLanguage
    (isName : IsName name)
    (isFirst : FirstHit ops rest.isEmpty name first t)
    (isRest : rest = [] ∨ rest.head? = some asterisk)
    (isEaten : eat ops (name.drop count) = some other)
    (isIn : InLanguage rest other) : InLanguage rest t := by
  obtain ⟨hits, earlier⟩ := isFirst
  rcases isRest with rfl | starts
  · exact inLanguage_nil_iff.mpr (hits.2 rfl)
  · obtain ⟨more, rfl⟩ := head?_eq_some_iff.mp starts
    have notEarlier : first ≤ count := by
      by_contra isEarlier
      exact Bool.false_ne_true (earlier count (not_le.mp isEarlier) other
        isEaten).1
    have isLeft := eat_eq_drop (isName.drop first) hits.1
    have isOther := eat_eq_drop (isName.drop count) isEaten
    have isLater : other = t.drop (count - first) := by
      rw [isOther, isLeft, drop_drop, drop_drop, drop_drop]
      congr 1
      omega
    obtain ⟨skipped, isSkipped⟩ := inLanguage_star_iff.mp isIn
    rw [isLater, drop_drop] at isSkipped
    exact inLanguage_star_iff.mpr ⟨_, isSkipped⟩

/-- Where the chunk misses, the pattern does not match. -/
theorem Misses.not_inLanguage
    (misses : Misses ops rest.isEmpty name)
    (isEaten : eat ops name = some t) : ¬InLanguage rest t := by
  intro isIn
  obtain ⟨isLast, present⟩ := misses t isEaten
  cases List.isEmpty_iff.mp isLast
  exact present (inLanguage_nil_iff.mp isIn)

end Search

/-! ## The matcher -/

theorem dropWhile_head_ne (pattern : Bytes) :
    (pattern.dropWhile (· == asterisk)).head? ≠ some asterisk := by
  intro isSome
  have stops := head?_dropWhile_not (· == asterisk) pattern
  rw [isSome] at stops
  cases stops

/-- A chunk without characters is the end of the pattern. -/
theorem eq_nil_of_chunk_nil
    (notStar : body.head? ≠ some asterisk)
    (isNil : (scanFrom false body).1 = []) : body = [] := by
  obtain ⟨isBody, isRest⟩ := scanFrom_spec false body
  rw [isNil, nil_append] at isBody
  rw [isBody] at isRest
  exact isRest.resolve_right notStar

/-- Each round leaves less of the pattern. -/
theorem scanChunk_rest_lt (present : pattern ≠ []) :
    (scanChunk pattern).2.2.length < pattern.length := by
  obtain ⟨isBody, -⟩ := scanFrom_spec false (pattern.dropWhile (· == asterisk))
  have lengths := congrArg List.length isBody
  rw [length_append] at lengths
  have shorter := (dropWhile_suffix (· == asterisk) (l := pattern)).length_le
  change (scanFrom false (pattern.dropWhile (· == asterisk))).2.length < _
  by_cases isNil : (scanFrom false (pattern.dropWhile (· == asterisk))).1 = []
  · have atEnd := eq_nil_of_chunk_nil (dropWhile_head_ne pattern) isNil
    have positive := length_pos_iff.mpr present
    rw [atEnd]
    exact positive
  · have positive := length_pos_iff.mpr isNil
    omega

theorem scanChunk_rest (pattern : Bytes) :
    (scanChunk pattern).2.2 = [] ∨
      (scanChunk pattern).2.2.head? = some asterisk :=
  (scanFrom_spec false _).2

/-- A pattern and its first chunk. -/
theorem inLanguage_iff_scanChunk
    (isName : IsName name) :
    InLanguage pattern name ↔
      ∃ count, ((scanChunk pattern).1 = false → count = 0) ∧
        ∃ t, matchChunk (scanChunk pattern).2.1 (name.drop count) =
            .ok (some t) ∧
          InLanguage (scanChunk pattern).2.2 t := by
  rw [inLanguage_dropWhile_iff]
  apply exists_congr
  intro count
  rw [inLanguage_iff_scan (isName.drop count)]
  have starts : pattern.head? ≠ some asterisk ↔
      (scanChunk pattern).1 = false := beq_eq_false_iff_ne.symm
  rw [starts]
  rfl

theorem scanChunk_spelled
    (isMatched : matchChunk (scanChunk pattern).2.1 s = .ok out) :
    ∃ ops, Spells (scanChunk pattern).2.1 ops ∧ .star ∉ ops :=
  exists_ops_of_matchFrom (scanFrom_chunk _) le_rfl isMatched

/-- A chunk that is placed is placed where it first matches. -/
theorem firstHit_of_placeChunk
    {star : Bool} (isName : IsName name)
    (isSpelled : ∀ {s : Bytes} {out : Option Bytes},
      matchChunk chunk s = .ok out → ∃ ops, Spells chunk ops ∧ .star ∉ ops)
    (isPlaced : placeChunk star chunk last name = .ok (some t)) :
    ∃ ops count, Spells chunk ops ∧ .star ∉ ops ∧
      (star = false → count = 0) ∧ FirstHit ops last name count t := by
  obtain ⟨out, isMatched, -⟩ := bind_eq_ok_iff.mp isPlaced
  obtain ⟨ops, spelled, plain⟩ := isSpelled isMatched
  rcases @placeChunk_cases chunk ops last spelled plain name isName star with
    ⟨count, other, isOther, isZero, isFirst⟩ | ⟨notPlaced, -⟩
  · rw [isPlaced] at isOther
    cases isOther
    exact ⟨ops, count, spelled, plain, isZero, isFirst⟩
  · rw [isPlaced] at notPlaced
    cases notPlaced

/-- A round: where the chunk is placed, the rest goes on. -/
theorem placeChunk_iff
    {star : Bool} (isName : IsName name)
    (isRest : rest = [] ∨ rest.head? = some asterisk)
    (isSpelled : ∀ {s : Bytes} {out : Option Bytes},
      matchChunk chunk s = .ok out → ∃ ops, Spells chunk ops ∧ .star ∉ ops) :
    (∃ t, placeChunk star chunk rest.isEmpty name = .ok (some t) ∧
        InLanguage rest t) ↔
      ∃ count, (star = false → count = 0) ∧
        ∃ t, matchChunk chunk (name.drop count) = .ok (some t) ∧
          InLanguage rest t := by
  constructor
  · rintro ⟨t, isPlaced, isIn⟩
    obtain ⟨ops, count, spelled, plain, isZero, isFirst⟩ :=
      firstHit_of_placeChunk isName isSpelled isPlaced
    exact ⟨count, isZero, t, by
      rw [matchChunk_spelled spelled plain, isFirst.1.1], isIn⟩
  · rintro ⟨count, isZero, other, isMatched, isIn⟩
    obtain ⟨ops, spelled, plain⟩ := isSpelled isMatched
    rw [matchChunk_spelled spelled plain] at isMatched
    have isEaten := Except.ok.inj isMatched
    rcases @placeChunk_cases chunk ops rest.isEmpty spelled plain name isName
      star with ⟨first, t, isPlaced, -, isFirst⟩ | ⟨-, allMiss⟩
    · exact ⟨t, isPlaced, isFirst.inLanguage isName isRest isEaten isIn⟩
    · exact ((allMiss count isZero).not_inLanguage isEaten isIn).elim

/-- What is left of a name is one. -/
theorem FirstHit.isName
    (isFirst : FirstHit ops last name count t)
    (isName : IsName name) : IsName t := by
  rw [eat_eq_drop (isName.drop count) isFirst.1.1]
  exact (isName.drop count).drop _

/-- After stars at the end of a pattern, nothing is left of it. -/
theorem scanChunk_eq_nil
    (atEnd : ((scanChunk pattern).1 &&
      (scanChunk pattern).2.1.isEmpty) = true) :
    (scanChunk pattern).2.1 = [] ∧ (scanChunk pattern).2.2 = [] := by
  have isNil := List.isEmpty_iff.mp (Bool.and_eq_true_iff.mp atEnd).2
  have bodyNil := eq_nil_of_chunk_nil (dropWhile_head_ne pattern) isNil
  refine ⟨isNil, ?_⟩
  change (scanFrom false (pattern.dropWhile (· == asterisk))).2 = []
  rw [bodyNil]
  rfl

/-- Stars alone match every name. -/
theorem stars_only
    (isName : IsName name)
    (atEnd : ((scanChunk pattern).1 &&
      (scanChunk pattern).2.1.isEmpty) = true) :
    (!name.contains separator) = true ∧
      ∃ count, ((scanChunk pattern).1 = false → count = 0) ∧
        ∃ t, matchChunk (scanChunk pattern).2.1 (name.drop count) =
            .ok (some t) ∧
          InLanguage (scanChunk pattern).2.2 t := by
  have hasStar := (Bool.and_eq_true_iff.mp atEnd).1
  obtain ⟨isNil, restNil⟩ := scanChunk_eq_nil atEnd
  constructor
  · rw [Bool.not_eq_true', contains_eq_mem, decide_eq_false_iff_not]
    intro isMember
    exact (isName separator isMember).2 rfl
  · refine ⟨name.length, ?_, [], ?_, ?_⟩
    · rw [hasStar]
      exact Bool.noConfusion
    · rw [isNil, drop_length]
      rfl
    · rw [restNil]
      exact inLanguage_nil_iff.mpr rfl

theorem fmatchFrom_eq_true_iff
    (enough : pattern.length ≤ rounds)
    (isName : IsName name) :
    fmatchFrom rounds pattern name = .ok true ↔ InLanguage pattern name := by
  induction rounds generalizing pattern name with
  | zero =>
    cases length_eq_zero_iff.mp (Nat.le_zero.mp enough)
    rw [inLanguage_nil_iff, fmatchFrom, Except.ok.injEq, List.isEmpty_iff]
  | succ rounds ih =>
    by_cases present : pattern = []
    · subst present
      rw [inLanguage_nil_iff, fmatchFrom, if_pos isEmpty_nil,
        Except.ok.injEq, List.isEmpty_iff]
    · have shorter := scanChunk_rest_lt present
      rw [inLanguage_iff_scanChunk isName, fmatchFrom,
        if_neg (by simpa using present)]
      dsimp only
      by_cases atEnd : ((scanChunk pattern).1 &&
          (scanChunk pattern).2.1.isEmpty) = true
      · obtain ⟨noSeparator, matched⟩ := stars_only isName atEnd
        rw [if_pos atEnd, noSeparator]
        exact ⟨fun _ => matched, fun _ => rfl⟩
      · rw [if_neg atEnd, ← placeChunk_iff isName (scanChunk_rest pattern)
          scanChunk_spelled]
        have goesOn {t : Bytes}
            (isPlaced : placeChunk (scanChunk pattern).1
              (scanChunk pattern).2.1 (scanChunk pattern).2.2.isEmpty name =
                .ok (some t)) :
            fmatchFrom rounds (scanChunk pattern).2.2 t = .ok true ↔
              InLanguage (scanChunk pattern).2.2 t := by
          obtain ⟨ops, count, -, -, -, isFirst⟩ :=
            firstHit_of_placeChunk isName scanChunk_spelled isPlaced
          exact ih (by omega) (isFirst.isName isName)
        constructor
        · intro isMatched
          obtain ⟨placed, isPlaced, isLater⟩ := bind_eq_ok_iff.mp isMatched
          cases placed with
          | none => cases isLater
          | some t => exact ⟨t, isPlaced, (goesOn isPlaced).mp isLater⟩
        · rintro ⟨t, isPlaced, isIn⟩
          exact bind_eq_ok_iff.mpr
            ⟨some t, isPlaced, (goesOn isPlaced).mpr isIn⟩

/-! ## Malformed patterns -/

theorem wellFormed_star :
    WellFormed (asterisk :: pattern) ↔ WellFormed pattern := by
  constructor
  · rintro ⟨ops, spelled⟩
    obtain ⟨later, -, isLater⟩ := spells_star_iff.mp spelled
    exact ⟨later, isLater⟩
  · rintro ⟨ops, spelled⟩
    exact ⟨_, spells_star_iff.mpr ⟨ops, rfl, spelled⟩⟩

theorem wellFormed_dropWhile (pattern : Bytes) :
    WellFormed (pattern.dropWhile (· == asterisk)) ↔ WellFormed pattern := by
  induction pattern with
  | nil => exact Iff.rfl
  | cons c pattern ih =>
    rw [dropWhile_cons]
    split_ifs with isStar
    · rw [beq_iff_eq.mp isStar, wellFormed_star]
      exact ih
    · exact Iff.rfl

/-- A pattern is in the grammar if its first chunk and the rest are. -/
theorem wellFormed_iff_scanChunk (pattern : Bytes) :
    WellFormed pattern ↔
      (∃ ops, Spells (scanChunk pattern).2.1 ops ∧ .star ∉ ops) ∧
        WellFormed (scanChunk pattern).2.2 := by
  rw [← wellFormed_dropWhile]
  constructor
  · rintro ⟨ops, spelled⟩
    obtain ⟨front, back, -, plain, isFront, isBack⟩ :=
      spells_iff_scan.mp spelled
    exact ⟨⟨front, isFront, plain⟩, back, isBack⟩
  · rintro ⟨⟨front, isFront, plain⟩, back, isBack⟩
    exact ⟨front ++ back, spells_iff_scan.mpr
      ⟨front, back, rfl, plain, isFront, isBack⟩⟩

/-- Only a pattern in the grammar matches anything. -/
theorem wellFormed_of_fmatchFrom
    (enough : pattern.length ≤ rounds)
    (isMatched : fmatchFrom rounds pattern name = .ok true) :
    WellFormed pattern := by
  induction rounds generalizing pattern name with
  | zero =>
    cases length_eq_zero_iff.mp (Nat.le_zero.mp enough)
    exact ⟨[], spells_nil⟩
  | succ rounds ih =>
    by_cases present : pattern = []
    · subst present
      exact ⟨[], spells_nil⟩
    · have shorter := scanChunk_rest_lt present
      rw [fmatchFrom, if_neg (by simpa using present)] at isMatched
      dsimp only at isMatched
      rw [wellFormed_iff_scanChunk]
      split_ifs at isMatched with atEnd
      · obtain ⟨isNil, restNil⟩ := scanChunk_eq_nil atEnd
        rw [isNil, restNil]
        exact ⟨⟨[], spells_nil, not_mem_nil⟩, [], spells_nil⟩
      · obtain ⟨placed, isPlaced, isLater⟩ := bind_eq_ok_iff.mp isMatched
        cases placed with
        | none => cases isLater
        | some t =>
          obtain ⟨out, isChunk, -⟩ := bind_eq_ok_iff.mp isPlaced
          exact ⟨scanChunk_spelled isChunk, ih (by omega) isLater⟩

theorem exists_skipMatch
    (spelled : Spells chunk ops)
    (plain : .star ∉ ops) (last : Bool) (name : Bytes) :
    ∃ out, skipMatch chunk last name = .ok out := by
  induction name with
  | nil => exact ⟨none, rfl⟩
  | cons c name ih =>
    rw [skipMatch, matchChunk_spelled spelled plain, ok_bind]
    split_ifs
    · exact ⟨none, rfl⟩
    · cases eat ops name with
      | none => exact ih
      | some t =>
        dsimp only
        split_ifs
        · exact ih
        · exact ⟨some t, rfl⟩

/-- No pattern in the grammar is found malformed. -/
theorem exists_fmatchFrom
    (enough : pattern.length ≤ rounds)
    (wellFormed : WellFormed pattern) (name : Bytes) :
    ∃ matched, fmatchFrom rounds pattern name = .ok matched := by
  induction rounds generalizing pattern name with
  | zero => exact ⟨_, rfl⟩
  | succ rounds ih =>
    by_cases present : pattern = []
    · subst present
      exact ⟨_, rfl⟩
    · have shorter := scanChunk_rest_lt present
      obtain ⟨⟨ops, spelled, plain⟩, restWellFormed⟩ :=
        (wellFormed_iff_scanChunk pattern).mp wellFormed
      have isPlaced : ∃ placed, placeChunk (scanChunk pattern).1
          (scanChunk pattern).2.1 (scanChunk pattern).2.2.isEmpty name =
            .ok placed := by
        rw [placeChunk, matchChunk_spelled spelled plain, ok_bind]
        split
        · exact ⟨_, rfl⟩
        · split_ifs
          · exact exists_skipMatch spelled plain _ name
          · exact ⟨none, rfl⟩
      obtain ⟨placed, isPlaced⟩ := isPlaced
      rw [fmatchFrom, if_neg (by simpa using present)]
      dsimp only
      split_ifs
      · exact ⟨_, rfl⟩
      · rw [isPlaced, ok_bind]
        cases placed with
        | none => exact ⟨false, rfl⟩
        | some t => exact ih (by omega) restWellFormed t

/-- The matcher accepts exactly the names in the language of a pattern in the
grammar, and matches nothing with another pattern. -/
theorem fmatch_eq_true_iff (pattern : Bytes) :
    (∀ name, IsName name →
      (fmatch pattern name = .ok true ↔
        WellFormed pattern ∧ InLanguage pattern name)) ∧
    (¬WellFormed pattern → ∀ name, fmatch pattern name ≠ .ok true) := by
  constructor
  · intro name isName
    rw [fmatch, fmatchFrom_eq_true_iff le_rfl isName]
    constructor
    · rintro ⟨ops, spelled, isDenoted⟩
      exact ⟨⟨ops, spelled⟩, ops, spelled, isDenoted⟩
    · exact And.right
  · intro malformed name isMatched
    exact malformed (wellFormed_of_fmatchFrom le_rfl isMatched)

theorem fmatch_eq_true_iff_starA :
    IsName [0x62, 0x61] ∧ fmatch [asterisk, 0x61] [0x62, 0x61] = .ok true ∧
      WellFormed [asterisk, 0x61] ∧
      InLanguage [asterisk, 0x61] [0x62, 0x61] := by
  have isName : IsName [0x62, 0x61] := by decide
  have isMatched : fmatch [asterisk, 0x61] [0x62, 0x61] = .ok true := by decide
  exact ⟨isName, isMatched,
    ((fmatch_eq_true_iff [asterisk, 0x61]).1 _ isName).mp isMatched⟩

end AmberStore.Amberignore

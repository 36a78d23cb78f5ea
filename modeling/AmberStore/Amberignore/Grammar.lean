import AmberStore.Amberignore.RuneSpec

/-!
# The grammar of a pattern

The grammar of patterns and the names each denotes.  The scanner and the parser
agree with it, and so with each other, on where a class ends and on what a chunk
takes from a name.
-/

open ByteString Checked
open List hiding after

namespace AmberStore.Amberignore

/-! ## The grammar -/

/-- An end of a range of a class: a character, escaped where it has a meaning of
its own. -/
inductive EndOf : Bytes → Nat → Prop
  | bare
      (c : Char)
      (notHyphen : c ≠ '-')
      (notBracket : c ≠ ']')
      (notEscape : c ≠ '\\') : EndOf (String.utf8EncodeChar c) c.toNat
  | escaped (c : Char) : EndOf (backslash :: String.utf8EncodeChar c) c.toNat

/-- A member of a class: a character, or a range. -/
inductive RangeOf : Bytes → Nat × Nat → Prop
  | single {bytes : Bytes} {c : Nat} (isEnd : EndOf bytes c) :
      RangeOf bytes (c, c)
  | range
      {low high : Bytes} {lo hi : Nat}
      (isStart : EndOf low lo)
      (isEnd : EndOf high hi) : RangeOf (low ++ hyphen :: high) (lo, hi)

/-- What a pattern is made of. -/
inductive Op
  | literal (byte : UInt8)
  | any
  | star
  | cls (negated : Bool) (ranges : List (Nat × Nat))

/-- How each is spelled.  A class has a member at least, and a caret that opens
it negates it. -/
inductive OpOf : Bytes → Op → Prop
  | literal
      (byte : UInt8)
      (notStar : byte ≠ asterisk)
      (notQuestion : byte ≠ question)
      (notEscape : byte ≠ backslash)
      (notBracket : byte ≠ bracketOpen) : OpOf [byte] (.literal byte)
  | escaped (byte : UInt8) : OpOf [backslash, byte] (.literal byte)
  | any : OpOf [question] .any
  | star : OpOf [asterisk] .star
  | cls
      {pieces : List Bytes} {ranges : List (Nat × Nat)} (negated : Bool)
      (spelled : List.Forall₂ RangeOf pieces ranges)
      (present : pieces ≠ [])
      (plain : negated = false → pieces.flatten.head? ≠ some caret) :
      OpOf (bracketOpen :: ((if negated then [caret] else []) ++
          (pieces.flatten ++ [bracketClose])))
        (.cls negated ranges)

/-- The pattern spells these. -/
def Spells (pattern : Bytes) (ops : List Op) : Prop :=
  ∃ pieces, List.Forall₂ OpOf pieces ops ∧ pattern = pieces.flatten

/-- The pattern is in the grammar. -/
def WellFormed (pattern : Bytes) : Prop := ∃ ops, Spells pattern ops

/-! ## The language -/

/-- Whether a character is in a range of a class. -/
def InRanges (ranges : List (Nat × Nat)) (r : Nat) : Prop :=
  ∃ range ∈ ranges, range.1 ≤ r ∧ r ≤ range.2

/-- The one character that this takes. -/
def Op.Accepts : Op → UInt8 → Prop
  | .literal byte, c => c = byte
  | .any, _ => True
  | .star, _ => False
  | .cls negated ranges, c =>
    if negated then ¬InRanges ranges c.toNat else InRanges ranges c.toNat

/-- The names denoted, of ASCII characters. -/
inductive Denotes : List Op → Bytes → Prop
  | nil : Denotes [] []
  | star
      (skipped : Bytes) {name : Bytes} {ops : List Op}
      (rest : Denotes ops name) : Denotes (.star :: ops) (skipped ++ name)
  | one
      {op : Op} {c : UInt8} {name : Bytes} {ops : List Op}
      (accepts : op.Accepts c)
      (rest : Denotes ops name) : Denotes (op :: ops) (c :: name)

/-! ## Classes -/

theorem EndOf.ne_nil (isEnd : EndOf bytes c) :
    bytes ≠ [] := by
  cases isEnd with
  | bare c => exact encode_ne_nil c
  | escaped c => exact cons_ne_nil _ _

/-- A hyphen or a bracket is no end of a range. -/
theorem EndOf.head_ne
    (isEnd : EndOf bytes c) (rest : Bytes) :
    (bytes ++ rest).head? ≠ some hyphen ∧
      (bytes ++ rest).head? ≠ some bracketClose := by
  cases isEnd with
  | bare c notHyphen notBracket _ =>
    obtain ⟨byte, more, isCode⟩ := exists_cons_of_ne_nil (encode_ne_nil c)
    rw [isCode]
    constructor
    · intro isHyphen
      cases isHyphen
      exact notHyphen (Char.toNat_inj.mp (encode_of_ascii (by decide) isCode).1)
    · intro isBracket
      cases isBracket
      exact notBracket (Char.toNat_inj.mp
        (encode_of_ascii (by decide) isCode).1)
  | escaped c =>
    rw [cons_append, head?_cons]
    decide

theorem getRune_encode
    (c : Char) (present : rest ≠ []) :
    getRune (String.utf8EncodeChar c ++ rest) = .ok (c.toNat, rest) := by
  have codePresent : ¬(String.utf8EncodeChar c ++ rest).isEmpty = true := by
    rw [List.isEmpty_iff]
    exact append_ne_nil_of_left_ne_nil (encode_ne_nil c) rest
  have restPresent : ¬rest.isEmpty = true := by
    rw [List.isEmpty_iff]
    exact present
  have isRune := encode_isRune c rest
  rw [getRune, if_neg codePresent]
  dsimp only
  rw [if_neg isRune, decodeRune_encode, drop_left, if_neg restPresent]

theorem getEsc_endOf
    (isEnd : EndOf bytes c)
    (present : rest ≠ []) : getEsc (bytes ++ rest) = .ok (c, rest) := by
  have headNe := isEnd.head_ne rest
  cases isEnd with
  | bare c _ _ notEscape =>
    rw [← getRune_encode c present]
    obtain ⟨byte, more, isCode⟩ := exists_cons_of_ne_nil (encode_ne_nil c)
    rw [isCode] at headNe ⊢
    have isOrdinary : ¬(byte = hyphen ∨ byte = bracketClose) := by
      rintro (rfl | rfl)
      · exact headNe.1 rfl
      · exact headNe.2 rfl
    have notBackslash : byte ≠ backslash := by
      rintro rfl
      exact notEscape (Char.toNat_inj.mp (encode_of_ascii (by decide) isCode).1)
    rw [cons_append, getEsc, if_neg isOrdinary, if_neg notBackslash]
  | escaped c =>
    rw [cons_append, getEsc, if_neg (by decide), if_pos rfl,
      getRune_encode c present]

theorem exists_encode_of_getRune
    (isRead : getRune chunk = .ok (r, rest)) :
    ∃ c : Char, chunk = String.utf8EncodeChar c ++ rest ∧ r = c.toNat ∧
      rest ≠ [] := by
  unfold getRune at isRead
  dsimp only at isRead
  split_ifs at isRead with isEmpty isError atEnd
  obtain ⟨c, more, rfl⟩ := exists_encode_of_decodeRune
    (fun isNil => isEmpty (List.isEmpty_iff.mpr isNil)) isError
  rw [decodeRune_encode, drop_left] at isRead atEnd
  cases isRead
  exact ⟨c, rfl, rfl, fun isNil => atEnd (List.isEmpty_iff.mpr isNil)⟩

theorem exists_endOf_of_getEsc
    (isRead : getEsc chunk = .ok (r, rest)) :
    ∃ bytes, EndOf bytes r ∧ chunk = bytes ++ rest ∧ rest ≠ [] := by
  cases chunk with
  | nil => cases isRead
  | cons byte chunk =>
    rw [getEsc] at isRead
    split_ifs at isRead with isSpecial isEscape
    · obtain ⟨c, rfl, rfl, present⟩ := exists_encode_of_getRune isRead
      exact ⟨_, .escaped c, by rw [isEscape]; rfl, present⟩
    · obtain ⟨c, isCode, rfl, present⟩ := exists_encode_of_getRune isRead
      refine ⟨_, .bare c ?_ ?_ ?_, isCode, present⟩
      all_goals
        rintro rfl
        cases isCode
      · exact isSpecial (.inl rfl)
      · exact isSpecial (.inr rfl)
      · exact isEscape rfl

variable {range : Nat × Nat} {ranges : List (Nat × Nat)}

/-- The bytes of a range, and what follows the class on. -/
theorem RangeOf.read
    (isRange : RangeOf bytes range)
    (present : rest ≠ []) (notHyphen : rest.head? ≠ some hyphen) :
    ∃ more, getEsc (bytes ++ rest) = .ok (range.1, more) ∧
      getEnd range.1 more = .ok (range.2, rest) := by
  cases isRange with
  | single isEnd =>
    refine ⟨rest, getEsc_endOf isEnd present, ?_⟩
    rw [getEnd, if_neg notHyphen]
  | @range low high lo hi isStart isEnd =>
    refine ⟨hyphen :: (high ++ rest), ?_, ?_⟩
    · rw [append_assoc, cons_append]
      exact getEsc_endOf isStart (cons_ne_nil _ _)
    · rw [getEnd, if_pos head?_cons]
      exact getEsc_endOf isEnd present

theorem RangeOf.head_ne
    (isRange : RangeOf bytes range)
    (rest : Bytes) :
    (bytes ++ rest).head? ≠ some hyphen ∧
      (bytes ++ rest).head? ≠ some bracketClose := by
  cases isRange with
  | single isEnd => exact isEnd.head_ne rest
  | range isStart isEnd =>
    rw [append_assoc]
    exact isStart.head_ne _

theorem RangeOf.ne_nil
    (isRange : RangeOf bytes range) :
    bytes ≠ [] := by
  cases isRange with
  | single isEnd => exact isEnd.ne_nil
  | range isStart isEnd =>
    exact append_ne_nil_of_left_ne_nil isStart.ne_nil _

theorem ranges_ne_nil
    (spelled : List.Forall₂ RangeOf pieces ranges) (present : pieces ≠ []) :
    pieces.flatten ≠ [] := by
  cases spelled with
  | nil => exact (present rfl).elim
  | cons isRange _ =>
    exact append_ne_nil_of_left_ne_nil isRange.ne_nil _

theorem ranges_head_ne_hyphen
    (spelled : List.Forall₂ RangeOf pieces ranges) (rest : Bytes) :
    (pieces.flatten ++ bracketClose :: rest).head? ≠ some hyphen := by
  cases spelled with
  | nil =>
    rw [flatten_nil, nil_append, head?_cons]
    decide
  | cons isRange spelled =>
    rw [flatten_cons, append_assoc]
    exact (isRange.head_ne _).1

/-- Whether a character is in a range, as the loop computes it. -/
def inRanges (ranges : List (Nat × Nat)) (r : Nat) : Bool :=
  ranges.any fun range => decide (range.1 ≤ r ∧ r ≤ range.2)

theorem inRanges_iff (ranges : List (Nat × Nat)) (r : Nat) :
    inRanges ranges r = true ↔ InRanges ranges r := by
  simp [inRanges, InRanges]

/-- The loop reads the ranges of a class. -/
theorem classRanges_spelled
    (r : Nat)
    (spelled : List.Forall₂ RangeOf pieces ranges)
    (matched : Bool) (rest : Bytes) (enough : pieces.flatten.length < rounds)
    (present : pieces ≠ [] ∨ 0 < nrange) :
    classRanges r rounds (pieces.flatten ++ bracketClose :: rest) matched
        nrange =
      .ok (matched || inRanges ranges r, rest) := by
  induction spelled generalizing rounds matched nrange with
  | nil =>
    obtain ⟨rounds, rfl⟩ := Nat.exists_eq_succ_of_ne_zero
      (Nat.ne_of_gt (Nat.zero_lt_of_lt enough))
    rw [flatten_nil, nil_append, classRanges,
      if_pos ⟨rfl, present.resolve_left (fun isCons => isCons rfl)⟩]
    simp [inRanges]
  | @cons piece range pieces ranges isRange spelled ih =>
    obtain ⟨rounds, rfl⟩ := Nat.exists_eq_succ_of_ne_zero
      (Nat.ne_of_gt (Nat.zero_lt_of_lt enough))
    have positive := length_pos_iff.mpr isRange.ne_nil
    rw [flatten_cons, length_append] at enough
    rw [flatten_cons, append_assoc]
    obtain ⟨more, isStart, isEnd⟩ := isRange.read
      (append_ne_nil_of_right_ne_nil pieces.flatten
        (cons_ne_nil bracketClose rest))
      (ranges_head_ne_hyphen spelled rest)
    rw [classRanges, if_neg (fun isClose => (isRange.head_ne _).2 isClose.1),
      isStart, ok_bind]
    dsimp only
    rw [isEnd, ok_bind, ih _ (by omega) (.inr (Nat.succ_pos _)), Bool.or_assoc]
    rfl

theorem exists_rangeOf
    (isStart : getEsc chunk = .ok (lo, more))
    (isEnd : getEnd lo more = .ok (hi, rest)) :
    ∃ bytes, RangeOf bytes (lo, hi) ∧ chunk = bytes ++ rest := by
  obtain ⟨low, lowIs, rfl, present⟩ := exists_endOf_of_getEsc isStart
  unfold getEnd at isEnd
  split_ifs at isEnd with isHyphen
  · obtain ⟨byte, more, rfl⟩ := exists_cons_of_ne_nil present
    cases isHyphen
    obtain ⟨high, highIs, isHigh, -⟩ := exists_endOf_of_getEsc isEnd
    rw [tail_cons] at isHigh
    exact ⟨_, .range lowIs highIs, by rw [isHigh, append_assoc]; rfl⟩
  · cases isEnd
    exact ⟨_, .single lowIs, rfl⟩

/-- What the loop reads is spelled there. -/
theorem exists_ranges_of_classRanges
    (isRead : classRanges r rounds chunk matched nrange = .ok (result, rest)) :
    ∃ pieces ranges, List.Forall₂ RangeOf pieces ranges ∧
      chunk = pieces.flatten ++ bracketClose :: rest ∧
      (pieces ≠ [] ∨ 0 < nrange) := by
  induction rounds generalizing chunk matched nrange with
  | zero => cases isRead
  | succ rounds ih =>
    rw [classRanges] at isRead
    split_ifs at isRead with isClose
    · obtain ⟨isBracket, positive⟩ := isClose
      cases isRead
      refine ⟨[], [], .nil, ?_, .inr positive⟩
      cases chunk with
      | nil => cases isBracket
      | cons byte chunk =>
        cases isBracket
        rfl
    · obtain ⟨⟨lo, more⟩, isStart, afterStart⟩ := bind_eq_ok_iff.mp isRead
      obtain ⟨⟨hi, left⟩, isEnd, isLater⟩ := bind_eq_ok_iff.mp afterStart
      obtain ⟨bytes, isRange, rfl⟩ := exists_rangeOf isStart isEnd
      obtain ⟨pieces, ranges, spelled, isLeft, -⟩ := ih isLater
      refine ⟨bytes :: pieces, _ :: ranges, .cons isRange spelled, ?_,
        .inl (cons_ne_nil _ _)⟩
      rw [flatten_cons, append_assoc, ← isLeft]

/-! ## The scanner -/

/-- The scanner goes on after these bytes, with brackets as they were. -/
def Passes (before : Bool) (bytes : Bytes) (after : Bool) : Prop :=
  ∀ rest, scanFrom before (bytes ++ rest) =
    (bytes ++ (scanFrom after rest).1, (scanFrom after rest).2)

theorem Passes.append
    (frontPasses : Passes before front between)
    (backPasses : Passes between back after) :
    Passes before (front ++ back) after := by
  intro rest
  rw [append_assoc, frontPasses, backPasses, append_assoc]

theorem passes_nil (inrange : Bool) : Passes inrange [] inrange :=
  fun _ => rfl

/-- A byte without a meaning to the scanner. -/
theorem passes_byte
    {byte : UInt8} (notEscape : byte ≠ backslash)
    (notStar : byte = asterisk → inrange = true) :
    Passes inrange [byte]
      (if byte = bracketOpen then true
        else if byte = bracketClose then false else inrange) := by
  intro rest
  have notEnd : ¬(byte = asterisk ∧ inrange = false) := by
    rintro ⟨isStar, isFalse⟩
    rw [notStar isStar] at isFalse
    cases isFalse
  rw [singleton_append, scanFrom.eq_def]
  dsimp only
  rw [if_neg notEscape, if_neg notEnd]
  rfl

theorem passes_escaped (inrange : Bool) (byte : UInt8) :
    Passes inrange [backslash, byte] inrange :=
  fun _ => rfl

/-- What no ASCII byte is in. -/
theorem passes_high
    (inrange : Bool)
    (high : ∀ byte ∈ bytes, 0x80 ≤ byte.toNat) :
    Passes inrange bytes inrange := by
  induction bytes with
  | nil => exact passes_nil inrange
  | cons byte bytes ih =>
    have isHigh := high byte mem_cons_self
    have notAscii {other : UInt8} (isAscii : other.toNat < 0x80) :
        byte ≠ other := by
      rintro rfl
      omega
    have first := @passes_byte inrange byte (notAscii (by decide))
      (fun isStar => (notAscii (by decide) isStar).elim)
    rw [if_neg (notAscii (by decide)), if_neg (notAscii (by decide))] at first
    exact first.append (ih
      (fun other isMember => high other (mem_cons_of_mem _ isMember)))

theorem EndOf.passes
    (isEnd : EndOf bytes c) :
    Passes true bytes true := by
  have headNe := (isEnd.head_ne []).2
  cases isEnd with
  | bare c _ _ notEscape =>
    rcases encode_ascii_or_high c with ⟨byte, isByte⟩ | high
    · rw [isByte] at headNe ⊢
      have notBackslash : byte ≠ backslash := by
        rintro rfl
        exact notEscape (Char.toNat_inj.mp
          (encode_of_ascii (by decide) isByte).1)
      have notClose : byte ≠ bracketClose := by
        rintro rfl
        exact headNe rfl
      have passes := @passes_byte true byte notBackslash (fun _ => rfl)
      rw [if_neg notClose, ite_self] at passes
      exact passes
    · exact passes_high true high
  | escaped c =>
    rcases encode_ascii_or_high c with ⟨byte, isByte⟩ | high
    · rw [isByte]
      exact passes_escaped true byte
    · obtain ⟨byte, more, isCode⟩ := exists_cons_of_ne_nil (encode_ne_nil c)
      rw [isCode] at high ⊢
      exact (passes_escaped true byte).append (passes_high true
        (fun other isMember => high other (mem_cons_of_mem _ isMember)))

theorem RangeOf.passes
    (isRange : RangeOf bytes range) :
    Passes true bytes true := by
  cases isRange with
  | single isEnd => exact isEnd.passes
  | range isStart isEnd =>
    have hyphenPasses : Passes true [hyphen] true :=
      passes_byte (by decide) (fun _ => rfl)
    exact isStart.passes.append (hyphenPasses.append isEnd.passes)

theorem ranges_pass
    (spelled : List.Forall₂ RangeOf pieces ranges) :
    Passes true pieces.flatten true := by
  induction spelled with
  | nil => exact passes_nil true
  | cons isRange _ ih =>
    exact isRange.passes.append ih

/-- The scanner is outside brackets after each part of a pattern. -/
theorem OpOf.passes
    (isOp : OpOf bytes op) (notStar : op ≠ .star) :
    Passes false bytes false := by
  cases isOp with
  | literal byte isPlain _ notEscape notBracket =>
    have passes := @passes_byte false byte notEscape
      (fun isStar => (isPlain isStar).elim)
    rw [if_neg notBracket, ite_self] at passes
    exact passes
  | escaped byte => exact passes_escaped false byte
  | any => exact passes_byte (by decide) (by decide)
  | star => exact (notStar rfl).elim
  | cls negated spelled _ _ =>
    have opens : Passes false [bracketOpen] true :=
      passes_byte (by decide) (by decide)
    have closes : Passes true [bracketClose] false :=
      passes_byte (by decide) (by decide)
    have mayNegate : Passes true (if negated then [caret] else []) true := by
      cases negated with
      | false => exact passes_nil true
      | true => exact passes_byte (by decide) (by decide)
    exact opens.append (mayNegate.append ((ranges_pass spelled).append closes))

/-! ## Chunks -/

/-- What is left of a name after the character that this takes. -/
def eatOp : Op → Bytes → Option Bytes
  | _, [] => none
  | .literal byte, c :: s => if c = byte then some s else none
  | .any, c :: s =>
    if c = separator then none
    else some ((c :: s).drop (decodeRune (c :: s)).2)
  | .star, _ => none
  | .cls negated ranges, c :: s =>
    if inRanges ranges (decodeRune (c :: s)).1 = negated then none
    else some ((c :: s).drop (decodeRune (c :: s)).2)

/-- What is left of a name after the characters that these take. -/
def eat : List Op → Bytes → Option Bytes
  | [], s => some s
  | op :: ops, s => (eatOp op s).bind (eat ops)

/-- What the parser goes on with after a part of the chunk that takes a
character. -/
def StepsTo
    (op : Op) (failed : Bool) (s : Bytes)
    (next : Bool → Bytes → Except BadPattern (Option Bytes))
    (result : Except BadPattern (Option Bytes)) : Prop :=
  ∃ s', result = next (failed || (eatOp op s).isNone) s' ∧
    ∀ t, failed = false → eatOp op s = some t → s' = t

/-- Once the match has failed nothing is taken, and before that a character. -/
theorem StepsTo.of_cases
    {next : Bool → Bytes → Except BadPattern (Option Bytes)}
    (stuck : (failed || s.isEmpty) = true → ∃ s', result = next true s')
    (eats : ∀ c t, failed = false → s = c :: t → ∃ out s',
      result = next out s' ∧ eatOp op s = if out = true then none else some s') :
    StepsTo op failed s next result := by
  by_cases hasFailed : (failed || s.isEmpty) = true
  · obtain ⟨s', isNext⟩ := stuck hasFailed
    refine ⟨s', ?_, ?_⟩
    · cases failed with
      | true => rw [isNext, Bool.true_or]
      | false =>
        cases List.isEmpty_iff.mp hasFailed
        exact isNext
    · rintro t rfl isEaten
      cases List.isEmpty_iff.mp hasFailed
      cases isEaten
  · cases failed with
    | true => exact (hasFailed rfl).elim
    | false =>
      cases s with
      | nil => exact (hasFailed rfl).elim
      | cons c t =>
        obtain ⟨out, s', isNext, eaten⟩ := eats c t rfl rfl
        rw [StepsTo, eaten]
        refine ⟨s', ?_, ?_⟩
        · cases out <;> exact isNext
        · intro t _ isEaten
          split_ifs at isEaten
          exact Option.some.inj isEaten

theorem stepsTo_literal
    (byte : UInt8) (failed : Bool) (s : Bytes)
    (next : Bool → Bytes → Except BadPattern (Option Bytes)) :
    StepsTo (.literal byte) failed s next
      (if (failed || s.isEmpty) = true then next (failed || s.isEmpty) s
        else next (s.head? != some byte) s.tail) := by
  refine .of_cases (fun hasFailed => ⟨s, ?_⟩) ?_
  · rw [if_pos hasFailed, hasFailed]
  · rintro c t rfl rfl
    exact ⟨some c != some byte, t, rfl, by simp [eatOp, ite_not]⟩

theorem stepsTo_any
    (failed : Bool) (s : Bytes)
    (next : Bool → Bytes → Except BadPattern (Option Bytes)) :
    StepsTo .any failed s next
      (if (failed || s.isEmpty) = true then next (failed || s.isEmpty) s
        else next (s.head? == some separator) (s.drop (decodeRune s).2)) := by
  refine .of_cases (fun hasFailed => ⟨s, ?_⟩) ?_
  · rw [if_pos hasFailed, hasFailed]
  · rintro c t rfl rfl
    exact ⟨some c == some separator, _, rfl, by simp [eatOp]⟩

theorem stepsTo_cls
    (negated : Bool) (ranges : List (Nat × Nat)) (failed : Bool) (s : Bytes)
    (next : Bool → Bytes → Except BadPattern (Option Bytes)) :
    StepsTo (.cls negated ranges) failed s next
      (next
        ((failed || s.isEmpty) ||
          inRanges ranges
            (if (failed || s.isEmpty) = true then (0, 0)
              else decodeRune s).1 == negated)
        (s.drop (if (failed || s.isEmpty) = true then (0, 0)
          else decodeRune s).2)) := by
  refine .of_cases (fun hasFailed => ⟨s, ?_⟩) ?_
  · rw [hasFailed, Bool.true_or, if_pos rfl, List.drop_zero]
  · rintro c t rfl rfl
    exact ⟨inRanges ranges (decodeRune (c :: t)).1 == negated, _, rfl,
      by simp [eatOp]⟩

/-- The parser takes one part of the chunk, and the character it stands for. -/
theorem matchFrom_op
    (isOp : OpOf piece op) (notStar : op ≠ .star)
    (rounds : Nat) (chunk : Bytes) (failed : Bool) (s : Bytes) :
    StepsTo op failed s (matchFrom rounds chunk)
      (matchFrom (rounds + 1) (piece ++ chunk) failed s) := by
  cases isOp with
  | literal byte notAsterisk notQuestion notEscape notBracket =>
    rw [singleton_append, matchFrom.eq_def]
    dsimp only
    rw [if_neg notBracket, if_neg notQuestion, if_neg notEscape]
    exact stepsTo_literal byte failed s _
  | escaped byte =>
    rw [cons_append, singleton_append, matchFrom.eq_def]
    dsimp only
    rw [if_neg (by decide), if_neg (by decide), if_pos rfl]
    exact stepsTo_literal byte failed s _
  | any =>
    rw [singleton_append, matchFrom.eq_def]
    dsimp only
    rw [if_neg (by decide), if_pos rfl]
    exact stepsTo_any failed s _
  | star => exact (notStar rfl).elim
  | @cls pieces ranges negated spelled present plain =>
    have isNegated :
        (((if negated then [caret] else []) ++
          (pieces.flatten ++ [bracketClose]) ++ chunk).head? ==
            some caret) = negated := by
      cases negated with
      | true => rfl
      | false =>
        apply beq_eq_false_iff_ne.mpr
        change (pieces.flatten ++ [bracketClose] ++ chunk).head? ≠ _
        rw [append_assoc,
          head?_append_of_ne_nil _ (ranges_ne_nil spelled present)]
        exact plain rfl
    have afterCaret :
        (if negated = true then
          ((if negated then [caret] else []) ++
            (pieces.flatten ++ [bracketClose]) ++ chunk).tail
        else
          (if negated then [caret] else []) ++
            (pieces.flatten ++ [bracketClose]) ++ chunk) =
          pieces.flatten ++ bracketClose :: chunk := by
      cases negated <;> simp
    rw [cons_append, matchFrom.eq_def]
    dsimp only
    rw [if_pos rfl, isNegated, afterCaret, classRanges_spelled _ spelled
      false chunk (by rw [length_append]; omega) (.inl present), ok_bind,
      Bool.false_or]
    exact stepsTo_cls negated ranges failed s _

theorem OpOf.ne_nil (isOp : OpOf piece op) :
    piece ≠ [] := by
  cases isOp <;> exact cons_ne_nil _ _

/-- The parser accepts what is spelled, and takes the characters it stands
for. -/
theorem matchFrom_spelled
    (spelled : List.Forall₂ OpOf pieces ops) (plain : .star ∉ ops)
    (enough : pieces.flatten.length ≤ rounds) (failed : Bool)
    (s : Bytes) :
    matchFrom rounds pieces.flatten failed s =
      .ok (if failed then none else eat ops s) := by
  induction spelled generalizing rounds failed s with
  | nil => cases rounds <;> rfl
  | @cons piece op pieces ops isOp spelled ih =>
    have positive := length_pos_iff.mpr isOp.ne_nil
    rw [flatten_cons, length_append] at enough
    rw [mem_cons, not_or] at plain
    obtain ⟨rounds, rfl⟩ : ∃ fewer, rounds = fewer + 1 :=
      Nat.exists_eq_succ_of_ne_zero (by omega)
    obtain ⟨s', isStep, isLeft⟩ :=
      matchFrom_op isOp (Ne.symm plain.1) rounds pieces.flatten failed s
    rw [flatten_cons, isStep, ih plain.2 (by omega)]
    cases failed with
    | true => rfl
    | false =>
      cases isEaten : eatOp op s with
      | none =>
        rw [eat, isEaten]
        rfl
      | some t =>
        rw [isLeft t rfl isEaten, eat, isEaten]
        rfl

/-- Where the parser reads a class, one is spelled. -/
theorem exists_cls_of_classRanges
    (isRead : classRanges r rounds
      (if (chunk.head? == some caret) = true then chunk.tail else chunk) false
        0 = .ok (matched, rest)) :
    ∃ piece op, OpOf piece op ∧ op ≠ .star ∧
      bracketOpen :: chunk = piece ++ rest := by
  obtain ⟨pieces, ranges, spelled, isBody, present⟩ :=
    exists_ranges_of_classRanges isRead
  have present := present.resolve_right (Nat.lt_irrefl 0)
  refine ⟨_, _, .cls (chunk.head? == some caret) spelled present ?_,
    Op.noConfusion, ?_⟩
  · intro notNegated
    rw [notNegated, if_neg Bool.false_ne_true] at isBody
    rw [isBody, head?_append_of_ne_nil _
      (ranges_ne_nil spelled present)] at notNegated
    exact beq_eq_false_iff_ne.mp notNegated
  · rw [cons_append, append_assoc, append_assoc, singleton_append, ← isBody]
    by_cases isNegated : chunk.head? = some caret
    · rw [beq_iff_eq.mpr isNegated, if_pos rfl, if_pos rfl]
      obtain ⟨tail, rfl⟩ := head?_eq_some_iff.mp isNegated
      rfl
    · rw [beq_eq_false_iff_ne.mpr isNegated, if_neg Bool.false_ne_true,
        if_neg Bool.false_ne_true]
      rfl

/-- What the parser accepts starts with a part of a pattern, unless with a
star. -/
theorem exists_op_of_matchFrom
    (isMatched : matchFrom (rounds + 1) (c :: chunk) failed s = .ok out)
    (notStar : c ≠ asterisk) :
    ∃ piece op more failed' s', OpOf piece op ∧ op ≠ .star ∧
      c :: chunk = piece ++ more ∧
      matchFrom rounds more failed' s' = .ok out := by
  rw [matchFrom.eq_def] at isMatched
  dsimp only at isMatched
  by_cases isOpen : c = bracketOpen
  · rw [if_pos isOpen] at isMatched
    obtain ⟨⟨matched, rest⟩, isRead, isLater⟩ := bind_eq_ok_iff.mp isMatched
    obtain ⟨piece, op, isOp, notStar, isClass⟩ :=
      exists_cls_of_classRanges isRead
    exact ⟨piece, op, rest, _, _, isOp, notStar, by rw [isOpen, isClass],
      isLater⟩
  · rw [if_neg isOpen] at isMatched
    by_cases isQuestion : c = question
    · rw [if_pos isQuestion] at isMatched
      subst isQuestion
      split_ifs at isMatched <;>
        exact ⟨_, _, chunk, _, _, .any, Op.noConfusion, rfl, isMatched⟩
    · rw [if_neg isQuestion] at isMatched
      by_cases isEscape : c = backslash
      · rw [if_pos isEscape] at isMatched
        subst isEscape
        cases chunk with
        | nil => cases isMatched
        | cons lit chunk =>
          dsimp only at isMatched
          split_ifs at isMatched <;>
            exact ⟨_, _, chunk, _, _, .escaped lit, Op.noConfusion, rfl,
              isMatched⟩
      · rw [if_neg isEscape] at isMatched
        split_ifs at isMatched <;>
          exact ⟨_, _, chunk, _, _,
            .literal c notStar isQuestion isEscape isOpen, Op.noConfusion,
            rfl, isMatched⟩

end AmberStore.Amberignore

import AmberStore.Gitobj
import AmberStore.Lib.Numerals

/-!
# The frame of a git object

Framing writes the kind, the decimal length and the content.  Parsing accepts
exactly what framing writes: the length must be the numeral without a leading
zero, and it must be the length of what follows.
-/

open ByteString List Numerals

namespace AmberStore.Gitobj

/-- Frames content as an object of a kind. -/
def encode (kind : Kind) (content : Bytes) : Bytes :=
  kind.name ++ 0x20 :: (render content.length ++ 0 :: content)

theorem Kind.of_eq_some_iff {name : Bytes} :
    Kind.of name = some kind ↔ kind.name = name := by
  constructor
  · intro isKind
    simpa using find?_some isKind
  · rintro rfl
    cases kind <;> rfl

theorem Kind.space_not_mem_name (kind : Kind) : (0x20 : UInt8) ∉ kind.name := by
  cases kind <;> decide

theorem isDigit_iff :
    isDigit byte ↔ 0x30 ≤ byte.toNat ∧ byte.toNat < 0x30 + 10 := by
  rw [isDigit, decide_eq_true_iff, UInt8.le_iff_toNat_le, UInt8.le_iff_toNat_le]
  change 48 ≤ byte.toNat ∧ byte.toNat ≤ 57 ↔ _
  omega

/-- Reading digits gives the number they spell, if it fits 64 bits. -/
theorem parseDigits_eq_some_iff
    {read : Nat} (fits : number < 2 ^ 64) :
    parseDigits number bytes = some read ↔
      IsNumeral 10 bytes ∧ value 10 number bytes = read ∧ read < 2 ^ 64 := by
  induction bytes generalizing number with
  | nil =>
    rw [parseDigits, Option.some_inj]
    constructor
    · intro same
      refine ⟨by simp [IsNumeral], same, ?_⟩
      rwa [← same]
    · rintro ⟨-, same, -⟩
      exact same
  | cons byte bytes ih =>
    have numeral : IsNumeral 10 (byte :: bytes) ↔
        isDigit byte ∧ IsNumeral 10 bytes := by
      rw [isDigit_iff]
      exact forall_mem_cons
    rw [parseDigits, value_cons, numeral]
    by_cases digit : isDigit byte
    case neg => simp [digit]
    rw [if_neg (not_not.mpr digit)]
    by_cases more : number * 10 + (byte.toNat - 0x30) < 2 ^ 64
    · rw [if_pos more, ih more]
      exact ⟨fun ⟨rest, spelled⟩ => ⟨⟨digit, rest⟩, spelled⟩,
        fun ⟨⟨_, rest⟩, spelled⟩ => ⟨rest, spelled⟩⟩
    · -- Digits that follow only make the number larger.
      rw [if_neg more]
      have larger := le_value (by decide : 0 < 10)
        (number * 10 + (byte.toNat - 0x30)) bytes
      constructor
      · intro isNone
        cases isNone
      · rintro ⟨-, spelled, fitsRead⟩
        omega

/-- A size is read from its decimal numeral and from nothing else. -/
theorem parseSize_eq_some_iff :
    parseSize bytes = some size ↔ bytes = render size ∧ size < 2 ^ 64 := by
  have wellFormed : ¬(bytes = [] ∨ (byteAt bytes 0 = 0x30 ∧
      bytes.length > 1)) ↔
      bytes ≠ [] ∧ (bytes.head? = some 0x30 → bytes.length = 1) := by
    cases bytes with
    | nil => simp
    | cons first rest => simp [byteAt]
  rw [parseSize]
  constructor
  · intro isRead
    split_ifs at isRead with malformed
    obtain ⟨notEmpty, leading⟩ := wellFormed.mp malformed
    obtain ⟨isNumeral, rfl, fits⟩ :=
      (parseDigits_eq_some_iff (by decide)).mp isRead
    exact ⟨(Canonical.render_value ⟨isNumeral, notEmpty, leading⟩).symm, fits⟩
  · rintro ⟨rfl, fits⟩
    have canonical := canonical_render size
    rw [if_neg (wellFormed.mpr ⟨canonical.ne_nil, canonical.leading⟩),
      parseDigits_eq_some_iff (by decide)]
    exact ⟨canonical.isNumeral, value_render size, fits⟩

/-- No byte of a numeral is a NUL. -/
theorem nul_not_mem_render (size : Nat) : (0 : UInt8) ∉ render size := by
  intro isNul
  have low := (isNumeral_render size 0 isNul).1
  exact absurd low (by decide)

/-- Parsing gives back what was framed, and accepts nothing else. -/
theorem parse_eq_ok_iff {content : Bytes} :
    parse data = .ok (kind, content) ↔
      data = encode kind content ∧ content.length < 2 ^ 64 := by
  constructor
  · intro isRead
    unfold parse at isRead
    split at isRead
    case h_1 => cases isRead
    case h_2 sp isSp =>
      obtain ⟨name, rest, rfl, -, rfl⟩ := findIdx?_eq_some_iff_field.mp isSp
      rw [take_left, drop_field] at isRead
      split at isRead
      case h_1 => cases isRead
      case h_2 found isKind =>
        dsimp only at isRead
        split at isRead
        case h_1 => cases isRead
        case h_2 nul isNul =>
          obtain ⟨digits, body, rfl, -, rfl⟩ :=
            findIdx?_eq_some_iff_field.mp isNul
          rw [take_left, drop_field] at isRead
          split at isRead
          case h_1 => cases isRead
          case h_2 size isSize =>
            obtain ⟨rfl, fits⟩ := parseSize_eq_some_iff.mp isSize
            split_ifs at isRead with differs
            obtain ⟨rfl, rfl⟩ := Prod.mk.inj (Except.ok.inj isRead)
            rw [not_not.mp differs] at fits ⊢
            exact ⟨by rw [encode, Kind.of_eq_some_iff.mp isKind], fits⟩
  · rintro ⟨rfl, fits⟩
    unfold parse encode
    rw [findIdx?_field kind.space_not_mem_name]
    dsimp only
    rw [take_left, drop_field, Kind.of_eq_some_iff.mpr rfl]
    dsimp only
    rw [findIdx?_field (nul_not_mem_render _)]
    dsimp only
    rw [take_left, drop_field, parseSize_eq_some_iff.mpr ⟨rfl, fits⟩]
    dsimp only
    rw [if_neg (not_not.mpr rfl)]

end AmberStore.Gitobj

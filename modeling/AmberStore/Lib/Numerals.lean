import AmberStore.Lib.ByteString

/-!
# Fields and numerals in text

A text format cuts its fields at a byte that they do not hold, and writes numbers
as digits.  Cutting at the first such byte undoes the writing.  The decimal
numeral of a number is the only one without a leading zero.
-/

open ByteString List

namespace Numerals

/-! ## Fields -/

/-- The first place of a byte cuts off a field without it. -/
theorem findIdx?_eq_some_iff_field
    {bytes : Bytes} :
    bytes.findIdx? (fun byte => byte = stop) = some index ↔
      ∃ field rest, bytes = field ++ stop :: rest ∧ stop ∉ field ∧
        field.length = index := by
  constructor
  · intro found
    obtain ⟨inside, isStop, others⟩ := findIdx?_eq_some_iff_getElem.mp found
    refine ⟨bytes.take index, bytes.drop (index + 1), ?_, ?_,
      length_take_of_le inside.le⟩
    · rw [← of_decide_eq_true isStop, ← drop_eq_getElem_cons inside,
        take_append_drop]
    · intro isBefore
      obtain ⟨before, within, isByte⟩ := mem_take_iff_getElem.mp isBefore
      exact others before (Nat.lt_of_lt_of_le within (Nat.min_le_left _ _))
        (decide_eq_true isByte)
  · rintro ⟨field, rest, rfl, absent, rfl⟩
    have noneBefore : field.findIdx? (fun byte => byte = stop) = none := by
      rw [findIdx?_eq_none_iff]
      intro byte isByte
      exact decide_eq_false fun same => absent (same ▸ isByte)
    rw [findIdx?_append, noneBefore, findIdx?_cons]
    simp

theorem findIdx?_field
    {field : Bytes} (absent : stop ∉ field) (rest : Bytes) :
    (field ++ stop :: rest).findIdx? (fun byte => byte = stop) =
      some field.length :=
  findIdx?_eq_some_iff_field.mpr ⟨field, rest, rfl, absent, rfl⟩

@[simp] theorem drop_field (field : Bytes) (stop : UInt8) (rest : Bytes) :
    (field ++ stop :: rest).drop (field.length + 1) = rest := by
  rw [append_cons]
  exact drop_left' (by simp)

/-! ## Numerals -/

/-- The number that the digits of a base spell after those already read. -/
def value (base number : Nat) (text : Bytes) : Nat :=
  text.foldl (fun number byte => number * base + (byte.toNat - 0x30)) number

theorem value_cons (base number : Nat) (byte : UInt8) (bytes : Bytes) :
    value base number (byte :: bytes) =
      value base (number * base + (byte.toNat - 0x30)) bytes :=
  foldl_cons

/-- Every byte is a digit of the base. -/
def IsNumeral (base : Nat) (text : Bytes) : Prop :=
  ∀ byte ∈ text, 0x30 ≤ byte.toNat ∧ byte.toNat < 0x30 + base

/-- The decimal numeral of a number. -/
def render (number : Nat) : Bytes :=
  (Nat.toDigits 10 number).map fun digit => UInt8.ofNat digit.toNat

@[simp] theorem value_append_singleton
    (base number : Nat) (text : Bytes) (byte : UInt8) :
    value base number (text ++ [byte]) =
      value base number text * base + (byte.toNat - 0x30) := by
  rw [value, foldl_append, value, foldl_cons, foldl_nil]

theorem le_value
    (positive : 0 < base) (number : Nat) (text : Bytes) :
    number ≤ value base number text := by
  induction text generalizing number with
  | nil => exact Nat.le_refl number
  | cons first text ih =>
    calc
      number ≤ number * base := Nat.le_mul_of_pos_right number positive
      _ ≤ number * base + (first.toNat - 0x30) := Nat.le_add_right _ _
      _ ≤ value base number (first :: text) := by
        rw [value_cons]
        exact ih _

/-- Digits before others count for more. -/
theorem value_append (base number : Nat) (front back : Bytes) :
    value base number (front ++ back) =
      value base number front * base ^ back.length + value base 0 back := by
  induction back using List.reverseRecOn with
  | nil => simp [value]
  | append_singleton back byte ih =>
    rw [← append_assoc, value_append_singleton, value_append_singleton,
      ih, length_append, length_singleton,
      Nat.pow_succ, Nat.add_mul, Nat.mul_assoc, Nat.add_assoc]

theorem value_lt
    {text : Bytes} (isNumeral : IsNumeral base text) :
    value base 0 text < base ^ text.length := by
  induction text using List.reverseRecOn with
  | nil => exact Nat.one_pos
  | append_singleton text byte ih =>
    obtain ⟨others, here⟩ := forall_mem_append.mp isNumeral
    have isDigit := here byte mem_cons_self
    have most := Nat.mul_le_mul_right base (ih others)
    rw [Nat.succ_mul] at most
    rw [value_append_singleton, length_append, length_singleton, Nat.pow_succ]
    omega

/-- Digits shifted out on the left leave the rest as it is. -/
theorem value_mod (base number modulus : Nat) (text : Bytes) :
    value base (number % modulus) text % modulus =
      value base number text % modulus := by
  induction text using List.reverseRecOn with
  | nil => exact Nat.mod_mod number modulus
  | append_singleton text byte ih =>
    rw [value_append_singleton, value_append_singleton, Nat.add_mod,
      Nat.mul_mod, ih, ← Nat.mul_mod, ← Nat.add_mod]

/-- The digit of a number below ten. -/
def digit (number : Nat) : UInt8 := UInt8.ofNat (0x30 + number)

theorem toNat_digit (small : number < 10) :
    (digit number).toNat = 0x30 + number := by
  rw [digit, UInt8.toNat_ofNat']
  exact Nat.mod_eq_of_lt (by omega)

theorem render_of_lt (small : number < 10) :
    render number = [digit number] := by
  rw [render, Nat.toDigits_of_lt_base small, map_singleton,
    Nat.toNat_digitChar_of_lt_ten small, digit]

theorem render_of_le (large : 10 ≤ number) :
    render number = render (number / 10) ++ [digit (number % 10)] := by
  rw [render, Nat.toDigits_of_base_le (by decide) large, map_append,
    map_singleton, Nat.toNat_digitChar_of_lt_ten (by omega), digit, render]

theorem isNumeral_render (number : Nat) : IsNumeral 10 (render number) := by
  induction number using Nat.strong_induction_on with
  | _ number ih =>
    have ofDigit {small : Nat} (isSmall : small < 10) :
        IsNumeral 10 [digit small] := by
      intro byte isByte
      rw [mem_singleton.mp isByte, toNat_digit isSmall]
      omega
    by_cases small : number < 10
    · rw [render_of_lt small]
      exact ofDigit small
    · rw [render_of_le (Nat.not_lt.mp small)]
      intro byte isByte
      rcases mem_append.mp isByte with isFirst | isLast
      · exact ih (number / 10) (by omega) byte isFirst
      · exact ofDigit (Nat.mod_lt _ (by decide)) byte isLast

theorem value_render (number : Nat) : value 10 0 (render number) = number := by
  induction number using Nat.strong_induction_on with
  | _ number ih =>
    by_cases small : number < 10
    · rw [render_of_lt small]
      change 0 * 10 + ((digit number).toNat - 0x30) = number
      rw [toNat_digit small]
      omega
    · rw [render_of_le (Nat.not_lt.mp small), value_append_singleton,
        ih (number / 10) (by omega),
        toNat_digit (Nat.mod_lt _ (by decide))]
      omega

/-- A numeral without a leading zero. -/
structure Canonical (text : Bytes) : Prop where
  isNumeral : IsNumeral 10 text
  ne_nil : text ≠ []
  leading : text.head? = some 0x30 → text.length = 1

theorem canonical_render (number : Nat) : Canonical (render number) := by
  induction number using Nat.strong_induction_on with
  | _ number ih =>
    refine ⟨isNumeral_render number, ?_, ?_⟩
    all_goals by_cases small : number < 10
    · rw [render_of_lt small]
      simp
    · rw [render_of_le (Nat.not_lt.mp small)]
      simp
    · rw [render_of_lt small]
      simp
    · -- A zero in front would be all of the number without its last digit.
      have shorter := ih (number / 10) (by omega)
      have spelled := value_render (number / 10)
      obtain ⟨first, others, isShorter⟩ := exists_cons_of_ne_nil shorter.ne_nil
      rw [render_of_le (Nat.not_lt.mp small), isShorter]
      intro isZero
      obtain rfl : first = 0x30 := Option.some.inj isZero
      have single := shorter.leading (by rw [isShorter]; rfl)
      obtain rfl : others = [] := by
        rw [isShorter] at single
        exact length_eq_zero_iff.mp (Nat.succ.inj single)
      rw [isShorter] at spelled
      change 0 = number / 10 at spelled
      omega

/-- The number of a numeral without a leading zero is rendered as it. -/
theorem Canonical.render_value (canonical : Canonical text) :
    render (value 10 0 text) = text := by
  induction text using List.reverseRecOn with
  | nil => exact absurd rfl canonical.ne_nil
  | append_singleton front last ih =>
    obtain ⟨low, high⟩ := canonical.isNumeral last (by simp)
    have isLast : digit (last.toNat - 0x30) = last := by
      rw [digit, Nat.add_sub_cancel' low, UInt8.ofNat_toNat]
    rw [value_append_singleton]
    by_cases single : front = []
    · subst single
      change render (0 * 10 + _) = [last]
      rw [Nat.zero_mul, Nat.zero_add, render_of_lt (by omega), isLast]
    · have notZero : front.head? ≠ some 0x30 := by
        intro isZero
        have long := canonical.leading (by rw [head?_append, isZero]; rfl)
        have positive := length_pos_iff.mpr single
        rw [length_append, length_singleton] at long
        omega
      have isFront : render (value 10 0 front) = front :=
        ih
          ⟨fun byte isByte => canonical.isNumeral byte (by simp [isByte]),
            single, fun isZero => absurd isZero notZero⟩
      have large : 0 < value 10 0 front := by
        by_contra isZero
        rw [Nat.eq_zero_of_not_pos isZero] at isFront
        exact notZero (by rw [← isFront]; rfl)
      rw [render_of_le (by omega)]
      have quotient : (value 10 0 front * 10 + (last.toNat - 0x30)) / 10 =
          value 10 0 front := by
        omega
      have remainder : (value 10 0 front * 10 + (last.toNat - 0x30)) % 10 =
          last.toNat - 0x30 := by
        omega
      rw [quotient, remainder, isFront, isLast]

end Numerals

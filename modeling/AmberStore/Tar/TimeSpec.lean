import AmberStore.Lib.Numerals
import AmberStore.Tar.Time

/-!
# The time that a header carries

The formats say what a header carries: octal digits among blanks, a number in
two's complement behind a mark, or a record of seconds with a fraction.  Each is
stated here as a number, and the readers find that number.  Extracting restores
it as long as its nanoseconds fit 64 bits.
-/

open ByteString List Numerals

namespace AmberStore.Tar

/-! ## The formats -/

/-- A byte that pads an octal field. -/
abbrev IsBlank (c : UInt8) : Prop := c = 0x20 ∨ c = 0

/-- The number in a numeric field: none, octal digits that a blank or a NUL
ends, or the bits behind the mark in two's complement. -/
inductive FieldSpells : Bytes → Int → Prop
  | blank {field : Bytes} (isBlank : ∀ c ∈ field, IsBlank c) :
      FieldSpells field 0
  | octal {front digits back : Bytes} (isFront : ∀ c ∈ front, IsBlank c)
      (present : digits ≠ []) (areDigits : IsNumeral 8 digits)
      (isBack : (∀ c ∈ back, IsBlank c) ∨ back.head? = some 0) :
      FieldSpells (front ++ (digits ++ back)) (value 8 0 digits)
  | base256 {first : UInt8} {rest : Bytes} (marked : 0x80 ≤ first.toNat) :
      FieldSpells (first :: rest)
        ((beNat (first :: rest) : Int).bmod (2 ^ (8 * rest.length + 7)))

/-- The nanoseconds in a PAX time: a sign, seconds, and a fraction of a second
that is cut to nanoseconds. -/
inductive PaxSpells (text : Bytes) (nanos : Int) : Prop
  | mk (sign seconds point fraction : Bytes) (factor : Int)
      (isText : text = sign ++ (seconds ++ point))
      (isSign : (sign, factor) ∈ [([], 1), ([0x2b], 1), ([0x2d], -1)])
      (present : seconds ≠ []) (areSeconds : IsNumeral 10 seconds)
      (isPoint : point = [] ∧ fraction = [] ∨ point = 0x2e :: fraction)
      (areDigits : IsNumeral 10 fraction)
      (isNanos : nanos = factor * (value 10 0 seconds * 10 ^ 9 +
        value 10 0 fraction * 10 ^ 9 / 10 ^ fraction.length : Nat))

/-- The nanoseconds since the epoch that a header carries: those of its record
if it has one that is not empty, and else of its field.  The field is a number
of 64 bits in any case. -/
def TimeFields.Carries (header : TimeFields) (nanos : Int) : Prop :=
  ∃ seconds, FieldSpells header.field seconds ∧
    -2 ^ 63 ≤ seconds ∧ seconds < 2 ^ 63 ∧
    (header.paxRecord.getD [] = [] ∧ nanos = seconds * 10 ^ 9 ∨
      ∃ text, header.paxRecord = some text ∧ PaxSpells text nanos)

/-! ## Octal fields -/

theorem octalDigits_eq
    (areDigits : IsNumeral 8 digits) (fits : value 8 x digits < 2 ^ 64) :
    octalDigits x digits = some (value 8 x digits) := by
  induction digits generalizing x with
  | nil => rfl
  | cons c rest ih =>
    obtain ⟨here, others⟩ := forall_mem_cons.mp areDigits
    rw [value_cons] at fits ⊢
    have least := le_value (by decide : 0 < 8) (x * 8 + (c.toNat - 0x30)) rest
    rw [octalDigits, if_pos, ih others fits]
    exact ⟨UInt8.le_iff_toNat_le.mpr here.1,
      UInt8.le_iff_toNat_le.mpr (Nat.le_of_lt_succ here.2), by omega⟩

theorem not_isBlank_of_isNumeral
    (areDigits : IsNumeral base digits) (isIn : c ∈ digits) : ¬IsBlank c := by
  rintro (rfl | rfl) <;> exact absurd (areDigits _ isIn).1 (by decide)

theorem dropWhile_of_not
    {p : α → Bool} {l : List α} (none : ∀ a ∈ l, ¬p a) :
    l.dropWhile p = l := by
  cases l with
  | nil => rfl
  | cons first rest =>
    exact dropWhile_cons_of_neg (none first mem_cons_self)

theorem dropWhile_of_all
    {p : α → Bool} {l : List α} (all : ∀ a ∈ l, p a) :
    l.dropWhile p = [] := by
  have dropped := @dropWhile_append_of_pos _ p l [] all
  rwa [append_nil] at dropped

/-- What is left of a field without its blanks starts with its digits, and
nothing or a NUL comes after them. -/
theorem trimField_eq
    (isFront : ∀ c ∈ front, IsBlank c) (present : digits ≠ [])
    (areDigits : IsNumeral base digits)
    (isBack : (∀ c ∈ back, IsBlank c) ∨ back.head? = some 0) :
    ∃ kept, trimField (front ++ (digits ++ back)) = digits ++ kept ∧
      (kept = [] ∨ kept.head? = some 0) := by
  let blank : UInt8 → Bool := fun c => IsBlank c
  have notBlank : ∀ c ∈ digits, ¬blank c := fun c isIn isBlank =>
    not_isBlank_of_isNumeral areDigits isIn (of_decide_eq_true isBlank)
  have trimmed : trimField (front ++ (digits ++ back)) =
      digits ++ (back.reverse.dropWhile blank).reverse := by
    change ((List.dropWhile blank _).reverse.dropWhile blank).reverse = _
    rw [dropWhile_append_of_pos
      (fun c isIn => decide_eq_true (isFront c isIn)), dropWhile_append,
      dropWhile_of_not notBlank, if_neg (by simpa using present),
      reverse_append, dropWhile_append]
    split
    case isTrue empty =>
      rw [isEmpty_iff.mp empty, dropWhile_of_not fun c isIn =>
        notBlank c (mem_reverse.mp isIn)]
      simp
    case isFalse => simp
  refine ⟨_, trimmed, ?_⟩
  rcases isBack with isBlank | isNul
  · refine .inl (reverse_eq_nil_iff.mpr ?_)
    exact dropWhile_of_all fun c isIn =>
      decide_eq_true (isBlank c (mem_reverse.mp isIn))
  · obtain ⟨cut, isCut⟩ := dropWhile_suffix (l := back.reverse) blank
    have split := congrArg List.reverse isCut
    rw [reverse_append, reverse_reverse] at split
    cases kept : (back.reverse.dropWhile blank).reverse with
    | nil => exact .inl rfl
    | cons c rest =>
      rw [kept] at split
      rw [← split] at isNul
      exact .inr isNul

theorem parseOctal_digits
    (isFront : ∀ c ∈ front, IsBlank c) (present : digits ≠ [])
    (areDigits : IsNumeral 8 digits)
    (isBack : (∀ c ∈ back, IsBlank c) ∨ back.head? = some 0)
    (fits : value 8 0 digits < 2 ^ 64) :
    parseOctal (front ++ (digits ++ back)) =
      some (Int64.ofNat (value 8 0 digits)) := by
  obtain ⟨kept, trimmed, isKept⟩ :=
    trimField_eq isFront present areDigits isBack
  have isString : parseString (digits ++ kept) = digits := by
    rw [parseString, takeWhile_append_of_pos]
    · rcases isKept with rfl | isNul
      · simp
      · obtain ⟨rest, rfl⟩ := head?_eq_some_iff.mp isNul
        simp
    · intro c isIn
      exact decide_eq_true fun isNul =>
        not_isBlank_of_isNumeral areDigits isIn (.inr isNul)
  rw [parseOctal, trimmed]
  dsimp only
  rw [isString, if_neg (by simp [present]), if_neg present,
    octalDigits_eq areDigits fits]
  rfl

/-! ## Fields in base 256 -/

theorem beNat_cons (first : UInt8) (rest : Bytes) :
    beNat (first :: rest) = first.toNat * 256 ^ rest.length + beNat rest := by
  induction rest using List.reverseRecOn with
  | nil => simp [beNat]
  | append_singleton rest last ih =>
    rw [← cons_append, beNat_append_singleton, ih,
      beNat_append_singleton, length_append, length_singleton,
      Nat.pow_succ, Nat.add_mul, Nat.mul_assoc, Nat.add_assoc]

theorem base256Digits_eq
    (fits : x * 256 ^ bytes.length + beNat bytes < 2 ^ 64) :
    base256Digits x bytes = some (x * 256 ^ bytes.length + beNat bytes) := by
  induction bytes generalizing x with
  | nil => simp [base256Digits]
  | cons c rest ih =>
    have next : (x * 256 + c.toNat) * 256 ^ rest.length + beNat rest =
        x * 256 ^ (c :: rest).length + beNat (c :: rest) := by
      rw [beNat_cons, length_cons, Nat.pow_succ, Nat.add_mul,
        Nat.mul_assoc, Nat.mul_comm 256, Nat.add_assoc]
    have small : x * 256 ≤ x * 256 ^ (c :: rest).length :=
      Nat.mul_le_mul_left x (Nat.le_self_pow (Nat.succ_ne_zero _) 256)
    have isNext : x <<< 8 ||| c.toNat = x * 256 + c.toNat := by
      rw [← Nat.shiftLeft_add_eq_or_of_lt c.toNat_lt, Nat.shiftLeft_eq]
    rw [base256Digits, if_neg, isNext, ih (next ▸ fits), next]
    rw [Nat.shiftRight_eq_div_pow]
    omega

/-- Inverting bytes takes their number from the greatest one. -/
theorem beNat_invert (bytes : Bytes) :
    beNat (bytes.map fun c => c ^^^ 0xff) + beNat bytes + 1 =
      256 ^ bytes.length := by
  have each : ∀ c : UInt8, (c ^^^ 0xff).toNat + c.toNat = 255 :=
    forall_byte (by decide +kernel)
  induction bytes using List.reverseRecOn with
  | nil => rfl
  | append_singleton bytes c ih =>
    have here := each c
    rw [map_append, map_singleton, beNat_append_singleton,
      beNat_append_singleton, length_append, length_singleton,
      Nat.pow_succ, ← ih]
    omega

/-- The bits of a first byte: the mark, the sign and what is left. -/
theorem marked_bits :
    ∀ first : UInt8, 0x80 ≤ first.toNat → first &&& 0x80 ≠ 0 ∧
      (first &&& 0x40 = 0 ∧ ((first ^^^ 0) &&& 0x7f).toNat < 0x40 ∧
          first.toNat = ((first ^^^ 0) &&& 0x7f).toNat + 0x80 ∨
        first &&& 0x40 ≠ 0 ∧ ((first ^^^ 0xff) &&& 0x7f).toNat < 0x40 ∧
          first.toNat + ((first ^^^ 0xff) &&& 0x7f).toNat = 0xff) :=
  forall_byte (by decide +kernel)

theorem base256Digits_cons
    (top : UInt8) (rest : Bytes)
    (fits : top.toNat * 256 ^ rest.length + beNat rest < 2 ^ 63) :
    ∃ x, x = top.toNat * 256 ^ rest.length + beNat rest ∧
      base256Digits 0 (top :: rest) = some x ∧ ¬0 < x >>> 63 := by
  have digits := @base256Digits_eq 0 (top :: rest) (by rw [beNat_cons]; omega)
  rw [Nat.zero_mul, Nat.zero_add, beNat_cons] at digits
  refine ⟨_, rfl, digits, ?_⟩
  rw [Nat.shiftRight_eq_div_pow]
  omega

theorem parseBase256_eq
    (marked : 0x80 ≤ first.toNat)
    (isNumber : number =
      (beNat (first :: rest) : Int).bmod (2 ^ (8 * rest.length + 7)))
    (low : -2 ^ 63 ≤ number) (high : number < 2 ^ 63) :
    parseBase256 first rest = some (Int64.ofInt number) := by
  have modulus : 2 ^ (8 * rest.length + 7) = 256 ^ rest.length * 128 := by
    rw [Nat.pow_add, Nat.pow_mul]
  have size := beNat_lt rest
  rw [beNat_cons, modulus] at isNumber
  unfold parseBase256
  rcases (marked_bits first marked).2 with
    ⟨isPositive, small, isFirst⟩ | ⟨isNegative, small, isFirst⟩
  · simp only [isPositive, ne_eq, not_true_eq_false, if_false]
    generalize ((first ^^^ 0) &&& 0x7f) = top at small isFirst ⊢
    have parts := Nat.mul_le_mul_right (256 ^ rest.length)
      (Nat.le_of_lt_succ small)
    have same : number = (top.toNat * 256 ^ rest.length + beNat rest : Nat) := by
      rw [isNumber, isFirst, Nat.add_mul,
        ← Int.sub_mul_bmod_self_left _ _ 1, Int.bmod_eq_of_le] <;> omega
    obtain ⟨x, isSum, digits, noCarry⟩ := base256Digits_cons top rest (by omega)
    rw [same, ← isSum, Int64.ofInt_eq_ofNat]
    simp [digits, noCarry]
  · simp only [isNegative, ne_eq, not_false_eq_true, if_true]
    generalize ((first ^^^ 0xff) &&& 0x7f) = top at small isFirst ⊢
    have parts := Nat.mul_le_mul_right (256 ^ rest.length)
      (Nat.le_of_lt_succ small)
    have inverted := beNat_invert rest
    generalize isInverse : rest.map (fun c => c ^^^ 0xff) = inverse at inverted ⊢
    have length : inverse.length = rest.length := by simp [← isInverse]
    have whole : first.toNat * 256 ^ rest.length +
        top.toNat * 256 ^ rest.length = 0xff * 256 ^ rest.length := by
      rw [← Nat.add_mul, isFirst]
    have same : number =
        -(top.toNat * 256 ^ rest.length + beNat inverse : Nat) - 1 := by
      rw [isNumber, ← Int.sub_mul_bmod_self_left _ _ 2,
        Int.bmod_eq_of_le] <;> omega
    obtain ⟨x, isSum, digits, noCarry⟩ :=
      base256Digits_cons top inverse (by rw [length]; omega)
    rw [length] at isSum
    rw [digits, ← Int64.toInt_inj.mp
      (show (~~~Int64.ofNat x).toInt = (Int64.ofInt number).toInt from ?_)]
    · simp [noCarry]
    · rw [Int64.toInt_not, Int64.toInt_ofNat_of_lt (by omega),
        Int64.toInt_ofInt_of_le low high, Int.bmod_eq_of_le] <;> omega

/-- The number of a field is read if it fits 64 bits. -/
theorem parseNumeric_of_spells
    (spells : FieldSpells field number)
    (low : -2 ^ 63 ≤ number) (high : number < 2 ^ 63) :
    parseNumeric field = some (Int64.ofInt number) := by
  have unmarked : ∀ c : UInt8, c.toNat < 0x80 → c &&& 0x80 = 0 :=
    forall_byte (by decide +kernel)
  have isOctal {field : Bytes} (small : ∀ c ∈ field.head?, c.toNat < 0x80) :
      parseNumeric field = parseOctal field := by
    cases field with
    | nil => rfl
    | cons first rest =>
      rw [parseNumeric, if_neg (not_not.mpr (unmarked first (small first rfl)))]
  cases spells with
  | blank isBlank =>
    rw [isOctal, parseOctal, trimField]
    · dsimp only
      rw [dropWhile_of_all fun c isIn => decide_eq_true (isBlank c isIn)]
      rfl
    · intro c isFirst
      rcases isBlank c (mem_of_mem_head? isFirst) with rfl | rfl <;> decide
  | @octal front digits back isFront present areDigits isBack =>
    rw [isOctal, parseOctal_digits isFront present areDigits isBack (by omega),
      Int64.ofInt_eq_ofNat]
    intro c isFirst
    cases front with
    | nil =>
      obtain ⟨first, rest, rfl⟩ := exists_cons_of_ne_nil present
      cases isFirst
      exact (areDigits c mem_cons_self).2.trans (by decide)
    | cons first rest =>
      cases isFirst
      rcases isFront c mem_cons_self with rfl | rfl <;> decide
  | @base256 first rest marked =>
    rw [parseNumeric, if_pos (marked_bits first marked).1,
      parseBase256_eq marked rfl low high]

/-! ## Records -/

theorem signedDigits_eq
    (isFactor : factor = 1 ∨ factor = -1) (areDigits : IsNumeral 10 digits)
    (low : -2 ^ 63 ≤ factor * (value 10 number digits : Int))
    (high : factor * (value 10 number digits : Int) < 2 ^ 63) :
    signedDigits factor (factor * number) digits =
      some (factor * value 10 number digits) := by
  induction digits generalizing number with
  | nil => rfl
  | cons c rest ih =>
    obtain ⟨here, others⟩ := forall_mem_cons.mp areDigits
    have least := le_value (by decide : 0 < 10)
      (number * 10 + (c.toNat - 0x30)) rest
    have next : factor * number * 10 + factor * ((c.toNat : Int) - 0x30) =
        factor * (number * 10 + (c.toNat - 0x30) : Nat) := by
      rcases isFactor with rfl | rfl <;> omega
    rw [value_cons] at low high ⊢
    rw [signedDigits, next, if_pos, ih others low high]
    refine ⟨?_, ?_⟩
    · rw [isAsciiDigit, decide_eq_true_iff]
      exact ⟨UInt8.le_iff_toNat_le.mpr here.1,
        UInt8.le_iff_toNat_le.mpr (Nat.le_of_lt_succ here.2)⟩
    · rcases isFactor with rfl | rfl <;> omega

theorem parseI64_eq
    (isSign : (sign, factor) ∈ [([], 1), ([0x2b], 1), ([0x2d], -1)])
    (present : seconds ≠ []) (areSeconds : IsNumeral 10 seconds)
    (low : -2 ^ 63 ≤ factor * (value 10 0 seconds : Int))
    (high : factor * (value 10 0 seconds : Int) < 2 ^ 63) :
    parseI64 (sign ++ seconds) =
      some (Int64.ofInt (factor * value 10 0 seconds)) := by
  have isFactor : factor = 1 ∨ factor = -1 := by
    simp at isSign
    tauto
  have digits := @signedDigits_eq factor seconds 0 isFactor areSeconds low high
  rw [Int.ofNat_zero, Int.mul_zero] at digits
  obtain ⟨first, rest, rfl⟩ := exists_cons_of_ne_nil present
  simp only [mem_cons, Prod.mk.injEq, not_mem_nil, or_false] at isSign
  rcases isSign with ⟨rfl, rfl⟩ | ⟨rfl, rfl⟩ | ⟨rfl, rfl⟩
  · have notSign : ¬(first = 0x2b ∨ first = 0x2d) := by
      rintro (rfl | rfl) <;>
        exact absurd (areSeconds _ mem_cons_self).1 (by decide)
    rw [nil_append, parseI64, if_neg notSign, digits]
    rfl
  · rw [singleton_append, parseI64, if_pos (.inl rfl), if_neg present,
      if_neg (by decide), digits]
    rfl
  · rw [singleton_append, parseI64, if_pos (.inr rfl), if_neg present,
      if_pos rfl, digits]
    rfl

/-- Nine digits of a fraction are its nanoseconds. -/
theorem value_nanoDigits (areDigits : IsNumeral 10 fraction) :
    value 10 0 (nanoDigits fraction) < 10 ^ 9 ∧
      value 10 0 (nanoDigits fraction) =
        value 10 0 fraction * 10 ^ 9 / 10 ^ fraction.length := by
  let padded := fraction ++ List.replicate 9 0x30
  have arePadded : IsNumeral 10 padded :=
    forall_mem_append.mpr ⟨areDigits, by decide +kernel⟩
  have length : (padded.drop 9).length = fraction.length := by simp [padded]
  have rest : value 10 0 (padded.drop 9) < 10 ^ (padded.drop 9).length :=
    value_lt fun c isIn => arePadded c (mem_of_mem_drop isIn)
  have whole : value 10 0 padded = value 10 0 fraction * 10 ^ 9 := by
    rw [value_append, length_replicate,
      show value 10 0 (List.replicate 9 0x30) = 0 by decide, Nat.add_zero]
  have nine := value_lt fun c (isIn : c ∈ nanoDigits fraction) =>
    arePadded c (mem_of_mem_take isIn)
  have isNine : (nanoDigits fraction).length = 9 := by simp [nanoDigits]
  rw [isNine] at nine
  refine ⟨nine, ?_⟩
  rw [← take_append_drop 9 padded, value_append, length] at whole
  rw [length] at rest
  rw [← whole, Nat.add_comm, Nat.add_mul_div_right _ _ (by simp),
    Nat.div_eq_of_lt rest, Nat.zero_add]
  rfl

theorem nanos_unix
    (low : -2 ^ 63 ≤ (seconds * 10 ^ 9 + nanos : Int) / 10 ^ 9)
    (isSeconds : -2 ^ 63 ≤ seconds ∧ seconds < 2 ^ 63)
    (isNanos : -10 ^ 9 < nanos ∧ nanos < 10 ^ 9) :
    (PaxTime.unix (Int64.ofInt seconds) (Int64.ofInt nanos)).nanos =
      seconds * 10 ^ 9 + nanos := by
  have isSec := Int64.toInt_ofInt_of_le isSeconds.1 isSeconds.2
  have isNsec : (Int64.ofInt nanos).toInt = nanos :=
    Int64.toInt_ofInt_of_le (by omega) (by omega)
  have inside : 0 ≤ Int64.ofInt nanos ∧ Int64.ofInt nanos < nanosPerSecond ↔
      0 ≤ nanos := by
    rw [Int64.le_iff_toInt_le, Int64.lt_iff_toInt_lt, isNsec]
    exact and_iff_left isNanos.2
  unfold PaxTime.unix
  by_cases notNegative : 0 ≤ nanos
  · rw [dif_pos (inside.mpr notNegative), PaxTime.nanos]
    dsimp only
    rw [isSec, isNsec]
    omega
  · rw [dif_neg (notNegative ∘ inside.mp)]
    have rest := toInt_rest (Int64.ofInt nanos)
    have parts := Int.mul_tdiv_add_tmod nanos 1000000000
    have above : -1000000000 < nanos.tmod 1000000000 :=
      Int.lt_tmod_of_pos _ (by decide)
    have below : nanos.tmod 1000000000 ≤ 0 := by
      have negated := Int.tmod_nonneg 1000000000 (show 0 ≤ -nanos by omega)
      rw [Int.neg_tmod] at negated
      omega
    have divided : (Int64.ofInt nanos / nanosPerSecond).toInt = 0 := by
      rw [Int64.toInt_div_of_ne_right _ _ (by decide), isNsec]
      change nanos.tdiv 1000000000 = 0
      omega
    have isSum : (Int64.ofInt seconds +
        Int64.ofInt nanos / nanosPerSecond).toInt = seconds := by
      rw [Int64.toInt_add, divided, isSec, Int.add_zero, Int.bmod_eq_of_le] <;>
        omega
    rw [isNsec] at rest
    dsimp only
    rw [dif_pos, PaxTime.nanos]
    · dsimp only
      rw [Int64.toInt_sub, isSum, Int64.toInt_add, rest]
      change (_ - 1 : Int).bmod _ * 1000000000 +
        (((_ + 1000000000 : Int).bmod _).toNat : Int) = _
      rw [Int.bmod_eq_of_le, Int.bmod_eq_of_le] <;> omega
    · rw [Int64.lt_iff_toInt_lt, rest]
      change nanos.tmod 1000000000 < 0
      omega

theorem parsePaxTime_of_spells
    (spells : PaxSpells text nanos)
    (low : -2 ^ 63 ≤ nanos / 10 ^ 9) (high : nanos / 10 ^ 9 < 2 ^ 63) :
    ∃ time, parsePaxTime text = some time ∧ time.nanos = nanos := by
  obtain ⟨sign, seconds, point, fraction, factor, rfl, isSign, present,
    areSeconds, isPoint, areDigits, rfl⟩ := spells
  obtain ⟨small, isNanos⟩ := value_nanoDigits areDigits
  rw [← isNanos] at low high ⊢
  have signs := isSign
  simp only [mem_cons, Prod.mk.injEq, not_mem_nil, or_false] at signs
  have noPoint : ∀ c ∈ sign ++ seconds, decide (c ≠ 0x2e) := by
    intro c isIn
    rw [decide_eq_true_iff]
    rintro rfl
    rcases mem_append.mp isIn with inSign | inSeconds
    · rcases signs with ⟨rfl, -⟩ | ⟨rfl, -⟩ | ⟨rfl, -⟩ <;> simp at inSign
    · exact absurd (areSeconds _ inSeconds).1 (by decide)
  have front : (sign ++ (seconds ++ point)).takeWhile (fun c => c ≠ 0x2e) =
      sign ++ seconds := by
    rw [← append_assoc, takeWhile_append_of_pos noPoint]
    rcases isPoint with ⟨rfl, -⟩ | rfl <;> simp
  have back : ((sign ++ (seconds ++ point)).dropWhile
      (fun c => c ≠ 0x2e)).drop 1 = fraction := by
    rw [← append_assoc, dropWhile_append_of_pos noPoint]
    rcases isPoint with ⟨rfl, rfl⟩ | rfl <;> simp
  have isMinus : (sign ++ seconds).head? = some 0x2d ↔ factor = -1 := by
    obtain ⟨first, rest, rfl⟩ := exists_cons_of_ne_nil present
    have isDigit := (areSeconds first mem_cons_self).1
    rcases signs with ⟨rfl, rfl⟩ | ⟨rfl, rfl⟩ | ⟨rfl, rfl⟩
    · simp only [nil_append, head?_cons, Option.some_inj]
      exact ⟨by rintro rfl; exact absurd isDigit (by decide),
        fun isMinus => absurd isMinus (by decide)⟩
    · simp
    · simp
  generalize isFraction : value 10 0 (nanoDigits fraction) = nsecs at *
  have isFactor : factor = 1 ∨ factor = -1 := by tauto
  have read := parseI64_eq isSign present areSeconds
    (by rcases isFactor with rfl | rfl <;> omega)
    (by rcases isFactor with rfl | rfl <;> omega)
  have parsed : parsePaxTime (sign ++ (seconds ++ point)) =
      some (.unix (Int64.ofInt (factor * value 10 0 seconds))
        (Int64.ofInt (factor * nsecs))) := by
    unfold parsePaxTime
    dsimp only
    rw [front, back, read]
    dsimp only
    by_cases none : fraction = []
    · subst none
      obtain rfl : 0 = nsecs := isFraction
      rw [if_pos rfl, Int.ofNat_zero, Int.mul_zero]
      rfl
    · have areAll : fraction.all isAsciiDigit := by
        rw [all_eq_true]
        intro c isIn
        obtain ⟨least, most⟩ := areDigits c isIn
        exact decide_eq_true ⟨UInt8.le_iff_toNat_le.mpr least,
          UInt8.le_iff_toNat_le.mpr (Nat.le_of_lt_succ most)⟩
      rw [if_neg none, if_neg (not_not.mpr areAll), isFraction]
      rcases isFactor with rfl | rfl
      · rw [if_neg (by rw [isMinus]; decide), Int.one_mul (nsecs : Int),
          Int64.ofInt_eq_ofNat]
      · rw [if_pos (isMinus.mpr rfl), show (-1 : Int) * nsecs = -nsecs by omega,
          Int64.ofInt_neg, Int64.ofInt_eq_ofNat]
  refine ⟨_, parsed, ?_⟩
  rw [nanos_unix]
  all_goals rcases isFactor with rfl | rfl <;> omega

/-! ## What extracting restores -/

/-- The readers find the time that a header carries. -/
theorem modTime_of_carries
    {header : TimeFields} (carried : header.Carries nanos)
    (low : -2 ^ 63 ≤ nanos / 10 ^ 9) (high : nanos / 10 ^ 9 < 2 ^ 63) :
    ∃ time, header.modTime = some time ∧ time.nanos = nanos := by
  obtain ⟨seconds, spells, notBelow, notAbove, rest⟩ := carried
  rw [TimeFields.modTime, parseNumeric_of_spells spells notBelow notAbove]
  dsimp only
  rcases rest with ⟨noRecord, rfl⟩ | ⟨text, isRecord, spells⟩
  · have unix := @nanos_unix seconds 0 (by omega) (by omega) (by decide)
    rw [Int.add_zero] at unix
    refine ⟨_, ?_, unix⟩
    split
    · rfl
    · rfl
    · rename_i text notEmpty isRecord
      rw [isRecord] at noRecord
      exact absurd noRecord notEmpty
  · obtain ⟨time, parsed, isNanos⟩ := parsePaxTime_of_spells spells low high
    refine ⟨time, ?_, isNanos⟩
    rw [isRecord]
    split
    · contradiction
    · rename_i isEmpty
      cases isEmpty
      cases parsed
    · rename_i isText
      cases isText
      exact parsed

/-- The time a header carries is the time its member gets exactly when its
nanoseconds since the epoch fit 64 bits. -/
theorem restored_eq_timespecOf_iff
    (header : TimeFields) (nanos : Int) (carried : header.Carries nanos)
    (low : -2 ^ 63 ≤ nanos / 10 ^ 9) (high : nanos / 10 ^ 9 < 2 ^ 63) :
    header.restored = some (timespecOf nanos) ↔
      -2 ^ 63 ≤ nanos ∧ nanos < 2 ^ 63 := by
  obtain ⟨time, isRead, rfl⟩ := modTime_of_carries carried low high
  rw [TimeFields.restored, isRead, Option.map_some, Option.some_inj]
  exact setMtime_unixNanos_iff low high

/-- A header with a PAX record for its time, and zero in its field. -/
def paxHeader (text : String) : TimeFields :=
  ⟨List.replicate 11 0x30 ++ [0], some (utf8 text)⟩

theorem carries_paxHeader
    (spells : PaxSpells (utf8 text) nanos) : (paxHeader text).Carries nanos :=
  ⟨0, @FieldSpells.octal [] (List.replicate 11 0x30) [0] (by simp) (by decide)
    (by unfold IsNumeral; decide +kernel) (.inr rfl), by decide, by decide,
    .inr ⟨_, rfl, spells⟩⟩

/-- Half a second before the epoch is restored. -/
theorem restored_eq_timespecOf_iff_half :
    (paxHeader "-0.5").Carries (-500000000) ∧
      (paxHeader "-0.5").restored = some (timespecOf (-500000000)) := by
  have carried : (paxHeader "-0.5").Carries (-500000000) :=
    carries_paxHeader ⟨[0x2d], [0x30], [0x2e, 0x35], [0x35], -1, by decide,
      by decide, by decide, by unfold IsNumeral; decide +kernel, by decide,
      by unfold IsNumeral; decide +kernel, by decide⟩
  exact ⟨carried, (restored_eq_timespecOf_iff _ _ carried (by decide)
    (by decide)).mpr (by decide)⟩

/-- The first second past the count is carried by a record and by a field in
base 256, and comes out in the year 1677. -/
theorem restored_wraps :
    let field : TimeFields :=
      ⟨[0x80, 0, 0, 0, 0, 0, 0, 0x02, 0x25, 0xc1, 0x7d, 0x05], none⟩
    let nanos : Int := 9223372037 * 10 ^ 9
    (paxHeader "9223372037").Carries nanos ∧ field.Carries nanos ∧
      (paxHeader "9223372037").restored = field.restored ∧
      field.restored = some ⟨-9223372037, 290448384⟩ ∧
      field.restored ≠ some (timespecOf nanos) := by
  refine ⟨carries_paxHeader ⟨[], utf8 "9223372037", [], [], 1, by decide,
      by decide, by decide, by unfold IsNumeral; decide +kernel, by decide,
      by unfold IsNumeral; decide +kernel, by decide⟩,
    ⟨9223372037, ?_, by decide, by decide, .inl ⟨rfl, rfl⟩⟩, by decide⟩
  convert FieldSpells.base256 _
  · decide +kernel
  · decide

end AmberStore.Tar

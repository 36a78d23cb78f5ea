import AmberStore.Amberignore.Fmatch

/-!
# Decoding characters

The decoder reads a character exactly where the standard encoding of one stands.
-/

open ByteString List

namespace AmberStore.Amberignore

/-- Shifting bits in is adding them. -/
theorem shiftLeft_or (high : Nat) (small : low < 64) :
    high <<< 6 ||| low = high * 64 + low := by
  rw [← Nat.shiftLeft_add_eq_or_of_lt (show low < 2 ^ 6 from small),
    Nat.shiftLeft_eq]

theorem sixBits_eq (byte : UInt8) : sixBits byte = byte.toNat % 64 := by
  rw [sixBits, UInt8.toNat_and]
  exact Nat.and_two_pow_sub_one_eq_mod byte.toNat 6

theorem sixBits_lt (byte : UInt8) : sixBits byte < 64 := by
  rw [sixBits_eq]
  exact Nat.mod_lt _ (by decide)

theorem two_bytes (b0 b1 : UInt8) :
    (b0 &&& 0x1f).toNat <<< 6 ||| sixBits b1 =
      b0.toNat % 32 * 64 + b1.toNat % 64 := by
  rw [shiftLeft_or _ (sixBits_lt b1), sixBits_eq, UInt8.toNat_and]
  rw [show (0x1f : UInt8).toNat = 2 ^ 5 - 1 from rfl,
    Nat.and_two_pow_sub_one_eq_mod]

theorem three_bytes (b0 b1 b2 : UInt8) :
    (b0 &&& 0x0f).toNat <<< 12 ||| sixBits b1 <<< 6 ||| sixBits b2 =
      (b0.toNat % 16 * 64 + b1.toNat % 64) * 64 + b2.toNat % 64 := by
  rw [show (b0 &&& 0x0f).toNat <<< 12 = (b0 &&& 0x0f).toNat <<< 6 <<< 6 from
      Nat.shiftLeft_add _ 6 6, ← Nat.shiftLeft_or_distrib,
    shiftLeft_or _ (sixBits_lt b2), shiftLeft_or _ (sixBits_lt b1),
    sixBits_eq, sixBits_eq, UInt8.toNat_and,
    show (0x0f : UInt8).toNat = 2 ^ 4 - 1 from rfl,
    Nat.and_two_pow_sub_one_eq_mod]

theorem four_bytes (b0 b1 b2 b3 : UInt8) :
    (b0 &&& 0x07).toNat <<< 18 ||| sixBits b1 <<< 12 ||| sixBits b2 <<< 6 |||
        sixBits b3 =
      ((b0.toNat % 8 * 64 + b1.toNat % 64) * 64 + b2.toNat % 64) * 64 +
        b3.toNat % 64 := by
  rw [show (b0 &&& 0x07).toNat <<< 18 =
      (b0 &&& 0x07).toNat <<< 6 <<< 6 <<< 6 by
        rw [← Nat.shiftLeft_add, ← Nat.shiftLeft_add],
    show sixBits b1 <<< 12 = sixBits b1 <<< 6 <<< 6 from
      Nat.shiftLeft_add _ 6 6, ← Nat.shiftLeft_or_distrib,
    ← Nat.shiftLeft_or_distrib, ← Nat.shiftLeft_or_distrib,
    shiftLeft_or _ (sixBits_lt b3), shiftLeft_or _ (sixBits_lt b2),
    shiftLeft_or _ (sixBits_lt b1), sixBits_eq, sixBits_eq, sixBits_eq,
    UInt8.toNat_and, show (0x07 : UInt8).toNat = 2 ^ 3 - 1 from rfl,
    Nat.and_two_pow_sub_one_eq_mod]

/-- What a leading byte asks for, over numbers. -/
theorem leadingByte_eq (b0 : UInt8) :
    leadingByte b0 =
      if 0xc2 ≤ b0.toNat ∧ b0.toNat ≤ 0xdf then some (2, 0x80, 0xbf)
      else if b0.toNat = 0xe0 then some (3, 0xa0, 0xbf)
      else if (0xe1 ≤ b0.toNat ∧ b0.toNat ≤ 0xec) ∨
          (0xee ≤ b0.toNat ∧ b0.toNat ≤ 0xef) then some (3, 0x80, 0xbf)
      else if b0.toNat = 0xed then some (3, 0x80, 0x9f)
      else if b0.toNat = 0xf0 then some (4, 0x90, 0xbf)
      else if 0xf1 ≤ b0.toNat ∧ b0.toNat ≤ 0xf3 then some (4, 0x80, 0xbf)
      else if b0.toNat = 0xf4 then some (4, 0x80, 0x8f)
      else none := by
  simp only [leadingByte, UInt8.le_iff_toNat_le, ← UInt8.toNat_inj]
  rfl

theorem decodeRune_cons (b0 : UInt8) (rest : Bytes) :
    decodeRune (b0 :: rest) =
      if b0.toNat < 0x80 then (b0.toNat, 1)
      else
        match leadingByte b0 with
        | none => (runeError, 1)
        | some (size, lo, hi) =>
          if rest.length + 1 < size then (runeError, 1)
          else if ¬(lo.toNat ≤ (byteAt rest 0).toNat ∧
              (byteAt rest 0).toNat ≤ hi.toNat) then (runeError, 1)
          else if size = 2 then
            (b0.toNat % 32 * 64 + (byteAt rest 0).toNat % 64, 2)
          else if ¬(0x80 ≤ (byteAt rest 1).toNat ∧
              (byteAt rest 1).toNat ≤ 0xbf) then (runeError, 1)
          else if size = 3 then
            ((b0.toNat % 16 * 64 + (byteAt rest 0).toNat % 64) * 64 +
              (byteAt rest 1).toNat % 64, 3)
          else if ¬(0x80 ≤ (byteAt rest 2).toNat ∧
              (byteAt rest 2).toNat ≤ 0xbf) then (runeError, 1)
          else
            (((b0.toNat % 8 * 64 + (byteAt rest 0).toNat % 64) * 64 +
              (byteAt rest 1).toNat % 64) * 64 +
                (byteAt rest 2).toNat % 64, 4) := by
  rw [decodeRune]
  simp only [UInt8.lt_iff_toNat_lt, UInt8.le_iff_toNat_le, two_bytes,
    three_bytes, four_bytes, length_cons]
  rfl

/-- A code point. -/
def IsScalar (v : Nat) : Prop := v < 0xd800 ∨ (0xdfff < v ∧ v < 0x110000)

theorem toNat_isScalar (c : Char) : IsScalar c.toNat := c.valid

theorem exists_char (scalar : IsScalar v) :
    ∃ c : Char, c.toNat = v :=
  ⟨Char.ofNatAux v scalar, rfl⟩

/-- What a longer encoding starts with. -/
theorem exists_leadingByte
    (scalar : IsScalar v)
    (isLong : (0x7ff < v ∧ v ≤ 0xffff ∧ n0 = v / 4096 % 16 + 224 ∧
        n1 = v / 64 % 64 + 128) ∨
      (0xffff < v ∧ n0 = v / 262144 % 8 + 240 ∧ n1 = v / 4096 % 64 + 128)) :
    ∃ lo hi, leadingByte (UInt8.ofNat n0) =
        some (if v ≤ 0xffff then 3 else 4, lo, hi) ∧
      UInt8.toNat lo ≤ n1 ∧ n1 ≤ UInt8.toNat hi := by
  unfold IsScalar at scalar
  have isByte : (UInt8.ofNat n0).toNat = n0 := by
    rw [UInt8.toNat_ofNat']
    omega
  rw [leadingByte_eq, isByte]
  rcases isLong with ⟨lower, upper, rfl, rfl⟩ | ⟨lower, rfl, rfl⟩
  · rw [if_pos upper]
    split_ifs
    all_goals first
      | omega
      | refine ⟨_, _, rfl, ?_, ?_⟩ <;> simp only [UInt8.reduceToNat] <;> omega
  · rw [if_neg (by omega)]
    split_ifs
    all_goals first
      | omega
      | refine ⟨_, _, rfl, ?_, ?_⟩ <;> simp only [UInt8.reduceToNat] <;> omega

/-- The character at the start of its encoding. -/
theorem decodeRune_encode (c : Char) (rest : Bytes) :
    decodeRune (String.utf8EncodeChar c ++ rest) =
      (c.toNat, (String.utf8EncodeChar c).length) := by
  have scalar := toNat_isScalar c
  rw [String.utf8EncodeChar, show c.val.toNat = c.toNat from rfl]
  generalize c.toNat = v at *
  split_ifs
  · rw [singleton_append, decodeRune_cons, UInt8.toNat_ofNat',
      if_pos (by omega), length_singleton, Nat.mod_eq_of_lt (by omega)]
  · rw [cons_append, singleton_append, decodeRune_cons, leadingByte_eq]
    simp only [UInt8.toNat_ofNat', byteAt, getD_cons_zero]
    rw [if_neg (by omega), if_pos (by omega)]
    dsimp only
    rw [if_neg (by simp), if_neg (by simp only [UInt8.reduceToNat]; omega),
      if_pos rfl]
    simp
    omega
  · obtain ⟨lo, hi, leading, lower, upper⟩ :=
      exists_leadingByte scalar (.inl ⟨by omega, by omega, rfl, rfl⟩)
    rw [if_pos (by omega)] at leading
    rw [cons_append, cons_append, singleton_append, decodeRune_cons, leading]
    simp only [UInt8.toNat_ofNat', byteAt, getD_cons_zero, getD_cons_succ]
    rw [if_neg (by omega), if_neg (by simp),
      if_neg (by rw [Nat.mod_eq_of_lt (by omega)]; omega), if_neg (by decide),
      if_neg (by omega), if_pos trivial]
    simp
    omega
  · obtain ⟨lo, hi, leading, lower, upper⟩ :=
      exists_leadingByte scalar (.inr ⟨by omega, rfl, rfl⟩)
    rw [if_neg (by omega)] at leading
    unfold IsScalar at scalar
    rw [cons_append, cons_append, cons_append,
      singleton_append, decodeRune_cons, leading]
    simp only [UInt8.toNat_ofNat', byteAt, getD_cons_zero, getD_cons_succ]
    rw [if_neg (by omega), if_neg (by simp),
      if_neg (by rw [Nat.mod_eq_of_lt (by omega)]; omega), if_neg (by decide),
      if_neg (by omega), if_neg (by decide), if_neg (by omega)]
    simp
    omega

theorem leadingByte_cases
    (leading : leadingByte b0 = some (size, lo, hi)) :
    (size = 2 ∧ 0xc2 ≤ b0.toNat ∧ b0.toNat ≤ 0xdf ∧ lo.toNat = 0x80 ∧
      hi.toNat = 0xbf) ∨
    (size = 3 ∧ 0xe0 ≤ b0.toNat ∧ b0.toNat ≤ 0xef ∧ 0x80 ≤ lo.toNat ∧
      hi.toNat ≤ 0xbf ∧ (b0.toNat = 0xe0 → 0xa0 ≤ lo.toNat) ∧
      (b0.toNat = 0xed → hi.toNat ≤ 0x9f)) ∨
    (size = 4 ∧ 0xf0 ≤ b0.toNat ∧ b0.toNat ≤ 0xf4 ∧ 0x80 ≤ lo.toNat ∧
      hi.toNat ≤ 0xbf ∧ (b0.toNat = 0xf0 → 0x90 ≤ lo.toNat) ∧
      (b0.toNat = 0xf4 → hi.toNat ≤ 0x8f)) := by
  rw [leadingByte_eq] at leading
  split_ifs at leading
  all_goals
    cases leading
    simp
    try omega

theorem exists_encode_append
    (s : Bytes) {v : Nat} (scalar : IsScalar v)
    (isCode : bytes.map UInt8.toNat =
      if v ≤ 0x7f then [v]
      else if v ≤ 0x7ff then [v / 64 % 32 + 192, v % 64 + 128]
      else if v ≤ 0xffff then
        [v / 4096 % 16 + 224, v / 64 % 64 + 128, v % 64 + 128]
      else
        [v / 262144 % 8 + 240, v / 4096 % 64 + 128, v / 64 % 64 + 128,
          v % 64 + 128]) :
    ∃ (c : Char) (rest : Bytes),
      bytes ++ s = String.utf8EncodeChar c ++ rest := by
  obtain ⟨c, isChar⟩ := exists_char scalar
  refine ⟨c, s, congrArg (· ++ s) ?_⟩
  have bytesOf : bytes = (bytes.map UInt8.toNat).map UInt8.ofNat := by
    rw [map_map, show UInt8.ofNat ∘ UInt8.toNat = id from
      funext fun byte => UInt8.ofNat_toNat, map_id]
  rw [bytesOf, isCode, String.utf8EncodeChar,
    show c.val.toNat = c.toNat from rfl, isChar]
  split_ifs <;> rfl

/-- What is checked of the bytes after a leading byte. -/
theorem continues_of_decodeRune
    (isLong : ¬b0.toNat < 0x80)
    (isRune : ¬((decodeRune (b0 :: s)).1 = runeError ∧
      (decodeRune (b0 :: s)).2 = 1)) :
    ∃ size lo hi, leadingByte b0 = some (size, lo, hi) ∧
      size ≤ s.length + 1 ∧
      (lo.toNat ≤ (byteAt s 0).toNat ∧ (byteAt s 0).toNat ≤ hi.toNat) ∧
      (size = 2 ∨ (0x80 ≤ (byteAt s 1).toNat ∧ (byteAt s 1).toNat ≤ 0xbf)) ∧
      (size = 2 ∨ size = 3 ∨
        (0x80 ≤ (byteAt s 2).toNat ∧ (byteAt s 2).toNat ≤ 0xbf)) := by
  rw [decodeRune_cons, if_neg isLong] at isRune
  cases leading : leadingByte b0 with
  | none =>
    rw [leading] at isRune
    exact (isRune ⟨rfl, rfl⟩).elim
  | some sequence =>
    obtain ⟨size, lo, hi⟩ := sequence
    rw [leading] at isRune
    dsimp only at isRune
    refine ⟨size, lo, hi, rfl, ?_⟩
    split_ifs at isRune with short second isTwo third isThree fourth
    all_goals first
      | exact (isRune ⟨rfl, rfl⟩).elim
      | exact ⟨by omega, by omega, by omega, by omega⟩

/-- Where a character is decoded, its encoding stands. -/
theorem exists_encode_of_decodeRune
    (present : s ≠ [])
    (isRune : ¬((decodeRune s).1 = runeError ∧ (decodeRune s).2 = 1)) :
    ∃ (c : Char) (rest : Bytes), s = String.utf8EncodeChar c ++ rest := by
  obtain ⟨b0, s, rfl⟩ := exists_cons_of_ne_nil present
  by_cases isAscii : b0.toNat < 0x80
  · exact @exists_encode_append [b0] s b0.toNat (.inl (by omega))
      (by rw [if_pos (by omega)]; rfl)
  · obtain ⟨size, lo, hi, leading, enough, second, third, fourth⟩ :=
      continues_of_decodeRune isAscii isRune
    clear isRune
    obtain ⟨b1, s, rfl⟩ := exists_cons_of_length_pos
      (show 0 < s.length by rcases leadingByte_cases leading <;> omega)
    change lo.toNat ≤ b1.toNat ∧ b1.toNat ≤ hi.toNat at second
    rw [length_cons] at enough
    rcases leadingByte_cases leading with
      ⟨rfl, b0Lower, b0Upper, loIs, hiIs⟩ |
      ⟨rfl, b0Lower, b0Upper, loIs, hiIs, e0, ed⟩ |
      ⟨rfl, b0Lower, b0Upper, loIs, hiIs, f0, f4⟩
    · exact @exists_encode_append [b0, b1] s
        (b0.toNat % 32 * 64 + b1.toNat % 64) (.inl (by omega)) (by
          rw [if_neg (by omega), if_pos (by omega)]
          simp only [map_cons, map_nil, List.cons.injEq, and_true]
          omega)
    · obtain ⟨b2, s, rfl⟩ := exists_cons_of_length_pos
        (show 0 < s.length by omega)
      have third := third.resolve_left (by decide)
      change _ ≤ b2.toNat ∧ b2.toNat ≤ _ at third
      exact @exists_encode_append [b0, b1, b2] s
        ((b0.toNat % 16 * 64 + b1.toNat % 64) * 64 + b2.toNat % 64)
        (by unfold IsScalar; omega) (by
          rw [if_neg (by omega), if_neg (by omega), if_pos (by omega)]
          simp only [map_cons, map_nil, List.cons.injEq, and_true]
          omega)
    · obtain ⟨b2, s, rfl⟩ := exists_cons_of_length_pos
        (show 0 < s.length by omega)
      rw [length_cons] at enough
      obtain ⟨b3, s, rfl⟩ := exists_cons_of_length_pos
        (show 0 < s.length by omega)
      have third := third.resolve_left (by decide)
      have fourth := (fourth.resolve_left (by decide)).resolve_left (by decide)
      change _ ≤ b2.toNat ∧ b2.toNat ≤ _ at third
      change _ ≤ b3.toNat ∧ b3.toNat ≤ _ at fourth
      exact @exists_encode_append [b0, b1, b2, b3] s
        (((b0.toNat % 8 * 64 + b1.toNat % 64) * 64 + b2.toNat % 64) * 64 +
          b3.toNat % 64)
        (by unfold IsScalar; omega) (by
          rw [if_neg (by omega), if_neg (by omega), if_neg (by omega)]
          simp only [map_cons, map_nil, List.cons.injEq, and_true]
          omega)

/-! ## Encodings -/

theorem encode_ne_nil (c : Char) : String.utf8EncodeChar c ≠ [] := by
  unfold String.utf8EncodeChar
  dsimp only
  split_ifs <;> exact cons_ne_nil _ _

/-- What is decoded at an encoding is not an error. -/
theorem encode_isRune (c : Char) (rest : Bytes) :
    ¬((decodeRune (String.utf8EncodeChar c ++ rest)).1 = runeError ∧
      (decodeRune (String.utf8EncodeChar c ++ rest)).2 = 1) := by
  rw [decodeRune_encode, String.utf8EncodeChar,
    show c.val.toNat = c.toNat from rfl]
  split_ifs
  · rintro ⟨isError, -⟩
    change c.toNat = 0xfffd at isError
    omega
  all_goals
    rintro ⟨-, isOne⟩
    cases isOne

/-- An encoding that starts with an ASCII byte is that byte. -/
theorem encode_of_ascii
    (isAscii : byte.toNat < 0x80)
    (starts : String.utf8EncodeChar c = byte :: rest) :
    c.toNat = byte.toNat ∧ rest = [] := by
  have decoded := decodeRune_encode c []
  rw [starts, append_nil, decodeRune_cons, if_pos isAscii] at decoded
  obtain ⟨isByte, isOne⟩ := Prod.mk.inj decoded
  exact ⟨isByte.symm, length_eq_zero_iff.mp (Nat.succ.inj isOne).symm⟩

/-- An encoding is one ASCII byte, or has none. -/
theorem encode_ascii_or_high (c : Char) :
    (∃ byte, String.utf8EncodeChar c = [byte]) ∨
      ∀ byte ∈ String.utf8EncodeChar c, 0x80 ≤ byte.toNat := by
  have scalar := toNat_isScalar c
  unfold IsScalar at scalar
  rw [String.utf8EncodeChar, show c.val.toNat = c.toNat from rfl]
  split_ifs
  · exact .inl ⟨_, rfl⟩
  all_goals
    right
    intro byte isMember
    simp only [mem_cons, not_mem_nil, or_false] at isMember
    rcases isMember with rfl | rfl | rfl | rfl <;>
      rw [UInt8.toNat_ofNat'] <;> omega

end AmberStore.Amberignore

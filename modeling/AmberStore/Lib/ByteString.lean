import Mathlib.Data.List.GetD
import Mathlib.Data.List.Induction
import Mathlib.Tactic.Ring

/-!
# Byte strings

Slices of byte lists and big-endian integers.  Every fixed binary layout of
the development is read through `slice`, `byteAt` and `readBe` and written
through `beBytes`, so the lemmas here are what relates a writer to a reader.
-/

open List hiding length

namespace ByteString

/-- A byte string. -/
abbrev Bytes := List UInt8

/-! ## Slices -/

/-- The bytes of the half-open range `[start, stop)`. -/
def slice (bytes : Bytes) (start stop : Nat) : Bytes :=
  (bytes.drop start).take (stop - start)

/-- The byte at an offset, zero past the end. -/
def byteAt (bytes : Bytes) (offset : Nat) : UInt8 :=
  bytes.getD offset 0

theorem slice_length
    (bytes : Bytes) (start stop : Nat) :
    (slice bytes start stop).length =
      min (stop - start) (bytes.length - start) := by
  simp [slice]

theorem slice_length_of_le
    (bytes : Bytes) (start : Nat)
    (inRange : stop ≤ bytes.length) :
    (slice bytes start stop).length = stop - start := by
  rw [slice_length]
  omega

theorem slice_append_left
    (left right : Bytes) (start : Nat)
    (inLeft : stop ≤ left.length) :
    slice (left ++ right) start stop = slice left start stop := by
  unfold slice
  rw [drop_append]
  apply take_append_of_le_length
  rw [length_drop]
  omega

theorem slice_append_right
    (left right : Bytes) (stop : Nat)
    (pastLeft : left.length ≤ start) :
    slice (left ++ right) start stop =
      slice right (start - left.length) (stop - left.length) := by
  unfold slice
  rw [drop_append, drop_eq_nil_of_le pastLeft, nil_append]
  congr 1
  omega

theorem slice_self
    (bytes : Bytes)
    (whole : bytes.length ≤ stop) :
    slice bytes 0 stop = bytes := by
  simpa [slice] using take_of_length_le whole

@[simp] theorem slice_zero (bytes : Bytes) (stop : Nat) :
    slice bytes 0 stop = bytes.take stop := by
  simp [slice]

theorem byteAt_append_left
    (left right : Bytes)
    (inLeft : offset < left.length) :
    byteAt (left ++ right) offset = byteAt left offset := by
  unfold byteAt
  exact getD_append left right 0 offset inLeft

theorem byteAt_append_right
    (left right : Bytes)
    (pastLeft : left.length ≤ offset) :
    byteAt (left ++ right) offset = byteAt right (offset - left.length) := by
  unfold byteAt
  exact getD_append_right left right 0 offset pastLeft

theorem byteAt_drop
    (bytes : Bytes) (start offset : Nat) :
    byteAt (bytes.drop start) offset = byteAt bytes (start + offset) := by
  simp [byteAt, getD_eq_getElem?_getD, getElem?_drop]

theorem slice_drop
    (bytes : Bytes) (base start stop : Nat) :
    slice (bytes.drop base) start stop =
      slice bytes (base + start) (base + stop) := by
  unfold slice
  rw [drop_drop]
  congr 1
  omega

theorem slice_take
    (bytes : Bytes) (start : Nat)
    (within : stop ≤ length) :
    slice (bytes.take length) start stop = slice bytes start stop := by
  unfold slice
  rw [drop_take, take_take]
  congr 1
  omega

theorem byteAt_take
    (bytes : Bytes)
    (within : offset < length) :
    byteAt (bytes.take length) offset = byteAt bytes offset := by
  simp [byteAt, getD_eq_getElem?_getD, within]

theorem drop_slice
    (bytes : Bytes) (start stop count : Nat) :
    (slice bytes start stop).drop count = slice bytes (start + count) stop := by
  unfold slice
  rw [drop_take, drop_drop, Nat.sub_sub]

/-- Adjacent slices join. -/
theorem slice_append_slice
    (bytes : Bytes)
    (startLe : start ≤ middle) (middleLe : middle ≤ stop) :
    slice bytes start middle ++ slice bytes middle stop =
      slice bytes start stop := by
  unfold slice
  have atMiddle : bytes.drop middle =
      (bytes.drop start).drop (middle - start) := by
    rw [drop_drop, Nat.add_sub_cancel' startLe]
  have total : stop - start = (middle - start) + (stop - middle) := by
    omega
  rw [atMiddle, total, take_add]

/-- One byte is a slice of length one. -/
theorem singleton_byteAt
    (bytes : Bytes)
    (inRange : offset < bytes.length) :
    [byteAt bytes offset] = slice bytes offset (offset + 1) := by
  unfold slice byteAt
  rw [List.drop_eq_getElem_cons inRange, Nat.add_sub_cancel_left,
    getD_eq_getElem _ _ inRange]
  rfl

/-- A part of a byte string is the slice between what lies before it and what
lies after it. -/
theorem slice_field
    (before field after : Bytes)
    (startsHere : before.length = start)
    (endsHere : start + field.length = stop) :
    slice (before ++ (field ++ after)) start stop = field := by
  subst startsHere
  subst endsHere
  rw [slice_append_right _ _ _ (Nat.le_refl _), Nat.sub_self,
    Nat.add_sub_cancel_left, slice_append_left _ _ _ (Nat.le_refl _),
    slice_self _ (Nat.le_refl _)]

/-- A byte is read back at the length of what lies before it. -/
theorem byteAt_field
    (before : Bytes) (byte : UInt8) (after : Bytes)
    (isHere : before.length = offset) :
    byteAt (before ++ byte :: after) offset = byte := by
  subst isHere
  rw [byteAt_append_right _ _ (Nat.le_refl _), Nat.sub_self]
  rfl

/-! ## Writing at an offset -/

/-- A file with some bytes overwritten, and longer where they reach past its
end. -/
def writeAt (file : Bytes) (offset : Nat) (bytes : Bytes) : Bytes :=
  file.take offset ++ (bytes ++ file.drop (offset + bytes.length))

/-- Writing behind a kept part replaces the start of what follows it. -/
theorem writeAt_append
    (kept rest bytes : Bytes) :
    writeAt (kept ++ rest) kept.length bytes =
      kept ++ (bytes ++ rest.drop bytes.length) := by
  unfold writeAt
  rw [take_left, drop_append, drop_eq_nil_of_le (Nat.le_add_right _ _),
    nil_append, Nat.add_sub_cancel_left]

/-! ## Chunks in sequence -/

variable {chunks : List Bytes}

/-- A chunk is the slice between the chunks before it and those after it. -/
theorem slice_flatten
    (rest : Bytes) {index start stop : Nat}
    {chunk : Bytes} (here : chunks[index]? = some chunk)
    (startsHere : (chunks.take index).flatten.length = start)
    (endsHere : start + chunk.length = stop) :
    slice (chunks.flatten ++ rest) start stop = chunk := by
  obtain ⟨inside, same⟩ := List.getElem?_eq_some_iff.mp here
  have split : chunks.flatten ++ rest = (chunks.take index).flatten ++
      (chunk ++ ((chunks.drop (index + 1)).flatten ++ rest)) := by
    conv_lhs => rw [← List.take_append_drop index chunks,
      List.drop_eq_getElem_cons inside, same]
    simp only [List.flatten_append, List.flatten_cons, List.append_assoc]
  rw [split]
  exact slice_field _ _ _ startsHere endsHere

theorem byteAt_flatten
    (rest : Bytes) {index offset : Nat}
    {byte : UInt8} (here : chunks[index]? = some [byte])
    (startsHere : (chunks.take index).flatten.length = offset) :
    byteAt (chunks.flatten ++ rest) offset = byte := by
  have chunk := slice_flatten rest here startsHere rfl
  have value := congrArg (fun bytes => byteAt bytes 0) chunk
  simpa [slice, byteAt] using value

/-! ## Rows of one width -/

section Rows

variable (row : α → Bytes) {width : Nat}

/-- A beginning of two pieces lies within the first or contains it. -/
theorem cut_or_whole
    (split : beginning ++ missing = first ++ second) :
    (∃ cut, cut ≠ [] ∧ beginning ++ cut = first) ∨
      ∃ rest, beginning = first ++ rest ∧ rest ++ missing = second := by
  obtain ⟨cut, rfl, rfl⟩ | ⟨rest, rfl, rfl⟩ := append_eq_append_iff.mp split
  · by_cases cutEmpty : cut = []
    · subst cutEmpty
      exact Or.inr ⟨[], by simp⟩
    · exact Or.inl ⟨cut, cutEmpty, rfl⟩
  · exact Or.inr ⟨rest, rfl, rfl⟩

theorem flatMap_length
    (sized : ∀ item, (row item).length = width) (items : List α) :
    (items.flatMap row).length = items.length * width := by
  induction items with
  | nil => simp
  | cons item items ih =>
    rw [flatMap_cons, length_append, ih, sized,
      length_cons, Nat.add_mul, Nat.one_mul, Nat.add_comm]

/-- A range inside a row is read from that row. -/
theorem slice_flatMap
    (sized : ∀ item, (row item).length = width)
    {items : List α} (inside : index < items.length)
    (start : Nat) (within : stop ≤ width) :
    slice (items.flatMap row) (index * width + start) (index * width + stop) =
      slice (row items[index]) start stop := by
  induction items generalizing index with
  | nil => simp at inside
  | cons item items ih =>
    rw [flatMap_cons]
    cases index with
    | zero =>
      rw [Nat.zero_mul, Nat.zero_add, Nat.zero_add,
        slice_append_left _ _ _ (by rw [sized]; exact within)]
      rfl
    | succ index =>
      have shifted (offset : Nat) : (index + 1) * width + offset -
          (row item).length = index * width + offset := by
        rw [sized, Nat.add_mul]
        omega
      rw [slice_append_right _ _ _ (by rw [sized, Nat.add_mul]; omega),
        shifted, shifted]
      exact ih (by simpa using inside)

end Rows

/-! ## Big-endian integers -/

/-- The value of a big-endian byte string. -/
def beNat (bytes : Bytes) : Nat :=
  bytes.foldl (fun value byte => value * 256 + byte.toNat) 0

/-- The low `width` bytes of a value, most significant first. -/
def beBytes : (width value : Nat) → Bytes
  | 0, _ => []
  | width + 1, value => beBytes width (value / 256) ++ [UInt8.ofNat value]

/-- The big-endian integer of `width` bytes at an offset. -/
def readBe (bytes : Bytes) (offset width : Nat) : Nat :=
  beNat (slice bytes offset (offset + width))

/-- What holds of the 256 bytes holds of every byte. -/
theorem forall_byte
    {p : UInt8 → Prop} (all : ∀ byte : Fin 256, p ⟨⟨byte⟩⟩) (byte : UInt8) :
    p byte :=
  all byte.toFin

@[simp] theorem beNat_nil : beNat [] = 0 := rfl

theorem beNat_append_singleton (bytes : Bytes) (byte : UInt8) :
    beNat (bytes ++ [byte]) = beNat bytes * 256 + byte.toNat := by
  simp [beNat]

@[simp] theorem beBytes_length (width value : Nat) :
    (beBytes width value).length = width := by
  induction width generalizing value with
  | zero => rfl
  | succ width ih =>
    simp [beBytes, ih]

theorem beNat_beBytes
    (width value : Nat) :
    beNat (beBytes width value) = value % 256 ^ width := by
  induction width generalizing value with
  | zero => simp [beBytes, Nat.mod_one]
  | succ width ih =>
    rw [beBytes, beNat_append_singleton, ih, UInt8.toNat_ofNat']
    have split : value % 256 ^ (width + 1) =
        value % 256 + 256 * (value / 256 % 256 ^ width) := by
      rw [Nat.pow_succ', Nat.mod_mul]
    rw [split]
    omega

theorem beNat_beBytes_of_lt
    (fits : value < 256 ^ width) :
    beNat (beBytes width value) = value := by
  rw [beNat_beBytes, Nat.mod_eq_of_lt fits]

theorem beNat_lt (bytes : Bytes) :
    beNat bytes < 256 ^ bytes.length := by
  induction bytes using List.reverseRecOn with
  | nil => simp
  | append_singleton bytes byte ih =>
    rw [beNat_append_singleton, length_append, length_singleton, Nat.pow_succ]
    have byteBound := byte.toNat_lt
    omega

theorem beBytes_beNat (bytes : Bytes) :
    beBytes bytes.length (beNat bytes) = bytes := by
  induction bytes using List.reverseRecOn with
  | nil => rfl
  | append_singleton bytes byte ih =>
    have byteBound := byte.toNat_lt
    have quotient : (beNat bytes * 256 + byte.toNat) / 256 = beNat bytes := by
      omega
    rw [beNat_append_singleton, length_append, length_singleton,
      beBytes, quotient, ih]
    congr 2
    apply UInt8.toNat_inj.mp
    rw [UInt8.toNat_ofNat']
    omega

theorem beNat_inj
    (sameLength : left.length = right.length)
    (sameValue : beNat left = beNat right) :
    left = right := by
  rw [← beBytes_beNat left, sameLength, sameValue, beBytes_beNat]

theorem readBe_lt (bytes : Bytes) (offset width : Nat) :
    readBe bytes offset width < 256 ^ width := by
  unfold readBe
  apply lt_of_lt_of_le (beNat_lt _)
  apply Nat.pow_le_pow_right (by decide)
  rw [slice_length]
  omega

theorem readBe_append_left
    (left right : Bytes)
    (inLeft : offset + width ≤ left.length) :
    readBe (left ++ right) offset width = readBe left offset width := by
  unfold readBe
  rw [slice_append_left left right offset inLeft]

/-- An integer is read back at the length of what lies before it. -/
theorem readBe_field
    (before after : Bytes)
    (isHere : before.length = offset)
    (fits : value < 256 ^ width) :
    readBe (before ++ (beBytes width value ++ after)) offset width = value := by
  unfold readBe
  rw [slice_field before (beBytes width value) after isHere (by simp),
    beNat_beBytes_of_lt fits]

theorem readBe_beBytes (fits : value < 256 ^ width) :
    readBe (beBytes width value ++ rest) 0 width = value :=
  readBe_field [] rest rfl fits

/-- Rewriting the integer read from a range reproduces the range. -/
theorem beBytes_readBe
    (bytes : Bytes)
    (inRange : offset + width ≤ bytes.length) :
    beBytes width (readBe bytes offset width) =
      slice bytes offset (offset + width) := by
  have sliceLength : (slice bytes offset (offset + width)).length = width := by
    rw [slice_length_of_le bytes offset inRange]
    omega
  have rewritten := beBytes_beNat (slice bytes offset (offset + width))
  rwa [sliceLength] at rewritten

theorem readBe_take
    (bytes : Bytes)
    (within : offset + width ≤ length) :
    readBe (bytes.take length) offset width = readBe bytes offset width := by
  unfold readBe
  rw [slice_take bytes offset within]

theorem readBe_drop
    (bytes : Bytes) (base offset width : Nat) :
    readBe (bytes.drop base) offset width =
      readBe bytes (base + offset) width := by
  unfold readBe
  rw [slice_drop, Nat.add_assoc]

theorem readBe_flatMap
    (row : α → Bytes)
    (sized : ∀ item, (row item).length = rowWidth)
    {items : List α} (inside : index < items.length)
    (within : offset + width ≤ rowWidth) :
    readBe (items.flatMap row) (index * rowWidth + offset) width =
      readBe (row items[index]) offset width := by
  unfold readBe
  rw [Nat.add_assoc, slice_flatMap row sized inside offset within]

theorem readBe_flatten
    (rest : Bytes) {index offset width value : Nat}
    (here : chunks[index]? = some (beBytes width value))
    (startsHere : (chunks.take index).flatten.length = offset)
    (fits : value < 256 ^ width) :
    readBe (chunks.flatten ++ rest) offset width = value := by
  unfold readBe
  rw [slice_flatten rest here startsHere (by rw [beBytes_length]),
    beNat_beBytes_of_lt fits]

/-! ## Lexicographic order -/

theorem beNat_cons (byte : UInt8) (bytes : Bytes) :
    beNat (byte :: bytes) = byte.toNat * 256 ^ bytes.length + beNat bytes := by
  induction bytes using List.reverseRecOn with
  | nil => simp [beNat]
  | append_singleton bytes last ih =>
    rw [← cons_append, beNat_append_singleton, ih,
      beNat_append_singleton, length_append, length_singleton, Nat.pow_succ]
    ring

/-- Byte strings of one length are ordered as the integers they spell. -/
theorem lt_iff_beNat_lt
    (sameLength : left.length = right.length) :
    left < right ↔ beNat left < beNat right := by
  induction left generalizing right with
  | nil =>
    have empty : right = [] := length_eq_zero_iff.mp sameLength.symm
    subst empty
    simp
  | cons head tail ih =>
    cases right with
    | nil => simp at sameLength
    | cons otherHead otherTail =>
      have tailLength : tail.length = otherTail.length := by
        simpa using sameLength
      rw [cons_lt_cons_iff, ih tailLength,
        beNat_cons, beNat_cons, tailLength, UInt8.lt_iff_toNat_lt]
      have tailBound := tailLength ▸ beNat_lt tail
      have otherBound := beNat_lt otherTail
      constructor
      · rintro (headLess | ⟨headEqual, tailLess⟩)
        · have step : (head.toNat + 1) * 256 ^ otherTail.length ≤
              otherHead.toNat * 256 ^ otherTail.length :=
            Nat.mul_le_mul_right _ headLess
          rw [Nat.add_mul] at step
          omega
        · rw [headEqual]
          omega
      · intro less
        rcases Nat.lt_trichotomy head.toNat otherHead.toNat with
          headLess | headEqual | headGreater
        · exact Or.inl headLess
        · refine Or.inr ⟨UInt8.toNat_inj.mp headEqual, ?_⟩
          rw [headEqual] at less
          omega
        · have step : (otherHead.toNat + 1) * 256 ^ otherTail.length ≤
              head.toNat * 256 ^ otherTail.length :=
            Nat.mul_le_mul_right _ headGreater
          rw [Nat.add_mul] at step
          omega

/-! ## Text -/

/-- The UTF-8 bytes of a text. -/
def utf8 (text : String) : Bytes :=
  text.toByteArray.data.toList

/-- The text that bytes spell, if they are valid UTF-8. -/
def fromUtf8 (bytes : Bytes) : Option String :=
  String.fromUTF8? ⟨bytes.toArray⟩

/-- Whether a character is an ASCII control character. -/
def isControl (character : Char) : Bool :=
  character < ' ' || character == '\u007f'

/-- The bytes of a text spell it. -/
@[simp] theorem fromUtf8_utf8 (text : String) :
    fromUtf8 (utf8 text) = some text := by
  have bytes : (⟨(utf8 text).toArray⟩ : ByteArray) = text.toByteArray := by
    simp [utf8]
  unfold fromUtf8 String.fromUTF8?
  rw [bytes, dif_pos text.isValidUTF8]
  rfl

end ByteString

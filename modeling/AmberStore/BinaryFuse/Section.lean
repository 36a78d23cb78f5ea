import AmberStore.BinaryFuse.Correct

/-!
# The filter section

A filter is stored as a type byte, its seed and geometry, the number of
fingerprints, and the fingerprints.  Parsing checks the geometry against the
construction's invariants, which every constructed filter keeps.
-/

open ByteString

namespace AmberStore.BinaryFuse

/-- The length of the section header. -/
abbrev sectionHeaderSize : Nat := 29

/-- The section type byte of a filter with 16-bit fingerprints. -/
abbrev sectionTypeBinaryFuse16 : UInt8 := 1

/-- Why bytes are not a filter section. -/
inductive SectionError
  | tooShort (length : Nat)
  | unknownType (type : UInt8)
  | wrongLength (length want : Nat)
  | geometryInvalid
  deriving DecidableEq, Repr

/-- The fingerprints as big-endian bytes. -/
def printBytes (prints : List UInt16) : Bytes :=
  prints.flatMap fun fingerprint => beBytes 2 fingerprint.toNat

/-- The fingerprints that pairs of bytes spell. -/
def readPrints : Bytes → List UInt16
  | high :: low :: bytes =>
    UInt16.ofNat (beNat [high, low]) :: readPrints bytes
  | _ => []

/-- The section header of a filter. -/
def sectionHeader (filter : BinaryFuse16) : Bytes :=
  [sectionTypeBinaryFuse16] ++ beBytes 8 filter.seed.toNat ++
    beBytes 4 filter.segmentLength.toNat ++
    beBytes 4 filter.segmentLengthMask.toNat ++
    beBytes 4 filter.segmentCount.toNat ++
    beBytes 4 filter.segmentCountLength.toNat ++
    beBytes 4 filter.fingerprints.length

/-- Serializes a filter. -/
def sectionBytes (filter : BinaryFuse16) : Bytes :=
  sectionHeader filter ++ printBytes filter.fingerprints

/-- Deserializes a filter section. -/
def parseSection (bytes : Bytes) : Except SectionError BinaryFuse16 :=
  let fpCount := readBe bytes 25 4
  let want := sectionHeaderSize + 2 * fpCount
  let segLen := readBe bytes 9 4
  let segLenMask := readBe bytes 13 4
  let segCount := readBe bytes 17 4
  let segCountLen := readBe bytes 21 4
  if bytes.length < sectionHeaderSize then
    .error (.tooShort bytes.length)
  else if byteAt bytes 0 ≠ sectionTypeBinaryFuse16 then
    .error (.unknownType (byteAt bytes 0))
  else if bytes.length ≠ want then
    .error (.wrongLength bytes.length want)
  else if segLen = 0 ∨ segLen &&& (segLen - 1) ≠ 0 ∨
      segLenMask ≠ segLen - 1 ∨ segCount = 0 ∨
      segCountLen ≠ segCount * segLen ∨
      fpCount ≠ segCountLen + 2 * segLen then
    .error .geometryInvalid
  else
    .ok
      { seed := UInt64.ofNat (readBe bytes 1 8)
        segmentLength := UInt32.ofNat segLen
        segmentLengthMask := UInt32.ofNat segLenMask
        segmentCount := UInt32.ofNat segCount
        segmentCountLength := UInt32.ofNat segCountLen
        fingerprints := readPrints (bytes.drop sectionHeaderSize) }

/-! ## Fingerprints -/

@[simp] theorem printBytes_length (prints : List UInt16) :
    (printBytes prints).length = 2 * prints.length := by
  induction prints with
  | nil => rfl
  | cons print prints ih =>
    change (beBytes 2 print.toNat ++ printBytes prints).length = _
    rw [List.length_append, beBytes_length, ih, List.length_cons]
    omega

theorem readPrints_printBytes (prints : List UInt16) :
    readPrints (printBytes prints) = prints := by
  induction prints with
  | nil => rfl
  | cons print prints ih =>
    have value : beNat (beBytes 2 print.toNat) = print.toNat :=
      beNat_beBytes_of_lt print.toNat_lt
    have pair : beBytes 2 print.toNat =
        [UInt8.ofNat (print.toNat / 256), UInt8.ofNat print.toNat] := rfl
    change readPrints (beBytes 2 print.toNat ++ printBytes prints) = _
    rw [pair] at value ⊢
    change UInt16.ofNat (beNat _) :: readPrints (printBytes prints) = _
    rw [value, ih, UInt16.ofNat_toNat]

@[simp] theorem sectionHeader_length (filter : BinaryFuse16) :
    (sectionHeader filter).length = sectionHeaderSize := by
  simp only [sectionHeader, List.length_append, List.length_singleton,
    beBytes_length]

/-! ## Round trip -/

/-- A well-shaped filter is read back from its section. -/
theorem WellShaped.parseSection_sectionBytes
    (shaped : WellShaped filter bits count) :
    parseSection (sectionBytes filter) = .ok filter := by
  have fits : filter.fingerprints.length < 2 ^ 32 := by
    rw [shaped.capacity]
    exact shaped.fits
  have positive : 0 < 2 ^ bits := Nat.two_pow_pos bits
  have totalLength : (sectionBytes filter).length =
      sectionHeaderSize + 2 * filter.fingerprints.length := by
    simp [sectionBytes]
  have body : (sectionBytes filter).drop sectionHeaderSize =
      printBytes filter.fingerprints := by
    rw [sectionBytes, ← sectionHeader_length filter, List.drop_left]
  let fields : List Bytes := [[sectionTypeBinaryFuse16],
    beBytes 8 filter.seed.toNat, beBytes 4 filter.segmentLength.toNat,
    beBytes 4 filter.segmentLengthMask.toNat,
    beBytes 4 filter.segmentCount.toNat,
    beBytes 4 filter.segmentCountLength.toNat,
    beBytes 4 filter.fingerprints.length]
  have whole : sectionBytes filter =
      fields.flatten ++ printBytes filter.fingerprints := by
    simp [sectionBytes, sectionHeader, fields]
  have read {index offset width value : Nat} (fits : value < 256 ^ width)
      (here : fields[index]? = some (beBytes width value))
      (startsHere : (fields.take index).flatten.length = offset) :
      readBe (sectionBytes filter) offset width = value := by
    rw [whole]
    exact readBe_flatten _ here startsHere fits
  have seed := @read 1 1 8 _ filter.seed.toNat_lt rfl rfl
  have segLen := @read 2 9 4 _ filter.segmentLength.toNat_lt rfl rfl
  have mask := @read 3 13 4 _ filter.segmentLengthMask.toNat_lt rfl rfl
  have segCount := @read 4 17 4 _ filter.segmentCount.toNat_lt rfl rfl
  have countLen := @read 5 21 4 _ filter.segmentCountLength.toNat_lt rfl rfl
  have fpCount := @read 6 25 4 _ fits rfl rfl
  have type : byteAt (sectionBytes filter) 0 = sectionTypeBinaryFuse16 := rfl
  unfold parseSection
  simp only [Checked.errorIf_eq_ok_iff, body, totalLength, type, seed, segLen,
    mask, segCount, countLen, fpCount, readPrints_printBytes]
  refine ⟨by omega, by simp, by simp, ?_, ?_⟩
  · rw [shaped.segmentLength, shaped.segmentLengthMask, shaped.segmentCount,
      shaped.segmentCountLength, shaped.capacity,
      Nat.and_two_pow_sub_one_eq_mod, Nat.mod_self]
    have count_pos := shaped.count_pos
    have total : (count + 2) * 2 ^ bits =
        count * 2 ^ bits + 2 * 2 ^ bits := by ring
    rintro (zero | notPower | wrongMask | noSegment | wrongLength | wrongTotal)
    · omega
    · exact notPower rfl
    · exact wrongMask rfl
    · omega
    · exact wrongLength rfl
    · exact wrongTotal total
  · simp only [UInt64.ofNat_toNat, UInt32.ofNat_toNat]

/-! ## What parsing guarantees -/

/-- A number that shares no bit with its predecessor is a power of two. -/
theorem exists_two_pow_of_and_pred
    (positive : value ≠ 0) (apart : value &&& (value - 1) = 0) :
    ∃ bits, value = 2 ^ bits := by
  refine ⟨value.log2, ?_⟩
  obtain ⟨least, below⟩ := (Nat.log2_eq_iff positive).mp rfl
  by_contra different
  -- Otherwise the predecessor has the same leading bit.
  have isPositive := Nat.two_pow_pos value.log2
  have sameLog : (value - 1).log2 = value.log2 :=
    (Nat.log2_eq_iff (by omega)).mpr ⟨by omega, by omega⟩
  have leading : (value - 1).testBit value.log2 = true := by
    rw [← sameLog]
    exact Nat.testBit_log2 (by omega)
  have shared := congrArg (Nat.testBit · value.log2) apart
  simp only [Nat.testBit_and, Nat.testBit_log2 positive, leading,
    Nat.zero_testBit] at shared
  cases shared

theorem length_readPrints (bytes : Bytes) :
    (readPrints bytes).length = bytes.length / 2 := by
  induction bytes using readPrints.induct with
  | case1 high low bytes ih =>
    rw [readPrints, List.length_cons, ih, List.length_cons, List.length_cons]
    omega
  | case2 bytes short =>
    match bytes, short with
    | [], _ => rfl
    | [byte], _ => simp [readPrints]
    | high :: low :: rest, short => exact absurd rfl (short high low rest)

/-- What passes the checks of a section is well shaped. -/
theorem wellShaped_of_parseSection
    (parsed : parseSection bytes = .ok filter) :
    ∃ bits count, WellShaped filter bits count := by
  unfold parseSection at parsed
  simp only [Checked.errorIf_eq_ok_iff, not_or, Decidable.not_not] at parsed
  obtain ⟨-, -, sized, ⟨positive, power, maskEq, counted, lengthEq, total⟩,
    same⟩ := parsed
  obtain ⟨bits, segLen⟩ := exists_two_pow_of_and_pred positive power
  have maskFits := readBe_lt bytes 13 4
  have lengthFits := readBe_lt bytes 21 4
  have totalFits := readBe_lt bytes 25 4
  have product : (readBe bytes 17 4 + 2) * 2 ^ bits = readBe bytes 25 4 := by
    rw [total, lengthEq, segLen]
    ring
  refine ⟨bits, readBe bytes 17 4, ?_⟩
  cases same
  constructor
  · rw [← segLen]
    exact UInt32.toNat_ofNat_of_lt' (readBe_lt bytes 9 4)
  · rw [← segLen, ← maskEq]
    exact UInt32.toNat_ofNat_of_lt' maskFits
  · exact UInt32.toNat_ofNat_of_lt' (readBe_lt bytes 17 4)
  · rw [← segLen, ← lengthEq]
    exact UInt32.toNat_ofNat_of_lt' lengthFits
  · omega
  · rw [length_readPrints, List.length_drop, sized, product]
    omega
  · rw [product]
    exact totalFits

end AmberStore.BinaryFuse

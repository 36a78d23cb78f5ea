import AmberStore.Lib.ByteString

/-!
# CBOR heads

Every CBOR item starts with a head: three bits of major type and an argument,
which is either in the low five bits of the first byte or in the one, two, four
or eight bytes after it.  The encoders of the store emit the shortest form of a
head; the readers accept every definite form.
-/

open ByteString

namespace AmberStore.Cbor

/-! ## Major types -/

/-- The eight CBOR major types, in the order of their three-bit values. -/
inductive Major
  | uint
  | negint
  | bstr
  | tstr
  | array
  | map
  | tag
  | primitives
  deriving DecidableEq, Repr

namespace Major

/-- The value in the high three bits of a head. -/
def toU8 : Major → UInt8
  | uint => 0
  | negint => 1
  | bstr => 2
  | tstr => 3
  | array => 4
  | map => 5
  | tag => 6
  | primitives => 7

/-- The type a three-bit value stands for. -/
def fromMajor (value : UInt8) : Major :=
  match (value &&& 7).toNat with
  | 0 => uint
  | 1 => negint
  | 2 => bstr
  | 3 => tstr
  | 4 => array
  | 5 => map
  | 6 => tag
  | _ => primitives

/-- The type of the item a byte starts. -/
def fromInitialByte (byte : UInt8) : Major :=
  fromMajor (byte >>> 5)

/-- The name of a type in diagnostics. -/
def name : Major → String
  | uint => "positive integer"
  | negint => "negative integer"
  | bstr => "byte string"
  | tstr => "UTF-8 text string"
  | array => "array"
  | map => "map"
  | tag => "tag"
  | primitives => "primitives"

end Major

/-! ## Writing -/

/-- The number of argument bytes that follow a first byte with this additional
information. -/
def argWidth (ai : UInt8) : Nat :=
  match ai.toNat with
  | 24 => 1
  | 25 => 2
  | 26 => 4
  | 27 => 8
  | _ => 0

/-- The bytes of a head that carries the argument in the shortest form. -/
def appendHead (major : Major) (n : Nat) : Bytes :=
  let h := major.toU8 <<< 5
  if n < 24 then
    [h ||| UInt8.ofNat n]
  else if n < 2 ^ 8 then
    (h ||| 24) :: beBytes 1 n
  else if n < 2 ^ 16 then
    (h ||| 25) :: beBytes 2 n
  else if n < 2 ^ 32 then
    (h ||| 26) :: beBytes 4 n
  else
    (h ||| 27) :: beBytes 8 n

/-- The bytes of a text string. -/
def appendTstr (text : String) : Bytes :=
  appendHead .tstr (utf8 text).length ++ utf8 text

/-- The bytes of a byte string. -/
def appendBstr (content : Bytes) : Bytes :=
  appendHead .bstr content.length ++ content

/-- A field of a record, which is left out when its content is empty. -/
def optionalField (number : Nat) (content : List α) (value : Bytes) : Bytes :=
  if content.isEmpty then [] else appendHead .uint number ++ value

/-- The bytes of an integer: major type 0 when it is not negative, and
otherwise major type 1 with the complement of its bits. -/
def appendInt (value : Int64) : Bytes :=
  if 0 ≤ value then
    appendHead .uint value.toUInt64.toNat
  else
    appendHead .negint (~~~value.toUInt64).toNat

/-! ## Reading -/

/-- Why a head was not read. -/
inductive Error
  | unexpectedEof
  | unsupportedAdditionalInfo (ai : UInt8)
  deriving DecidableEq, Repr

/-- A head that was read, with the input after it. -/
structure Head where
  major : Major
  arg : Nat
  rest : Bytes
  deriving DecidableEq, Repr

/-- Reads one head, of any definite form. -/
def readHead : Bytes → Except Error Head
  | [] => .error .unexpectedEof
  | first :: b =>
    let major := Major.fromInitialByte first
    let ai := first &&& 0x1f
    if ai ≤ 23 then
      .ok ⟨major, ai.toNat, b⟩
    else if ai ≤ 27 then
      if b.length < argWidth ai then
        .error .unexpectedEof
      else
        .ok ⟨major, readBe b 0 (argWidth ai), b.drop (argWidth ai)⟩
    else
      .error (.unsupportedAdditionalInfo ai)

/-! ## What a written head is -/

/-- Additional information that spells an argument: in itself, or as the
width of the bytes that hold it. -/
def Spells (ai : UInt8) (n : Nat) : Prop :=
  ai ≤ 23 ∧ ai.toNat = n ∨ 23 < ai ∧ ai ≤ 27 ∧ n < 256 ^ argWidth ai

/-- Additional information that spells an argument in the shortest form: an
argument below 24 in itself, and a longer one in the fewest of one, two, four
and eight bytes. -/
def Shortest (ai : UInt8) (n : Nat) : Prop :=
  n < 24 ∧ ai.toNat = n ∨
  24 ≤ n ∧ n < 2 ^ 8 ∧ ai.toNat = 24 ∨
  2 ^ 8 ≤ n ∧ n < 2 ^ 16 ∧ ai.toNat = 25 ∨
  2 ^ 16 ≤ n ∧ n < 2 ^ 32 ∧ ai.toNat = 26 ∨
  2 ^ 32 ≤ n ∧ n < 2 ^ 64 ∧ ai.toNat = 27

instance (ai : UInt8) (n : Nat) : Decidable (Shortest ai n) := by
  unfold Shortest
  infer_instance

theorem eq_of_wide {ai : UInt8} (notInHead : 23 < ai) (wide : ai ≤ 27) :
    ai = 24 ∨ ai = 25 ∨ ai = 26 ∨ ai = 27 := by
  simp only [UInt8.le_iff_toNat_le, UInt8.lt_iff_toNat_lt, ← UInt8.toNat_inj,
    UInt8.reduceToNat] at *
  omega

theorem argWidth_of_le (inHead : ai ≤ 23) : argWidth ai = 0 := by
  have bound : ai.toNat ≤ 23 := by simpa [UInt8.le_iff_toNat_le] using inHead
  unfold argWidth
  split <;> omega

theorem argWidth_ne_zero
    (notInHead : 23 < ai) (wide : ai ≤ 27) :
    argWidth ai ≠ 0 := by
  rcases eq_of_wide notInHead wide with rfl | rfl | rfl | rfl <;> decide

/-- An argument has one shortest form. -/
theorem Shortest.unique
    (left : Shortest ai n) (right : Shortest other n) : ai = other := by
  unfold Shortest at left right
  exact UInt8.toNat_inj.mp (by omega)

/-- A written head is a first byte and the bytes of its argument. -/
theorem appendHead_eq
    (major : Major) (n : Nat) (fits : n < 2 ^ 64) :
    ∃ ai, Spells ai n ∧ Shortest ai n ∧
      appendHead major n =
        (major.toU8 <<< 5 ||| ai) :: beBytes (argWidth ai) n := by
  unfold appendHead Shortest
  split_ifs with inHead oneByte twoBytes fourBytes
  · have value : (UInt8.ofNat n).toNat = n := by
      rw [UInt8.toNat_ofNat']
      omega
    have small : UInt8.ofNat n ≤ 23 := by
      rw [UInt8.le_iff_toNat_le, value]
      change n ≤ 23
      omega
    refine ⟨UInt8.ofNat n, .inl ⟨small, value⟩, .inl ⟨inHead, value⟩, ?_⟩
    rw [argWidth_of_le small]
    rfl
  · exact ⟨24, .inr ⟨by decide, by decide, oneByte⟩, by simp; omega, rfl⟩
  · exact ⟨25, .inr ⟨by decide, by decide, twoBytes⟩, by simp; omega, rfl⟩
  · exact ⟨26, .inr ⟨by decide, by decide, fourBytes⟩, by simp; omega, rfl⟩
  · exact ⟨27, .inr ⟨by decide, by decide, fits⟩, by simp; omega, rfl⟩

theorem appendHead_of_shortest
    (shortest : Shortest ai n) (fits : n < 2 ^ 64) (major : Major) :
    appendHead major n =
      (major.toU8 <<< 5 ||| ai) :: beBytes (argWidth ai) n := by
  obtain ⟨other, -, otherShortest, written⟩ := appendHead_eq major n fits
  rw [written, shortest.unique otherShortest]

theorem Spells.lt (spells : Spells ai n) :
    ai < 28 := by
  simp only [Spells, UInt8.le_iff_toNat_le, UInt8.lt_iff_toNat_lt,
    UInt8.reduceToNat] at spells ⊢
  omega

/-- The bits of a first byte are its type and its additional information. -/
theorem Spells.fromInitialByte (spells : Spells ai n) (major : Major) :
    Major.fromInitialByte (major.toU8 <<< 5 ||| ai) = major ∧
      (major.toU8 <<< 5 ||| ai) &&& 0x1f = ai := by
  have small : ai < 32 := UInt8.lt_trans spells.lt (by decide)
  generalize ai = byte at small ⊢
  revert byte
  cases major <;> exact forall_byte (by decide +kernel)

theorem appendHead_ne_nil (major : Major) (n : Nat) :
    appendHead major n ≠ [] := by
  unfold appendHead
  split_ifs <;> simp

/-- A written head is read back. -/
@[simp] theorem readHead_appendHead
    (major : Major) (n : Nat) (rest : Bytes) (fits : n < 2 ^ 64) :
    readHead (appendHead major n ++ rest) = .ok ⟨major, n, rest⟩ := by
  obtain ⟨ai, spells, -, written⟩ := appendHead_eq major n fits
  obtain ⟨typed, low⟩ := spells.fromInitialByte major
  simp only [written, List.cons_append, readHead, typed, low]
  rcases spells with ⟨inHead, value⟩ | ⟨notInHead, wide, bound⟩
  · rw [if_pos inHead, value, argWidth_of_le inHead]
    rfl
  · rw [if_neg (UInt8.not_le.mpr notInHead), if_pos wide, readBe_beBytes bound]
    simp

/-! ## What a read head was -/

/-- A byte is its type and its additional information. -/
theorem initialByte_eq (ib : UInt8) :
    (Major.fromInitialByte ib).toU8 <<< 5 ||| (ib &&& 0x1f) = ib := by
  revert ib
  exact forall_byte (by decide +kernel)

/-- A head that is read is a first byte and the bytes of its argument. -/
theorem eq_of_readHead
    (isRead : readHead b = .ok head) :
    ∃ first, Spells (first &&& 0x1f) head.arg ∧
      Major.fromInitialByte first = head.major ∧
      b = first :: (beBytes (argWidth (first &&& 0x1f)) head.arg ++
        head.rest) := by
  cases b with
  | nil => cases isRead
  | cons first tail =>
    simp only [readHead] at isRead
    split_ifs at isRead with inHead wide short
    · cases isRead
      exact ⟨first, .inl ⟨inHead, rfl⟩, rfl, by rw [argWidth_of_le inHead]; rfl⟩
    · cases isRead
      refine ⟨first, .inr ⟨UInt8.not_le.mp inHead, wide, readBe_lt _ _ _⟩,
        rfl, ?_⟩
      rw [beBytes_readBe _ (by omega), slice, List.drop_zero, Nat.zero_add,
        Nat.sub_zero, List.take_append_drop]

/-- Reading a head consumes it. -/
theorem readHead_length
    (isRead : readHead b = .ok head) :
    head.rest.length < b.length := by
  obtain ⟨first, -, -, rfl⟩ := eq_of_readHead isRead
  rw [List.length_cons, List.length_append]
  omega

/-- The type of a head is that of the input's first byte. -/
theorem major_of_readHead
    (isRead : readHead b = .ok head) :
    some head.major = b.head?.map Major.fromInitialByte := by
  obtain ⟨first, -, isMajor, rfl⟩ := eq_of_readHead isRead
  rw [← isMajor]
  rfl

/-- An argument is a machine word. -/
theorem Spells.arg_lt (spells : Spells ai n) : n < 2 ^ 64 := by
  rcases spells with ⟨-, rfl⟩ | ⟨notInHead, wide, bound⟩
  · exact lt_of_lt_of_le (UInt8.toNat_lt _) (by decide)
  · refine bound.trans_le ?_
    rcases eq_of_wide notInHead wide with rfl | rfl | rfl | rfl <;> decide

/-- The head that starts an input is in the shortest form. -/
def ShortestHead (b : Bytes) : Prop :=
  match readHead b with
  | .error _ => True
  | .ok head => ∀ first ∈ b.head?, Shortest (first &&& 0x1f) head.arg

instance (b : Bytes) : Decidable (ShortestHead b) := by
  unfold ShortestHead
  split
  · exact instDecidableTrue
  · exact Option.decidableForallMem _

/-- A shortest head is the one that is written. -/
theorem ShortestHead.eq_appendHead
    (shortest : ShortestHead b) (isRead : readHead b = .ok head) :
    b = appendHead head.major head.arg ++ head.rest := by
  obtain ⟨first, spells, isMajor, rfl⟩ := eq_of_readHead isRead
  rw [ShortestHead, isRead] at shortest
  rw [appendHead_of_shortest (shortest first rfl) spells.arg_lt, ← isMajor,
    initialByte_eq]
  rfl

end AmberStore.Cbor

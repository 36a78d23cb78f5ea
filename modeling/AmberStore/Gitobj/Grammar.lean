import AmberStore.Gitobj.Links
import AmberStore.Gitobj.Frame

/-!
# The grammar of links

The text of a tree, a commit and a tag as far as git reads links from it: each is
a value whose fields are held to the grammar, with the bytes it is written as and
the links it names.  Reading links accepts exactly those bytes.
-/

open ByteString Checked List Numerals Option

namespace AmberStore.Gitobj

/-! ## Syntax -/

/-- A hex digit stands for its place in the row of digits, of either case. -/
def IsHexDigit (c : UInt8) (place : Fin 16) : Prop :=
  (utf8 "0123456789abcdef")[place.val]? = some c ∨
    (utf8 "0123456789ABCDEF")[place.val]? = some c

instance (c : UInt8) (place : Fin 16) : Decidable (IsHexDigit c place) :=
  inferInstanceAs (Decidable (_ ∨ _))

/-- The bytes that pairs of hex digits spell. -/
inductive SpellsHex : Bytes → Bytes → Prop
  | nil : SpellsHex [] []
  | pair {high low byte : UInt8} {highPlace lowPlace : Fin 16}
      {text bytes : Bytes}
      (isHigh : IsHexDigit high highPlace)
      (isLow : IsHexDigit low lowPlace)
      (isByte : byte.toNat = 16 * highPlace.val + lowPlace)
      (rest : SpellsHex text bytes) :
      SpellsHex (high :: low :: text) (byte :: bytes)

/-- An object id in hex. -/
structure HexId where
  text : Bytes
  id : Key.Digest Key.gitSha1Size
  spells : SpellsHex text id.val

/-- The line of a word and an id. -/
def HexId.line (word : String) (hex : HexId) : Bytes :=
  utf8 word ++ 0x20 :: (hex.text ++ [0x0a])

/-- The key an id names. -/
def HexId.key (hex : HexId) : Key := Key.newGitSha1 hex.id

/-- An entry of a tree. -/
structure TreeEntry where
  mode : Bytes
  name : Bytes
  id : Key.Digest Key.gitSha1Size
  mode_ne_nil : mode ≠ []
  octal : IsNumeral 8 mode
  name_ne_nil : name ≠ []
  noNul : 0 ∉ name

namespace TreeEntry

/-- How an entry is written. -/
def bytes (entry : TreeEntry) : Bytes :=
  entry.mode ++ 0x20 :: (entry.name ++ 0 :: entry.id.val)

/-- The four bits of a mode that say the type of a file. -/
def fileType (entry : TreeEntry) : Nat :=
  value 8 0 entry.mode / 2 ^ 12 % 2 ^ 4

/-- What an entry refers to: a directory, a regular file or a symlink.
Anything else is a commit of another repository, which git does not follow. -/
def link (entry : TreeEntry) : Option Link :=
  if entry.fileType = 0o4 then
    some ⟨Key.newGitSha1 entry.id, false⟩
  else if entry.fileType = 0o10 ∨ entry.fileType = 0o12 then
    some ⟨Key.newGitSha1 entry.id, true⟩
  else
    none

end TreeEntry

/-- Bytes that no parent line starts: they do not start with the word, or are
too short for the line. -/
def NoParent (rest : Bytes) : Prop :=
  ¬(utf8 "parent " <+: rest) ∨ rest.length < (utf8 "parent ").length + hexLen + 1

/-- A commit: a tree line, the parent lines, and what git does not look at. -/
structure CommitText where
  tree : HexId
  parents : List HexId
  rest : Bytes
  noParent : NoParent rest

namespace CommitText

/-- How a commit is written. -/
def bytes (commit : CommitText) : Bytes :=
  commit.tree.line "tree" ++
    (commit.parents.flatMap (HexId.line "parent") ++ commit.rest)

/-- What a commit refers to. -/
def links (commit : CommitText) : List Link :=
  ⟨commit.tree.key, false⟩ :: commit.parents.map fun parent =>
    ⟨parent.key, false⟩

end CommitText

/-- A tag: an object line, a type line, and what git does not look at.  The type
names a kind up to its first NUL. -/
structure TagText where
  object : HexId
  type : Bytes
  kind : Kind
  rest : Bytes
  oneLine : 0x0a ∉ type
  named : kind.name = type.takeWhile fun c => c ≠ 0

namespace TagText

/-- How a tag is written. -/
def bytes (tag : TagText) : Bytes :=
  tag.object.line "object" ++
    (utf8 "type" ++ 0x20 :: (tag.type ++ 0x0a :: tag.rest))

/-- What a tag refers to. -/
def link (tag : TagText) : Link :=
  ⟨tag.object.key, tag.kind = .blob⟩

end TagText

/-- The links that the content of an object names. -/
def Names : Kind → Bytes → List Link → Prop
  | .blob, _, found => found = []
  | .tree, content, found => ∃ entries : List TreeEntry,
      content = entries.flatMap TreeEntry.bytes ∧
        found = entries.filterMap TreeEntry.link
  | .commit, content, found => ∃ commit : CommitText,
      content = commit.bytes ∧ found = commit.links
  | .tag, content, found => ∃ tag : TagText,
      content = tag.bytes ∧ found = [tag.link]

/-! ## Lines -/

theorem hexDigit_eq_some_iff {c value : UInt8} :
    hexDigit c = some value ↔
      ∃ place : Fin 16, IsHexDigit c place ∧ value = UInt8.ofNat place := by
  constructor
  · have all : ∀ c : UInt8, ∀ value ∈ hexDigit c,
        ∃ place : Fin 16, IsHexDigit c place ∧ value = UInt8.ofNat place :=
      forall_byte (by decide +kernel)
    exact all c value
  · rintro ⟨place, isDigit, rfl⟩
    have all : ∀ c : UInt8, ∀ place : Fin 16, IsHexDigit c place →
        hexDigit c = some (UInt8.ofNat place) :=
      forall_byte (by decide +kernel)
    exact all c place isDigit

theorem toNat_hexPair (high low : Fin 16) :
    (UInt8.ofNat high <<< 4 ||| UInt8.ofNat low).toNat = 16 * high.val + low := by
  decide +revert +kernel

theorem unhex_eq_some_iff :
    unhex text = some bytes ↔ SpellsHex text bytes := by
  constructor
  · intro isRead
    induction text using unhex.induct generalizing bytes with
    | case1 high low rest ih =>
      simp only [unhex, bind_eq_bind, bind_eq_some_iff,
        some_inj, hexDigit_eq_some_iff] at isRead
      obtain ⟨_, ⟨highPlace, isHigh, rfl⟩, _, ⟨lowPlace, isLow, rfl⟩, others,
        isOthers, rfl⟩ := isRead
      exact .pair isHigh isLow (toNat_hexPair highPlace lowPlace) (ih isOthers)
    | case2 =>
      obtain rfl := some.inj isRead
      exact .nil
    | case3 => cases isRead
  · intro spells
    induction spells with
    | nil => rfl
    | @pair _ _ _ highPlace lowPlace _ _ isHigh isLow isByte _
        ih =>
      simp only [unhex, hexDigit_eq_some_iff.mpr ⟨highPlace, isHigh, rfl⟩,
        hexDigit_eq_some_iff.mpr ⟨lowPlace, isLow, rfl⟩, ih,
        bind_eq_bind, bind_some,
        ← UInt8.toNat_inj.mp
          ((toNat_hexPair highPlace lowPlace).trans isByte.symm)]

theorem SpellsHex.length (spells : SpellsHex text bytes) :
    text.length = 2 * bytes.length := by
  induction spells with
  | nil => rfl
  | pair _ _ _ _ ih =>
    simp only [length_cons, ih]
    omega

@[simp] theorem HexId.length_text (hex : HexId) : hex.text.length = hexLen := by
  rw [hex.spells.length, hex.id.property]

theorem HexId.length_line (word : String) (hex : HexId) :
    (hex.line word).length = (utf8 word).length + hexLen + 2 := by
  simp only [line, length_append, length_cons, length_text, length_nil]
  omega

theorem afterWord_eq_some_iff :
    afterWord word b = some rest ↔ b = utf8 word ++ 0x20 :: rest := by
  unfold afterWord
  dsimp only
  constructor
  · intro isRead
    split_ifs at isRead with starts
    obtain ⟨tail, rfl⟩ := isPrefixOf_iff_prefix.mp starts
    rw [drop_left, some_inj] at isRead
    rw [← isRead, append_assoc]
    rfl
  · rintro rfl
    rw [append_cons (utf8 word) 0x20 rest,
      if_pos (List.isPrefixOf_iff_prefix.mpr (prefix_append _ _)),
      drop_left]

/-- A line of a word and an id is read from how it is written, and from nothing
else. -/
theorem idLine_eq_ok_iff :
    idLine b word = .ok (key, rest) ↔
      ∃ hex : HexId, b = hex.line word ++ rest ∧ key = hex.key := by
  unfold idLine
  constructor
  · intro isRead
    split at isRead
    case h_1 => cases isRead
    case h_2 after isAfter =>
      dsimp only at isRead
      split_ifs at isRead with malformed
      push Not at malformed
      obtain ⟨long, isEnd⟩ := malformed
      split at isRead
      case h_1 => cases isRead
      case h_2 sum isSum =>
        split_ifs at isRead with sized
        obtain ⟨rfl, rfl⟩ := Prod.mk.inj (Except.ok.inj isRead)
        refine ⟨⟨after.take hexLen, ⟨sum, sized⟩,
          unhex_eq_some_iff.mp isSum⟩, ?_, rfl⟩
        rw [afterWord_eq_some_iff.mp isAfter, HexId.line]
        have inside : hexLen < after.length := long
        have parts : after =
            after.take hexLen ++ 0x0a :: after.drop (hexLen + 1) := by
          rw [← isEnd, byteAt, getD_eq_getElem _ _ inside,
            ← drop_eq_getElem_cons inside, take_append_drop]
        rw [append_assoc, cons_append, append_assoc]
        exact congrArg (fun tail => utf8 word ++ 0x20 :: tail) parts
  · rintro ⟨hex, rfl, rfl⟩
    have isAfter : afterWord word (hex.line word ++ rest) =
        some (hex.text ++ 0x0a :: rest) := by
      rw [afterWord_eq_some_iff, HexId.line]
      simp
    have taken : (hex.text ++ 0x0a :: rest).take hexLen = hex.text :=
      take_left' hex.length_text
    have dropped : (hex.text ++ 0x0a :: rest).drop (hexLen + 1) = rest := by
      rw [← hex.length_text]
      exact drop_field hex.text 0x0a rest
    have isEnd : byteAt (hex.text ++ 0x0a :: rest) hexLen = 0x0a := by
      rw [← hex.length_text]
      simp [byteAt]
    rw [isAfter]
    dsimp only
    rw [if_neg, taken, unhex_eq_some_iff.mpr hex.spells, dropped]
    · dsimp only
      rw [dif_pos hex.id.property]
      rfl
    · rintro (short | notEnd)
      · rw [length_append, hex.length_text, length_cons] at short
        omega
      · exact notEnd isEnd

/-! ## Commits -/

/-- The test of the loop over parent lines. -/
theorem noParent_iff :
    NoParent rest ↔ ¬((utf8 "parent ").length + hexLen < rest.length ∧
      (afterWord "parent" rest).isSome) := by
  have starts : (afterWord "parent" rest).isSome ↔
      utf8 "parent " <+: rest := by
    rw [show utf8 "parent " = utf8 "parent" ++ [0x20] by decide,
      isSome_iff_exists]
    constructor
    · rintro ⟨after, isAfter⟩
      rw [afterWord_eq_some_iff.mp isAfter, append_cons]
      exact prefix_append _ _
    · rintro ⟨after, rfl⟩
      exact ⟨after, afterWord_eq_some_iff.mpr (append_cons _ _ _).symm⟩
  rw [NoParent, not_and_or, starts]
  constructor
  · rintro (other | short)
    · exact Or.inr other
    · exact Or.inl (by omega)
  · rintro (short | other)
    · exact Or.inr (by omega)
    · exact Or.inl other

theorem not_noParent_line (hex : HexId) (rest : Bytes) :
    ¬NoParent (hex.line "parent" ++ rest) := by
  rw [noParent_iff, not_not, length_append, hex.length_line]
  refine ⟨?_, ?_⟩
  · change 7 + hexLen < 6 + hexLen + 2 + rest.length
    omega
  · rw [afterWord_eq_some_iff.mpr (show hex.line "parent" ++ rest =
      utf8 "parent" ++ 0x20 :: (hex.text ++ [0x0a] ++ rest) by simp [HexId.line])]
    rfl

/-- Parent lines are read as long as there are any. -/
theorem parentLinks_eq_ok_iff
    (enough : b.length ≤ fuel) :
    parentLinks fuel b = .ok found ↔ ∃ (parents : List HexId) (rest : Bytes),
      b = parents.flatMap (HexId.line "parent") ++ rest ∧ NoParent rest ∧
        found = parents.map fun parent => ⟨parent.key, false⟩ := by
  induction fuel generalizing b found with
  | zero =>
    obtain rfl := length_eq_zero_iff.mp (Nat.le_zero.mp enough)
    rw [parentLinks, Except.ok.injEq]
    constructor
    · rintro rfl
      exact ⟨[], [], rfl, Or.inr (by decide), rfl⟩
    · rintro ⟨parents, rest, isEmpty, -, rfl⟩
      cases parents with
      | nil => rfl
      | cons parent parents =>
        have length := congrArg List.length isEmpty
        rw [flatMap_cons, append_assoc, length_append,
          parent.length_line, length_nil] at length
        omega
  | succ fuel ih =>
    have fits {hex : HexId} {rest : Bytes}
        (isLine : b = hex.line "parent" ++ rest) : rest.length ≤ fuel := by
      rw [isLine, length_append, hex.length_line] at enough
      omega
    rw [parentLinks]
    by_cases ends : NoParent b
    · rw [if_neg (noParent_iff.mp ends), Except.ok.injEq]
      constructor
      · rintro rfl
        exact ⟨[], b, rfl, ends, rfl⟩
      · rintro ⟨parents, rest, rfl, -, rfl⟩
        cases parents with
        | nil => rfl
        | cons parent parents =>
          rw [flatMap_cons, append_assoc] at ends
          exact absurd ends (not_noParent_line _ _)
    · rw [if_pos (not_not.mp (mt noParent_iff.mpr ends)), bind_eq_ok_iff]
      constructor
      · rintro ⟨⟨key, after⟩, isLine, isRest⟩
        obtain ⟨others, isOthers, isFound⟩ := bind_eq_ok_iff.mp isRest
        obtain ⟨hex, isHex, rfl⟩ := idLine_eq_ok_iff.mp isLine
        obtain ⟨parents, rest, rfl, noMore, rfl⟩ :=
          (ih (fits isHex)).mp isOthers
        refine ⟨hex :: parents, rest, ?_, noMore, (Except.ok.inj isFound).symm⟩
        rw [isHex, flatMap_cons, append_assoc]
      · rintro ⟨parents, rest, isText, noMore, rfl⟩
        cases parents with
        | nil => exact absurd (isText ▸ noMore) ends
        | cons hex parents =>
          rw [flatMap_cons, append_assoc] at isText
          refine ⟨_, idLine_eq_ok_iff.mpr ⟨hex, isText, rfl⟩,
            bind_eq_ok_iff.mpr ⟨_,
              (ih (fits isText)).mpr ⟨parents, rest, rfl, noMore, rfl⟩, rfl⟩⟩

theorem commitLinks_eq_ok_iff :
    commitLinks b = .ok found ↔ Names .commit b found := by
  rw [commitLinks, bind_eq_ok_iff]
  constructor
  · rintro ⟨⟨key, after⟩, isTree, isRest⟩
    obtain ⟨others, isOthers, isFound⟩ := bind_eq_ok_iff.mp isRest
    obtain ⟨tree, rfl, rfl⟩ := idLine_eq_ok_iff.mp isTree
    obtain ⟨parents, rest, isText, noParent, rfl⟩ :=
      (parentLinks_eq_ok_iff le_rfl).mp isOthers
    exact ⟨⟨tree, parents, rest, noParent⟩, by rw [isText]; rfl,
      (Except.ok.inj isFound).symm⟩
  · rintro ⟨commit, rfl, rfl⟩
    exact ⟨_, idLine_eq_ok_iff.mpr ⟨commit.tree, rfl, rfl⟩,
      bind_eq_ok_iff.mpr ⟨_,
        (parentLinks_eq_ok_iff le_rfl).mpr
          ⟨commit.parents, commit.rest, rfl, commit.noParent, rfl⟩, rfl⟩⟩

/-! ## Tags -/

theorem tagLinks_eq_ok_iff :
    tagLinks b = .ok found ↔ Names .tag b found := by
  rw [tagLinks, bind_eq_ok_iff]
  constructor
  · rintro ⟨⟨key, after⟩, isObject, isRest⟩
    obtain ⟨object, rfl, rfl⟩ := idLine_eq_ok_iff.mp isObject
    dsimp only at isRest
    split at isRest
    case h_1 => cases isRest
    case h_2 text isText =>
      split at isRest
      case h_1 => cases isRest
      case h_2 nl isNl =>
        obtain ⟨type, rest, rfl, oneLine, rfl⟩ :=
          findIdx?_eq_some_iff_field.mp isNl
        rw [take_left] at isRest
        split at isRest
        case h_1 => cases isRest
        case h_2 kind isKind =>
          refine ⟨⟨object, type, kind, rest, oneLine,
            Kind.of_eq_some_iff.mp isKind⟩, ?_, (Except.ok.inj isRest).symm⟩
          rw [afterWord_eq_some_iff.mp isText]
          rfl
  · rintro ⟨tag, rfl, rfl⟩
    refine ⟨_, idLine_eq_ok_iff.mpr ⟨tag.object, rfl, rfl⟩, ?_⟩
    dsimp only
    rw [afterWord_eq_some_iff.mpr rfl]
    dsimp only
    rw [findIdx?_field tag.oneLine]
    dsimp only
    rw [take_left, Kind.of_eq_some_iff.mpr tag.named]
    rfl

/-! ## Trees -/

/-- The type bits of a mode are four bits of its number. -/
theorem and_typeMask (number : Nat) :
    number &&& 0o170000 = number / 2 ^ 12 % 2 ^ 4 * 2 ^ 12 := by
  rw [← Nat.and_two_pow_sub_one_eq_mod, ← Nat.shiftRight_eq_div_pow,
    ← Nat.shiftLeft_eq, Nat.shiftLeft_and_distrib]
  change number &&& 15 <<< 12 = number >>> 12 <<< 12 &&& 15 <<< 12
  apply Nat.eq_of_testBit_eq
  intro i
  by_cases above : 12 ≤ i
  · simp [Nat.testBit_shiftLeft, above]
  · simp only [Nat.testBit_and, Nat.testBit_shiftLeft, above, decide_false,
      Bool.false_and, Bool.and_false]

theorem toNat_pushOctal
    (mode : UInt32)
    {c : UInt8}
    (low : 0x30 ≤ c.toNat)
    (high : c.toNat < 0x30 + 8) :
    (mode <<< 3 ||| (c - 0x30).toUInt32).toNat =
      (mode.toNat * 8 + (c.toNat - 0x30)) % 2 ^ 32 := by
  have isDigit : (c - 0x30).toUInt32.toNat = c.toNat - 0x30 := by
    rw [UInt8.toNat_toUInt32,
      UInt8.toNat_sub_of_le _ _ (by rw [UInt8.le_iff_toNat_le]; exact low)]
    rfl
  have shifted : mode.toNat <<< 3 % 2 ^ 32 = (mode.toNat % 2 ^ 29) <<< 3 := by
    rw [Nat.shiftLeft_eq, Nat.shiftLeft_eq]
    omega
  rw [UInt32.toNat_or, UInt32.toNat_shiftLeft, isDigit]
  change mode.toNat <<< 3 % 2 ^ 32 ||| (c.toNat - 0x30) = _
  rw [shifted, ← Nat.shiftLeft_add_eq_or_of_lt (by omega), Nat.shiftLeft_eq]
  omega

/-- A mode is read from octal digits, as their number up to 32 bits. -/
theorem parseMode_eq_some_iff {read : UInt32} :
    parseMode mode text = some read ↔
      IsNumeral 8 text ∧ read.toNat = value 8 mode.toNat text % 2 ^ 32 := by
  induction text generalizing mode with
  | nil =>
    rw [parseMode, some_inj, ← UInt32.toNat_inj]
    change _ ↔ _ ∧ read.toNat = mode.toNat % 2 ^ 32
    rw [Nat.mod_eq_of_lt mode.toNat_lt]
    exact ⟨fun same => ⟨by simp [IsNumeral], same.symm⟩,
      fun ⟨_, same⟩ => same.symm⟩
  | cons c text ih =>
    have octal : (0x30 ≤ c ∧ c ≤ 0x37) ↔
        0x30 ≤ c.toNat ∧ c.toNat < 0x30 + 8 := by
      rw [UInt8.le_iff_toNat_le, UInt8.le_iff_toNat_le]
      change 48 ≤ c.toNat ∧ c.toNat ≤ 55 ↔ _
      omega
    have numeral : IsNumeral 8 (c :: text) ↔
        (0x30 ≤ c ∧ c ≤ 0x37) ∧ IsNumeral 8 text := by
      rw [octal]
      exact forall_mem_cons
    rw [parseMode, numeral]
    by_cases isOctal : 0x30 ≤ c ∧ c ≤ 0x37
    case neg => simp [isOctal]
    obtain ⟨low, high⟩ := octal.mp isOctal
    rw [if_pos isOctal, ih, and_iff_right isOctal,
      toNat_pushOctal mode low high, value_mod, value_cons]

/-- What a mode makes an entry is in the type bits of its number. -/
theorem modeLink_eq_link
    (entry : TreeEntry)
    (isMode : mode.toNat = value 8 0 entry.mode % 2 ^ 32) :
    modeLink mode (Key.newGitSha1 entry.id) = entry.link := by
  have typeBits {bits : UInt32} {type : Nat}
      (isType : bits.toNat = type * 2 ^ 12) :
      mode &&& 0o170000 = bits ↔ entry.fileType = type := by
    rw [← UInt32.toNat_inj, UInt32.toNat_and, isType]
    change mode.toNat &&& 0o170000 = type * 2 ^ 12 ↔ _
    rw [and_typeMask, isMode, TreeEntry.fileType]
    omega
  unfold modeLink TreeEntry.link
  dsimp only
  simp only [typeBits (show (0o040000 : UInt32).toNat = 0o4 * 2 ^ 12 by decide),
    typeBits (show (0o100000 : UInt32).toNat = 0o10 * 2 ^ 12 by decide),
    typeBits (show (0o120000 : UInt32).toNat = 0o12 * 2 ^ 12 by decide)]

/-- An entry is read from how it is written, and from nothing else. -/
theorem treeEntry_eq_ok_iff :
    treeEntry b = .ok (link, rest) ↔
      ∃ entry : TreeEntry, b = entry.bytes ++ rest ∧ link = entry.link := by
  constructor
  · intro isRead
    unfold treeEntry at isRead
    split at isRead
    case h_1 | h_2 => cases isRead
    case h_3 sp hasMode isSp =>
      obtain ⟨text, afterMode, rfl, -, rfl⟩ :=
        findIdx?_eq_some_iff_field.mp isSp
      simp only [take_left, drop_field] at isRead
      split at isRead
      case h_1 => cases isRead
      case h_2 mode isMode =>
        obtain ⟨octal, isNumber⟩ := parseMode_eq_some_iff.mp isMode
        split at isRead
        case h_1 | h_2 => cases isRead
        case h_3 nul hasName isNul =>
          obtain ⟨name, afterName, rfl, noNul, rfl⟩ :=
            findIdx?_eq_some_iff_field.mp isNul
          simp only [drop_field] at isRead
          split_ifs at isRead with short
          obtain ⟨rfl, rfl⟩ := Prod.mk.inj (Except.ok.inj isRead)
          have hasText : text ≠ [] := fun isEmpty =>
            hasMode (by rw [isEmpty]; rfl)
          have isNamed : name ≠ [] := fun isEmpty =>
            hasName (by rw [isEmpty]; rfl)
          let entry : TreeEntry :=
            ⟨text, name, ⟨afterName.take Key.gitSha1Size,
              length_take_of_le (Nat.not_lt.mp short)⟩,
              hasText, octal, isNamed, noNul⟩
          refine ⟨entry, ?_, modeLink_eq_link entry isNumber⟩
          simp [entry, TreeEntry.bytes]
  · rintro ⟨entry, rfl, rfl⟩
    have hasMode : entry.mode.length ≠ 0 := by
      rw [Ne, length_eq_zero_iff]
      exact entry.mode_ne_nil
    have hasName : entry.name.length ≠ 0 := by
      rw [Ne, length_eq_zero_iff]
      exact entry.name_ne_nil
    have noSpace : (0x20 : UInt8) ∉ entry.mode := fun isSpace =>
      absurd (entry.octal _ isSpace).1 (by decide)
    have text : entry.bytes ++ rest = entry.mode ++ 0x20 ::
        (entry.name ++ 0 :: (entry.id.val ++ rest)) := by
      simp [TreeEntry.bytes]
    unfold treeEntry
    rw [text, findIdx?_field noSpace]
    split
    case h_1 isNone => cases isNone
    case h_2 isZero => exact absurd (some.inj isZero) hasMode
    case h_3 sp _ isSp =>
      obtain rfl := some.inj isSp
      have isMode : parseMode 0 entry.mode =
          some (UInt32.ofNat (value 8 0 entry.mode)) :=
        parseMode_eq_some_iff.mpr ⟨entry.octal, UInt32.toNat_ofNat'⟩
      simp only [take_left, drop_field, isMode]
      rw [findIdx?_field entry.noNul]
      split
      case h_1 isNone => cases isNone
      case h_2 isZero => exact absurd (some.inj isZero) hasName
      case h_3 nul _ isNul =>
        obtain rfl := some.inj isNul
        have long : ¬(entry.id.val ++ rest).length < Key.gitSha1Size := by
          rw [length_append, entry.id.property]
          omega
        simp only [drop_field]
        rw [dif_neg long, ← modeLink_eq_link entry UInt32.toNat_ofNat']
        have taken : (entry.id.val ++ rest).take Key.gitSha1Size =
            entry.id.val :=
          take_left' entry.id.property
        have dropped : (entry.id.val ++ rest).drop Key.gitSha1Size = rest :=
          drop_left' entry.id.property
        simp only [taken, dropped]

theorem TreeEntry.length_bytes_pos (entry : TreeEntry) :
    0 < entry.bytes.length := by
  rw [bytes, length_append, length_cons]
  omega

theorem names_tree_nil_iff :
    Names .tree [] found ↔ [] = found := by
  constructor
  · rintro ⟨entries, isEmpty, rfl⟩
    cases entries with
    | nil => rfl
    | cons entry entries =>
      have length := congrArg List.length isEmpty
      have positive := entry.length_bytes_pos
      rw [flatMap_cons, length_append, length_nil] at length
      omega
  · rintro rfl
    exact ⟨[], rfl, rfl⟩

theorem filterMap_link_cons (entry : TreeEntry) (entries : List TreeEntry) :
    (entry :: entries).filterMap TreeEntry.link =
      entry.link.toList ++ entries.filterMap TreeEntry.link := by
  rw [filterMap_cons]
  cases entry.link <;> rfl

/-- Entries are read until nothing is left. -/
theorem treeLinksWithin_eq_ok_iff
    (enough : b.length ≤ fuel) :
    treeLinksWithin fuel b = .ok found ↔ Names .tree b found := by
  induction fuel generalizing b found with
  | zero =>
    obtain rfl := length_eq_zero_iff.mp (Nat.le_zero.mp enough)
    rw [treeLinksWithin, Except.ok.injEq, names_tree_nil_iff]
  | succ fuel ih =>
    rw [treeLinksWithin]
    by_cases isEmpty : b = []
    · rw [if_pos isEmpty, Except.ok.injEq, isEmpty, names_tree_nil_iff]
    · have fits {entry : TreeEntry} {rest : Bytes}
          (isEntry : b = entry.bytes ++ rest) : rest.length ≤ fuel := by
        have positive := entry.length_bytes_pos
        rw [isEntry, length_append] at enough
        omega
      rw [if_neg isEmpty, bind_eq_ok_iff]
      constructor
      · rintro ⟨⟨link, rest⟩, isEntry, isRest⟩
        obtain ⟨others, isOthers, isFound⟩ := bind_eq_ok_iff.mp isRest
        obtain ⟨entry, isText, rfl⟩ := treeEntry_eq_ok_iff.mp isEntry
        obtain ⟨entries, rfl, rfl⟩ := (ih (fits isText)).mp isOthers
        refine ⟨entry :: entries, ?_, ?_⟩
        · rw [isText, flatMap_cons]
        · rw [filterMap_link_cons]
          exact (Except.ok.inj isFound).symm
      · rintro ⟨entries, isText, rfl⟩
        cases entries with
        | nil => exact absurd isText isEmpty
        | cons entry entries =>
          rw [flatMap_cons] at isText
          refine ⟨_, treeEntry_eq_ok_iff.mpr ⟨entry, isText, rfl⟩,
            bind_eq_ok_iff.mpr ⟨_,
              (ih (fits isText)).mpr ⟨entries, rfl, rfl⟩,
              ?_⟩⟩
          rw [filterMap_link_cons]

/-! ## Objects -/

/-- The links of an object are read exactly when its content names links, and
are those. -/
theorem links_eq_ok_iff
    (isRead : parse data = .ok (kind, content)) :
    links data = .ok found ↔ Names kind content found := by
  rw [links, isRead, ok_bind]
  cases kind with
  | blob =>
    rw [Names, Except.ok.injEq]
    exact eq_comm
  | tree => exact treeLinksWithin_eq_ok_iff le_rfl
  | commit => exact commitLinks_eq_ok_iff
  | tag => exact tagLinks_eq_ok_iff

/-- Framing and parsing are inverse, on any content whose length a slice can
have, and the links of an object are those its content names. -/
theorem frame_and_links :
    (∀ kind content, content.length < 2 ^ 64 →
      parse (encode kind content) = .ok (kind, content)) ∧
    (∀ data kind content, parse data = .ok (kind, content) →
      data = encode kind content) ∧
    ∀ data kind content, parse data = .ok (kind, content) →
      ∀ found, links data = .ok found ↔ Names kind content found := by
  refine ⟨?_, ?_, ?_⟩
  · intro kind content fits
    exact parse_eq_ok_iff.mpr ⟨rfl, fits⟩
  · intro data kind content isRead
    exact (parse_eq_ok_iff.mp isRead).1
  · intro data kind content isRead found
    exact links_eq_ok_iff isRead

end AmberStore.Gitobj

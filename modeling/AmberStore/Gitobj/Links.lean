import AmberStore.KeySpec
import AmberStore.Gitobj
import AmberStore.Lib.Checked

/-!
# What a git object refers to

A commit refers to its tree and its parents, a tree to its entries, a tag to its
target.  The referring object says which of its targets are blobs.
-/

open ByteString Checked

namespace AmberStore.Gitobj

/-- A reference to an object.  A leaf is said to have no links of its own. -/
structure Link where
  key : Key
  leaf : Bool
  deriving DecidableEq

/-- The length of a SHA-1 in hex. -/
abbrev hexLen : Nat := 2 * Key.gitSha1Size

/-- The value of a hex digit of either case. -/
def hexDigit (c : UInt8) : Option UInt8 :=
  if 0x30 ≤ c ∧ c ≤ 0x39 then some (c - 0x30)
  else if 0x61 ≤ c ∧ c ≤ 0x66 then some (c - 0x61 + 10)
  else if 0x41 ≤ c ∧ c ≤ 0x46 then some (c - 0x41 + 10)
  else none

/-- The bytes that pairs of hex digits spell. -/
def unhex : Bytes → Option Bytes
  | high :: low :: rest => do
      let high ← hexDigit high
      let low ← hexDigit low
      let bytes ← unhex rest
      some ((high <<< 4 ||| low) :: bytes)
  | [] => some []
  | [_] => none

/-- What follows a word and a space, if the bytes start with them. -/
def afterWord (word : String) (b : Bytes) : Option Bytes :=
  let start := utf8 word ++ [0x20]
  if start.isPrefixOf b then some (b.drop start.length) else none

/-- Reads a line of a word and an object id. -/
def idLine (b : Bytes) (word : String) : Except Error (Key × Bytes) :=
  match afterWord word b with
  | none => .error (.malformed s!"no \"{word}\" line")
  | some rest =>
    let bad := Error.malformed s!"bad \"{word}\" line"
    if rest.length < hexLen + 1 ∨ byteAt rest hexLen ≠ 0x0a then
      .error bad
    else
      match unhex (rest.take hexLen) with
      | none => .error bad
      | some sum =>
        if sized : sum.length = Key.gitSha1Size then
          .ok (Key.newGitSha1 ⟨sum, sized⟩, rest.drop (hexLen + 1))
        else
          .error bad

/-- The parent lines of a commit; each takes more than one byte. -/
def parentLinks : (fuel : Nat) → Bytes → Except Error (List Link)
  | 0, _ => .ok []
  | fuel + 1, rest =>
    if (utf8 "parent ").length + hexLen < rest.length ∧
        (afterWord "parent" rest).isSome then do
      let (parent, rest) ← idLine rest "parent"
      let links ← parentLinks fuel rest
      .ok (⟨parent, false⟩ :: links)
    else
      .ok []

/-- The tree and the parents of a commit. -/
def commitLinks (b : Bytes) : Except Error (List Link) := do
  let (tree, rest) ← idLine b "tree"
  let parents ← parentLinks rest.length rest
  .ok (⟨tree, false⟩ :: parents)

/-- The target of a tag.  The type ends at a NUL if there is one. -/
def tagLinks (b : Bytes) : Except Error (List Link) := do
  let (target, rest) ← idLine b "object"
  match afterWord "type" rest with
  | none => .error (.malformed "no \"type\" line")
  | some rest =>
    match rest.findIdx? fun c => c = 0x0a with
    | none => .error (.malformed "bad \"type\" line")
    | some nl =>
      match Kind.of ((rest.take nl).takeWhile fun c => c ≠ 0) with
      | none => .error (.malformed "bad \"type\" line")
      | some kind => .ok [⟨target, kind = .blob⟩]

/-- The octal mode that digits spell, shifting the high bits out. -/
def parseMode : (mode : UInt32) → Bytes → Option UInt32
  | mode, [] => some mode
  | mode, c :: rest =>
    if 0x30 ≤ c ∧ c ≤ 0x37 then
      parseMode (mode <<< 3 ||| (c - 0x30).toUInt32) rest
    else
      none

/-- What the type bits of a mode make an entry: a directory, a blob, or a
commit of another repository, which is no link. -/
def modeLink (mode : UInt32) (key : Key) : Option Link :=
  let type_ := mode &&& 0o170000
  if type_ = 0o040000 then some ⟨key, false⟩
  else if type_ = 0o100000 ∨ type_ = 0o120000 then some ⟨key, true⟩
  else none

/-- Reads an entry of a tree: a mode, a name and an object id. -/
def treeEntry (b : Bytes) : Except Error (Option Link × Bytes) :=
  match b.findIdx? fun c => c = 0x20 with
  | none | some 0 => .error (.malformed "tree entry without a mode")
  | some sp =>
    match parseMode 0 (b.take sp) with
    | none =>
      .error (.malformed "tree entry with a mode that is not octal")
    | some mode =>
      let b := b.drop (sp + 1)
      match b.findIdx? fun c => c = 0 with
      | none => .error (.malformed "tree entry without an end to its name")
      | some 0 => .error (.malformed "tree entry with an empty name")
      | some nul =>
        let b := b.drop (nul + 1)
        if sized : b.length < Key.gitSha1Size then
          .error (.malformed "tree entry with a short id")
        else
          let sum : Key.Digest Key.gitSha1Size :=
            ⟨b.take Key.gitSha1Size,
              List.length_take_of_le (Nat.not_lt.mp sized)⟩
          .ok (modeLink mode (Key.newGitSha1 sum), b.drop Key.gitSha1Size)

/-- The entries of a tree; each takes more than one byte. -/
def treeLinksWithin : (fuel : Nat) → Bytes → Except Error (List Link)
  | 0, _ => .ok []
  | fuel + 1, b =>
    if b = [] then
      .ok []
    else do
      let (link, rest) ← treeEntry b
      let links ← treeLinksWithin fuel rest
      .ok (link.toList ++ links)

/-- The entries of a tree. -/
def treeLinks (b : Bytes) : Except Error (List Link) :=
  treeLinksWithin b.length b

/-- The objects a payload refers to, in the order it names them. -/
def links (data : Bytes) : Except Error (List Link) := do
  let (kind, content) ← parse data
  match kind with
  | .blob => .ok []
  | .tree => treeLinks content
  | .commit => commitLinks content
  | .tag => tagLinks content

/-! ## Links are to git objects -/

/-- A key made of a SHA-1 is a git key. -/
theorem type_newGitSha1 (sum : Key.Digest Key.gitSha1Size) :
    (Key.newGitSha1 sum).type_ = some .gitSha1 := by
  rw [Key.type_, Key.header_newGitSha1]
  rfl

/-- The key is a git object's. -/
def IsGit (key : Key) : Prop :=
  key.type_ = some .gitSha1

theorem isGit_of_idLine
    (isRead : idLine b word = .ok (key, rest)) : IsGit key := by
  unfold idLine at isRead
  split at isRead
  case h_1 => cases isRead
  case h_2 =>
    dsimp only at isRead
    split_ifs at isRead
    split at isRead
    case h_1 => cases isRead
    case h_2 =>
      split_ifs at isRead
      obtain ⟨rfl, -⟩ := Prod.mk.inj (Except.ok.inj isRead)
      exact type_newGitSha1 _

variable {links : List Link}

theorem isGit_of_parentLinks
    (isRead : parentLinks fuel rest = .ok links) :
    ∀ link ∈ links, IsGit link.key := by
  induction fuel generalizing rest links with
  | zero =>
    rw [← Except.ok.inj isRead]
    simp
  | succ fuel ih =>
    unfold parentLinks at isRead
    split at isRead
    case isFalse =>
      rw [← Except.ok.inj isRead]
      simp
    case isTrue =>
      obtain ⟨⟨parent, after⟩, isLine, isRest⟩ := bind_eq_ok_iff.mp isRead
      obtain ⟨others, isOthers, same⟩ := bind_eq_ok_iff.mp isRest
      rw [← Except.ok.inj same, List.forall_mem_cons]
      exact ⟨isGit_of_idLine isLine, ih isOthers⟩

theorem isGit_of_commitLinks
    (isRead : commitLinks b = .ok links) :
    ∀ link ∈ links, IsGit link.key := by
  obtain ⟨⟨tree, rest⟩, isTree, isRest⟩ := bind_eq_ok_iff.mp isRead
  obtain ⟨parents, isParents, same⟩ := bind_eq_ok_iff.mp isRest
  rw [← Except.ok.inj same, List.forall_mem_cons]
  exact ⟨isGit_of_idLine isTree, isGit_of_parentLinks isParents⟩

theorem isGit_of_tagLinks
    (isRead : tagLinks b = .ok links) :
    ∀ link ∈ links, IsGit link.key := by
  obtain ⟨⟨target, rest⟩, isTarget, isRest⟩ := bind_eq_ok_iff.mp isRead
  dsimp only at isRest
  split at isRest
  case h_1 => cases isRest
  case h_2 =>
    split at isRest
    case h_1 => cases isRest
    case h_2 =>
      split at isRest
      case h_1 => cases isRest
      case h_2 =>
        rw [← Except.ok.inj isRest, List.forall_mem_singleton]
        exact isGit_of_idLine isTarget

theorem isGit_of_modeLink :
    ∀ link ∈ modeLink mode (Key.newGitSha1 sum), IsGit link.key := by
  intro link isLink
  unfold modeLink at isLink
  dsimp only at isLink
  split_ifs at isLink
  all_goals
    cases isLink
    try exact type_newGitSha1 _

theorem isGit_of_treeEntry
    (isRead : treeEntry b = .ok (link, rest)) :
    ∀ found ∈ link, IsGit found.key := by
  unfold treeEntry at isRead
  split at isRead
  case h_1 | h_2 => cases isRead
  case h_3 =>
    split at isRead
    case h_1 => cases isRead
    case h_2 =>
      dsimp only at isRead
      split at isRead
      case h_1 | h_2 => cases isRead
      case h_3 =>
        split_ifs at isRead
        obtain ⟨rfl, -⟩ := Prod.mk.inj (Except.ok.inj isRead)
        exact isGit_of_modeLink

theorem isGit_of_treeLinksWithin
    (isRead : treeLinksWithin fuel b = .ok links) :
    ∀ link ∈ links, IsGit link.key := by
  induction fuel generalizing b links with
  | zero =>
    rw [← Except.ok.inj isRead]
    simp
  | succ fuel ih =>
    unfold treeLinksWithin at isRead
    split at isRead
    case isTrue =>
      rw [← Except.ok.inj isRead]
      simp
    case isFalse =>
      obtain ⟨⟨link, after⟩, isEntry, isRest⟩ := bind_eq_ok_iff.mp isRead
      obtain ⟨others, isOthers, same⟩ := bind_eq_ok_iff.mp isRest
      rw [← Except.ok.inj same]
      intro found isFound
      rcases List.mem_append.mp isFound with isFirst | isOther
      · exact isGit_of_treeEntry isEntry found (Option.mem_toList.mp isFirst)
      · exact ih isOthers found isOther

/-- Every link of a git object is to a git object. -/
theorem isGit_of_links
    (isRead : Gitobj.links data = .ok links) :
    ∀ link ∈ links, IsGit link.key := by
  obtain ⟨⟨kind, content⟩, -, isLinks⟩ := bind_eq_ok_iff.mp isRead
  cases kind with
  | blob =>
    rw [← Except.ok.inj isLinks]
    simp
  | tree => exact isGit_of_treeLinksWithin isLinks
  | commit => exact isGit_of_commitLinks isLinks
  | tag => exact isGit_of_tagLinks isLinks

end AmberStore.Gitobj

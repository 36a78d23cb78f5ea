import AmberStore.Lib.ByteString
import AmberStore.Lib.Checked

/-!
# File name patterns

The matcher for one path component.  A pattern is cut at its stars by a scanner
that only tracks brackets; each chunk between stars is then matched by a loop
that parses it as it goes, and that goes on parsing after the match has failed.
-/

open ByteString

namespace AmberStore.Amberignore

/-! ## Characters -/

abbrev asterisk : UInt8 := 0x2a
abbrev backslash : UInt8 := 0x5c
abbrev bracketOpen : UInt8 := 0x5b
abbrev bracketClose : UInt8 := 0x5d
abbrev caret : UInt8 := 0x5e
abbrev hyphen : UInt8 := 0x2d
abbrev question : UInt8 := 0x3f
abbrev separator : UInt8 := 0x2f

abbrev runeError : Nat := 0xfffd

/-- For a leading byte, how many bytes its character takes and the range of the
second one. -/
def leadingByte (b0 : UInt8) : Option (Nat × UInt8 × UInt8) :=
  if 0xc2 ≤ b0 ∧ b0 ≤ 0xdf then some (2, 0x80, 0xbf)
  else if b0 = 0xe0 then some (3, 0xa0, 0xbf)
  else if (0xe1 ≤ b0 ∧ b0 ≤ 0xec) ∨ (0xee ≤ b0 ∧ b0 ≤ 0xef) then
    some (3, 0x80, 0xbf)
  else if b0 = 0xed then some (3, 0x80, 0x9f)
  else if b0 = 0xf0 then some (4, 0x90, 0xbf)
  else if 0xf1 ≤ b0 ∧ b0 ≤ 0xf3 then some (4, 0x80, 0xbf)
  else if b0 = 0xf4 then some (4, 0x80, 0x8f)
  else none

/-- The low six bits. -/
def sixBits (byte : UInt8) : Nat := (byte &&& 0x3f).toNat

/-- The first character and how many bytes it takes: one for what is not a
character, none at the end. -/
def decodeRune (s : Bytes) : Nat × Nat :=
  match s with
  | [] => (runeError, 0)
  | b0 :: _ =>
    if b0 < 0x80 then (b0.toNat, 1)
    else
      match leadingByte b0 with
      | none => (runeError, 1)
      | some (size, lo, hi) =>
        let b1 := byteAt s 1
        let b2 := byteAt s 2
        let b3 := byteAt s 3
        if s.length < size then (runeError, 1)
        else if ¬(lo ≤ b1 ∧ b1 ≤ hi) then (runeError, 1)
        else if size = 2 then
          (((b0 &&& 0x1f).toNat <<< 6) ||| sixBits b1, 2)
        else if ¬(0x80 ≤ b2 ∧ b2 ≤ 0xbf) then (runeError, 1)
        else if size = 3 then
          (((b0 &&& 0x0f).toNat <<< 12) ||| (sixBits b1 <<< 6) |||
            sixBits b2, 3)
        else if ¬(0x80 ≤ b3 ∧ b3 ≤ 0xbf) then (runeError, 1)
        else
          (((b0 &&& 0x07).toNat <<< 18) ||| (sixBits b1 <<< 12) |||
            (sixBits b2 <<< 6) ||| sixBits b3, 4)

/-! ## Chunks -/

/-- The pattern is malformed. -/
structure BadPattern where
  deriving DecidableEq, Repr

/-- The part of a pattern up to a star outside brackets, and the rest. -/
def scanFrom : (inrange : Bool) → Bytes → Bytes × Bytes
  | _, [] => ([], [])
  | inrange, c :: rest =>
    if c = backslash then
      match rest with
      | [] => ([c], [])
      | escaped :: rest =>
        let scanned := scanFrom inrange rest
        (c :: escaped :: scanned.1, scanned.2)
    else if c = asterisk ∧ inrange = false then
      ([], c :: rest)
    else
      let scanned := scanFrom
        (if c = bracketOpen then true
          else if c = bracketClose then false else inrange) rest
      (c :: scanned.1, scanned.2)

/-- The next chunk of a pattern: whether stars go before it, the chunk, and the
rest of the pattern. -/
def scanChunk (pattern : Bytes) : Bool × Bytes × Bytes :=
  let scanned := scanFrom false (pattern.dropWhile (· == asterisk))
  (pattern.head? == some asterisk, scanned.1, scanned.2)

/-- The character at the start of what is left of a class. -/
def getRune (chunk : Bytes) : Except BadPattern (Nat × Bytes) :=
  if chunk.isEmpty then .error ⟨⟩
  else
    let rune := decodeRune chunk
    if rune.1 = runeError ∧ rune.2 = 1 then .error ⟨⟩
    else
      let nchunk := chunk.drop rune.2
      if nchunk.isEmpty then .error ⟨⟩ else .ok (rune.1, nchunk)

/-- The possibly escaped character at the start of what is left of a class. -/
def getEsc : Bytes → Except BadPattern (Nat × Bytes)
  | [] => .error ⟨⟩
  | c :: rest =>
    if c = hyphen ∨ c = bracketClose then .error ⟨⟩
    else if c = backslash then getRune rest
    else getRune (c :: rest)

/-- The end of a range of a class: what follows a hyphen, or its start. -/
def getEnd (lo : Nat) (chunk : Bytes) : Except BadPattern (Nat × Bytes) :=
  if chunk.head? = some hyphen then getEsc chunk.tail else .ok (lo, chunk)

/-- The ranges of a class up to its bracket: whether one of them holds the
character, and what follows the class.  Each round takes a byte at least. -/
def classRanges (r : Nat) : (rounds : Nat) → (chunk : Bytes) →
    (matched : Bool) → (nrange : Nat) → Except BadPattern (Bool × Bytes)
  | 0, _, _, _ => .error ⟨⟩
  | rounds + 1, chunk, matched, nrange =>
    if chunk.head? = some bracketClose ∧ 0 < nrange then
      .ok (matched, chunk.tail)
    else do
      let lo ← getEsc chunk
      let hi ← getEnd lo.1 lo.2
      classRanges r rounds hi.2
        (matched || decide (lo.1 ≤ r ∧ r ≤ hi.1)) (nrange + 1)

/-- Matches a chunk with the start of a name, and gives what is left of the name
if it does match.  Each round takes a byte of the chunk at least. -/
def matchFrom : (rounds : Nat) → (chunk : Bytes) → (failed : Bool) →
    (s : Bytes) → Except BadPattern (Option Bytes)
  | 0, _, failed, s => .ok (if failed then none else some s)
  | _ + 1, [], failed, s => .ok (if failed then none else some s)
  | rounds + 1, c :: chunk, failed, s =>
    let failed := failed || s.isEmpty
    if c = bracketOpen then do
      let rune := if failed then (0, 0) else decodeRune s
      let negated := chunk.head? == some caret
      let chunk := if negated then chunk.tail else chunk
      let ranges ← classRanges rune.1 (chunk.length + 1) chunk false 0
      matchFrom rounds ranges.2 (failed || ranges.1 == negated)
        (s.drop rune.2)
    else if c = question then
      if failed then
        matchFrom rounds chunk failed s
      else
        matchFrom rounds chunk (s.head? == some separator)
          (s.drop (decodeRune s).2)
    else if c = backslash then
      match chunk with
      | [] => .error ⟨⟩
      | lit :: chunk =>
        if failed then
          matchFrom rounds chunk failed s
        else
          matchFrom rounds chunk (s.head? != some lit) s.tail
    else if failed then
      matchFrom rounds chunk failed s
    else
      matchFrom rounds chunk (s.head? != some c) s.tail

/-- Matches a chunk with the start of a name. -/
def matchChunk (chunk s : Bytes) : Except BadPattern (Option Bytes) :=
  matchFrom chunk.length chunk false s

/-! ## The matcher -/

/-- Matches a chunk after skipping a byte or more, but no separator.  The last
chunk has to match to the end of the name. -/
def skipMatch (chunk : Bytes) (last : Bool) :
    Bytes → Except BadPattern (Option Bytes)
  | [] => .ok none
  | c :: name =>
    if c = separator then .ok none
    else do
      match ← matchChunk chunk name with
      | some t =>
        if last && !t.isEmpty then skipMatch chunk last name
        else .ok (some t)
      | none => skipMatch chunk last name

/-- What is left of a name after a chunk: at its start, or after stars
anywhere. -/
def placeChunk (star : Bool) (chunk : Bytes) (last : Bool) (name : Bytes) :
    Except BadPattern (Option Bytes) := do
  let here ← matchChunk chunk name
  match here.filter fun t => t.isEmpty || !last with
  | some t => .ok (some t)
  | none => if star then skipMatch chunk last name else .ok none

/-- The rounds of the matcher, each for a chunk of the pattern. -/
def fmatchFrom : (rounds : Nat) → (pattern name : Bytes) →
    Except BadPattern Bool
  | 0, _, name => .ok name.isEmpty
  | rounds + 1, pattern, name =>
    if pattern.isEmpty then .ok name.isEmpty
    else
      let (star, chunk, rest) := scanChunk pattern
      if star && chunk.isEmpty then .ok (!name.contains separator)
      else do
        match ← placeChunk star chunk rest.isEmpty name with
        | some t => fmatchFrom rounds rest t
        | none => .ok false

/-- Matches a name with a pattern. -/
def fmatch (pattern name : Bytes) : Except BadPattern Bool :=
  fmatchFrom pattern.length pattern name

end AmberStore.Amberignore

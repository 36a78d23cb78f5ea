import AmberStore.Amberignore.Fmatch
import Mathlib.Data.List.DropRight

/-!
# Patterns of ignore files

A line of an ignore file as a pattern, and what the pattern says of a path.
-/

open ByteString

namespace AmberStore.Amberignore

/-- A pattern of an ignore file: the directory of the file, and the parts of the
pattern between its slashes. -/
structure Pattern where
  domain : List Bytes
  parts : List Bytes
  inclusion : Bool
  dirOnly : Bool
  isGlob : Bool
  deriving DecidableEq, Repr

abbrev space : UInt8 := 0x20
abbrev exclamation : UInt8 := 0x21

/-- The part that stands for any components. -/
abbrev doubleStar : Bytes := [asterisk, asterisk]

/-- Whether two stars stand together. -/
def hasDoubleStar : Bytes → Bool
  | a :: b :: rest =>
    (a == asterisk && b == asterisk) || hasDoubleStar (b :: rest)
  | _ => false

/-- The spaces at the end of a pattern, the last of them not escaped, are no
part of it. -/
def trimSpaces (p : Bytes) : Bytes :=
  if [backslash, space].isSuffixOf p then p else p.rdropWhile (· == space)

namespace Pattern

/-- A pattern of a line of an ignore file. -/
def parse (p : Bytes) (domain : List Bytes) : Pattern :=
  let inclusion := p.head? == some exclamation
  let p := if inclusion then p.tail else p
  let p := trimSpaces p
  let dirOnly := p.getLast? == some separator
  let p := if dirOnly then p.dropLast else p
  { domain := domain
    parts := p.splitOn separator
    inclusion := inclusion
    dirOnly := dirOnly
    isGlob := p.contains separator }

/-- Goes over components to the first that matches: whether one does, and the
components after it.  Nothing is returned for a malformed part. -/
def traverse (part : Bytes) : (matched : Bool) → List Bytes →
    Option (Bool × List Bytes)
  | matched, [] => some (matched, [])
  | matched, name :: path =>
    match fmatch part name with
    | .error _ => none
    | .ok true => some (true, path)
    | .ok false =>
      traverse part (if path.isEmpty then false else matched) path

/-- Matches parts with components in sequence: whether they match, and the
components after them. -/
def globFrom : (parts : List Bytes) → (path : List Bytes) →
    (matched canTraverse : Bool) → Option (Bool × List Bytes)
  | [], path, matched, _ => some (matched, path)
  | part :: parts, path, matched, canTraverse =>
    if part.isEmpty then
      globFrom parts path matched false
    else if part = doubleStar then
      if parts.isEmpty then some (matched, path)
      else globFrom parts path matched true
    else if hasDoubleStar part then
      none
    else
      match path with
      | [] => none
      | name :: later =>
        if canTraverse then
          match traverse part matched path with
          | none => none
          | some (matched, path) => globFrom parts path matched false
        else
          match fmatch part name with
          | .ok true => globFrom parts later true false
          | _ => none

/-- A pattern of several parts: they match components in sequence. -/
def globMatch (pattern : Pattern) (path : List Bytes) (isDir : Bool) : Bool :=
  match globFrom pattern.parts path false false with
  | none => false
  | some (matched, path) =>
    matched && !(pattern.dirOnly && !isDir && path.isEmpty)

end Pattern

end AmberStore.Amberignore

import AmberStore.Lib.LexicalPath

/-!
# Paths of archive members

Cleaning and joining paths bytewise.  Cleaning goes over the path once and keeps
what it has written so far; a parent cuts that back to its last slash, but never
into the parents it begins with.
-/

open ByteString LexicalPath

namespace AmberStore.Tar

/-- Goes back from a position to a slash, or to the end of the parents. -/
def cutBack (out : Bytes) (dotdot : Nat) : (w : Nat) → Nat
  | 0 => 0
  | w + 1 =>
    if dotdot < w + 1 ∧ byteAt out (w + 1) ≠ slash then cutBack out dotdot w
    else w + 1

/-- What is written before a further element. -/
def withSlash (rooted : Bool) (out : Bytes) : Bytes :=
  if (rooted ∧ out.length ≠ 1) ∨ (¬rooted ∧ out ≠ []) then out ++ [slash]
  else out

/-- The loop of cleaning: what is left of the path, what is written, and how
much of that are parents.  Each round takes a byte at least. -/
def cleanFrom (rooted : Bool) : (rounds : Nat) → (rest out : Bytes) →
    (dotdot : Nat) → Bytes
  | 0, _, out, _ => out
  | _ + 1, [], out, _ => out
  | rounds + 1, byte :: rest, out, dotdot =>
    if byte = slash then
      cleanFrom rooted rounds rest out dotdot
    else if byte = dot ∧ (rest = [] ∨ rest.head? = some slash) then
      cleanFrom rooted rounds rest out dotdot
    else if byte = dot ∧ rest.head? = some dot ∧
        (rest.tail = [] ∨ rest.tail.head? = some slash) then
      if dotdot < out.length then
        cleanFrom rooted rounds rest.tail
          (out.take (cutBack out dotdot (out.length - 1))) dotdot
      else if rooted then
        cleanFrom rooted rounds rest.tail out dotdot
      else
        let out := (if out = [] then out else out ++ [slash]) ++ [dot, dot]
        cleanFrom rooted rounds rest.tail out out.length
    else
      cleanFrom rooted rounds ((byte :: rest).dropWhile (· != slash))
        (withSlash rooted out ++ (byte :: rest).takeWhile (· != slash))
        dotdot

/-- The shortest path that names the same, as far as names tell. -/
def pathClean (path : Bytes) : Bytes :=
  if path = [] then [dot]
  else
    let rooted := path.head? == some slash
    let out :=
      if rooted then cleanFrom rooted path.length path.tail [slash] 1
      else cleanFrom rooted path.length path [] 0
    if out = [] then [dot] else out

/-- Joins elements from the first that is not empty on. -/
def pathJoin : List Bytes → Bytes
  | [] => []
  | elem :: elems =>
    if elem = [] then pathJoin elems
    else pathClean ([slash].intercalate (elem :: elems))

/-- The name of a member leads out of the destination. -/
inductive NameError
  | unsafeName (name : Bytes)
  deriving DecidableEq

/-- The path of a member under the destination. -/
def safeJoin (dest name : Bytes) : Except NameError Bytes :=
  if (name.splitOn slash).any (· == dotDot) then .error (.unsafeName name)
  else
    let clean := pathClean (slash :: name)
    let target := pathJoin [dest, clean]
    if target ≠ dest ∧ ¬(dest ++ [slash]).isPrefixOf target then
      .error (.unsafeName name)
    else .ok target

end AmberStore.Tar

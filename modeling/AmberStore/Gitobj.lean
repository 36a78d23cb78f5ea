import AmberStore.Key

/-!
# Git objects

The store holds a git object as the exact bytes git takes the SHA-1 of: its
kind, a space, the decimal size of its content, a NUL and the content.

SHA-1 is a parameter.  It gives no digest for bytes that carry the marks of a
collision attack.
-/

open ByteString

namespace AmberStore.Gitobj

/-- Why bytes are not the git object a key names. -/
inductive Error
  | malformed (detail : String)
  | mismatch (want got : Key)
  | collision
  deriving DecidableEq

/-- What git calls an object's type. -/
inductive Kind
  | blob
  | tree
  | commit
  | tag
  deriving DecidableEq, Repr

/-- The name git frames an object with. -/
def Kind.name : Kind → Bytes
  | blob => [0x62, 0x6c, 0x6f, 0x62]
  | tree => [0x74, 0x72, 0x65, 0x65]
  | commit => [0x63, 0x6f, 0x6d, 0x6d, 0x69, 0x74]
  | tag => [0x74, 0x61, 0x67]

/-- The kind of a name. -/
def Kind.of (name : Bytes) : Option Kind :=
  [Kind.blob, .tree, .commit, .tag].find? fun kind => kind.name = name

/-- Whether a byte is a decimal digit. -/
def isDigit (byte : UInt8) : Bool :=
  0x30 ≤ byte ∧ byte ≤ 0x39

/-- The number that digits spell after those already read, if it fits 64
bits. -/
def parseDigits : (number : Nat) → Bytes → Option Nat
  | number, [] => some number
  | number, byte :: bytes =>
    if ¬isDigit byte then
      none
    else if number * 10 + (byte.toNat - 0x30) < 2 ^ 64 then
      parseDigits (number * 10 + (byte.toNat - 0x30)) bytes
    else
      none

/-- Reads a decimal number with no leading zero and no sign. -/
def parseSize (bytes : Bytes) : Option Nat :=
  if bytes = [] ∨ (byteAt bytes 0 = 0x30 ∧ bytes.length > 1) then none
  else parseDigits 0 bytes

/-- Splits a payload into its kind and content. -/
def parse (data : Bytes) : Except Error (Kind × Bytes) :=
  match data.findIdx? fun byte => byte = 0x20 with
  | none => .error (.malformed "no space after the kind")
  | some sp =>
    match Kind.of (data.take sp) with
    | none => .error (.malformed "unknown kind")
    | some kind =>
      let rest := data.drop (sp + 1)
      match rest.findIdx? fun byte => byte = 0 with
      | none => .error (.malformed "no NUL after the size")
      | some nul =>
        match parseSize (rest.take nul) with
        | none => .error (.malformed "bad size")
        | some size =>
          let content := rest.drop (nul + 1)
          if size ≠ content.length then
            .error (.malformed
              s!"size {size}, content of {content.length} bytes")
          else
            .ok (kind, content)

section Sha1

variable (sha1 : Bytes → Option (Key.Digest Key.gitSha1Size))

/-- The key of a payload, whatever its frame. -/
def keyOf (data : Bytes) : Except Error Key :=
  match sha1 data with
  | none => .error .collision
  | some sum => .ok (Key.newGitSha1 sum)

/-- Whether a payload is the object a key names. -/
def verify (key : Key) (data : Bytes) : Except Error Unit := do
  let want ← keyOf sha1 data
  if want ≠ key then
    .error (.mismatch want key)
  else do
    let _ ← parse data
    .ok ()

end Sha1

end AmberStore.Gitobj

import AmberStore.Fstree.Links
import AmberStore.Lib.Loop
import AmberStore.Packstore.MarkSet

/-!
# The collector's walks

The mark walks every root into one mark set and prunes at what is marked; a git
key has a second bit, because a link may have called it a blob.  The other walk
looks for one key below a root.  Both keep the links still to look at on a
stack, whose top is the head of the list.
-/

open ByteString

namespace AmberStore.Gc

open Fstree (links linkTo ChildKeysError)
open Gitobj (Link)
open Loop (Next)
open Packstore (MarkSet)

/-- Why a walk fails. -/
inductive Error (ε : Type)
  | canceled
  | missingFromStore (key : Key)
  | objects (source : ε)
  | children (source : ChildKeysError)

/-- The links of an object. -/
def readLinks {ε : Type} (get : Key → Except ε Bytes) (k : Key) :
    Except (Error ε) (List Link) := do
  let data ← (get k).mapError .objects
  (links k data).mapError .children

/-! ## The mark -/

section Mark

variable {ε : Type} {crc32c : Bytes → UInt32} (hashing : BinaryFuse.Hashing)
variable (getVerified : Key → Except ε Bytes)

/-- A mark below one root. -/
structure Marking (crc32c : Bytes → UInt32) where
  live : MarkSet crc32c
  stack : List Link
  /-- How many links were taken off the stack. -/
  pops : Nat

/-- Whether the links of a key are to be followed now: the mark is new or, for
a git key, its links were not followed yet. -/
def enter (live : MarkSet crc32c) (newly : Bool) (k : Key) :
    Bool × MarkSet crc32c :=
  if k.type_ = some .gitSha1 then live.markWalked hashing k else (newly, live)

/-- Takes a link off the stack. -/
def markStep (canceled : Nat → Bool) (marking : Marking crc32c) :
    Next (Marking crc32c) (Except (Error ε) (MarkSet crc32c)) :=
  match marking.stack with
  | [] => .done (.ok marking.live)
  | l :: stack =>
    if marking.pops % 1024 = 0 ∧ canceled marking.pops then
      .done (.error .canceled)
    else
      let ((newly, present), live) := marking.live.mark hashing l.key
      if !present then
        .done (.error (.missingFromStore l.key))
      else if l.leaf then
        .more ⟨live, stack, marking.pops + 1⟩
      else
        let (newly, live) := enter hashing live newly l.key
        if !newly then
          .more ⟨live, stack, marking.pops + 1⟩
        else
          match readLinks getVerified l.key with
          | .error error => .done (.error error)
          | .ok found => .more ⟨live, found.reverse ++ stack, marking.pops + 1⟩

/-- Marks everything below a root. -/
def markFrom (fuel : Nat) (canceled : Nat → Bool) (live : MarkSet crc32c)
    (root : Key) : Option (Except (Error ε) (MarkSet crc32c)) :=
  Loop.run (markStep hashing getVerified canceled) fuel ⟨live, [linkTo root], 0⟩

/-- Walks every root into a mark set.  The walk from each root may be canceled
at times of its own. -/
def markLive (fuel : Nat) (live : MarkSet crc32c) :
    List (Key × (Nat → Bool)) → Option (Except (Error ε) (MarkSet crc32c))
  | [] => some (.ok live)
  | (root, canceled) :: roots =>
    match markFrom hashing getVerified fuel canceled live root with
    | none => none
    | some (.error error) => some (.error error)
    | some (.ok live) => markLive fuel live roots

end Mark

/-! ## The search -/

section Search

variable {ε : Type} (get : Key → Except ε Bytes)

/-- A search between two links. -/
structure Search where
  read : Key → Bool
  stack : List Link

/-- Takes a link off the stack. -/
def reachesStep (k : Key) (search : Search) :
    Next Search (Except (Error ε) Bool) :=
  match search.stack with
  | [] => .done (.ok false)
  | cur :: stack =>
    if cur.key = k then
      .done (.ok true)
    else if cur.leaf || search.read cur.key then
      .more ⟨search.read, stack⟩
    else
      match readLinks get cur.key with
      | .error error => .done (.error error)
      | .ok found =>
        .more ⟨Function.update search.read cur.key true, found.reverse ++ stack⟩

/-- Whether a root's tree holds a key. -/
def reaches (fuel : Nat) (root k : Key) : Option (Except (Error ε) Bool) :=
  Loop.run (reachesStep get k) fuel ⟨fun _ => false, [linkTo root]⟩

end Search

end AmberStore.Gc

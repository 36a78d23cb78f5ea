import AmberStore.Fstree.Links
import AmberStore.Lib.Loop

/-!
# Walks over the object graph

The two breadth-first walks: the keys of everything reachable, and the check
that it is all there.  A level's objects are fetched in parallel and put
together in order, so that a level is one step.
-/

open ByteString

namespace AmberStore.Fstree

open Gitobj (Link)
open Loop (Next)

/-- Why a walk fails. -/
inductive WalkError (ε : Type)
  | read (key : Key) (source : ε)
  | decodeDirLeaf (key : Key) (source : Error)
  | decodeDirNode (key : Key) (source : Error)
  | childKey (key : Key) (source : Key.Error)
  | outOfOrder (key : Key) (entry prev : Bytes)
  | notDirObject (key : Key)
  | notFound (name : Bytes)
  | badLimit (limit : Nat)
  | children (source : ChildKeysError)
  | missing (key : Key)
  | has (source : ε)
  | contentRead (key : Key) (source : ε)
  | notContentObject (key : Key)
  | codec (source : Error)
  | dotDot (path : Bytes)
  | notDir (name : Bytes)
  | contentKey (name : Bytes) (source : Key.Error)
  deriving DecidableEq

/-! ## What a walk has seen -/

/-- Every key that was met, and whether it was sent to be read. -/
abbrev Visits := Key → Option Bool

/-- Records a link: whether the key is new, and whether there is something to
do for the link. -/
def Visits.visit (seen : Visits) (l : Link) : (Bool × Bool) × Visits :=
  match seen l.key with
  | some read =>
    if l.leaf || read then ((false, false), seen)
    else ((false, true), Function.update seen l.key (some (!l.leaf)))
  | none => ((true, true), Function.update seen l.key (some (!l.leaf)))

/-- Records links in order: the new keys, and the links there is something to
do for. -/
def Visits.visitAll (seen : Visits) :
    List Link → Visits × List Key × List Link
  | [] => (seen, [], [])
  | l :: rest =>
    let ((isNew, act), seen) := seen.visit l
    let (seen, news, acts) := visitAll seen rest
    (seen, if isNew then l.key :: news else news,
      if act then l :: acts else acts)

section Walks

variable {ε : Type} (get : Key → Except ε Bytes)

/-- Fetches the links of an object. -/
def fetch (k : Key) : Except (WalkError ε) (List Link) := do
  let data ← (get k).mapError (.read k)
  (links k data).mapError .children

/-! ## Everything reachable -/

/-- A walk between two levels: what it has seen, the keys in the order they
were met, and the keys to read next. -/
structure Sweep (α : Type) where
  seen : Visits
  out : List Key
  frontier : List α

/-- Nothing seen. -/
def Visits.empty : Visits := fun _ => none

/-- One level of the walk. -/
def reachableStep (sweep : Sweep Key) :
    Next (Sweep Key) (Except (WalkError ε) (List Key)) :=
  if sweep.frontier.isEmpty then
    .done (.ok sweep.out)
  else
    match sweep.frontier.mapM (fetch get) with
    | .error error => .done (.error error)
    | .ok childLists =>
      let (seen, news, acts) := sweep.seen.visitAll childLists.flatten
      .more ⟨seen, sweep.out ++ news,
        (acts.filter fun l => !l.leaf).map Link.key⟩

/-- The start of the walk. -/
def reachableStart (root : Key) : Sweep Key :=
  let first := linkTo root
  ⟨(Visits.empty.visit first).2, [root], if first.leaf then [] else [root]⟩

/-- The keys of every object reachable from a root, the root first. -/
def reachableKeys (fuel : Nat) (root : Key) :
    Option (Except (WalkError ε) (List Key)) :=
  Loop.run (reachableStep get) fuel (reachableStart root)

/-! ## Completeness -/

variable (has : Key → Except ε Bool)

/-- Looks at an object: a leaf is tested for presence, any other is read. -/
def inspect (l : Link) : Except (WalkError ε) (List Link) :=
  if l.leaf then
    match has l.key with
    | .ok true => .ok []
    | .ok false => .error (.missing l.key)
    | .error source => .error (.has source)
  else
    fetch get l.key

/-- One level of the check. -/
def completeStep (sweep : Sweep Link) :
    Next (Sweep Link) (Except (WalkError ε) (List Key)) :=
  if sweep.frontier.isEmpty then
    .done (.ok sweep.out)
  else
    match sweep.frontier.mapM (inspect get has) with
    | .error error => .done (.error error)
    | .ok results =>
      let (seen, news, acts) := sweep.seen.visitAll results.flatten
      .more ⟨seen, sweep.out ++ news, acts⟩

/-- The start of the check. -/
def completeStart (root : Key) : Sweep Link :=
  let first := linkTo root
  ⟨(Visits.empty.visit first).2, [root], [first]⟩

/-- Checks that every object reachable from a root is there, and returns the
keys, the root first. -/
def checkComplete (fuel : Nat) (root : Key) :
    Option (Except (WalkError ε) (List Key)) :=
  Loop.run (completeStep get has) fuel (completeStart root)

end Walks

end AmberStore.Fstree

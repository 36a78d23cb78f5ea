import AmberStore.Lib.Transaction
import AmberStore.Reference

/-!
# The reference store

References are kept as rows of a table, a record under each name.  Every write
is a transaction of the database; the optimistic ones first check that the
references they change are where the caller saw them.
-/

open ByteString Transaction Function

namespace AmberStore.Refstore

inductive Error
  | notFound
  | conflict
  | backend (message : String)
  | currentRecord (name : Bytes) (source : Reference.Error)

/-- The table: the record under each name. -/
abbrev Refs := Bytes → Option Bytes

/-- A record to be stored, and its name. -/
structure Record where
  name : Bytes
  data : Bytes
  deriving DecidableEq

section Store

variable (faults : Faults Error)

/-! ## Statements -/

def getRecord (name : Bytes) : Program Refs Error (Option Bytes) :=
  statement faults fun refs => (refs name, refs)

def putRecord (name record : Bytes) : Program Refs Error Unit :=
  statement faults fun refs => ((), update refs name (some record))

/-- Stores a record under a name that has none; gives the rows changed. -/
def createRecord (name record : Bytes) : Program Refs Error Nat :=
  statement faults fun refs =>
    if (refs name).isSome then (0, refs)
    else (1, update refs name (some record))

/-- Replaces the record of a name if it is the old one. -/
def replaceRecord (record name old : Bytes) : Program Refs Error Nat :=
  statement faults fun refs =>
    if refs name = some old then
      (1, update refs name (some record))
    else (0, refs)

/-- Removes a name; gives the rows removed. -/
def deleteRecord (name : Bytes) : Program Refs Error Nat :=
  statement faults fun refs =>
    (if (refs name).isSome then 1 else 0, update refs name none)

/-- Removes a name if its record is the old one. -/
def deleteRecordIf (name old : Bytes) : Program Refs Error Nat :=
  statement faults fun refs =>
    if refs name = some old then (1, update refs name none)
    else (0, refs)

/-! ## Plain writes -/

def put (name record : Bytes) : Refs → Except Error Unit × Refs :=
  transaction faults (putRecord faults name record)

def delete (name : Bytes) : Refs → Except Error Unit × Refs :=
  transaction faults do
    let rows ← deleteRecord faults name
    if rows = 0 then fail .notFound else pure ()

/-! ## Optimistic writes -/

/-- The record under a name, and what it decodes to. -/
def current (name : Bytes) :
    Program Refs Error (Option (Bytes × Reference)) := do
  match ← getRecord faults name with
  | none => pure none
  | some record =>
    match Reference.decode record with
    | .error source => fail (.currentRecord name source)
    | .ok decoded => pure (some (record, decoded))

def pointsAt (reference : Reference) (key : Key) : Bool :=
  reference.key == key.bytes

/-- Changes a name that is at the expected key.  The change is guarded by the
record just read, and gives the rows it changed. -/
def ifAt (name : Bytes) (old : Key) (change : Bytes → Program Refs Error Nat) :
    Refs → Except Error Unit × Refs :=
  transaction faults do
    match ← current faults name with
    | none => fail .notFound
    | some (record, reference) =>
      if pointsAt reference old then
        let rows ← change record
        if rows = 1 then pure () else fail .conflict
      else fail .conflict

def compareAndSwap (name : Bytes) (old : Key) (record : Bytes) :
    Refs → Except Error Unit × Refs :=
  ifAt faults name old fun current => replaceRecord faults record name current

def compareAndDelete (name : Bytes) (old : Key) :
    Refs → Except Error Unit × Refs :=
  ifAt faults name old fun current => deleteRecordIf faults name current

def create (name record : Bytes) : Refs → Except Error Unit × Refs :=
  transaction faults do
    let rows ← createRecord faults name record
    if rows = 0 then fail .conflict else pure ()

/-- A withdrawn name is gone, or where the caller saw it. -/
def checkName (name : Bytes × Key) : Program Refs Error Unit := do
  match ← current faults name.1 with
  | none => pure ()
  | some (_, reference) =>
    if pointsAt reference name.2 then pure () else fail .conflict

/-- A published name is where the caller saw it. -/
def checkRecord (record : Record × Option Key) : Program Refs Error Unit := do
  match ← current faults record.1.name, record.2 with
  | none, none => pure ()
  | some (_, reference), some old =>
    if pointsAt reference old then pure () else fail .conflict
  | _, _ => fail .conflict

/-- Withdraws names and publishes records at once, if all are where the caller
saw them.  Gives the rows the withdrawals removed. -/
def updateBatch
    (records : List (Record × Option Key)) (names : List (Bytes × Key))
    (refs : Refs) : Except Error Nat × Refs :=
  if records.isEmpty && names.isEmpty then (.ok 0, refs)
  else
    transaction faults (do
      names.forM (checkName faults)
      records.forM (checkRecord faults)
      let removed ← names.foldlM
        (fun removed name => do
          let rows ← deleteRecord faults name.1
          pure (removed + rows)) 0
      records.forM fun record =>
        putRecord faults record.1.name record.1.data
      pure removed) refs

end Store

end AmberStore.Refstore

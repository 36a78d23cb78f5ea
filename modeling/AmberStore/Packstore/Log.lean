import AmberStore.Amberpack
import Mathlib.Logic.Function.Basic

/-!
# Record logs

The body of a segment is a log of records.  Every byte string splits into the
records at its front and a rest that does not start with a record, and the
index of a log keeps the last record of each key.
-/

open ByteString List

namespace AmberStore.Packstore

open Amberpack

/-- Locates one record inside an active segment. -/
structure ActiveLoc where
  off : Nat
  flags : UInt8
  ulen : Nat
  slen : Nat
  deriving DecidableEq

/-- Where each key's record is. -/
abbrev Index := Key → Option ActiveLoc

namespace Index

/-- The index of nothing. -/
def empty : Index := fun _ => none

/-- Locates a key, in place of any earlier record of it. -/
def insert (index : Index) (key : Key) (loc : ActiveLoc) : Index :=
  Function.update index key (some loc)

/-- An index whose entries win over those of an older one. -/
def atop (newer older : Index) : Index :=
  fun key => (newer key).or (older key)

@[simp] theorem atop_empty (index : Index) : index.atop empty = index := by
  funext key
  exact Option.or_none

@[simp] theorem empty_atop (index : Index) : empty.atop index = index := by
  funext key
  exact Option.none_or

theorem atop_assoc (first second third : Index) :
    (first.atop second).atop third = first.atop (second.atop third) := by
  funext key
  exact Option.or_assoc

theorem insert_eq (index : Index) (key : Key) (loc : ActiveLoc) :
    index.insert key loc = (empty.insert key loc).atop index := by
  funext other
  by_cases same : other = key
  · subst same
    simp [insert, atop]
  · simp [insert, atop, empty, same]

end Index

/-- Where a parsed record lies. -/
def locOf (off : Nat) (record : Record) : ActiveLoc :=
  ⟨off, record.flags, record.ulen, record.slen⟩

/-- The index of a log that starts at an offset: each key at its last
record. -/
def indexFrom : (off : Nat) → List StoredRecord → Index
  | _, [] => .empty
  | off, stored :: records =>
    (indexFrom (off + stored.header.length) records).atop
      (Index.empty.insert stored.key (locOf off stored.header))

section Log

variable (crc32c : Bytes → UInt32)

/-- The bytes of a log. -/
def logBytes (records : List StoredRecord) : Bytes :=
  records.flatMap (StoredRecord.encode crc32c)

/-- No record starts the bytes. -/
def NoRecord (bytes : Bytes) : Prop :=
  ∀ record, parseRecord crc32c bytes ≠ .ok record

@[simp] theorem logBytes_nil : logBytes crc32c [] = [] := rfl

@[simp] theorem logBytes_cons
    (stored : StoredRecord) (records : List StoredRecord) :
    logBytes crc32c (stored :: records) =
      stored.encode crc32c ++ logBytes crc32c records :=
  flatMap_cons

@[simp] theorem logBytes_append (left right : List StoredRecord) :
    logBytes crc32c (left ++ right) =
      logBytes crc32c left ++ logBytes crc32c right :=
  flatMap_append

theorem length_logBytes_cons (stored : StoredRecord) (records) :
    (logBytes crc32c (stored :: records)).length =
      stored.header.length + (logBytes crc32c records).length := by
  rw [logBytes_cons, length_append, StoredRecord.encode_length]

theorem length_le_logBytes (records : List StoredRecord) :
    records.length ≤ (logBytes crc32c records).length := by
  induction records with
  | nil => simp
  | cons stored records ih =>
    rw [length_logBytes_cons, length_cons, Record.length, recHeaderSize]
    omega

theorem noRecord_nil : NoRecord crc32c [] := by
  intro record parsed
  simp [parseRecord] at parsed

/-- Every byte string is a log followed by bytes no record starts. -/
theorem exists_log (bytes : Bytes) :
    ∃ records rest, bytes = logBytes crc32c records ++ rest ∧
      NoRecord crc32c rest := by
  induction sized : bytes.length using Nat.strongRecOn generalizing bytes with
  | ind size ih =>
    by_cases none : NoRecord crc32c bytes
    · exact ⟨[], bytes, rfl, none⟩
    · unfold NoRecord at none
      push Not at none
      obtain ⟨record, parsed⟩ := none
      obtain ⟨stored, _, split⟩ :=
        StoredRecord.of_parseRecord_eq_ok crc32c parsed
      have shorter := congrArg List.length split
      rw [length_append, StoredRecord.encode_length, Record.length,
        recHeaderSize] at shorter
      obtain ⟨records, rest, restEq, noMore⟩ :=
        ih _ (by omega) (bytes.drop record.length) rfl
      refine ⟨stored :: records, rest, ?_, noMore⟩
      rw [logBytes_cons, append_assoc, ← restEq]
      exact split

end Log

/-- The index of a longer log is the index of its end over that of its
start. -/
theorem indexFrom_append
    (crc32c : Bytes → UInt32) (off : Nat) (left right : List StoredRecord) :
    indexFrom off (left ++ right) =
      (indexFrom (off + (logBytes crc32c left).length) right).atop
        (indexFrom off left) := by
  induction left generalizing off with
  | nil => simp [indexFrom]
  | cons stored left ih =>
    rw [cons_append, indexFrom, indexFrom, ih, Index.atop_assoc,
      length_logBytes_cons, Nat.add_assoc]

/-- A log's index locates keys inside the log. -/
theorem indexFrom_bounds
    (crc32c : Bytes → UInt32)
    (located : indexFrom off records key = some loc) :
    off ≤ loc.off ∧ loc.off < off + (logBytes crc32c records).length := by
  induction records generalizing off with
  | nil => cases located
  | cons stored records ih =>
    have longer := stored.header.length_pos
    rw [length_logBytes_cons]
    rw [indexFrom, Index.atop, Option.or_eq_some_iff] at located
    rcases located with later | ⟨_, here⟩
    · have bounds := ih later
      omega
    · by_cases same : key = stored.key
      · subst same
        simp only [Index.insert, Function.update_self, Option.some.injEq]
          at here
        subst here
        simp only [locOf]
        omega
      · simp [Index.insert, Index.empty, same] at here

/-- A log's index locates the key of its first record. -/
theorem indexFrom_head
    (off : Nat) (stored : StoredRecord) (records : List StoredRecord) :
    ∃ loc, indexFrom off (stored :: records) stored.key = some loc := by
  rw [indexFrom, Index.atop]
  cases indexFrom (off + stored.header.length) records stored.key with
  | none => exact ⟨locOf off stored.header, by simp [Index.insert]⟩
  | some loc => exact ⟨loc, rfl⟩

/-- A log's index tells it from a longer log. -/
theorem eq_nil_of_indexFrom_append
    (crc32c : Bytes → UInt32)
    (same : indexFrom off (records ++ extra) = indexFrom off records) :
    extra = [] := by
  cases extra with
  | nil => rfl
  | cons stored extra =>
    obtain ⟨loc, located⟩ := indexFrom_head
      (off + (logBytes crc32c records).length) stored extra
    have here := congrFun same stored.key
    rw [indexFrom_append crc32c, Index.atop, located, Option.some_or] at here
    have after := (indexFrom_bounds crc32c located).1
    have before := (indexFrom_bounds crc32c here.symm).2
    omega

end AmberStore.Packstore

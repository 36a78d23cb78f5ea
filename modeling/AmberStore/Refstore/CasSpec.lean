import AmberStore.ReferenceSpec
import AmberStore.Refstore.Store
import Mathlib.Data.Finset.Card

/-!
# Optimistic writes

A batch is one compare-and-swap of all its references: every expectation is
checked against the table as it was, and the table changes as a whole or not at
all.
-/

open ByteString Transaction Function

namespace AmberStore.Refstore

/-! ## What a batch should do -/

/-- The record under the name decodes, and points at the key. -/
def PointsTo (refs : Refs) (name : Bytes) (key : Key) : Prop :=
  ∃ record reference, refs name = some record ∧
    Reference.decode record = .ok reference ∧ reference.key = key.bytes

/-- A withdrawn name is where the caller saw it, or gone. -/
def NameExpected (refs : Refs) (name : Bytes × Key) : Prop :=
  refs name.1 = none ∨ PointsTo refs name.1 name.2

/-- A published name is where the caller saw it. -/
def RecordExpected (refs : Refs) (record : Record × Option Key) : Prop :=
  match record.2 with
  | none => refs record.1.name = none
  | some old => PointsTo refs record.1.name old

/-- The record a batch publishes under a name: the last one. -/
def published (records : List (Record × Option Key)) (name : Bytes) :
    Option Bytes :=
  (records.reverse.find? fun record => record.1.name == name).map
    fun record => record.1.data

/-- The table without the withdrawn names, overridden by the records. -/
def updated
    (refs : Refs) (records : List (Record × Option Key))
    (names : List (Bytes × Key)) : Refs :=
  fun name =>
    (published records name).or
      (if name ∈ names.map Prod.fst then none else refs name)

/-- How many of the withdrawn names were there. -/
def withdrawn (refs : Refs) (names : List (Bytes × Key)) : Nat :=
  ((names.map Prod.fst).toFinset.filter fun name => (refs name).isSome).card

/-! ## Checks -/

section Checks

variable {faults : Faults Error} {before after : Refs}

theorem gives_current
    (gives : Gives (current faults name) before result after) :
    after = before ∧ before name = result.map Prod.fst ∧
      ∀ found ∈ result, Reference.decode found.1 = .ok found.2 := by
  obtain ⟨row, between, isRead, isRest⟩ := gives.bind
  cases isRead.statement
  split at isRest
  · rename_i isNone
    obtain ⟨rfl, rfl⟩ := gives_pure_iff.mp isRest
    exact ⟨rfl, isNone, fun found isFound => by cases isFound⟩
  · rename_i record isSome
    split at isRest
    · exact (not_gives_fail isRest).elim
    · rename_i decoded isDecoded
      obtain ⟨rfl, rfl⟩ := gives_pure_iff.mp isRest
      refine ⟨rfl, isSome, ?_⟩
      intro found isFound
      cases isFound
      exact isDecoded

theorem always_current_none
    (noFaults : ∀ count, faults count = none)
    (absent : before name = none) :
    Always (current faults name) before none before := by
  have isRead := always_statement noFaults
    (fun refs : Refs => (refs name, refs)) before
  dsimp only at isRead
  rw [absent] at isRead
  exact isRead.bind (always_pure none before)

theorem always_current_some
    (noFaults : ∀ count, faults count = none)
    (isRecord : before name = some record)
    (isDecoded : Reference.decode record = .ok reference) :
    Always (current faults name) before (some (record, reference)) before := by
  have isRead := always_statement noFaults
    (fun refs : Refs => (refs name, refs)) before
  dsimp only at isRead
  rw [isRecord] at isRead
  refine isRead.bind ?_
  dsimp only
  rw [isDecoded]
  exact always_pure _ before

theorem pointsAt_iff :
    pointsAt reference key = true ↔ reference.key = key.bytes :=
  beq_iff_eq

theorem gives_checkName
    (gives : Gives (checkName faults name) before () after) :
    after = before ∧ NameExpected before name := by
  obtain ⟨result, between, isCurrent, isRest⟩ := gives.bind
  obtain ⟨rfl, isRow, isDecoded⟩ := gives_current isCurrent
  cases result with
  | none =>
    obtain ⟨-, rfl⟩ := gives_pure_iff.mp isRest
    exact ⟨rfl, .inl isRow⟩
  | some found =>
    dsimp only at isRest
    split_ifs at isRest with isAt
    · obtain ⟨-, rfl⟩ := gives_pure_iff.mp isRest
      exact ⟨rfl, .inr ⟨found.1, found.2, isRow, isDecoded found rfl,
        pointsAt_iff.mp isAt⟩⟩
    · exact (not_gives_fail isRest).elim

theorem always_checkName
    (noFaults : ∀ count, faults count = none)
    (expected : NameExpected before name) :
    Always (checkName faults name) before () before := by
  rcases expected with absent | ⟨record, reference, isRow, isDecoded, isAt⟩
  · exact (always_current_none noFaults absent).bind (always_pure () before)
  · refine (always_current_some noFaults isRow isDecoded).bind ?_
    dsimp only
    rw [if_pos (pointsAt_iff.mpr isAt)]
    exact always_pure () before

theorem gives_checkRecord
    (gives : Gives (checkRecord faults record) before () after) :
    after = before ∧ RecordExpected before record := by
  obtain ⟨record, old⟩ := record
  obtain ⟨result, between, isCurrent, isRest⟩ := gives.bind
  obtain ⟨rfl, isRow, isDecoded⟩ := gives_current isCurrent
  cases result with
  | none =>
    cases old with
    | none =>
      obtain ⟨-, rfl⟩ := gives_pure_iff.mp isRest
      exact ⟨rfl, isRow⟩
    | some old => exact (not_gives_fail isRest).elim
  | some found =>
    cases old with
    | none => exact (not_gives_fail isRest).elim
    | some old =>
      dsimp only at isRest
      split_ifs at isRest with isAt
      · obtain ⟨-, rfl⟩ := gives_pure_iff.mp isRest
        exact ⟨rfl, found.1, found.2, isRow, isDecoded found rfl,
          pointsAt_iff.mp isAt⟩
      · exact (not_gives_fail isRest).elim

theorem always_checkRecord
    (noFaults : ∀ count, faults count = none)
    (expected : RecordExpected before record) :
    Always (checkRecord faults record) before () before := by
  obtain ⟨record, old⟩ := record
  cases old with
  | none =>
    exact (always_current_none noFaults expected).bind (always_pure () before)
  | some old =>
    obtain ⟨row, reference, isRow, isDecoded, isAt⟩ := expected
    refine (always_current_some noFaults isRow isDecoded).bind ?_
    dsimp only
    rw [if_pos (pointsAt_iff.mpr isAt)]
    exact always_pure () before

end Checks

/-! ## Changes -/

/-- One withdrawal: the rows removed so far, and the table. -/
def withdraw (state : Nat × Refs) (name : Bytes × Key) : Nat × Refs :=
  (state.1 + (if (state.2 name.1).isSome then 1 else 0),
    update state.2 name.1 none)

/-- One record put. -/
def publish (refs : Refs) (record : Record × Option Key) : Refs :=
  update refs record.1.name (some record.1.data)

/-- A name is counted where it is first withdrawn. -/
theorem withdrawn_cons
    (refs : Refs) (name : Bytes × Key) (names : List (Bytes × Key)) :
    withdrawn refs (name :: names) =
      (if (refs name.1).isSome then 1 else 0) +
        withdrawn (update refs name.1 none) names := by
  have others : ((names.map Prod.fst).toFinset.filter fun other =>
        (update refs name.1 none other).isSome) =
      ((names.map Prod.fst).toFinset.filter fun other =>
        (refs other).isSome).erase name.1 := by
    ext other
    by_cases same : other = name.1
    · subst same
      simp
    · simp [same]
  unfold withdrawn
  rw [others, List.map_cons, List.toFinset_cons, Finset.filter_insert]
  split_ifs with isPresent
  · rw [Finset.card_insert_eq_ite]
    split_ifs with isMember
    · rw [Finset.card_erase_of_mem isMember]
      have positive := Finset.card_pos.mpr ⟨name.1, isMember⟩
      omega
    · rw [Finset.erase_eq_of_notMem isMember, Nat.add_comm]
  · rw [Finset.erase_eq_of_notMem, Nat.zero_add]
    intro isMember
    exact isPresent (Finset.mem_filter.mp isMember).2

/-- The withdrawn names are gone, and each was counted once. -/
theorem foldl_withdraw
    (names : List (Bytes × Key)) (removed : Nat) (refs : Refs) :
    names.foldl withdraw (removed, refs) =
      (removed + withdrawn refs names,
        fun name =>
          if name ∈ names.map Prod.fst then none else refs name) := by
  induction names generalizing removed refs with
  | nil => rfl
  | cons name names ih =>
    rw [List.foldl_cons, withdraw, ih, withdrawn_cons, Nat.add_assoc]
    congr 1
    funext other
    by_cases same : other = name.1
    · subst same
      simp
    · have isLater : other ∈ (name :: names).map Prod.fst ↔
          other ∈ names.map Prod.fst := by
        rw [List.map_cons, List.mem_cons, or_iff_right same]
      rw [update_of_ne same]
      exact (if_congr isLater rfl rfl).symm

theorem published_cons
    (record : Record × Option Key) (records : List (Record × Option Key))
    (name : Bytes) :
    published (record :: records) name =
      (published records name).or
        (if record.1.name = name then some record.1.data else none) := by
  unfold published
  rw [List.reverse_cons, List.find?_append, Option.map_or, List.find?_singleton]
  by_cases same : record.1.name = name
  · simp [same]
  · simp [same]

/-- The last record of each name is there. -/
theorem foldl_publish
    (records : List (Record × Option Key)) (refs : Refs) :
    records.foldl publish refs =
      fun name => (published records name).or (refs name) := by
  induction records generalizing refs with
  | nil => rfl
  | cons record records ih =>
    rw [List.foldl_cons, ih]
    funext name
    rw [published_cons, Option.or_assoc, publish]
    congr 1
    by_cases same : record.1.name = name
    · subst same
      simp
    · rw [if_neg same, update_of_ne (Ne.symm same), Option.none_or]

/-! ## Batches -/

section Batches

variable {faults : Faults Error} {refs : Refs}

theorem gives_withdrawals
    {names : List (Bytes × Key)}
    (gives : Gives
      (names.foldlM
        (fun removed name => do
          let rows ← deleteRecord faults name.1
          pure (removed + rows)) 0) refs removed after) :
    (removed, after) = names.foldl withdraw (0, refs) := by
  apply gives.foldlM
  intro value name before result after isStep
  obtain ⟨rows, between, isDeleted, isPure⟩ := isStep.bind
  cases isDeleted.statement
  obtain ⟨rfl, rfl⟩ := gives_pure_iff.mp isPure
  rfl

theorem always_withdrawals
    (noFaults : ∀ count, faults count = none) (names : List (Bytes × Key)) :
    Always
      (names.foldlM
        (fun removed name => do
          let rows ← deleteRecord faults name.1
          pure (removed + rows)) 0) refs
      (names.foldl withdraw (0, refs)).1
      (names.foldl withdraw (0, refs)).2 := by
  apply always_foldlM
  intro value name before
  exact (always_statement noFaults _ before).bind (always_pure _ _)

variable {records : List (Record × Option Key)}

theorem gives_publications
    (gives : Gives
      (records.forM fun record =>
        putRecord faults record.1.name record.1.data) refs () after) :
    after = records.foldl publish refs := by
  apply gives.forM_changes
  intro record before after isPut
  cases isPut.statement
  rfl

theorem always_publications
    (noFaults : ∀ count, faults count = none)
    (records : List (Record × Option Key)) :
    Always
      (records.forM fun record =>
        putRecord faults record.1.name record.1.data) refs ()
      (records.foldl publish refs) := by
  apply always_forM_changes
  intro record before
  exact always_statement noFaults _ before

theorem foldl_publish_withdraw
    (refs : Refs) (records : List (Record × Option Key))
    (names : List (Bytes × Key)) :
    records.foldl publish (names.foldl withdraw (0, refs)).2 =
      updated refs records names := by
  rw [foldl_publish, foldl_withdraw]
  rfl

/-- A batch that is committed met its expectations. -/
theorem updateBatch_committed
    {names : List (Bytes × Key)}
    (present : ¬(records.isEmpty && names.isEmpty) = true) {removed : Nat}
    (isOk : (updateBatch faults records names refs).1 = .ok removed) :
    (∀ name ∈ names, NameExpected refs name) ∧
      (∀ record ∈ records, RecordExpected refs record) ∧
      (updateBatch faults records names refs).2 = updated refs records names ∧
      removed = withdrawn refs names := by
  rw [updateBatch, if_neg present] at isOk ⊢
  have gives := gives_of_transaction isOk
  obtain ⟨_, first, namesChecked, afterNames⟩ := gives.bind
  obtain ⟨rfl, areNames⟩ := @Gives.forM _ _ _ (checkName faults)
    (fun name before => NameExpected before name)
    (fun _ _ _ isChecked => gives_checkName isChecked) _ _ _ namesChecked
  obtain ⟨_, second, recordsChecked, afterRecords⟩ := afterNames.bind
  obtain ⟨rfl, areRecords⟩ := @Gives.forM _ _ _ (checkRecord faults)
    (fun record before => RecordExpected before record)
    (fun _ _ _ isChecked => gives_checkRecord isChecked) _ _ _ recordsChecked
  obtain ⟨count, third, isWithdrawn, afterWithdrawals⟩ := afterRecords.bind
  obtain ⟨_, fourth, isPublished, isPure⟩ := afterWithdrawals.bind
  obtain ⟨rfl, isAfter⟩ := gives_pure_iff.mp isPure
  have counted := gives_withdrawals isWithdrawn
  have isThird : third = (names.foldl withdraw (0, second)).2 :=
    congrArg Prod.snd counted
  have isCount : removed = (names.foldl withdraw (0, second)).1 :=
    congrArg Prod.fst counted
  refine ⟨areNames, areRecords, ?_, ?_⟩
  · rw [isAfter, gives_publications isPublished, isThird,
      foldl_publish_withdraw]
  · rw [isCount, foldl_withdraw, Nat.zero_add]

end Batches

/-- A batch is an atomic compare-and-swap of its references.  Whatever statement
of the database fails, an error leaves the table as it was, and success means
that every expectation was met in the table as it was and that the table is
updated.  Where no statement fails, it succeeds if every expectation is met. -/
theorem updateBatch_spec
    (faults : Faults Error) (records : List (Record × Option Key))
    (names : List (Bytes × Key)) (refs : Refs) :
    (∀ failure, (updateBatch faults records names refs).1 = .error failure →
      (updateBatch faults records names refs).2 = refs) ∧
    (∀ removed, (updateBatch faults records names refs).1 = .ok removed →
      (∀ name ∈ names, NameExpected refs name) ∧
      (∀ record ∈ records, RecordExpected refs record) ∧
      (updateBatch faults records names refs).2 = updated refs records names ∧
      removed = withdrawn refs names) ∧
    ((∀ count, faults count = none) →
      ((∃ removed, (updateBatch faults records names refs).1 = .ok removed) ↔
        (∀ name ∈ names, NameExpected refs name) ∧
        ∀ record ∈ records, RecordExpected refs record)) := by
  by_cases isEmpty : (records.isEmpty && names.isEmpty) = true
  · obtain ⟨noRecords, noNames⟩ := Bool.and_eq_true_iff.mp isEmpty
    cases List.isEmpty_iff.mp noRecords
    cases List.isEmpty_iff.mp noNames
    refine ⟨fun failure _ => rfl, ?_, ?_⟩
    · intro removed isOk
      cases isOk
      exact ⟨List.forall_mem_nil _, List.forall_mem_nil _, rfl, rfl⟩
    · intro _
      exact ⟨fun _ => ⟨List.forall_mem_nil _, List.forall_mem_nil _⟩,
        fun _ => ⟨0, rfl⟩⟩
  · have committed :=
      fun removed isOk => @updateBatch_committed faults refs records names
        isEmpty removed isOk
    refine ⟨?_, committed, ?_⟩
    · intro failure hasFailed
      rw [updateBatch, if_neg isEmpty] at hasFailed ⊢
      exact transaction_error hasFailed
    · intro noFaults
      constructor
      · rintro ⟨removed, isOk⟩
        obtain ⟨areNames, areRecords, -⟩ := committed removed isOk
        exact ⟨areNames, areRecords⟩
      · rintro ⟨areNames, areRecords⟩
        rw [updateBatch, if_neg isEmpty]
        refine ⟨(names.foldl withdraw (0, refs)).1, congrArg Prod.fst
          (@transaction_of_always _ _ _ faults _ refs _
            (records.foldl publish (names.foldl withdraw (0, refs)).2)
            noFaults ?_)⟩
        apply Always.bind (always_forM fun name isMember =>
          always_checkName noFaults (areNames name isMember))
        apply Always.bind (always_forM fun record isMember =>
          always_checkRecord noFaults (areRecords record isMember))
        apply Always.bind (always_withdrawals noFaults names)
        exact (always_publications noFaults records).bind (always_pure _ _)

/-- A table with one record. -/
def sampleRefs : Refs :=
  update (fun _ => none) [0x6e] (some Reference.sampleReference.encodeUnchecked)

/-- The key that the record points at. -/
def sampleKey : Key :=
  ⟨Reference.sampleReference.key, rfl⟩

/-- The name that is there is withdrawn twice, which counts once, and a record
is published under it again. -/
theorem updateBatch_spec_sampleRefs :
    (updateBatch (fun _ => none) [(⟨[0x6e], [1]⟩, some sampleKey)]
      [([0x6e], sampleKey), ([0x6e], sampleKey)] sampleRefs).1 = .ok 1 ∧
    (updateBatch (fun _ => none) [(⟨[0x6e], [1]⟩, some sampleKey)]
      [([0x6e], sampleKey), ([0x6e], sampleKey)] sampleRefs).2 [0x6e] =
        some [1] := by
  have points : PointsTo sampleRefs [0x6e] sampleKey := by
    have valid : Reference.sampleReference.validate = .ok () := by decide
    exact ⟨_, _, update_self _ _ _, (Reference.decode_eq_ok_iff _ _).mpr
      ⟨(Reference.encodable_of_validate valid).unmarshal_encodeUnchecked, valid,
        rfl⟩, rfl⟩
  obtain ⟨-, ends, succeeds⟩ := updateBatch_spec (fun _ => none)
    [(⟨[0x6e], [1]⟩, some sampleKey)]
    [([0x6e], sampleKey), ([0x6e], sampleKey)] sampleRefs
  obtain ⟨removed, isOk⟩ := (succeeds fun _ => rfl).mpr
    ⟨by simp [NameExpected, points], by simp [RecordExpected, points]⟩
  obtain ⟨-, -, isTable, rfl⟩ := ends removed isOk
  refine ⟨isOk, ?_⟩
  rw [isTable]
  rfl

/-! ## Single writes -/

/-- A write of one reference. -/
inductive Write
  | put (name record : Bytes)
  | delete (name : Bytes)
  | create (name record : Bytes)
  | compareAndSwap (name : Bytes) (old : Key) (record : Bytes)
  | compareAndDelete (name : Bytes) (old : Key)

def call (faults : Faults Error) : Write → Refs → Except Error Unit × Refs
  | .put name record => put faults name record
  | .delete name => delete faults name
  | .create name record => create faults name record
  | .compareAndSwap name old record => compareAndSwap faults name old record
  | .compareAndDelete name old => compareAndDelete faults name old

/-- What a write does to a table at once. -/
def atomic (refs : Refs) : Write → Except Error Unit × Refs
  | .put name record => (.ok (), update refs name (some record))
  | .delete name =>
    if (refs name).isSome then (.ok (), update refs name none)
    else (.error .notFound, refs)
  | .create name record =>
    if (refs name).isSome then (.error .conflict, refs)
    else (.ok (), update refs name (some record))
  | .compareAndSwap name old record => moved name old (some record)
  | .compareAndDelete name old => moved name old none
where
  moved (name : Bytes) (old : Key) (change : Option Bytes) :=
    match (refs name).map Reference.decode with
    | none => (.error .notFound, refs)
    | some (.error source) => (.error (.currentRecord name source), refs)
    | some (.ok reference) =>
      if pointsAt reference old then (.ok (), update refs name change)
      else (.error .conflict, refs)

attribute [local simp] call atomic transaction bracketed statement fail bind
  StateT.bind Except.bind

/-- Without faults, a write happens at once. -/
theorem call_none (write : Write) (refs : Refs) :
    call (fun _ => none) write refs = atomic refs write := by
  cases write with
  | put name record => rfl
  | delete name | create name record =>
    cases isRow : refs name <;>
      simp [delete, create, deleteRecord, createRecord, isRow]
  | compareAndSwap name old record | compareAndDelete name old =>
    rcases isRow : refs name with - | row
    on_goal 2 => rcases isDecoded : Reference.decode row with source | found
    on_goal 3 => by_cases isAt : pointsAt found old = true
    all_goals
      simp [atomic.moved, compareAndSwap, compareAndDelete, ifAt, current,
        getRecord, replaceRecord, deleteRecordIf, *]

theorem call_eq (faults : Faults Error) (write : Write) (refs : Refs) :
    call faults write refs = atomic refs write ∨
      ∃ failure, (∃ n, faults n = some failure) ∧
        call faults write refs = (.error failure, refs) := by
  rw [← call_none]
  cases write with
  | put name record => exact (Follows.statement _).transaction refs
  | delete name | create name record =>
    exact Follows.transaction (.bind (.statement _) fun _ => .refl) refs
  | compareAndSwap name old record | compareAndDelete name old =>
    refine Follows.transaction (.bind (.bind (.statement _) fun _ => .refl)
      fun found => ?_) refs
    split
    · exact .refl
    · split
      · exact .bind (.statement _) fun _ => .refl
      · exact .refl

/-- Whatever statements fail, writes leave what some of them make of the table,
each at once and in their order; the others fail and change nothing. -/
theorem writes_atomic (calls : List (Faults Error × Write)) (refs : Refs) :
    (∃ happened, List.Sublist happened (calls.map Prod.snd) ∧
      calls.foldl (fun refs made => (call made.1 made.2 refs).2) refs =
        happened.foldl (fun refs write => (atomic refs write).2) refs) ∧
    ∀ faults write, call faults write refs = atomic refs write ∨
      ∃ failure, (∃ n, faults n = some failure) ∧
        call faults write refs = (.error failure, refs) := by
  refine ⟨?_, fun faults write => call_eq faults write refs⟩
  induction calls generalizing refs with
  | nil => exact ⟨[], .slnil, rfl⟩
  | cons made calls ih =>
    obtain ⟨happened, among, isTable⟩ := ih _
    rw [List.foldl_cons, isTable]
    rcases call_eq made.1 made.2 refs with same | ⟨failure, -, failed⟩
    · exact ⟨made.2 :: happened, among.cons_cons _, by rw [same]; rfl⟩
    · exact ⟨happened, among.cons _, by rw [failed]⟩

end AmberStore.Refstore

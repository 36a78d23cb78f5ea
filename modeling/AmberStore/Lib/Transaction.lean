import AmberStore.Lib.Checked

/-!
# Transactions

Programs of statements over a state, each of which may fail, and transactions:
a program takes effect as a whole or not at all.  `Gives` is what a program may
end with; `Always` is what it does end with while no statement fails.
-/

namespace Transaction

/-- The state inside a transaction, and how many statements have run. -/
structure Work (σ : Type) where
  state : σ
  statements : Nat

/-- A program of statements. -/
abbrev Program (σ ε α : Type) := StateT (Work σ) (Except ε) α

/-- Which statements fail, and how. -/
abbrev Faults (ε : Type) := Nat → Option ε

variable {σ ε α β : Type}

/-- One statement. -/
def statement (faults : Faults ε) (change : σ → α × σ) : Program σ ε α :=
  fun work =>
    match faults work.statements with
    | some failure => .error failure
    | none =>
      .ok ((change work.state).1, ⟨(change work.state).2, work.statements + 1⟩)

/-- Gives up. -/
def fail (failure : ε) : Program σ ε α := fun _ => .error failure

/-- A program between the start and the commit of a transaction. -/
def bracketed (faults : Faults ε) (body : Program σ ε α) : Program σ ε α := do
  statement faults fun state => ((), state)
  let result ← body
  statement faults fun state => ((), state)
  pure result

/-- Runs a program as a transaction.  If anything fails, the state is the old
one. -/
def transaction (faults : Faults ε) (body : Program σ ε α) (state : σ) :
    Except ε α × σ :=
  match bracketed faults body ⟨state, 0⟩ with
  | .ok result => (.ok result.1, result.2.state)
  | .error failure => (.error failure, state)

/-! ## What a program may end with -/

/-- The program may end with this result and state. -/
def Gives (body : Program σ ε α) (before : σ) (result : α) (after : σ) :
    Prop :=
  ∃ start stop, body ⟨before, start⟩ = .ok (result, ⟨after, stop⟩)

theorem Gives.bind
    (gives : Gives (first >>= next) before result after) :
    ∃ value between, Gives first before value between ∧
      Gives (next value) between result after := by
  obtain ⟨start, stop, isRun⟩ := gives
  obtain ⟨⟨value, ⟨between, middle⟩⟩, isFirst, isNext⟩ :=
    Checked.bind_eq_ok_iff.mp isRun
  exact ⟨value, between, ⟨start, middle, isFirst⟩, middle, stop, isNext⟩

theorem gives_pure_iff :
    Gives (pure value : Program σ ε α) before result after ↔
      result = value ∧ after = before := by
  constructor
  · rintro ⟨start, stop, isRun⟩
    cases isRun
    exact ⟨rfl, rfl⟩
  · rintro ⟨rfl, rfl⟩
    exact ⟨0, 0, rfl⟩

theorem not_gives_fail {failure : ε} {before after : σ} {result : α} :
    ¬Gives (fail failure : Program σ ε α) before result after := by
  rintro ⟨start, stop, isRun⟩
  cases isRun

theorem Gives.statement
    (gives : Gives (statement faults change) before result after) :
    (result, after) = change before := by
  obtain ⟨start, stop, isRun⟩ := gives
  unfold Transaction.statement at isRun
  dsimp only at isRun
  split at isRun
  · cases isRun
  · cases isRun
    rfl

/-- A loop that only looks: what holds of each of its steps. -/
theorem Gives.forM
    {step : α → Program σ ε Unit} {check : α → σ → Prop}
    (looks : ∀ x before after, Gives (step x) before () after →
      after = before ∧ check x before)
    {xs : List α} {before after : σ}
    (gives : Gives (xs.forM step) before () after) :
    after = before ∧ ∀ x ∈ xs, check x before := by
  induction xs generalizing before with
  | nil =>
    refine ⟨(gives_pure_iff.mp gives).2, ?_⟩
    intro x isMember
    cases isMember
  | cons x xs ih =>
    obtain ⟨_, between, isFirst, isRest⟩ := gives.bind
    obtain ⟨rfl, isChecked⟩ := looks x _ _ isFirst
    obtain ⟨rfl, areChecked⟩ := ih isRest
    refine ⟨rfl, ?_⟩
    intro other isMember
    rcases List.mem_cons.mp isMember with rfl | isLater
    · exact isChecked
    · exact areChecked other isLater

/-- A loop that changes the state. -/
theorem Gives.forM_changes
    {step : α → Program σ ε Unit} {change : σ → α → σ}
    (changes : ∀ x before after, Gives (step x) before () after →
      after = change before x)
    {xs : List α} {before after : σ}
    (gives : Gives (xs.forM step) before () after) :
    after = xs.foldl change before := by
  induction xs generalizing before with
  | nil => exact (gives_pure_iff.mp gives).2
  | cons x xs ih =>
    obtain ⟨_, between, isFirst, isRest⟩ := gives.bind
    rw [List.foldl_cons, ← changes x before between isFirst]
    exact ih isRest

/-- A loop that changes the state and gathers a value. -/
theorem Gives.foldlM
    {step : β → α → Program σ ε β} {change : β × σ → α → β × σ}
    (changes : ∀ value x before result after,
      Gives (step value x) before result after →
      (result, after) = change (value, before) x)
    {xs : List α} {value result : β} {before after : σ}
    (gives : Gives (xs.foldlM step value) before result after) :
    (result, after) = xs.foldl change (value, before) := by
  induction xs generalizing value before with
  | nil =>
    obtain ⟨rfl, rfl⟩ := gives_pure_iff.mp gives
    rfl
  | cons x xs ih =>
    rw [List.foldlM_cons] at gives
    obtain ⟨next, between, isFirst, isRest⟩ := gives.bind
    rw [List.foldl_cons, ← changes value x before next between isFirst]
    exact ih isRest

/-! ## What a program ends with -/

/-- The program ends with this result and state. -/
def Always (body : Program σ ε α) (before : σ) (result : α) (after : σ) :
    Prop :=
  ∀ start, ∃ stop, body ⟨before, start⟩ = .ok (result, ⟨after, stop⟩)

theorem Always.bind
    (isFirst : Always first before value between)
    (isNext : Always (next value) between result after) :
    Always (first >>= next) before result after := by
  intro start
  obtain ⟨middle, firstRun⟩ := isFirst start
  obtain ⟨stop, nextRun⟩ := isNext middle
  exact ⟨stop, Checked.bind_eq_ok_iff.mpr ⟨_, firstRun, nextRun⟩⟩

theorem always_pure (value : α) (state : σ) :
    Always (pure value : Program σ ε α) state value state :=
  fun start => ⟨start, rfl⟩

theorem always_statement
    (noFaults : ∀ count, faults count = none)
    (change : σ → α × σ) (before : σ) :
    Always (statement faults change) before (change before).1
      (change before).2 := by
  intro start
  refine ⟨start + 1, ?_⟩
  unfold statement
  dsimp only
  rw [noFaults]

theorem always_forM
    {step : α → Program σ ε Unit} {xs : List α} {state : σ}
    (looks : ∀ x ∈ xs, Always (step x) state () state) :
    Always (xs.forM step) state () state := by
  induction xs with
  | nil => exact always_pure () state
  | cons x xs ih =>
    exact (looks x List.mem_cons_self).bind (ih
      (fun other isMember => looks other (List.mem_cons_of_mem _ isMember)))

theorem always_forM_changes
    (changes : ∀ x before, Always (step x) before () (change before x))
    (xs : List α) (before : σ) :
    Always (xs.forM step) before () (xs.foldl change before) := by
  induction xs generalizing before with
  | nil => exact always_pure () before
  | cons x xs ih =>
    rw [List.foldl_cons]
    exact (changes x before).bind (ih _)

theorem always_foldlM
    (changes : ∀ value x before, Always (step value x) before
      (change (value, before) x).1 (change (value, before) x).2)
    (xs : List α) (value : β) (before : σ) :
    Always (xs.foldlM step value) before (xs.foldl change (value, before)).1
      (xs.foldl change (value, before)).2 := by
  induction xs generalizing value before with
  | nil => exact always_pure value before
  | cons x xs ih =>
    rw [List.foldlM_cons, List.foldl_cons]
    exact (changes value x before).bind (ih _ _)

/-! ## Transactions -/

section Transactions

variable {faults : Faults ε} {body : Program σ ε α} {state : σ}

/-- A failed transaction changes nothing. -/
theorem transaction_error
    {failure : ε} (hasFailed : (transaction faults body state).1 =
      .error failure) : (transaction faults body state).2 = state := by
  unfold transaction at hasFailed ⊢
  split at hasFailed
  · cases hasFailed
  · rfl

/-- A committed transaction is its program. -/
theorem gives_of_transaction
    (hasCommitted : (transaction faults body state).1 = .ok result) :
    Gives body state result (transaction faults body state).2 := by
  unfold transaction at hasCommitted ⊢
  split at hasCommitted
  · rename_i outcome isRun
    cases hasCommitted
    have gives : Gives (bracketed faults body) state outcome.1
        outcome.2.state := ⟨0, _, isRun⟩
    obtain ⟨_, between, isStart, isRest⟩ := gives.bind
    obtain ⟨value, later, isBody, isCommit⟩ := isRest.bind
    obtain ⟨_, last, isLast, isPure⟩ := isCommit.bind
    obtain ⟨isValue, isAfter⟩ := gives_pure_iff.mp isPure
    cases isStart.statement
    cases isLast.statement
    rw [isValue, isAfter]
    exact isBody
  · cases hasCommitted

theorem transaction_of_always
    (noFaults : ∀ count, faults count = none)
    (always : Always body state result after) :
    transaction faults body state = (.ok result, after) := by
  have looks (state : σ) :
      Always (statement faults fun state => ((), state)) state () state :=
    always_statement noFaults (fun state => ((), state)) state
  have program : Always (bracketed faults body) state result after :=
    (looks state).bind (always.bind ((looks after).bind
      (always_pure result after)))
  obtain ⟨stop, isRun⟩ := program 0
  unfold transaction
  rw [isRun]

end Transactions

/-! ## Faults -/

@[simp] theorem pure_work (value : α) (work : Work σ) :
    (pure value : Program σ ε α) work = .ok (value, work) := rfl

/-- A program does what another does, or fails with one of the faults. -/
def Follows (faults : Faults ε) (body plain : Program σ ε α) : Prop :=
  ∀ work, body work = plain work ∨
    ∃ failure, (∃ n, faults n = some failure) ∧ body work = .error failure

theorem Follows.refl : Follows faults body body := fun _ => .inl rfl

theorem Follows.statement (change : σ → α × σ) :
    Follows faults (statement faults change)
      (statement (fun _ => none) change) := by
  intro work
  unfold Transaction.statement
  cases isFault : faults work.statements with
  | none => exact .inl rfl
  | some failure => exact .inr ⟨failure, ⟨_, isFault⟩, rfl⟩

theorem Follows.bind
    (first : Follows faults body plain)
    (second : ∀ value, Follows faults (next value) (after value)) :
    Follows faults (body >>= next) (plain >>= after) := by
  intro work
  simp only [Bind.bind, StateT.bind]
  rcases first work with same | ⟨failure, isFault, failed⟩
  · rw [same]
    cases plain work with
    | error failure => exact .inl rfl
    | ok outcome => exact second outcome.1 outcome.2
  · exact .inr ⟨failure, isFault, by rw [failed]; rfl⟩

theorem Follows.transaction
    (follows : Follows faults body plain) (state : σ) :
    transaction faults body state = transaction (fun _ => none) plain state ∨
      ∃ failure, (∃ n, faults n = some failure) ∧
        transaction faults body state = (.error failure, state) := by
  have brackets : Follows faults (bracketed faults body) (bracketed _ plain) :=
    .bind (.statement _) fun _ => .bind follows fun _ =>
      .bind (.statement _) fun _ => .refl
  unfold Transaction.transaction
  rcases brackets ⟨state, 0⟩ with same | ⟨failure, isFault, failed⟩
  · exact .inl (by rw [same])
  · exact .inr ⟨failure, isFault, by rw [failed]⟩

end Transaction

import AmberStore.Key
import AmberStore.Lib.Checked
import AmberStore.Lib.Windows
import Mathlib.Data.PNat.Basic

/-!
# Bulk absence check

The keys are cut into one window per worker, every worker filters its window,
and what the workers return is joined in the order of the windows.  The windows
are consecutive and cover the list, so the whole is the filter of the list.

A worker reads nothing that another one writes, so it is a function of its
window.  What a lookup says of a key is a parameter.
-/

open Checked List Windows

namespace AmberStore.Packstore.Missing

/-- A window never holds fewer keys than this, unless there are fewer. -/
abbrev minMissingChunk : Nat := 64

/-- The most workers at once. -/
abbrev maxParallel : Nat := 16

/-- A lookup that failed, with what it was for. -/
structure Error (ε : Type) where
  msg : String
  source : ε
  deriving DecidableEq

/-- Why no answer is returned. -/
inductive Failure (ε : Type)
  | refresh (source : ε)
  | context (error : Error ε)
  deriving DecidableEq

/-- Division that rounds up. -/
def divCeil (value divisor : Nat) : Nat :=
  value / divisor + if value % divisor > 0 then 1 else 0

/-- The number of workers and the length of a window. -/
def plan (len parallelism : Nat) : Nat × Nat :=
  let m := divCeil len minMissingChunk
  let workers := if m < parallelism then m else parallelism
  let workers := min workers maxParallel
  if workers = 0 then (0, 0) else (workers, divCeil len workers)

/-- The half-open range of keys a worker scans. -/
def chunkBounds (len chunkLen i : Nat) : Nat × Nat :=
  (min (i * chunkLen) len, min ((i + 1) * chunkLen) len)

/-- What a worker returns for its window: the keys that are absent. -/
def scan (hasLocal : Key → Except ε Bool) :
    List Key → Except (Error ε) (List Key)
  | [] => .ok []
  | k :: chunk => do
      let has ← (hasLocal k).mapError fun source =>
        { msg := s!"missing-check {k.text}", source := source }
      let miss ← scan hasLocal chunk
      .ok (if has then miss else k :: miss)

/-- Joins what the workers return, in their order; the first error is kept. -/
def join : (missing : List Key) → (firstErr : Option (Error ε)) →
    List (Except (Error ε) (List Key)) → Except (Error ε) (List Key)
  | missing, none, [] => .ok missing
  | _, some error, [] => .error error
  | missing, firstErr, .ok chunkMiss :: results =>
    join (missing ++ chunkMiss) firstErr results
  | missing, firstErr, .error error :: results =>
    join missing (firstErr <|> some error) results

/-- The keys that are absent.  The number of processors may be unknown, but is
never zero. -/
def missing (availableParallelism : Option ℕ+) (refreshed : Except ε Unit)
    (hasLocal : Key → Except ε Bool) (keys : List Key) :
    Except (Failure ε) (List Key) :=
  let parallelism := availableParallelism.elim 1 PNat.val
  let (workers, chunkLen) := plan keys.length parallelism
  if workers = 0 then .ok []
  else do
    refreshed.mapError .refresh
    let results := (List.range workers).map fun i =>
      scan hasLocal (slice keys (chunkBounds keys.length chunkLen i))
    (join [] none results).mapError .context

/-! ## Windows -/

/-- The windows that are planned. -/
def planned (len parallelism : Nat) : List (Nat × Nat) :=
  (List.range (plan len parallelism).1).map
    (chunkBounds len (plan len parallelism).2)

theorem le_divCeil_mul (value : Nat) {divisor : Nat} (positive : 0 < divisor) :
    value ≤ divisor * divCeil value divisor := by
  have split := Nat.div_add_mod value divisor
  have small := Nat.mod_lt value positive
  unfold divCeil
  rw [Nat.mul_add]
  split_ifs
  · omega
  · omega

theorem divCeil_mul_lt (value : Nat) (positive : 0 < divisor) :
    divisor * divCeil value divisor < value + divisor := by
  have split := Nat.div_add_mod value divisor
  unfold divCeil
  rw [Nat.mul_add]
  split_ifs
  · omega
  · omega

/-- What is planned: no workers for no keys, and otherwise windows that reach
the end of the list. -/
theorem plan_cases (len : Nat) (parallelism : ℕ+) :
    (len = 0 ∧ plan len parallelism = (0, 0)) ∨
      ∃ workers, 0 < len ∧ 0 < workers ∧ workers ≤ maxParallel ∧
        plan len parallelism = (workers, divCeil len workers) := by
  have positive := parallelism.pos
  unfold plan
  by_cases isNone : min (if divCeil len minMissingChunk < parallelism
      then divCeil len minMissingChunk else parallelism) maxParallel = 0
  · left
    refine ⟨?_, if_pos isNone⟩
    have covered := @le_divCeil_mul len minMissingChunk (by decide)
    have noChunk : divCeil len minMissingChunk = 0 := by
      change min _ 16 = 0 at isNone
      split_ifs at isNone
      · omega
      · omega
    rw [noChunk] at covered
    omega
  · right
    refine ⟨_, Nat.pos_of_ne_zero ?_, Nat.pos_of_ne_zero isNone,
      Nat.min_le_right _ _, if_neg isNone⟩
    rintro rfl
    exact isNone (by simp [divCeil])

/-- The windows planned are in range, consecutive, and cover the list. -/
theorem tiles_planned (len : Nat) (parallelism : ℕ+) :
    Tiles 0 len (planned len parallelism) := by
  unfold planned
  rcases plan_cases len parallelism with
    ⟨rfl, isPlan⟩ | ⟨workers, -, positive, -, isPlan⟩
  · rw [isPlan]
    rfl
  · rw [isPlan]
    have ordered : Monotone fun i => min (i * divCeil len workers) len :=
      fun left right isLe =>
        min_le_min_right len (Nat.mul_le_mul_right _ isLe)
    have tiles := tiles_of_bound ordered 0 workers
    simp only [Nat.zero_mul, Nat.zero_min, Nat.zero_add,
      Nat.min_eq_right (le_divCeil_mul len positive)] at tiles
    rw [range_eq_range']
    exact tiles

/-- No bound is more than a few keys past the list. -/
theorem bound_planned_lt
    (len : Nat) (parallelism : ℕ+)
    (isWorker : i < (plan len parallelism).1) :
    (i + 1) * (plan len parallelism).2 < len + maxParallel := by
  rcases plan_cases len parallelism with
    ⟨-, isPlan⟩ | ⟨workers, -, positive, few, isPlan⟩
  · rw [isPlan] at isWorker
    exact (Nat.not_lt_zero i isWorker).elim
  · rw [isPlan] at isWorker ⊢
    have atMost := Nat.mul_le_mul_right (divCeil len workers)
      (Nat.succ_le_of_lt isWorker)
    have reached := divCeil_mul_lt len positive
    exact atMost.trans_lt (reached.trans_le (Nat.add_le_add_left few len))

/-! ## The filter -/

section Filter

variable {hasLocal : Key → Except ε Bool}

/-- The keys of a list that are absent. -/
def absent (hasLocal : Key → Except ε Bool) (keys : List Key) : List Key :=
  keys.filter fun k => (hasLocal k).toOption == some false

theorem absent_cons
    (isHas : hasLocal k = .ok has) (keys : List Key) :
    absent hasLocal (k :: keys) =
      if has then absent hasLocal keys else k :: absent hasLocal keys := by
  rw [absent, filter_cons, isHas]
  cases has <;> rfl

/-- A worker that succeeds returns the keys of its window that are absent. -/
theorem scan_eq_ok_iff {keys : List Key} :
    scan hasLocal keys = .ok miss ↔
      (∀ k ∈ keys, ∃ has, hasLocal k = .ok has) ∧
        miss = absent hasLocal keys := by
  induction keys generalizing miss with
  | nil => simp [scan, absent, eq_comm]
  | cons k keys ih =>
    rw [scan, bind_eq_ok_iff, forall_mem_cons]
    constructor
    · rintro ⟨has, isHas, rest⟩
      rw [mapError_eq_ok_iff] at isHas
      obtain ⟨later, isLater, isMiss⟩ := bind_eq_ok_iff.mp rest
      obtain ⟨found, rfl⟩ := ih.mp isLater
      refine ⟨⟨⟨has, isHas⟩, found⟩, ?_⟩
      rw [← Except.ok.inj isMiss, absent_cons isHas]
    · rintro ⟨⟨⟨has, isHas⟩, found⟩, rfl⟩
      refine ⟨has, mapError_eq_ok_iff.mpr isHas, ?_⟩
      rw [ih.mpr ⟨found, rfl⟩, ok_bind, absent_cons isHas]

/-- An error that was met is returned. -/
theorem join_some
    (missing : List Key) (error : Error ε)
    (results : List (Except (Error ε) (List Key))) :
    join missing (some error) results = .error error := by
  induction results generalizing missing with
  | nil => rfl
  | cons result results ih =>
    cases result with
    | ok chunkMiss | error later => exact ih _

theorem join_eq_ok_iff
    {missing : List Key}
    {results : List (Except (Error ε) (List Key))} :
    join missing none results = .ok joined ↔
      ∃ chunks, List.Forall₂ (fun result chunk => result = .ok chunk)
          results chunks ∧
        joined = missing ++ chunks.flatten := by
  induction results generalizing missing with
  | nil => simp [join, eq_comm]
  | cons result results ih =>
    cases result with
    | ok chunkMiss =>
      rw [join, ih]
      constructor
      · rintro ⟨chunks, areChunks, rfl⟩
        exact ⟨chunkMiss :: chunks, .cons rfl areChunks, by simp⟩
      · rintro ⟨_ | ⟨chunk, chunks⟩, areChunks, rfl⟩
        · cases areChunks
        · obtain ⟨isChunk, later⟩ := List.forall₂_cons.mp areChunks
          cases isChunk
          exact ⟨chunks, later, by simp⟩
    | error error =>
      rw [join]
      constructor
      · intro isJoined
        cases (join_some missing error results).symm.trans isJoined
      · rintro ⟨_ | ⟨chunk, chunks⟩, areChunks, rfl⟩
        · cases areChunks
        · cases (List.forall₂_cons.mp areChunks).1

theorem absent_flatten (chunks : List (List Key)) :
    absent hasLocal chunks.flatten = (chunks.map (absent hasLocal)).flatten :=
  filter_flatten

/-- Workers over windows that make up a list return the absent keys of it. -/
theorem join_scans_eq_ok_iff
    {chunks : List (List Key)} :
    join [] none (chunks.map (scan hasLocal)) = .ok joined ↔
      (∀ k ∈ chunks.flatten, ∃ has, hasLocal k = .ok has) ∧
        joined = absent hasLocal chunks.flatten := by
  rw [join_eq_ok_iff, absent_flatten]
  simp only [List.forall₂_map_left_iff, scan_eq_ok_iff, nil_append]
  constructor
  · rintro ⟨misses, areMisses, rfl⟩
    obtain ⟨found, areAbsent⟩ := (List.forall₂_and_left _ _).mp areMisses
    have isMap : misses = chunks.map (absent hasLocal) := by
      rw [← List.forall₂_eq_eq_eq, List.forall₂_map_right_iff]
      exact areAbsent.flip
    refine ⟨?_, by rw [isMap]⟩
    intro k isKey
    obtain ⟨chunk, isChunk, isMember⟩ := mem_flatten.mp isKey
    exact found chunk isChunk k isMember
  · rintro ⟨found, rfl⟩
    refine ⟨chunks.map (absent hasLocal), ?_, rfl⟩
    rw [List.forall₂_map_right_iff, List.forall₂_same]
    intro chunk isChunk
    exact ⟨fun k isMember =>
      found k (mem_flatten.mpr ⟨chunk, isChunk, isMember⟩), rfl⟩

end Filter

theorem flatten_planned (keys : List Key) (parallelism : ℕ+) :
    ((planned keys.length parallelism).map (slice keys)).flatten = keys := by
  rw [(tiles_planned keys.length parallelism).flatten_slices keys]
  simp [slice]

/-- An answer is returned exactly when the directory can be read and no lookup
fails, or there is no key to ask for; it is the filter of the list. -/
theorem missing_eq_ok_iff
    (availableParallelism : Option ℕ+) (refreshed : Except ε Unit)
    (hasLocal : Key → Except ε Bool) (keys joined : List Key) :
    missing availableParallelism refreshed hasLocal keys = .ok joined ↔
      (keys ≠ [] → refreshed = .ok ()) ∧
      (∀ k ∈ keys, ∃ has, hasLocal k = .ok has) ∧
      joined = absent hasLocal keys := by
  obtain ⟨parallelism, isParallelism⟩ : ∃ parallelism : ℕ+,
      availableParallelism.elim 1 PNat.val = parallelism := by
    cases availableParallelism with
    | none => exact ⟨1, rfl⟩
    | some processors => exact ⟨processors, rfl⟩
  have whole := flatten_planned keys parallelism
  unfold missing
  dsimp only
  rw [isParallelism]
  rcases plan_cases keys.length parallelism with
    ⟨isEmpty, isPlan⟩ | ⟨workers, present, positive, -, isPlan⟩
  · rw [isPlan, if_pos rfl, length_eq_zero_iff.mp isEmpty]
    simp [absent, eq_comm]
  · rw [isPlan, if_neg (Nat.ne_of_gt positive), bind_eq_ok_iff]
    have isScan : ((List.range workers).map fun i =>
        scan hasLocal (slice keys (chunkBounds keys.length
          (divCeil keys.length workers) i))) =
        ((planned keys.length parallelism).map (slice keys)).map
          (scan hasLocal) := by
      rw [planned, isPlan, map_map, map_map]
      rfl
    simp only [isScan, mapError_eq_ok_iff, join_scans_eq_ok_iff, whole]
    have isPresent : keys ≠ [] := ne_nil_of_length_pos present
    constructor
    · rintro ⟨done, isDone, both⟩
      exact ⟨fun _ => isDone, both⟩
    · rintro ⟨isDone, both⟩
      exact ⟨(), isDone isPresent, both⟩

/-- The bulk check is the filter of the list, in its order and multiplicity, for
every number of processors.  An answer is returned exactly when the directory
can be read and no lookup fails, or there is no key to ask for.  For every
length, the windows planned are consecutive and in range and cover the list
once, and no bound comes close to running over. -/
theorem missing_filters :
    (∀ (ε : Type) (availableParallelism : Option ℕ+)
        (refreshed : Except ε Unit) (hasLocal : Key → Except ε Bool)
        (keys joined : List Key),
      missing availableParallelism refreshed hasLocal keys = .ok joined ↔
        (keys ≠ [] → refreshed = .ok ()) ∧
        (∀ k ∈ keys, ∃ has, hasLocal k = .ok has) ∧
        joined = keys.filter fun k => (hasLocal k).toOption == some false) ∧
    ∀ (len : Nat) (parallelism : ℕ+),
      Tiles 0 len (planned len parallelism) ∧
      ∀ i < (plan len parallelism).1,
        (i + 1) * (plan len parallelism).2 < len + maxParallel := by
  refine ⟨?_, fun len parallelism =>
    ⟨tiles_planned len parallelism, fun i isWorker =>
      bound_planned_lt len parallelism isWorker⟩⟩
  intro ε availableParallelism refreshed hasLocal keys joined
  exact missing_eq_ok_iff availableParallelism refreshed hasLocal keys joined

end AmberStore.Packstore.Missing

import Mathlib.Data.List.Sort

/-!
# Sorted sequences

Removing adjacent repetitions, and the search for the first entry of a sorted
range that is not below a bound.
-/

open List hiding length

namespace Sorted

/-! ## Adjacent repetitions -/

/-- Keeps one of each run of equal entries. -/
def dedupAdjacent [DecidableEq α] : List α → List α
  | [] => []
  | [value] => [value]
  | value :: next :: values =>
    if value = next then dedupAdjacent (next :: values)
    else value :: dedupAdjacent (next :: values)

theorem mem_dedupAdjacent
    [DecidableEq α] {values : List α} :
    value ∈ dedupAdjacent values ↔ value ∈ values := by
  induction values using dedupAdjacent.induct with
  | case1 | case2 single => rfl
  | case3 repeated values ih =>
    rw [dedupAdjacent, if_pos rfl, ih]
    simp
  | case4 first next values different ih =>
    rw [dedupAdjacent, if_neg different, mem_cons, ih, ← mem_cons]

theorem length_dedupAdjacent_le
    [DecidableEq α] (values : List α) :
    (dedupAdjacent values).length ≤ values.length := by
  induction values using dedupAdjacent.induct with
  | case1 | case2 single => exact Nat.le_refl _
  | case3 repeated values ih =>
    rw [dedupAdjacent, if_pos rfl]
    exact ih.trans (Nat.le_succ _)
  | case4 first next values different ih =>
    rw [dedupAdjacent, if_neg different, length_cons, length_cons]
    exact Nat.succ_le_succ ih

/-! ## Prefixes -/

/-- In a sequence where a predicate only ever turns off, its entries are the
ones before their number. -/
theorem lt_countP_iff
    {values : List α}
    (turnsOff : values.Pairwise fun left right =>
      holds right = true → holds left = true)
    (inside : index < values.length) :
    index < values.countP holds ↔ holds values[index] = true := by
  induction values generalizing index with
  | nil => simp at inside
  | cons head tail ih =>
    obtain ⟨headFirst, tailTurnsOff⟩ := pairwise_cons.mp turnsOff
    by_cases headHolds : holds head = true
    · rw [countP_cons_of_pos headHolds]
      cases index with
      | zero => simpa using headHolds
      | succ index =>
        rw [Nat.succ_lt_succ_iff]
        exact ih tailTurnsOff _
    · rw [countP_cons_of_neg headHolds]
      have noneHold : ∀ value ∈ tail, ¬holds value = true :=
        fun value member later => headHolds (headFirst value member later)
      rw [countP_eq_zero.mpr noneHold]
      refine iff_of_false (Nat.not_lt_zero _) ?_
      cases index with
      | zero => exact headHolds
      | succ index => exact noneHold _ (getElem_mem _)

/-! ## Finding by a distinct key -/

/-- Where keys are distinct, what is found does not depend on the order. -/
theorem find?_eq_of_perm
    [DecidableEq β] {left : List α}
    (perm : left.Perm right) (distinct : (right.map key).Nodup)
    (wanted : β) :
    left.find? (fun value => key value = wanted) =
      right.find? (fun value => key value = wanted) := by
  cases found : left.find? fun value => key value = wanted with
  | none =>
    refine (find?_eq_none.mpr ?_).symm
    intro value member
    exact find?_eq_none.mp found value (perm.mem_iff.mpr member)
  | some value =>
    have member := perm.mem_iff.mp (mem_of_find?_eq_some found)
    have isWanted : key value = wanted := by
      simpa using find?_some found
    cases other : right.find? fun value => key value = wanted with
    | none =>
      have absent := find?_eq_none.mp other value member
      simp [isWanted] at absent
    | some second =>
      have secondWanted : key second = wanted := by
        simpa using find?_some other
      rw [inj_on_of_nodup_map distinct member
        (mem_of_find?_eq_some other)
        (isWanted.trans secondWanted.symm)]

/-! ## Searching -/

/-- The least index from `low` on, below `high`, at which a predicate that
only ever turns off is off; `fuel` bounds the halvings. -/
def searchFrom (below : Nat → Bool) : (fuel low high : Nat) → Nat
  | 0, low, _ => low
  | fuel + 1, low, high =>
    if low < high then
      let mid := (low + high) / 2
      if below mid then searchFrom below fuel (mid + 1) high
      else searchFrom below fuel low mid
    else
      low

/-- The search stops at the boundary between the entries below and the
others. -/
theorem searchFrom_spec
    (ordered : low ≤ high)
    (enough : high - low ≤ fuel)
    (monotone : ∀ left right, left ≤ right → right < high →
      below right = true → below left = true) :
    low ≤ searchFrom below fuel low high ∧
      searchFrom below fuel low high ≤ high ∧
      (∀ index, low ≤ index → index < searchFrom below fuel low high →
        below index = true) ∧
      (∀ index, searchFrom below fuel low high ≤ index → index < high →
        below index = false) := by
  induction fuel generalizing low high with
  | zero =>
    have same : low = high := by omega
    subst same
    simp only [searchFrom]
    refine ⟨le_refl _, le_refl _, ?_, ?_⟩
    · intro index fromLow toLow
      omega
    · intro index fromLow toLow
      omega
  | succ fuel ih =>
    unfold searchFrom
    by_cases open_ : low < high
    · rw [if_pos open_]
      simp only
      by_cases isBelow : below ((low + high) / 2) = true
      · rw [if_pos isBelow]
        obtain ⟨fromMid, toHigh, before, after⟩ :=
          @ih ((low + high) / 2 + 1) high (by omega)
            (by omega) monotone
        refine ⟨by omega, toHigh, ?_, after⟩
        intro index fromLow toFound
        by_cases early : index ≤ (low + high) / 2
        · exact monotone _ _ early (by omega) isBelow
        · exact before index (by omega) toFound
      · rw [if_neg isBelow]
        obtain ⟨fromLow, toMid, before, after⟩ :=
          @ih low ((low + high) / 2) (by omega) (by omega)
            (fun left right le lt => monotone left right le (by omega))
        refine ⟨fromLow, by omega, before, ?_⟩
        intro index fromFound toHigh
        by_cases late : (low + high) / 2 ≤ index
        · by_contra stillBelow
          rw [Bool.not_eq_false] at stillBelow
          exact isBelow (monotone _ _ late toHigh stillBelow)
        · exact after index fromFound (by omega)
    · rw [if_neg open_]
      refine ⟨le_refl _, ordered, ?_, ?_⟩
      · intro index fromLow toLow
        omega
      · intro index fromLow toHigh
        omega

/-! ## Partition points -/

/-- Halves a range that starts where a predicate holds, or at zero, until one
index is left; `fuel` bounds the halvings. -/
def halve (holds : Nat → Bool) : (fuel base size : Nat) → Nat
  | 0, base, _ => base
  | fuel + 1, base, size =>
    if 1 < size then
      let half := size / 2
      let mid := base + half
      halve holds fuel (if holds mid then mid else base) (size - half)
    else
      base

/-- How many entries come before the point where a predicate turns off. -/
def partitionPoint (holds : α → Bool) (values : List α) : Nat :=
  if values.isEmpty then
    0
  else
    let at_ := fun index => values[index]?.any holds
    let base := halve at_ values.length 0 values.length
    if at_ base then base + 1 else base

/-- The halving closes in on the point. -/
theorem halve_spec
    (turnsOff : ∀ index < length, holds index = true ↔ index < point)
    (enough : size ≤ fuel) (some : 0 < size)
    (inside : base + size ≤ length)
    (lower : base ≤ point) (upper : point ≤ base + size) :
    halve holds fuel base size < length ∧
      halve holds fuel base size ≤ point ∧
      point ≤ halve holds fuel base size + 1 := by
  induction fuel generalizing base size with
  | zero => omega
  | succ fuel ih =>
    rw [halve]
    split
    case isFalse oneLeft => omega
    case isTrue =>
      by_cases isBefore : holds (base + size / 2) = true
      · have before := (turnsOff _ (by omega)).mp isBefore
        dsimp only
        rw [if_pos isBefore]
        exact ih (by omega) (by omega) (by omega) (by omega) (by omega)
      · have after := mt (turnsOff _ (by omega)).mpr isBefore
        dsimp only
        rw [if_neg isBefore]
        exact ih (by omega) (by omega) (by omega) (by omega) (by omega)

section PartitionPoint

variable {values : List α} {holds : α → Bool}
variable (turnsOff : values.Pairwise fun left right =>
  holds right = true → holds left = true)

include turnsOff in
theorem partitionPoint_eq_countP :
    partitionPoint holds values = values.countP holds := by
  unfold partitionPoint
  by_cases empty : values = []
  · subst empty
    rfl
  · have present := length_pos_iff.mpr empty
    have isAt : ∀ index < values.length,
        values[index]?.any holds = true ↔ index < values.countP holds := by
      intro index inside
      rw [lt_countP_iff turnsOff inside, getElem?_eq_getElem inside,
        Option.any_some]
    obtain ⟨inside, lower, upper⟩ := halve_spec isAt (Nat.le_refl _) present
      (by omega) (Nat.zero_le _) (by simpa using countP_le_length)
    rw [if_neg (by simpa using empty)]
    dsimp only
    split
    case isTrue isBefore => have := (isAt _ inside).mp isBefore; omega
    case isFalse isAfter => have := mt (isAt _ inside).mpr isAfter; omega

include turnsOff in
/-- What comes after the point is what the predicate does not hold of. -/
theorem drop_partitionPoint :
    values.drop (partitionPoint holds values) =
      values.filter fun value => !holds value := by
  rw [partitionPoint_eq_countP turnsOff]
  induction values with
  | nil => rfl
  | cons head tail ih =>
    obtain ⟨headFirst, tailTurnsOff⟩ := pairwise_cons.mp turnsOff
    by_cases headHolds : holds head = true
    · rw [countP_cons_of_pos headHolds, drop_succ_cons, ih tailTurnsOff]
      simp [headHolds]
    · have noneHold : ∀ value ∈ tail, ¬holds value = true :=
        fun value member later => headHolds (headFirst value member later)
      rw [countP_cons_of_neg headHolds, countP_eq_zero.mpr noneHold,
        drop_zero, filter_eq_self.mpr]
      intro value member
      rcases mem_cons.mp member with rfl | later
      · simpa using headHolds
      · simpa using noneHold value later

include turnsOff in
/-- At the point stands the first that the predicate does not hold of. -/
theorem getElem?_partitionPoint :
    values[partitionPoint holds values]? =
      values.find? fun value => !holds value := by
  rw [← head?_drop, drop_partitionPoint turnsOff, head?_filter]

end PartitionPoint

end Sorted

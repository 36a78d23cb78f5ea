import AmberStore.Lib.Checked
import Mathlib.Data.List.GetD

/-!
# Bounds-checked sequences

Reads and writes of a sequence that fail on an index outside it, with a given
failure.  A computation that succeeds has stayed inside its sequences.
-/

namespace Bounded

section Access

variable (outside : ε)

/-- The value at an index, or the failure when there is none. -/
def read (values : List α) (index : Nat) : Except ε α :=
  match values[index]? with
  | some value => .ok value
  | none => .error outside

/-- The sequence with one value replaced, or the failure when the index is
outside it. -/
def write (values : List α) (index : Nat) (value : α) :
    Except ε (List α) :=
  if index < values.length then
    .ok (values.set index value)
  else
    .error outside

theorem read_eq_ok_iff :
    read outside values index = .ok value ↔ values[index]? = some value := by
  unfold read
  cases values[index]? with
  | none | some found => simp

theorem read_eq_ok_of_lt
    (default : α)
    (inside : index < values.length) :
    read outside values index = .ok (values.getD index default) := by
  rw [read_eq_ok_iff, List.getD_eq_getElem?_getD,
    List.getElem?_eq_getElem inside]
  rfl

theorem write_eq_ok_iff :
    write outside values index value = .ok written ↔
      index < values.length ∧ written = values.set index value := by
  unfold write
  split
  · rename_i inside
    simp [inside, eq_comm]
  · rename_i notInside
    simp [notInside]

end Access

/-- What a replaced value is read as, and every other one. -/
theorem getD_set
    (values : List α) (default : α) (value : α) (other : Nat)
    (inside : index < values.length) :
    (values.set index value).getD other default =
      if other = index then value else values.getD other default := by
  rw [List.getD_eq_getElem?_getD, List.getElem?_set]
  by_cases same : other = index
  · subst same
    simp [inside]
  · rw [if_neg (fun equal => same equal.symm), if_neg same,
      ← List.getD_eq_getElem?_getD]

end Bounded

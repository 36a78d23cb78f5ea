import Mathlib.Data.List.Basic
import Mathlib.Order.Monotone.Basic

/-!
# Consecutive windows

A list is cut into half-open windows, each of which starts where the one before
it ends.  Together they hold every element once and in order.
-/

open List

namespace Windows

/-- The elements of a half-open window. -/
def slice (values : List α) (window : Nat × Nat) : List α :=
  (values.take window.2).drop window.1

/-- Windows that follow one another from `start` to `stop`. -/
def Tiles : (start stop : Nat) → List (Nat × Nat) → Prop
  | start, stop, [] => start = stop
  | start, stop, window :: windows =>
    window.1 = start ∧ start ≤ window.2 ∧ window.2 ≤ stop ∧
      Tiles window.2 stop windows

/-- The elements of consecutive windows are those between their ends. -/
theorem Tiles.flatten_slices
    (tiles : Tiles start stop windows) (values : List α) :
    (windows.map (slice values)).flatten = slice values (start, stop) := by
  induction windows generalizing start with
  | nil =>
    cases tiles
    simp [slice]
  | cons window windows ih =>
    obtain ⟨lo, hi⟩ := window
    obtain ⟨rfl, ordered, inside, later⟩ := tiles
    rw [map_cons, flatten_cons, ih later]
    simp only [slice]
    simp only at ordered inside
    have split : values.take stop =
        values.take hi ++ (values.take stop).drop hi := by
      conv_lhs => rw [← take_append_drop hi (values.take stop)]
      rw [take_take, Nat.min_eq_left inside]
    by_cases isLong : hi ≤ values.length
    · conv_rhs => rw [split]
      rw [drop_append_of_le_length]
      rw [length_take]
      omega
    · have whole : values.take hi = values := take_of_length_le (by omega)
      have wholeStop : values.take stop = values := take_of_length_le (by omega)
      rw [whole, wholeStop, drop_of_length_le (by omega : _ ≤ hi), append_nil]

/-- Windows between the successive values of a bound that never decreases. -/
theorem tiles_of_bound
    (ordered : Monotone bound) (first count : Nat) :
    Tiles (bound first) (bound (first + count))
      ((List.range' first count).map fun index =>
        (bound index, bound (index + 1))) := by
  induction count generalizing first with
  | zero => rfl
  | succ count ih =>
    have later := ih (first + 1)
    rw [Nat.add_right_comm, Nat.add_assoc] at later
    refine ⟨rfl, ordered (Nat.le_succ first), ordered (by omega), later⟩

end Windows

import AmberStore.Lib.ByteString

/-!
# Machine arithmetic and indexing that trap

A checked build stops a program when an operation leaves its word or an index
leaves its array.  Each operation here says when it does not, and what it then
gives.
-/

open ByteString

namespace Machine

/-- What stops a program. -/
inductive Trap
  | outOfBounds
  | overflow
  deriving DecidableEq, Repr

/-- Addition in a word. -/
def add (width left right : Nat) : Except Trap Nat :=
  if left + right < 2 ^ width then .ok (left + right) else .error .overflow

/-- Subtraction of unsigned words. -/
def sub (left right : Nat) : Except Trap Nat :=
  if right ≤ left then .ok (left - right) else .error .overflow

/-- Multiplication in a word. -/
def mul (width left right : Nat) : Except Trap Nat :=
  if left * right < 2 ^ width then .ok (left * right) else .error .overflow

/-- An element of an array. -/
def index (values : List α) (position : Nat) : Except Trap α :=
  match values[position]? with
  | some value => .ok value
  | none => .error .outOfBounds

/-- A range of an array. -/
def range (bytes : Bytes) (start stop : Nat) : Except Trap Bytes :=
  if start ≤ stop ∧ stop ≤ bytes.length then .ok (slice bytes start stop)
  else .error .outOfBounds

theorem add_eq_ok (fits : left + right < 2 ^ width) :
    add width left right = .ok (left + right) :=
  if_pos fits

theorem sub_eq_ok (below : right ≤ left) :
    sub left right = .ok (left - right) :=
  if_pos below

theorem mul_eq_ok (fits : left * right < 2 ^ width) :
    mul width left right = .ok (left * right) :=
  if_pos fits

theorem index_eq_ok
    (inside : position < values.length) :
    index values position = .ok values[position] := by
  rw [index, List.getElem?_eq_getElem inside]

theorem range_eq_ok
    (ordered : start ≤ stop) (inside : stop ≤ bytes.length) :
    range bytes start stop = .ok (slice bytes start stop) :=
  if_pos ⟨ordered, inside⟩

end Machine

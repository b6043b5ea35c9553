import ZXRewriting.Fault

/-!
# Matrices over the field of two elements

Matrices by rows, added entry by entry with exclusive or, so that on entries 0 and 1 addition is
that of the field of two elements.

The rows need not have the same length. Adding a row goes over as many columns as the first row
has, and stops where one of the two rows ends; what was added up to there stays, so such a fault
comes with the matrix it left (`Halted`).
-/

namespace ZXRewriting

/-- A matrix, by rows. -/
structure BitMatrix where
  rows : List (List Nat)
  deriving DecidableEq, Repr

/-- A fault, with the matrix it left. -/
structure Halted where
  cause : Fault
  matrix : BitMatrix
  deriving DecidableEq, Repr

namespace BitMatrix

/-- The matrix with a one where `f` holds. -/
def build (rows columns : Nat) (f : Nat → Nat → Bool) : BitMatrix :=
  ⟨(List.range rows).map fun i => (List.range columns).map fun j => (f i j).toNat⟩

/-- The identity matrix. -/
def identity (size : Nat) : BitMatrix := build size size fun i j => i == j

/-- The number of rows. -/
def height (m : BitMatrix) : Nat := m.rows.length

/-- The number of columns, that is, the length of the first row. -/
def width (m : BitMatrix) : Nat := (m.rows.head?.map List.length).getD 0

/-- A row. -/
def row (m : BitMatrix) (i : Nat) : Except Fault (List Nat) :=
  match m.rows[i]? with
  | some r => .ok r
  | none => .error .outOfBounds

/-- An entry. -/
def entry (m : BitMatrix) (i j : Nat) : Except Fault Nat := do
  match (← m.row i)[j]? with
  | some x => return x
  | none => throw .outOfBounds

/-- The number of entries of a row that are not zero. -/
def rowWeight (m : BitMatrix) (i : Nat) : Except Fault Nat :=
  return (← m.row i).countP (· != 0)

/-- Adds the first row to the second one for as long as both go on, in at most `width`
    columns. -/
def addOnto : (width : Nat) → List Nat → List Nat → List Nat
  | width + 1, x :: xs, y :: ys => (y ^^^ x) :: addOnto width xs ys
  | _, _, ys => ys

@[simp] theorem length_addOnto (width : Nat) (xs ys : List Nat) :
    (addOnto width xs ys).length = ys.length := by
  fun_induction addOnto width xs ys <;> simp_all

/-- Adds the row `source` to the row `target`. -/
def addRow (m : BitMatrix) (source target : Nat) : Except Halted BitMatrix :=
  let xs := (m.rows[source]?).getD []
  let ys := (m.rows[target]?).getD []
  let sum : BitMatrix := ⟨m.rows.set target (addOnto m.width xs ys)⟩
  if m.width ≤ xs.length ∧ m.width ≤ ys.length then .ok sum
  else .error ⟨.outOfBounds, sum⟩

/-- One row as text. -/
def rowText (r : List Nat) : String :=
  "[ " ++ String.join (r.map fun x => toString x ++ " ") ++ "]\n"

/-- A matrix as text, a line for each row. -/
def toText (m : BitMatrix) : String := String.join (m.rows.map rowText)

end BitMatrix

end ZXRewriting

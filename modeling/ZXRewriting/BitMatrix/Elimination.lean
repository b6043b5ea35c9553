import ZXRewriting.BitMatrix.Basic
import ZXRewriting.Circuit.Basic

/-!
# Gaussian elimination

Elimination takes a matrix to row echelon form, or to the reduced form, by adding rows only,
never by exchanging them, and lists the additions it made (`Elimination.additions`). The same
additions can be made to another matrix, or be turned into a circuit of CNOT gates.
-/

namespace ZXRewriting

/-- The addition of one row to another. -/
structure RowAddition where
  source : Nat
  target : Nat
  deriving DecidableEq, Repr

namespace RowAddition

/-- The CNOT gate of an addition, controlled by the row that changes. -/
def toGate (a : RowAddition) : Gate := .plain .cnot [a.target, a.source]

/-- Makes additions in order. -/
def applyAll (additions : List RowAddition) (m : BitMatrix) : Except Halted BitMatrix :=
  additions.foldlM (fun m a => m.addRow a.source a.target) m

/-- The circuit of a list of additions. -/
def toCircuit (additions : List RowAddition) (qubits : Nat) : Circuit :=
  ⟨qubits, additions.map toGate⟩

end RowAddition

/-- How far a matrix is reduced. -/
structure Elimination where
  matrix : BitMatrix
  /-- The number of pivots found, which lie in the first rows. -/
  pivots : Nat
  /-- The additions made, in order. -/
  additions : List RowAddition
  deriving DecidableEq, Repr

namespace Elimination

/-- Nothing done yet. -/
def start (m : BitMatrix) : Elimination := ⟨m, 0, []⟩

/-- Adds a row to another one. -/
def addRow (e : Elimination) (source target : Nat) : Except Halted Elimination :=
  return { e with
    matrix := ← e.matrix.addRow source target
    additions := e.additions ++ [⟨source, target⟩] }

/-- Whether the entry of a row in a column is not zero. -/
def hasOne (e : Elimination) (row column : Nat) : Except Halted Bool :=
  (return (← e.matrix.entry row column) != 0 : Except Fault Bool).mapError (⟨·, e.matrix⟩)

/-- Clears the entry of a row in a column by adding the pivot row. -/
def clearRow (column pivot : Nat) (e : Elimination) (row : Nat) : Except Halted Elimination := do
  if row = pivot then return e
  else if ← e.hasOne row column then e.addRow pivot row
  else return e

/-- The rows from one on, up to the height of a matrix. -/
def rowsFrom (e : Elimination) (row : Nat) : List Nat := (List.range e.matrix.height).drop row

/-- Looks for a pivot in a column. A row that has one is added to the next row without a pivot,
    if it is another one, and the column is cleared below, or everywhere in a full reduction. -/
def eliminateColumn (full : Bool) (e : Elimination) (column : Nat) :
    Except Halted Elimination := do
  let pivot := e.pivots
  match ← (e.rowsFrom pivot).findM? (e.hasOne · column) with
  | none => return e
  | some row =>
    let e ← if row = pivot then pure e else e.addRow row pivot
    let e ← (e.rowsFrom (if full then 0 else pivot + 1)).foldlM (clearRow column pivot) e
    return { e with pivots := pivot + 1 }

/-- Reduces column after column. -/
def run (full : Bool) (m : BitMatrix) : Except Halted Elimination :=
  (List.range m.width).foldlM (eliminateColumn full) (start m)

end Elimination

/-- The number of pivots of a matrix. -/
def BitMatrix.rank (m : BitMatrix) : Except Fault Nat :=
  (Except.mapError Halted.cause (Elimination.run false m)).map (·.pivots)

end ZXRewriting

import ZXRewriting.Floating.Arithmetic
import ZXRewriting.VertexMap

/-!
# Where the spiders of a circuit lie

A spider may lie on the wire of a qubit and in a column. Columns only have to be in the order
of the gates they came from, so a new gate takes a column past the outermost one so far, which
is remembered even when the spiders in it are gone.
-/

namespace ZXRewriting

open Floating

/-- The qubits and columns of the spiders of a diagram. -/
structure Layout where
  /-- The number of wires. -/
  wires : Nat
  qubits : VertexMap Nat
  columns : VertexMap Double
  /-- The least column used so far, or zero. -/
  first : Double
  /-- The greatest column used so far, or zero. -/
  last : Double
  deriving DecidableEq

namespace Layout

/-- The layout of the given number of wires in which no spider lies anywhere. -/
def new (wires : Nat) : Layout := ⟨wires, ∅, ∅, 0, 0⟩

/-- The wire a spider lies on. -/
def qubit? (l : Layout) (v : Vertex) : Option Nat := l.qubits[v]?

/-- The column a spider lies in. -/
def column? (l : Layout) (v : Vertex) : Option Double := l.columns[v]?

/-- Puts a spider onto a wire and into a column, or takes it off. -/
def place (l : Layout) (v : Vertex) (qubit : Option Nat) (column : Option Double) : Layout :=
  let l := { l with qubits := match qubit with
    | some q => l.qubits.insert v q
    | none => l.qubits.erase v }
  match column with
  | some c =>
    { l with
      first := l.first.least c
      last := l.last.greatest c
      columns := l.columns.insert v c }
  | none => { l with columns := l.columns.erase v }

@[simp] theorem qubit?_place (l : Layout) (v w : Vertex) (qubit : Option Nat)
    (column : Option Double) :
    (l.place v qubit column).qubit? w = if v = w then qubit else l.qubit? w := by
  cases qubit <;> cases column <;>
    simp [place, qubit?, Std.ExtTreeMap.getElem?_insert, Std.ExtTreeMap.getElem?_erase]

@[simp] theorem column?_place (l : Layout) (v w : Vertex) (qubit : Option Nat)
    (column : Option Double) :
    (l.place v qubit column).column? w = if v = w then column else l.column? w := by
  cases qubit <;> cases column <;>
    simp [place, column?, Std.ExtTreeMap.getElem?_insert, Std.ExtTreeMap.getElem?_erase]

/-- A column after every column used so far. -/
def nextColumn (l : Layout) : Double := l.last + 1

/-- A column before every column used so far. -/
def prevColumn (l : Layout) : Double := l.first - 1

/-- Takes a spider off its wire and out of its column. -/
def remove (l : Layout) (v : Vertex) : Layout :=
  { l with qubits := l.qubits.erase v, columns := l.columns.erase v }

/-- Whether two layouts agree, columns being compared as numbers. -/
def agrees (a b : Layout) : Bool :=
  a.wires == b.wires && a.qubits == b.qubits && a.columns.agree Number.equal b.columns &&
    a.first.equal b.first && a.last.equal b.last

end Layout

end ZXRewriting

import ZXRewriting.Gate

/-!
# Circuits

A number of qubits and the gates on them in the order of time.
-/

namespace ZXRewriting

/-- A circuit. Nothing is asked of the gates: a diagram checks them when it takes them on. -/
structure Circuit where
  qubits : Nat
  gates : List Gate
  deriving DecidableEq

namespace Circuit

/-- The circuit without gates. -/
def empty (qubits : Nat) : Circuit := ⟨qubits, []⟩

/-- The circuit with one more gate at its end. -/
def push (c : Circuit) (g : Gate) : Circuit := { c with gates := c.gates ++ [g] }

/-- The circuit with one more gate at its start. -/
def pushFront (c : Circuit) (g : Gate) : Circuit := { c with gates := g :: c.gates }

/-- The number of gates of a kind. -/
def countKind (c : Circuit) (kind : GateKind) : Nat := c.gates.countP (·.kind == kind)

/-- The number of rotations by no multiple of a quarter turn. -/
def tCount (c : Circuit) : Nat := c.gates.countP (·.isNonClifford)

/-- A circuit as a listing, the register first and one gate on each line. -/
def toText (c : Circuit) : String :=
  let n := c.qubits
  s!"qreg q[{n}];\n" ++ String.join (c.gates.map fun g => g.toText ++ ";\n")

/-- What there is in a circuit. -/
structure Stats where
  qubits : Nat
  /-- The number of gates. -/
  total : Nat
  /-- The number of gates on one qubit. -/
  oneQubit : Nat
  /-- The number of other gates. -/
  twoQubit : Nat
  clifford : Nat
  nonClifford : Nat
  deriving DecidableEq, Repr

/-- Counts what there is in a circuit. -/
def stats (c : Circuit) : Stats where
  qubits := c.qubits
  total := c.gates.length
  oneQubit := c.gates.countP (·.qubits.length == 1)
  twoQubit := c.gates.countP (·.qubits.length != 1)
  clifford := c.gates.countP (!·.isNonClifford)
  nonClifford := c.tCount

/-- The counts as text. -/
def Stats.toText (s : Stats) : String :=
  let ⟨qubits, total, oneQubit, twoQubit, clifford, nonClifford⟩ := s
  s!"Circuit with {qubits} qubits, {total} gates\n" ++
    s!"  1-qubit: {oneQubit}\n  2-qubit: {twoQubit}\n" ++
    s!"  clifford: {clifford}\n  non-clifford: {nonClifford}"

end Circuit

end ZXRewriting

import ZXRewriting.Circuit.Basic
import ZXRewriting.Circuit.Stream

/-!
# Random circuits

Circuits drawn gate by gate, each kind of gate with a given probability. The probabilities are
laid end to end from zero, and a number in `[0, 1)` picks the gate in whose part it falls; past
all of them no gate is drawn.
-/

namespace ZXRewriting

open Floating

/-- How a circuit is drawn. -/
structure RandomCircuit where
  qubits : Nat
  /-- The number of draws. -/
  depth : Nat
  pCnot : Single
  pCz : Single
  pHadamard : Single
  /-- The probability of a quarter turn about the Z axis. -/
  pS : Single
  /-- The probability of an eighth of a turn about the Z axis. -/
  pT : Single
  deriving DecidableEq

namespace RandomCircuit

/-- No qubits, no draws, and no kind of gate likely. -/
def new : RandomCircuit := ⟨0, 0, 0, 0, 0, 0, 0⟩

/-- Shares out what the T and CZ gates leave evenly among CNOT, Hadamard and S gates. -/
def withCliffords (r : RandomCircuit) : RandomCircuit :=
  let p := (1 - r.pT - r.pCz) / 3
  { r with pCnot := p, pHadamard := p, pS := p }

/-- T gates with the given probability, and the rest shared out. -/
def cliffordT (r : RandomCircuit) (pT : Single) : RandomCircuit :=
  { r with pT }.withCliffords

/-- Every kind of gate with the same probability. -/
def uniform (r : RandomCircuit) : RandomCircuit :=
  let p := Number.ofFraction false 1 5
  { r with pCnot := p, pCz := p, pHadamard := p, pS := p, pT := p }

/-- A quarter turn. -/
def quarter : Phase := .reduce 1 2

/-- An eighth of a turn. -/
def eighth : Phase := .reduce 1 4

/-- The gate that `p` falls on, the qubits having been drawn. On a single qubit there is no
    second one, and a gate on two qubits is none. -/
def pick (r : RandomCircuit) (p : Single) (q : Nat) (other : Option Nat) : Option Gate :=
  let toCz := r.pCnot + r.pCz
  let toHadamard := toCz + r.pHadamard
  let toS := toHadamard + r.pS
  let toT := toS + r.pT
  if p.less r.pCnot then other.map fun q1 => .plain .cnot [q, q1]
  else if p.less toCz then other.map fun q1 => .plain .cz [q, q1]
  else if p.less toHadamard then some (.plain .hadamard [q])
  else if p.less toS then some ⟨.zPhase, [q], quarter⟩
  else if p.less toT then some ⟨.zPhase, [q], eighth⟩
  else none

/-- One draw: a number, a qubit, and if there is another qubit, one of those. -/
def draw (r : RandomCircuit) (s : WordStream) : Option Gate × WordStream :=
  let (p, s) := s.unitInterval
  let (q, s) := s.below r.qubits
  if 1 < r.qubits then
    let (k, s) := s.below (r.qubits - 1)
    (r.pick p q (some (if q ≤ k then k + 1 else k)), s)
  else
    (r.pick p q none, s)

/-- The gates of the given number of draws. -/
def drawGates (r : RandomCircuit) : (draws : Nat) → WordStream → List Gate × WordStream
  | 0, s => ([], s)
  | draws + 1, s =>
    let (gate, s) := r.draw s
    let (gates, s) := r.drawGates draws s
    (gate.toList ++ gates, s)

/-- Draws a circuit, and says where the stream then stands. Without qubits nothing is drawn. -/
def build (r : RandomCircuit) (s : WordStream) : Circuit × WordStream :=
  if r.qubits = 0 then (.empty 0, s)
  else
    let (gates, s) := r.drawGates r.depth s
    (⟨r.qubits, gates⟩, s)

end RandomCircuit

end ZXRewriting

import ZXRewriting.Phase.Basic

/-!
# Gates

The vocabulary in which circuits are given and handed back.
-/

namespace ZXRewriting

/-- The kind of a gate. -/
inductive GateKind
  /-- A rotation about the Z axis. -/
  | zPhase
  /-- A rotation about the X axis. -/
  | xPhase
  | hadamard
  /-- A controlled NOT: the control first, then the target. -/
  | cnot
  /-- A controlled Z. -/
  | cz
  | swap
  deriving DecidableEq, Repr

namespace GateKind

/-- The name in listings. -/
def label : GateKind → String
  | zPhase => "rz"
  | xPhase => "rx"
  | hadamard => "h"
  | cnot => "cx"
  | cz => "cz"
  | swap => "swap"

/-- The number of qubits such a gate acts on. -/
def arity : GateKind → Nat
  | cnot | cz | swap => 2
  | _ => 1

/-- Whether such a gate is given by a phase. -/
def hasPhase : GateKind → Bool
  | zPhase | xPhase => true
  | _ => false

end GateKind

/-- A gate on a list of qubits. The phase is only looked at in a rotation. -/
structure Gate where
  kind : GateKind
  qubits : List Nat
  phase : Phase
  deriving DecidableEq

namespace Gate

/-- A gate without a phase. -/
def plain (kind : GateKind) (qubits : List Nat) : Gate := ⟨kind, qubits, .zero⟩

/-- Whether the gate is a rotation by no multiple of a quarter turn. -/
def isNonClifford (g : Gate) : Bool := g.kind.hasPhase && !g.phase.isClifford

/-- A gate as one line of a listing. -/
def toText (g : Gate) : String :=
  let phase := if g.kind.hasPhase then "(" ++ g.phase.toText ++ "*pi)" else ""
  let qubits := g.qubits.map fun q => s!"q[{q}]"
  g.kind.label ++ phase ++ " " ++ ", ".intercalate qubits

end Gate

end ZXRewriting

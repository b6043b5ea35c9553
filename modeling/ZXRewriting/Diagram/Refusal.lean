import ZXRewriting.Floating.Decimal
import ZXRewriting.Gate

/-!
# Why a diagram turns a request down

The reasons for which building, rewriting or reading back a diagram is refused, and their texts.
-/

namespace ZXRewriting

open Floating

/-- Why a request to a diagram was turned down. -/
inductive Refusal
  /-- A gate on a qubit which the diagram does not have, or twice on one qubit. -/
  | invalidLocation (qubit wires : Nat)
  /-- A gate on the wrong number of qubits. -/
  | invalidArity (gate : GateKind) (given : Nat)
  /-- An angle without an exact phase. -/
  | invalidPhase (halfTurns : Double)
  /-- A match which does not apply to the diagram any more. -/
  | staleMatch (rule : String) (spiders : List Vertex)
  /-- A spider which belongs to no gate on the wires. -/
  | notCircuitLike (v : Vertex)
  /-- A Hadamard box without exactly two wires. -/
  | invalidBox (v : Vertex) (degree : Nat)
  deriving DecidableEq

/-- A list of spiders as text. -/
def listText (vs : List Vertex) : String :=
  "[" ++ ", ".intercalate (vs.map toString) ++ "]"

/-- What a refusal says. -/
def Refusal.message : Refusal → String
  | invalidLocation qubit wires =>
    s!"Invalid qubit location {qubit} (diagram has {wires} qubits)"
  | invalidArity gate given =>
    let label := gate.label
    let arity := gate.arity
    s!"Gate {label} acts on {arity} qubits, got {given}"
  | invalidPhase halfTurns =>
    let text := halfTurns.toText
    s!"Invalid phase {text}: expected an exact rational multiple of pi"
  | staleMatch rule spiders =>
    let text := listText spiders
    s!"Stale match for rule {rule} on spiders {text}"
  | notCircuitLike v => s!"Diagram is not circuit-like at spider {v}"
  | invalidBox v degree => s!"Hadamard box {v} has degree {degree}, expected 2"

end ZXRewriting

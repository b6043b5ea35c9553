import ZXRewriting.Circuit.Basic
import ZXRewriting.Diagram.Basic
import ZXRewriting.Diagram.Refusal
import ZXRewriting.Phase.Angle

/-!
# Building diagrams

A diagram in circuit form is built by putting gates onto the ends of its wires, at the outputs
(`Diagram.push`) or at the inputs (`Diagram.pushFront`), starting from bare wires
(`Diagram.ofWires`); or from a graph with given kinds and phases (`Diagram.ofGraph`).

A gate is checked before anything is changed: it must have its number of qubits, name wires of
the diagram, each once, with a single edge at either end, and have an exact phase if it is a
rotation.
-/

namespace ZXRewriting.Diagram

open Floating

/-- One more bare wire: an input and an output, joined. -/
def addBareWire (d : Diagram) (qubit : Nat) : Except Fault Diagram := do
  let (i, d) ← d.addSpider .input .zero []
  let (o, d) ← d.addSpider .output .zero [i]
  let d := (d.place i (some qubit) none).place o (some qubit) none
  return { d with inputs := d.inputs ++ [i], outputs := d.outputs ++ [o] }

/-- Bare wires. Qubit `q` has the input `2 * q` and the output `2 * q + 1`. -/
def ofWires (qubits : Nat) : Except Fault Diagram :=
  (List.range qubits).foldlM addBareWire (.blank qubits)

/-- Takes a vertex of a graph into a diagram, as a spider of the given kind. -/
def enroll (kinds : VertexMap SpiderKind) (phases : VertexMap Phase) (d : Diagram) (v : Vertex) :
    Attempt Refusal Diagram :=
  match kinds[v]? with
  | none => throw (.fault (.noSpiderKind v))
  | some kind => do
    let degree ← d.degree v
    if kind = .box ∧ degree ≠ 2 then
      refuse (.invalidBox v degree)
    else
      return { d with
        kinds := d.kinds.insert v kind
        phases := d.phases.insert v (if kind.isPhased then (phases[v]?).getD .zero else .zero)
        carriers := if kind.isPhased then d.carriers.insert v ⟨v, 1⟩ else d.carriers
        inputs := if kind = .input then d.inputs ++ [v] else d.inputs
        outputs := if kind = .output then d.outputs ++ [v] else d.outputs }

/-- Puts spiders onto the wires in order. -/
def placeInOrder (d : Diagram) (vs : List Vertex) : Diagram :=
  vs.zipIdx.foldl (fun d (v, q) => d.place v (some q) none) d

/-- The diagram of a graph with given kinds and phases. The inputs and the outputs are the
    boundary spiders in ascending order, and a Hadamard box must have exactly two wires. -/
def ofGraph (graph : Multigraph) (kinds : VertexMap SpiderKind) (phases : VertexMap Phase) :
    Attempt Refusal Diagram := do
  let d ← graph.vertices.foldlM (enroll kinds phases) { blank 0 with graph }
  let d := { d with layout := .new d.inputs.length }
  return (d.placeInOrder d.inputs).placeInOrder d.outputs

/-! ### Gates -/

/-- The end of the wires that a gate is put onto. -/
inductive Side
  | front
  | back
  deriving DecidableEq, Repr

/-- The spider at an end of a wire. -/
def boundary (d : Diagram) (side : Side) (qubit : Nat) : Except Fault Vertex :=
  match (match side with | .front => d.inputs | .back => d.outputs)[qubit]? with
  | some v => .ok v
  | none => .error .outOfBounds

/-- The column past all others at an end. -/
def freshColumn (d : Diagram) : Side → Double
  | .front => d.layout.prevColumn
  | .back => d.layout.nextColumn

/-- The first qubit of a list which is no wire, or is named before. -/
def badQubit? (wires : Nat) : (before : List Nat) → List Nat → Option Nat
  | _, [] => none
  | before, q :: rest =>
    if wires ≤ q ∨ q ∈ before then some q else badQubit? wires (q :: before) rest

/-- Checks that a wire has a single edge at either end. -/
def checkEnds (d : Diagram) (qubit : Nat) : Attempt Refusal Unit := do
  let o ← d.boundary .back qubit
  let i ← d.boundary .front qubit
  if (← d.degree o) ≠ 1 then
    refuse (.notCircuitLike o)
  else if (← d.degree i) ≠ 1 then
    refuse (.notCircuitLike o)

/-- Checks the qubits that a gate is to be put on. -/
def checkQubits (d : Diagram) (kind : GateKind) (qubits : List Nat) : Attempt Refusal Unit := do
  if qubits.length ≠ kind.arity then
    refuse (.invalidArity kind qubits.length)
  else match badQubit? d.layout.wires [] qubits with
    | some q => refuse (.invalidLocation q d.layout.wires)
    | none => qubits.forM d.checkEnds

/-- The phase of a gate: that of its angle, if it is a rotation. -/
def gatePhase (kind : GateKind) (angle : Angle) (convert : Bool) : Attempt Refusal Phase :=
  if kind.hasPhase then
    match angle with
    | .exact p => return p
    | .float halfTurns => match angle.toPhase? convert with
      | some p => return p
      | none => refuse (.invalidPhase halfTurns)
  else return .zero

/-- The first neighbour of a spider, if it has any. -/
def firstNeighbor? (d : Diagram) (v : Vertex) : Except Fault (Option Vertex) :=
  return (← d.neighbors v).head?

/-- Splits the wire at an end of a qubit with a new spider in the given column. -/
def splice (d : Diagram) (side : Side) (qubit : Nat) (kind : SpiderKind) (p : Phase)
    (column : Double) : Except Fault (Vertex × Diagram) := do
  let b ← d.boundary side qubit
  match ← d.firstNeighbor? b with
  | none => throw (.disconnectedBoundary b)
  | some w =>
    let (_, d) ← d.removeWires b w 1
    let (v, d) ← d.addSpider kind p [w, b]
    return (v, d.place v (some qubit) (some column))

/-- Lets the wires of two qubits change places at an end. -/
def crossWires (d : Diagram) (side : Side) (a b : Nat) : Except Fault Diagram := do
  let ba ← d.boundary side a
  let bb ← d.boundary side b
  let wa := (← d.firstNeighbor? ba).getD ba
  let wb := (← d.firstNeighbor? bb).getD bb
  let (_, d) ← d.removeWires ba wa 1
  let (_, d) ← d.removeWires bb wb 1
  let d ← d.addWire ba wb
  d.addWire bb wa

/-- Puts a gate onto the wires, without checking it. -/
def attachUnchecked (d : Diagram) (side : Side) (kind : GateKind) (qubits : List Nat)
    (p : Phase) : Except Fault Diagram := do
  let column := d.freshColumn side
  match kind, qubits with
  | .zPhase, q :: _ => return (← d.splice side q .z p column).2
  | .xPhase, q :: _ => return (← d.splice side q .x p column).2
  | .hadamard, q :: _ => return (← d.splice side q .box p column).2
  | .cnot, q :: r :: _ =>
    let (control, d) ← d.splice side q .z p column
    let (target, d) ← d.splice side r .x p column
    d.addWire control target
  | .cz, q :: r :: _ =>
    let (a, d) ← d.splice side q .z p column
    let (b, d) ← d.splice side r .z p column
    let (h, d) ← d.addSpider .box .zero [a, b]
    return d.place h none (some column)
  | .swap, q :: r :: _ => d.crossWires side q r
  | _, _ => throw .outOfBounds

/-- Puts a gate onto the wires at an end. -/
def attach (d : Diagram) (side : Side) (kind : GateKind) (qubits : List Nat) (angle : Angle)
    (convert : Bool) : Attempt Refusal Diagram := do
  d.checkQubits kind qubits
  let p ← gatePhase kind angle convert
  d.attachUnchecked side kind qubits p

/-- Puts a gate at the outputs. -/
def push (d : Diagram) (g : Gate) : Attempt Refusal Diagram :=
  d.attach .back g.kind g.qubits (.exact g.phase) true

/-- Puts a gate at the inputs. -/
def pushFront (d : Diagram) (g : Gate) : Attempt Refusal Diagram :=
  d.attach .front g.kind g.qubits (.exact g.phase) true

/-- The diagram of a circuit. -/
def ofCircuit (c : Circuit) : Attempt Refusal Diagram := do
  let bare ← ofWires c.qubits
  c.gates.foldlM push bare

end ZXRewriting.Diagram

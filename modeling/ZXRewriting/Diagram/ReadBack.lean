import ZXRewriting.Diagram.Gates

/-!
# Reading a diagram back as a circuit

A diagram in circuit form is read by following its wires from the inputs. The spiders are
visited in the order of their columns, and the *front* holds the last spider seen on each wire:

* a spider with two edges is a gate on the wire it continues;
* a spider with three edges and the one neighbour of its column that is not visited yet make a
  gate on two wires, followed by rotations for their phases;
* anything else is not the diagram of a circuit.

Gates are put on the wire they are found on, counted from the inputs. The permutation of the
wires that is left at the outputs becomes a list of swaps at the end.
-/

namespace ZXRewriting.Diagram

open Floating

/-- How far a diagram is read. -/
structure Reading where
  gates : List Gate
  /-- The last spider seen on each wire, with the wire. -/
  front : VertexMap Nat
  done : List Vertex

/-- The only element of a list, without which the diagram is no circuit at `v`. -/
def theOnly {α : Type} (v : Vertex) : List α → Attempt Refusal α
  | [x] => return x
  | _ => refuse (.notCircuitLike v)

/-- The wire that a spider continues, and the last spider seen on it. -/
def predecessor (d : Diagram) (front : VertexMap Nat) (v : Vertex) :
    Attempt Refusal (Nat × Vertex) := do
  let ns ← d.neighborSet v
  theOnly v (ns.filterMap fun u => (front[u]?).map fun q => (q, u))

/-- The rotation for the phase of a spider, unless it is zero. -/
def phaseGate (d : Diagram) (v : Vertex) (qubit : Nat) : Except Fault (List Gate) := do
  let p := d.phase v
  if p.isZero then return []
  else match ← d.kind v with
    | .z => return [⟨.zPhase, [qubit], p⟩]
    | .x => return [⟨.xPhase, [qubit], p⟩]
    | _ => return []

/-- The gate of a spider with two edges. -/
def wireGate (d : Diagram) (v : Vertex) (qubit : Nat) : Except Fault (List Gate) := do
  match ← d.kind v with
  | .box => return [.plain .hadamard [qubit]]
  | _ => d.phaseGate v qubit

/-- The kind of the gate on two wires that a spider and its partner are part of, and the spiders
    of the gate on the wires. -/
def twoWireGate (d : Diagram) (v partner : Vertex) :
    Attempt Refusal (GateKind × Vertex × Vertex) := do
  match ← d.kind v, ← d.kind partner with
  | .z, .x => return (.cnot, v, partner)
  | .x, .z => return (.cnot, partner, v)
  | .z, .box =>
    if (← d.degree partner) = 2 then
      match (← d.neighbors partner).find? (· ≠ v) with
      | none => refuse (.notCircuitLike v)
      | some other =>
        if (← d.kind other) = .z then
          if (← d.degree other) = 3 then return (.cz, v, other)
          else refuse (.notCircuitLike v)
        else refuse (.notCircuitLike v)
    else refuse (.notCircuitLike v)
  | _, _ => refuse (.notCircuitLike v)

/-- Moves the front of a wire on from a spider to the next one. -/
def advance (front : VertexMap Nat) (qubit : Nat) (u v : Vertex) : VertexMap Nat :=
  (front.erase u).insert v qubit

/-- Reads the gate of a spider in the given column, unless it is read already. -/
def readSpider (d : Diagram) (r : Reading) (column : Double) (v : Vertex) :
    Attempt Refusal Reading := do
  if v ∈ r.done then
    return r
  else
    let (q, u) ← d.predecessor r.front v
    match ← d.degree v with
    | 2 =>
      let gates ← d.wireGate v q
      return ⟨r.gates ++ gates, advance r.front q u v, v :: r.done⟩
    | 3 =>
      let beside := (← d.neighborSet v).filter fun w =>
        w ≠ u && (match d.column? w with
          | some c => c.equal column
          | none => false) && w ∉ r.done
      let partner ← theOnly v beside
      let (kind, a, b) ← d.twoWireGate v partner
      let (qa, ua) ← d.predecessor r.front a
      let (qb, ub) ← d.predecessor r.front b
      let gates := .plain kind [qa, qb] :: (← d.phaseGate a qa) ++ (← d.phaseGate b qb)
      return ⟨r.gates ++ gates, advance (advance r.front qa ua a) qb ub b,
        partner :: b :: a :: r.done⟩
    | _ => refuse (.notCircuitLike v)

/-- The spiders inside the diagram with their columns, in the order of the vertices. -/
def interior (d : Diagram) : Attempt Refusal (List (Double × Vertex)) := do
  let inside ← d.spiders.filterM fun v => return !(← d.isBoundary v)
  inside.mapM fun v => match d.column? v with
    | some column => return (column, v)
    | none => refuse (.notCircuitLike v)

/-- Whether a spider comes before another in the order of columns, or of vertices in one. -/
def columnOrder (a b : Double × Vertex) : Bool :=
  let (k, l) := (a.1.totalKey, b.1.totalKey)
  k < l || (k == l && a.2 ≤ b.2)

/-- The wire that arrives at an output. -/
def arriving (d : Diagram) (front : VertexMap Nat) (o : Vertex) : Attempt Refusal Nat := do
  match (← d.firstNeighbor? o).bind (front[·]?) with
  | some q => return q
  | none => refuse (.notCircuitLike o)

/-- Exchanges two elements of a list. -/
def exchange {α : Type} (l : List α) (i j : Nat) : List α :=
  match l[i]?, l[j]? with
  | some x, some y => (l.set i y).set j x
  | _, _ => l

/-- Brings the wire of an output to its place, the wires lying as `lines` says. -/
def routeOutput (d : Diagram) (arrivals : List Nat) (state : List Nat × List Gate) (j : Nat) :
    Attempt Refusal (List Nat × List Gate) := do
  let (lines, swaps) := state
  match arrivals[j]?, d.outputs[j]? with
  | some wire, some o =>
    match lines.findIdx? (· == wire) with
    | none => refuse (.notCircuitLike o)
    | some k =>
      if k = j then return (lines, swaps)
      else return (exchange lines j k, swaps ++ [.plain .swap [j, k]])
  | _, _ => throw (.fault .outOfBounds)

/-- Reads a diagram in circuit form back as a circuit. -/
def toCircuit (d : Diagram) : Attempt Refusal Circuit := do
  let n := d.layout.wires
  let front := d.inputs.zipIdx.foldl (fun front (i, q) => front.insert i q) ∅
  let visits := (← d.interior).mergeSort columnOrder
  let read ← visits.foldlM (fun r (column, v) => d.readSpider r column v)
    (⟨[], front, []⟩ : Reading)
  let arrivals ← d.outputs.mapM (d.arriving read.front)
  let (_, swaps) ← (List.range n).foldlM (d.routeOutput arrivals) (List.range n, [])
  return ⟨n, read.gates ++ swaps⟩

end ZXRewriting.Diagram

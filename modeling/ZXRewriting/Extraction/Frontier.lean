import ZXRewriting.Extraction.Obstacle

/-!
# The frontier of an extraction

The *frontier* holds the spiders next to the outputs, with their qubits. Preparing it takes off
what can be written as gates at once: a Hadamard edge to an output is a Hadamard gate, a phase on
the frontier a rotation, and an edge between two frontier spiders a CZ gate. An input next to a
frontier spider that has other edges too is moved away behind a new spider.
-/

namespace ZXRewriting.Extraction

/-- An extraction under way: the diagram that is left, the gates taken off it, and the spiders
    next to the outputs with their qubits. -/
structure State where
  graph : GraphLike
  circuit : Circuit
  frontier : List (Nat × Vertex)

namespace State

/-- Stops at an obstacle. -/
def stop {α : Type} (s : State) (obstacle : Obstacle) : Attempt Unextracted α :=
  refuse ⟨obstacle, s.circuit, s.graph⟩

/-- Takes off a gate. -/
def emit (s : State) (g : Gate) : State := { s with circuit := s.circuit.pushFront g }

/-- The qubit of a frontier spider. -/
def frontierQubit? (s : State) (v : Vertex) : Option Nat :=
  (s.frontier.find? (·.2 == v)).map (·.1)

/-- Puts a new spider between an input and a spider next to it. -/
def padInput (s : State) (v i : Vertex) : Except Fault State := do
  let g := s.graph
  let kind := (← g.edgeKind? i v).getD .plain
  let (n, g) := g.addSpider .zero (g.qubit? i) ((g.column? i).map (· + 1))
  let g ← g.addEdge i n kind.opposite
  let g ← g.addEdge n v .hadamard
  return { s with graph := ← g.removeEdge i v }

/-- Looks at one neighbour of a frontier spider. -/
def prepareNeighbor (qubit : Nat) (o v : Vertex) (s : State) (n : Vertex) :
    Attempt Unextracted State := do
  if n = o then
    return s
  else if ← s.graph.isBoundary n then
    if n ∉ s.graph.inputs then s.stop (.sharedOutput v)
    else if 2 < (← s.graph.degree v) then s.padInput v n
    else return s
  else match s.frontierQubit? n with
    | some r =>
      return { s with graph := ← s.graph.removeEdge v n }.emit (.plain .cz [qubit, r])
    | none => if ← s.graph.isZ n then return s else s.stop (.badNeighbor n)

/-- Takes the phase off a frontier spider. -/
def takePhase (s : State) (qubit : Nat) (v : Vertex) : State :=
  let p := s.graph.phase v
  if p.isZero then s
  else { s with graph := s.graph.setPhase v .zero }.emit ⟨.zPhase, [qubit], p⟩

/-- Takes the Hadamard gate off an edge to an output. -/
def takeHadamard (s : State) (qubit : Nat) (o v : Vertex) (kind : EdgeKind) :
    Except Fault State := do
  if kind = .hadamard then
    return { s with graph := ← s.graph.setEdgeKind v o .plain }.emit (.plain .hadamard [qubit])
  else
    return s

/-- Looks at one output, and puts the spider next to it on the frontier unless it is the end of a
    wire. -/
def prepareOutput (s : State) (o : Vertex) (qubit : Nat) : Attempt Unextracted State := do
  match ← s.graph.incidentEdges o with
  | [] => s.stop (.badOutput o)
  | (v, kind) :: _ =>
    let s ← s.takeHadamard qubit o v kind
    if ← s.graph.isBoundary v then
      return s
    else
      let s := { s with frontier := s.frontier ++ [(qubit, v)] }.takePhase qubit v
      (← s.graph.neighborSet v).foldlM (prepareNeighbor qubit o v) s

/-- Prepares the frontier anew. -/
def prepare (s : State) : Attempt Unextracted State :=
  s.graph.outputs.zipIdx.foldlM (fun s (o, qubit) => s.prepareOutput o qubit)
    { s with frontier := [] }

end State

end ZXRewriting.Extraction

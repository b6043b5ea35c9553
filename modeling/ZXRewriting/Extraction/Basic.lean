import ZXRewriting.Extraction.RowStep
import ZXRewriting.GraphLike.Rules

/-!
# Extraction of circuits

A graph-like diagram is written as a circuit from the outputs backwards. In each round the
frontier is prepared; then either a gadget next to it is removed by pivoting, or the frontier
spiders without a phase that have just an output and one neighbour are removed, if need be after
a step of elimination. When the frontier is empty the outputs are wired to the inputs, and the
permutation of the wires that is left is written as swaps.
-/

namespace ZXRewriting.Extraction

/-- How to extract. -/
structure Options where
  /-- Whether to take steps of elimination; without them only diagrams with a causal flow can be
      extracted. -/
  eliminate : Bool
  /-- Whether to write the final permutation of the wires as swaps. -/
  permute : Bool
  deriving DecidableEq, Repr

namespace State

/-- Pivots a gadget centre next to the frontier away, if there is one, and says which. -/
def removeGadget (s : State) (centres : List Vertex) :
    Attempt Unextracted (Option (Vertex × State)) := do
  let near ← s.frontier.mapM fun (_, v) => return (← s.graph.neighborSet v).map fun n => (v, n)
  match near.flatten.find? (·.2 ∈ centres) with
  | none => return none
  | some (v, n) =>
    if ← s.graph.checkFrontierPivot v n then
      return some (n, { s with graph := ← s.graph.frontierPivot v n })
    else
      s.stop (.gadget v n)

/-- Removes a frontier spider that acts as a wire, and counts it. -/
def removeWire (state : Nat × GraphLike) (v : Vertex) : Except Fault (Nat × GraphLike) := do
  let (removed, g) := state
  if ← g.checkRemoveIdentity v then return (removed + 1, ← g.removeIdentity v)
  else return (removed, g)

/-- Removes the frontier spiders that act as wires, if there are any. -/
def removeWires (s : State) : Except Fault (Option State) := do
  let (removed, graph) ← (s.frontier.map (·.2)).foldlM removeWire (0, s.graph)
  return if removed = 0 then none else some { s with graph }

/-- What comes after a round. -/
inductive Round
  /-- The frontier is empty. -/
  | finished (s : State)
  /-- Something was extracted; the gadget centres are those that are left. -/
  | next (s : State) (centres : List Vertex)

/-- One round of extraction. -/
def round (options : Options) (s : State) (centres : List Vertex) :
    Attempt Unextracted Round := do
  let s ← s.prepare
  if s.frontier.isEmpty then
    return .finished s
  else match ← s.removeGadget centres with
    | some (n, s) => return .next s (centres.filter (· ≠ n))
    | none => match ← s.removeWires with
      | some s => return .next s centres
      | none =>
        let s ← if options.eliminate then s.rowStep else pure s
        match ← s.removeWires with
        | some s => return .next s centres
        | none => s.stop .stuck

/-- Rounds until the frontier is empty. -/
def runWithin (options : Options) : (rounds : Nat) → State → List Vertex →
    Attempt Unextracted State
  | 0, _, _ => throw (.fault .outOfRounds)
  | rounds + 1, s, centres => do
    match ← s.round options centres with
    | .finished s => return s
    | .next s centres => runWithin options rounds s centres

/-- The input that an output is wired to. -/
def sourceOf (s : State) (o : Vertex) : Attempt Unextracted Nat := do
  match (← s.graph.neighborSet o).head?.bind (s.graph.inputs.idxOf? ·) with
  | some source => return source
  | none => s.stop (.unwiredOutput o)

/-- Brings the wire of one output to its place by a swap, the wires lying as `lines` says. -/
def routeWire (arrivals : List Nat) (state : List Nat × List Gate) (q : Nat) :
    List Nat × List Gate :=
  let (lines, swaps) := state
  match (lines.zipIdx.drop q).find? fun (wire, _) => some wire == arrivals[q]? with
  | none => (lines, swaps)
  | some (wire, k) =>
    if k = q then (lines, swaps)
    else (((lines.set k (lines.getD q 0)).set q wire), swaps ++ [.plain .swap [q, k]])

/-- Puts swaps for the permutation of the wires in front of the circuit. -/
def permute (s : State) : Attempt Unextracted State := do
  let arrivals ← s.graph.outputs.mapM s.sourceOf
  let n := arrivals.length
  let (_, swaps) := (List.range n).foldl (routeWire arrivals) (List.range n, [])
  return { s with circuit := { s.circuit with gates := swaps ++ s.circuit.gates } }

end State

/-- The gadget centres of a diagram: the neighbours of leaves. -/
def gadgetCentres (g : GraphLike) : Except Fault (List Vertex) := do
  let leaves ← g.spiders.filterM g.isLeaf
  return (← leaves.mapM g.neighborSet).flatten

/-- Extracts a circuit, and gives also the diagram that is left of the graph. -/
def extract (options : Options) (g : GraphLike) : Attempt Unextracted (GraphLike × Circuit) := do
  let start : State := ⟨g, .empty g.outputs.length, []⟩
  let s ← start.runWithin options g.roundLimit (← gadgetCentres g)
  let s ← if options.permute then s.permute else pure s
  return (s.graph, s.circuit)

/-- The circuit of a graph-like diagram. -/
def circuitOf (g : GraphLike) : Attempt Unextracted Circuit :=
  return (← extract ⟨true, true⟩ g).2

end ZXRewriting.Extraction

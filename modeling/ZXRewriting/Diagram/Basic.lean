import ZXRewriting.Layout
import ZXRewriting.Multigraph
import ZXRewriting.Phase.Basic

/-!
# Diagrams

A diagram is a multigraph, the vertices of which are *spiders*: each has a kind, and the ones
coloured Z or X a phase. Some spiders lie on the wire of a qubit and in a column. The inputs and
the outputs are listed in the order of the qubits.

A diagram also remembers, for every coloured spider, its *carrier*: the spider which carries the
phase it was made with, and the sign it is carried with. A new spider carries its own phase;
moving the phase of a spider to another one (`Diagram.fusePhase`) moves every phase it carried.

A diagram is in *circuit form* when all of its edges are plain, Hadamard gates being boxes on
wires. `GraphLike`, which extends it, is the other form.
-/

namespace ZXRewriting

/-- The spider that carries a phase, and the sign it carries it with. -/
structure Carrier where
  spider : Vertex
  sign : Int
  deriving DecidableEq, Repr

/-- A diagram of spiders. -/
structure Diagram where
  graph : Multigraph
  kinds : VertexMap SpiderKind
  phases : VertexMap Phase
  layout : Layout
  inputs : List Vertex
  outputs : List Vertex
  carriers : VertexMap Carrier
  deriving DecidableEq

namespace Diagram

/-! ### Reading -/

/-- The spiders in ascending order. -/
def spiders (d : Diagram) : List Vertex := d.graph.vertices

/-- Whether a spider is there. -/
def contains (d : Diagram) (v : Vertex) : Bool := d.graph.contains v

/-- The kind of a spider. -/
def kind (d : Diagram) (v : Vertex) : Except Fault SpiderKind :=
  match d.kinds[v]? with
  | some kind => .ok kind
  | none => .error (.spiderNotFound v)

/-- The phase of a spider, zero if it has none. -/
def phase (d : Diagram) (v : Vertex) : Phase := (d.phases[v]?).getD .zero

/-- The wire a spider lies on. -/
def qubit? (d : Diagram) (v : Vertex) : Option Nat := d.layout.qubit? v

/-- The column a spider lies in. -/
def column? (d : Diagram) (v : Vertex) : Option Floating.Double := d.layout.column? v

/-- The neighbours of a spider, once for every edge. -/
def neighbors (d : Diagram) (v : Vertex) : Except Fault (List Vertex) := d.graph.neighbors v

/-- The distinct neighbours of a spider in ascending order. -/
def neighborSet (d : Diagram) (v : Vertex) : Except Fault (List Vertex) := d.graph.neighborSet v

/-- The number of edges at a spider. -/
def degree (d : Diagram) (v : Vertex) : Except Fault Nat := d.graph.degree v

/-- Whether an edge joins two spiders. -/
def connected (d : Diagram) (s t : Vertex) : Except Fault Bool := d.graph.connected s t

/-- The number of plain edges between two spiders. -/
def wires (d : Diagram) (s t : Vertex) : Except Fault Nat := d.graph.multiplicity s t .plain

/-- Whether a spider is the end of a wire. -/
def isBoundary (d : Diagram) (v : Vertex) : Except Fault Bool :=
  return (← d.kind v).isBoundary

/-- Whether a spider is coloured, with a phase that is no multiple of a quarter turn. -/
def isNonClifford (d : Diagram) (v : Vertex) : Except Fault Bool :=
  return (← d.kind v).isPhased && !(d.phase v).isClifford

/-- The number of coloured spiders with a phase that is no multiple of a quarter turn. -/
def tCount (d : Diagram) : Except Fault Nat :=
  return (← d.spiders.filterM d.isNonClifford).length

/-- A number of rounds that no simplification and no extraction comes near. -/
def roundLimit (d : Diagram) : Nat := 1 <<< (64 + d.graph.nextVertex + d.graph.edgeCount)

/-- Whether two diagrams agree in all of their data, columns being compared as numbers. -/
def agrees (a b : Diagram) : Bool :=
  a.graph == b.graph && a.kinds == b.kinds && a.phases == b.phases &&
    a.layout.agrees b.layout && a.inputs == b.inputs && a.outputs == b.outputs &&
    a.carriers == b.carriers

/-! ### Editing -/

/-- The diagram without spiders, for the given number of qubits. -/
def blank (qubits : Nat) : Diagram :=
  ⟨.empty, ∅, ∅, .new qubits, [], [], ∅⟩

/-- Sets the phase of a spider. -/
def setPhase (d : Diagram) (v : Vertex) (p : Phase) : Diagram :=
  { d with phases := d.phases.insert v p }

@[simp] theorem phase_setPhase (d : Diagram) (v w : Vertex) (p : Phase) :
    (d.setPhase v p).phase w = if v = w then p else d.phase w := by
  simp only [phase, setPhase, Std.ExtTreeMap.getElem?_insert, Nat.compare_eq_eq]
  split <;> rfl

/-- Adds to the phase of a spider. -/
def addToPhase (d : Diagram) (v : Vertex) (p : Phase) : Diagram :=
  d.setPhase v (d.phase v + p)

@[simp] theorem phase_addToPhase (d : Diagram) (v w : Vertex) (p : Phase) :
    (d.addToPhase v p).phase w = if v = w then d.phase v + p else d.phase w :=
  phase_setPhase d v w _

/-- Sets the kind of a spider. One that is not coloured has no phase and is not carried; one
    that comes to be coloured is carried by itself, unless it is carried already. -/
def setKind (d : Diagram) (v : Vertex) (kind : SpiderKind) : Diagram :=
  let d := { d with kinds := d.kinds.insert v kind }
  if kind.isPhased then { d with carriers := d.carriers.insertIfNew v ⟨v, 1⟩ }
  else { d with phases := d.phases.insert v .zero, carriers := d.carriers.erase v }

@[simp] theorem kind_setKind (d : Diagram) (v w : Vertex) (kind : SpiderKind) :
    (d.setKind v kind).kind w = if v = w then .ok kind else d.kind w := by
  have h : (d.setKind v kind).kinds = d.kinds.insert v kind := by
    unfold setKind
    split <;> rfl
  simp only [Diagram.kind, h, Std.ExtTreeMap.getElem?_insert, Nat.compare_eq_eq]
  by_cases hv : v = w <;> simp [hv]

/-- Puts a spider onto a wire and into a column, or takes it off. -/
def place (d : Diagram) (v : Vertex) (qubit : Option Nat) (column : Option Floating.Double) :
    Diagram :=
  { d with layout := d.layout.place v qubit column }

/-- Moves the phase of `source`, times `sign`, onto `target`, with all the phases it carries. -/
def fusePhase (d : Diagram) (source target : Vertex) (sign : Int) : Diagram :=
  let d := d.addToPhase target ((d.phase source).scale sign)
  let d := d.setPhase source .zero
  let moved := d.carriers.map fun _ c =>
    if c.spider = source then ⟨target, c.sign * sign⟩ else c
  { d with carriers := moved.insert source ⟨target, sign⟩ }

/-- Joins two spiders by a wire. -/
def addWire (d : Diagram) (s t : Vertex) : Except Fault Diagram :=
  return { d with graph := ← d.graph.addEdge s t .plain }

/-- Removes up to `m` wires between two spiders, and says how many. -/
def removeWires (d : Diagram) (s t : Vertex) (m : Nat) : Except Fault (Nat × Diagram) := do
  let (removed, graph) ← d.graph.removeEdges s t .plain m
  return (removed, { d with graph })

/-- Adds a spider with a wire to each of the given ones, and says which it is. Only a coloured
    spider takes the phase. -/
def addSpider (d : Diagram) (kind : SpiderKind) (p : Phase) (wired : List Vertex) :
    Except Fault (Vertex × Diagram) := do
  let (v, graph) := d.graph.addVertex
  let d := { d with
    graph
    kinds := d.kinds.insert v kind
    phases := d.phases.insert v (if kind.isPhased then p else .zero)
    carriers := if kind.isPhased then d.carriers.insert v ⟨v, 1⟩ else d.carriers }
  return (v, ← wired.foldlM (·.addWire v ·) d)

/-- The column between those of two spiders, or the column of the one that has any. -/
def columnBetween (d : Diagram) (s t : Vertex) : Option Floating.Double :=
  match d.column? s, d.column? t with
  | some a, some b => some ((a + b) / 2)
  | some a, none => some a
  | none, b => b

/-- Splits the given number of wires between two spiders, which have been cut, with a new spider
    each. The new spiders lie between the two. -/
def addSplits (d : Diagram) (s t : Vertex) (kind : SpiderKind) (p : Phase) :
    Nat → Except Fault (List Vertex × Diagram)
  | 0 => return ([], d)
  | m + 1 => do
    let (v, added) ← d.addSpider kind p [s, t]
    let placed := added.place v (d.qubit? s <|> d.qubit? t) (d.columnBetween s t)
    let (vs, d) ← placed.addSplits s t kind p m
    return (v :: vs, d)

/-- Splits every wire between two spiders with a new spider, and says which these are. -/
def insertSpider (d : Diagram) (s t : Vertex) (kind : SpiderKind) (p : Phase) :
    Except Fault (List Vertex × Diagram) := do
  let (m, graph) ← d.graph.removeKind s t .plain
  { d with graph }.addSplits s t kind p m

/-- Removes a spider with all of its edges. -/
def removeSpider (d : Diagram) (v : Vertex) : Except Fault Diagram :=
  return { d with
    graph := ← d.graph.removeVertex v
    kinds := d.kinds.erase v
    phases := d.phases.erase v
    carriers := d.carriers.erase v
    layout := d.layout.remove v }

/-- Removes spiders one after the other. -/
def removeSpiders (d : Diagram) (vs : List Vertex) : Except Fault Diagram :=
  vs.foldlM removeSpider d

end Diagram

end ZXRewriting

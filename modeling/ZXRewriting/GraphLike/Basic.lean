import ZXRewriting.Diagram.Basic

/-!
# Graph-like diagrams

A diagram is in *graph-like form* when the spiders inside are all Z spiders, two of them are
joined by at most one edge, which is a Hadamard edge, and every boundary spider has a single
edge, of either kind.

A graph-like diagram remembers the diagram in circuit form it was made from, its *master*, and
its carriers are spiders of the master. When two phases come to be added on the graph, the
master is told (`GraphLike.mergeCarriers`): there, too, the one is moved onto the other, with the
product of the signs they are carried with.
-/

namespace ZXRewriting

/-- A graph-like diagram and the diagram in circuit form it was made from. -/
structure GraphLike extends Diagram where
  master : Diagram
  deriving DecidableEq

namespace GraphLike

/-! ### Reading -/

/-- The number of edges between two spiders, of either kind. -/
def edgeCount (g : GraphLike) (s t : Vertex) : Except Fault Nat := g.graph.totalMultiplicity s t

/-- The kind of the edge between two spiders, if there is one. -/
def edgeKind? (g : GraphLike) (s t : Vertex) : Except Fault (Option EdgeKind) :=
  g.graph.edgeKind? s t

/-- The links of a spider as they are stored. -/
def links (g : GraphLike) (v : Vertex) : Except Fault (List Link) := g.graph.links v

/-- Whether a link comes before another one by neighbour and kind. -/
def linkOrder (a b : Vertex × EdgeKind) : Bool :=
  a.1 < b.1 || (a.1 == b.1 && a.2.rank ≤ b.2.rank)

/-- The neighbours of a spider and the kinds of the edges there, in ascending order. -/
def incidentEdges (g : GraphLike) (v : Vertex) : Except Fault (List (Vertex × EdgeKind)) :=
  return ((← g.links v).map fun l => (l.node, l.kind)).mergeSort linkOrder

/-- The boundary spiders next to a spider in ascending order. -/
def boundaryNeighbors (g : GraphLike) (v : Vertex) : Except Fault (List Vertex) := do
  (← g.neighborSet v).filterM g.isBoundary

/-- Whether a spider is a Z spider. -/
def isZ (g : GraphLike) (v : Vertex) : Except Fault Bool :=
  return (← g.kind v) == .z

/-- Whether a spider is a Z spider with at most one edge to the boundary. -/
def isInterior (g : GraphLike) (v : Vertex) : Except Fault Bool :=
  g.isZ v <&&> do
    let ends ← (← g.links v).filterM fun l => g.isBoundary l.node
    return Links.total ends ≤ 1

/-- Whether a link is a single Hadamard edge to a Z spider with further edges. -/
def isInnerLink (g : GraphLike) (l : Link) : Except Fault Bool :=
  pure (l.count == 1 && l.kind == .hadamard) <&&> g.isZ l.node <&&>
    (return 1 < (← g.degree l.node))

/-- Whether a spider is a Z spider away from the boundary and from the leaves: it has more than
    one edge, all single Hadamard edges to Z spiders with more than one. -/
def isInner (g : GraphLike) (v : Vertex) : Except Fault Bool :=
  g.isZ v <&&> (return 1 < (← g.degree v)) <&&> do (← g.links v).allM g.isInnerLink

/-- Whether a spider is a Z spider which hangs off another one by its only edge, a Hadamard
    edge. -/
def isLeaf (g : GraphLike) (v : Vertex) : Except Fault Bool :=
  g.isZ v <&&> (return (← g.degree v) == 1) <&&> do
    (← g.links v).allM fun l => pure (l.kind == .hadamard) <&&> g.isZ l.node

/-- Whether two graph-like diagrams agree in all of their data, the masters included. -/
def agrees (a b : GraphLike) : Bool :=
  a.toDiagram.agrees b.toDiagram && a.master.agrees b.master

/-! ### Editing -/

/-- Sets the phase of a spider. -/
def setPhase (g : GraphLike) (v : Vertex) (p : Phase) : GraphLike :=
  { g with toDiagram := g.toDiagram.setPhase v p }

/-- Adds to the phase of a spider. -/
def addToPhase (g : GraphLike) (v : Vertex) (p : Phase) : GraphLike :=
  { g with toDiagram := g.toDiagram.addToPhase v p }

/-- Puts a spider onto a wire and into a column, or takes it off. -/
def place (g : GraphLike) (v : Vertex) (qubit : Option Nat) (column : Option Floating.Double) :
    GraphLike :=
  { g with toDiagram := g.toDiagram.place v qubit column }

/-- Adds a Z spider without edges, the phase of which is carried by no spider of the master. -/
def addSpider (g : GraphLike) (p : Phase) (qubit : Option Nat)
    (column : Option Floating.Double) : Vertex × GraphLike :=
  let (v, graph) := g.graph.addVertex
  let g := { g with
    graph
    kinds := g.kinds.insert v .z
    phases := g.phases.insert v p }
  (v, g.place v qubit column)

/-- Removes a spider with all of its edges. -/
def removeSpider (g : GraphLike) (v : Vertex) : Except Fault GraphLike :=
  return { g with toDiagram := ← g.toDiagram.removeSpider v }

/-- Removes spiders one after the other. -/
def removeSpiders (g : GraphLike) (vs : List Vertex) : Except Fault GraphLike :=
  vs.foldlM removeSpider g

/-- Joins two spiders by an edge. -/
def addEdge (g : GraphLike) (s t : Vertex) (kind : EdgeKind) : Except Fault GraphLike :=
  return { g with graph := ← g.graph.addEdge s t kind }

/-- Removes all edges between two spiders. -/
def removeEdge (g : GraphLike) (s t : Vertex) : Except Fault GraphLike :=
  return { g with graph := (← g.graph.disconnect s t).2 }

/-- Gives the edges between two spiders the same kind. -/
def setEdgeKind (g : GraphLike) (s t : Vertex) (kind : EdgeKind) : Except Fault GraphLike :=
  return { g with graph := ← g.graph.setEdgeKind s t kind }

/-- Adds an edge and reduces what becomes of it. A Hadamard edge from a spider to itself is a
    phase of pi, and a plain one is nothing. Between two Z spiders, a second Hadamard edge
    cancels the first one, and a Hadamard edge beside a plain one is a phase of pi. A second edge
    to a boundary spider is a fault. -/
def addEdgeReduced (g : GraphLike) (s t : Vertex) (kind : EdgeKind) : Except Fault GraphLike := do
  if s = t then
    return if kind = .hadamard then g.addToPhase s .pi else g
  else match ← g.edgeKind? s t with
    | none => g.addEdge s t kind
    | some old =>
      if (← g.isBoundary s) then
        throw (.parallelAtBoundary s t)
      else if (← g.isBoundary t) then
        throw (.parallelAtBoundary s t)
      else match old, kind with
        | .plain, .plain => return g
        | .hadamard, .hadamard => g.removeEdge s t
        | .hadamard, .plain => return (← g.setEdgeKind s t .plain).addToPhase s .pi
        | .plain, .hadamard => return g.addToPhase s .pi

/-! ### Carriers -/

/-- Has `keep` carried for `gone` too, after the phase of `gone` was added to that of `keep`. If
    both are carried, the master moves the one phase onto the other. -/
def mergeCarriers (g : GraphLike) (keep gone : Vertex) : GraphLike :=
  match g.carriers[gone]? with
  | none => g
  | some c =>
    let g := { g with carriers := g.carriers.erase gone }
    match g.carriers[keep]? with
    | none => { g with carriers := g.carriers.insert keep c }
    | some k =>
      if k.spider = c.spider then g
      else { g with master := g.master.fusePhase c.spider k.spider (k.sign * c.sign) }

/-- Has a new spider carried in place of the one it took the phase from. -/
def moveCarrier (g : GraphLike) (source target : Vertex) : GraphLike :=
  match g.carriers[source]? with
  | none => g
  | some c => { g with carriers := (g.carriers.erase source).insert target c }

/-- Turns the phase of a spider, and the sign it is carried with, into the opposite. -/
def negatePhase (g : GraphLike) (v : Vertex) : GraphLike :=
  let g := g.setPhase v (-g.phase v)
  match g.carriers[v]? with
  | none => g
  | some c => { g with carriers := g.carriers.insert v ⟨c.spider, -c.sign⟩ }

end GraphLike

end ZXRewriting

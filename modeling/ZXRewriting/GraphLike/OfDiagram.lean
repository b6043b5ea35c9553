import ZXRewriting.GraphLike.Basic

/-!
# Graph-like form of a diagram

A diagram in circuit form is brought into graph-like form in four steps: Hadamard boxes become
edges, or spiders if they have another number of wires than two; X spiders become Z spiders with
Hadamard edges in place of plain ones, and the other way round; Z spiders joined by plain edges
are fused into the oldest one; and parallel Hadamard edges cancel in pairs.

Spiders that are left keep their names. Every coloured spider is carried by itself at first, and
fusing two tells the master.
-/

namespace ZXRewriting.GraphLike

/-- A box with many wires: the diagonal map which is -1 where all wires are 1. Each wire gets a
    Z spider, and each set of wires a phase of `± pi / 2 ^ (n - 1)` on their parity: on the
    spider of a single wire, and else on a leaf behind a spider joined to those of the wires. -/
structure BoxLegs where
  /-- The spiders of the wires. -/
  legs : List Vertex
  qubit : Option Nat
  column : Option Floating.Double

/-- The phase for a set of wires of the given size, out of `n`. -/
def parityPhase (n size : Nat) : Phase :=
  .ofQuotient (if size % 2 = 1 then 1 else -1) (1 <<< (n - 1))

/-- The elements of a list at the positions of the binary digits of `bits` that are one. -/
def selectBits {α : Type} (bits : Nat) (l : List α) : List α :=
  (l.zipIdx.filter fun (_, i) => bits.testBit i).map (·.1)

/-- Puts the phase for a set of wires, given by its binary digits. -/
def addParity (b : BoxLegs) (g : GraphLike) (bits : Nat) : Except Fault GraphLike := do
  let members := selectBits bits b.legs
  let p := parityPhase b.legs.length members.length
  match members with
  | [z] => return g.addToPhase z p
  | _ =>
    let (axle, g) := g.addSpider .zero b.qubit b.column
    let (leaf, g) := g.addSpider p b.qubit b.column
    let g ← g.addEdge axle leaf .hadamard
    members.foldlM (fun g z => g.addEdge z axle .hadamard) g

/-- Puts a Z spider at the end of each wire of a box, and says which these are. -/
def addLegs (g : GraphLike) (qubit : Option Nat) (column : Option Floating.Double) :
    List (Vertex × EdgeKind) → Except Fault (List Vertex × GraphLike)
  | [] => return ([], g)
  | (w, kind) :: rest => do
    let (z, g) := g.addSpider .zero qubit column
    let g ← g.addEdge z w kind
    let (zs, g) ← g.addLegs qubit column rest
    return (z :: zs, g)

/-- Writes a box with the given wires, more than two, as spiders. -/
def expandBox (g : GraphLike) (h : Vertex) (ends : List (Vertex × EdgeKind)) :
    Except Fault GraphLike := do
  let qubit := g.qubit? h
  let column := g.column? h
  let g ← g.removeSpider h
  let (legs, g) ← g.addLegs qubit column ends
  ((List.range (1 <<< legs.length)).drop 1).foldlM (addParity ⟨legs, qubit, column⟩) g

/-- Removes a Hadamard box. Without wires it is a scalar; with one, a Z spider of phase pi; with
    two, a Hadamard edge, or a phase of pi if both lead to the same spider. -/
def removeBox (g : GraphLike) (h : Vertex) : Except Fault GraphLike := do
  let ends := (← g.links h).flatMap fun l => List.replicate l.count (l.node, l.kind)
  match ends with
  | [] => g.removeSpider h
  | [_] => return { g.setPhase h .pi with kinds := g.kinds.insert h .z }
  | [(a, first), (b, second)] =>
    let kind := (EdgeKind.merge first second).opposite
    let g ← g.removeSpider h
    if a = b then
      return if kind = .hadamard then g.addToPhase a .pi else g
    else g.addEdge a b kind
  | _ => g.expandBox h ends

/-- Removes every Hadamard box. -/
def removeBoxes (g : GraphLike) : Except Fault GraphLike := do
  let boxes ← g.spiders.filterM fun v => return (← g.kind v) == .box
  boxes.foldlM removeBox g

/-- Turns an X spider into a Z spider: every edge of it becomes one of the other kind. -/
def recolour (g : GraphLike) (v : Vertex) : Except Fault GraphLike := do
  if (← g.kind v) = .x then
    let g := { g with kinds := g.kinds.insert v .z }
    let links ← g.links v
    let cut ← links.foldlM
      (fun graph l => return (← graph.removeEdges v l.node l.kind l.count).2) g.graph
    let graph ← links.foldlM
      (fun graph l => graph.addEdges v l.node l.kind.opposite l.count) cut
    return { g with graph }
  else
    return g

/-- Turns every X spider into a Z spider. -/
def recolourAll (g : GraphLike) : Except Fault GraphLike :=
  g.spiders.foldlM recolour g

/-- Moves a link of a spider that is fused into `v`. The edges to `v` itself become loops: a
    plain one goes, and a Hadamard one is a phase of pi. -/
def moveLink (v : Vertex) (g : GraphLike) (l : Link) : Except Fault GraphLike := do
  if l.node ≠ v then
    return { g with graph := ← g.graph.addEdges v l.node l.kind l.count }
  else if l.kind = .hadamard ∧ l.count % 2 = 1 then
    return g.addToPhase v .pi
  else
    return g

/-- Fuses a Z spider into another one. -/
def fuseInto (g : GraphLike) (v w : Vertex) : Except Fault GraphLike := do
  let g := g.addToPhase v (g.phase w)
  let g ← (← g.links w).foldlM (moveLink v) g
  (g.mergeCarriers v w).removeSpider w

/-- Fuses the Z spiders behind plain edges of `v` into it, at most as many as given: each takes a
    spider away. -/
def fuseAround (v : Vertex) : (spiders : Nat) → GraphLike → Except Fault GraphLike
  | 0, g => return g
  | spiders + 1, g => do
    let next ← (← g.links v).findM? fun l => pure (l.kind == .plain) <&&> g.isZ l.node
    match next with
    | none => return g
    | some l => fuseAround v spiders (← g.fuseInto v l.node)

/-- Fuses the Z spiders behind plain edges of a Z spider into it. -/
def fuseAt (g : GraphLike) (v : Vertex) : Except Fault GraphLike := do
  if g.contains v then
    if ← g.isZ v then fuseAround v g.graph.vertexCount g else return g
  else
    return g

/-- Fuses every plain edge between Z spiders, into the older spider. -/
def fuseAll (g : GraphLike) : Except Fault GraphLike :=
  g.spiders.foldlM fuseAt g

/-- Cancels parallel Hadamard edges in pairs. -/
def reduceEdge (g : GraphLike) (s : Vertex) (l : Link) : Except Fault GraphLike := do
  if l.kind = .hadamard ∧ 1 < l.count then
    return { g with
      graph := (← g.graph.removeEdges s l.node l.kind (l.count - l.count % 2)).2 }
  else
    return g

/-- Cancels all parallel Hadamard edges in pairs. -/
def reduceEdges (g : GraphLike) : Except Fault GraphLike :=
  g.graph.edges.foldlM (fun g (s, l) => g.reduceEdge s l) g

/-- A diagram with itself as its master, each coloured spider being carried by itself. -/
def start (d : Diagram) : Except Fault GraphLike := do
  let coloured ← d.spiders.filterM fun v => return (← d.kind v).isPhased
  let kinds ← d.spiders.mapM fun v => return (v, ← d.kind v)
  return {
    graph := d.graph
    kinds := .ofList kinds compare
    phases := .ofList (d.spiders.map fun v => (v, d.phase v)) compare
    layout := d.layout
    inputs := d.inputs
    outputs := d.outputs
    carriers := .ofList (coloured.map fun v => (v, ⟨v, 1⟩)) compare
    master := d }

/-- The graph-like form of a diagram. -/
def ofDiagram (d : Diagram) : Except Fault GraphLike := do
  let g ← start d
  let g ← g.removeBoxes
  let g ← g.recolourAll
  let g ← g.fuseAll
  g.reduceEdges

end ZXRewriting.GraphLike

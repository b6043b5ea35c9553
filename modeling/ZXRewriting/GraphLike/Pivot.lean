import ZXRewriting.GraphLike.Basic
import ZXRewriting.Rewriting.Rule

/-!
# Pivoting

Two spiders with phases 0 or pi that are joined by a Hadamard edge can both be removed: each
neighbour of the one gets one more Hadamard edge to each neighbour of the other, and the phase
of either goes to the neighbours of the other.

In the plain form (`pivot`) both spiders are inner. In the others the second one need not be.
First, what is in the way is moved off: the boundary behind a new spider (`shiftBoundary`), and
a phase other than 0 or pi onto a *gadget*, a leaf behind a new spider (`shiftPhase`).
-/

namespace ZXRewriting.GraphLike

/-- Whether a spider is inner, with a phase of 0 or pi. -/
def isInnerPauli (g : GraphLike) (v : Vertex) : Except Fault Bool :=
  pure (g.phase v).isPauli <&&> g.isInner v

/-- Whether two spiders are distinct and joined by a Hadamard edge, but no plain one. -/
def hadamardJoined (g : GraphLike) (v w : Vertex) : Except Fault Bool :=
  pure (v ≠ w : Bool) <&&> (return (← g.edgeKind? v w) == some .hadamard)

/-! ### Both inside -/

/-- Whether both spiders are inner, with phases 0 or pi, and joined. -/
def checkPivot (g : GraphLike) (v w : Vertex) : Except Fault Bool :=
  g.hadamardJoined v w <&&> g.isInnerPauli v <&&> g.isInnerPauli w

/-- Adds a phase to `n`, and an edge to each spider of a list. -/
def pivotNeighbor (p : Phase) (others : List Vertex) (g : GraphLike) (n : Vertex) :
    Except Fault GraphLike :=
  others.foldlM (·.addEdgeReduced n · .hadamard) (g.addToPhase n p)

/-- Removes two spiders and joins the neighbours of the one to those of the other. A neighbour
    of both gets an edge to itself, which is a phase of pi. -/
def pivot (g : GraphLike) (v w : Vertex) : Except Fault GraphLike := do
  let p := g.phase v
  let q := g.phase w
  let ns ← g.neighborSet v
  let ms ← g.neighborSet w
  let joined ← ns.foldlM
    (fun g n => pivotNeighbor q (if n = w then [] else ms.filter (· ≠ v)) g n) g
  let phased := ms.foldl (·.addToPhase · p) joined
  (← phased.removeSpider v).removeSpider w

/-- The pairs found by a scan: at each inner spider with phase 0 or pi, the first neighbour that
    passes `check`. No two pairs have neighbourhoods in common. Past the pair, a match holds the
    spiders that `rest` gives for the second one. -/
def pairSites (g : GraphLike) (check : Vertex → Vertex → Except Fault Bool)
    (rest : Vertex → Except Fault (List Vertex)) : Except Fault (List Match) :=
  scan (fun taken v => do
    if ← g.isInnerPauli v then
      let ns ← g.neighborSet v
      if ns.any (· ∈ taken) then return none
      else match ← ns.findM? (check v) with
        | none => return none
        | some w =>
          let ms ← g.neighborSet w
          if ms.any (· ∈ taken) then return none
          else return some ⟨v :: w :: (← rest w), v :: ns ++ ms⟩
    else return none) g.spiders

/-- The pairs of inner spiders, the older one first. -/
def pivotSites (g : GraphLike) : Except Fault (List Match) :=
  g.pairSites (fun v w => pure (v < w : Bool) <&&> g.checkPivot v w) fun _ => return []

/-! ### Moving off what is in the way -/

/-- Puts a new spider between a spider and a boundary spider next to it. -/
def shiftBoundary (v : Vertex) (g : GraphLike) (b : Vertex) : Except Fault GraphLike := do
  if ← g.isBoundary b then
    match ← g.edgeKind? v b with
    | none => return g
    | some kind =>
      let (n, g) := g.addSpider .zero (g.qubit? v) (g.column? v)
      let g ← g.addEdge v n .hadamard
      let g ← g.addEdge n b kind.opposite
      g.removeEdge v b
  else
    return g

/-- Moves the boundary away from a spider. -/
def shiftBoundaries (g : GraphLike) (v : Vertex) : Except Fault GraphLike := do
  (← g.boundaryNeighbors v).foldlM (shiftBoundary v) g

/-- Moves a phase other than 0 or pi onto a gadget, the leaf of which is carried in place of the
    spider. -/
def shiftPhase (g : GraphLike) (v : Vertex) : Except Fault GraphLike := do
  let p := g.phase v
  if p.isPauli then
    return g
  else
    let column := g.column? v
    let (axle, g) := g.addSpider .zero none column
    let (leaf, g) := g.addSpider p none column
    let g := g.setPhase v .zero
    let g ← g.addEdge v axle .hadamard
    let g ← g.addEdge axle leaf .hadamard
    return g.moveCarrier v leaf

/-- Whether a spider is next to a single boundary spider by one edge, and all of its other edges
    are single Hadamard edges to Z spiders with further edges. -/
def isBoundaryAdjacent (g : GraphLike) (w : Vertex) : Except Fault Bool := do
  let bs ← g.boundaryNeighbors w
  g.isZ w <&&> (match bs with
    | [b] => (return (← g.edgeCount w b) == 1) <&&> do
      (← g.incidentEdges w).allM fun (n, kind) => g.isBoundary n <||>
        (pure (kind == .hadamard) <&&> g.isZ n <&&> (return (← g.edgeCount w n) == 1) <&&>
          (return 1 < (← g.degree n)))
    | _ => return false)

/-! ### One at the boundary -/

/-- Whether the first spider is inner and the second one next to the boundary, both with phases
    0 or pi. -/
def checkPivotBoundary (g : GraphLike) (v w : Vertex) : Except Fault Bool :=
  g.hadamardJoined v w <&&> g.isInnerPauli v <&&> pure (g.phase w).isPauli <&&>
    g.isBoundaryAdjacent w

/-- Pivots after moving the boundary away from the second spider. -/
def pivotBoundary (g : GraphLike) (v w : Vertex) : Except Fault GraphLike := do
  (← g.shiftBoundaries w).pivot v w

/-- The pairs of an inner spider and one at the boundary, with the boundary spider. -/
def pivotBoundarySites (g : GraphLike) : Except Fault (List Match) :=
  g.pairSites g.checkPivotBoundary g.boundaryNeighbors

/-! ### One with a phase in the way -/

/-- Whether both spiders are inner, the first one with a phase of 0 or pi and the second one with
    a phase that is no multiple of a quarter turn. -/
def checkPivotGadget (g : GraphLike) (v w : Vertex) : Except Fault Bool :=
  g.hadamardJoined v w <&&> g.isInnerPauli v <&&> pure (!(g.phase w).isClifford) <&&>
    g.isInner w

/-- Pivots after moving the phase of the second spider onto a gadget. -/
def pivotGadget (g : GraphLike) (v w : Vertex) : Except Fault GraphLike := do
  (← g.shiftPhase w).pivot v w

/-- The pairs of inner spiders, one of them with a phase in the way. -/
def pivotGadgetSites (g : GraphLike) : Except Fault (List Match) :=
  g.pairSites g.checkPivotGadget fun _ => return []

/-! ### One at the boundary with a phase in the way -/

/-- Whether the first spider is inner with a phase of 0 or pi, and the second one next to the
    boundary with another phase. -/
def checkPivotBoundaryGadget (g : GraphLike) (v w : Vertex) : Except Fault Bool :=
  g.hadamardJoined v w <&&> g.isInnerPauli v <&&> pure (!(g.phase w).isPauli) <&&>
    g.isBoundaryAdjacent w

/-- Pivots after moving the boundary and the phase away from the second spider. -/
def pivotBoundaryGadget (g : GraphLike) (v w : Vertex) : Except Fault GraphLike := do
  (← (← g.shiftBoundaries w).shiftPhase w).pivot v w

/-- The pairs of an inner spider and one at the boundary with a phase in the way. -/
def pivotBoundaryGadgetSites (g : GraphLike) : Except Fault (List Match) :=
  g.pairSites g.checkPivotBoundaryGadget g.boundaryNeighbors

/-! ### Anywhere -/

/-- Whether a spider is a Z spider with edges to the boundary and Hadamard edges to Z spiders
    only. -/
def isPivotable (g : GraphLike) (v : Vertex) : Except Fault Bool :=
  g.isZ v <&&> do
    (← g.incidentEdges v).allM fun (w, kind) => do
      let neighbor ← g.kind w
      return (neighbor == .z && kind == .hadamard) || neighbor.isBoundary

/-- Whether two spiders are joined and can be pivoted after moving off what is in the way, the
    first one having a phase of 0 or pi and the boundary beside it. -/
def checkFrontierPivot (g : GraphLike) (v w : Vertex) : Except Fault Bool :=
  g.hadamardJoined v w <&&> g.isPivotable v <&&> g.isPivotable w <&&>
    pure (g.phase v).isPauli <&&> (return !(← g.boundaryNeighbors v).isEmpty)

/-- Moves off what is in the way of a spider. -/
def clear (g : GraphLike) (v : Vertex) : Except Fault GraphLike := do
  (← g.shiftPhase v).shiftBoundaries v

/-- Pivots after moving off what is in the way of both spiders. -/
def frontierPivot (g : GraphLike) (v w : Vertex) : Except Fault GraphLike := do
  (← (← g.clear v).clear w).pivot v w

end ZXRewriting.GraphLike

import ZXRewriting.GraphLike.Basic
import ZXRewriting.Rewriting.Rule

/-!
# Removing what acts as the identity

A Z spider with two edges and no phase is a single edge, of the kind the two give end to end
(`removeIdentity`). If both are Hadamard edges to Z spiders, these can be fused instead, also
when its phase is pi (`fuseNeighbors`): the half turn is first pushed through the neighbour that
goes, which negates the phase of that one and comes out on its other edges.
-/

namespace ZXRewriting.GraphLike

/-- Whether a spider is a Z spider with no phase, joined once to each of two others. -/
def checkRemoveIdentity (g : GraphLike) (v : Vertex) : Except Fault Bool :=
  g.isZ v <&&> pure (g.phase v).isZero <&&> (return (← g.degree v) == 2) <&&>
    (return (← g.neighborSet v).length == 2)

/-- Removes a spider and joins its neighbours. -/
def removeIdentity (g : GraphLike) (v : Vertex) : Except Fault GraphLike := do
  match ← g.incidentEdges v with
  | (a, first) :: (b, second) :: _ =>
    (← g.removeSpider v).addEdgeReduced a b (.merge first second)
  | _ => throw .outOfBounds

/-- The two neighbours of a spider, the one that stays first. The other one may not be next to
    the boundary; if neither is, it is the younger one. -/
def identityEnds (g : GraphLike) (v : Vertex) : Except Fault (Option (Vertex × Vertex)) := do
  match ← g.neighborSet v with
  | [a, b] =>
    let free := (← g.boundaryNeighbors a).isEmpty
    if (← g.boundaryNeighbors b).isEmpty then return some (a, b)
    else return if free then some (b, a) else none
  | _ => return none

/-- Whether a Z spider with phase 0 or pi has exactly two edges, single Hadamard edges to Z
    spiders, at least one of which is away from the boundary. -/
def checkFuseNeighbors (g : GraphLike) (v : Vertex) : Except Fault Bool :=
  g.isZ v <&&> pure (g.phase v).isPauli <&&> (return (← g.degree v) == 2) <&&>
    (do (← g.incidentEdges v).allM fun (n, kind) =>
      pure (kind == .hadamard) <&&> g.isZ n <&&> (return (← g.edgeCount v n) == 1)) <&&>
    (return (← g.identityEnds v).isSome)

/-- Pushes a half turn on `v` through its neighbour `gone`. -/
def pushThrough (g : GraphLike) (v gone : Vertex) : Except Fault GraphLike := do
  let g := g.negatePhase gone
  return ((← g.neighborSet gone).filter (· ≠ v)).foldl (·.addToPhase · .pi) g

/-- Removes a spider and fuses its two neighbours. -/
def fuseNeighbors (g : GraphLike) (v : Vertex) : Except Fault GraphLike := do
  match ← g.identityEnds v with
  | none => return g
  | some (keep, gone) =>
    let g ← if (g.phase v).isPi then g.pushThrough v gone else pure g
    let g := g.addToPhase keep (g.phase gone)
    let edges := (← g.incidentEdges gone).filter (·.1 ≠ v)
    let g ← edges.foldlM (fun g (n, kind) => g.addEdgeReduced keep n kind) g
    (← (g.mergeCarriers keep gone).removeSpider v).removeSpider gone

/-- The spiders that can be removed with their ends, no two with a spider in common. -/
def fuseNeighborsSites (g : GraphLike) : Except Fault (List Match) :=
  scan (fun taken v => do
    if ← g.checkFuseNeighbors v then
      match ← g.identityEnds v with
      | none => return none
      | some (keep, gone) =>
        return if keep ∈ taken ∨ gone ∈ taken then none
          else some ⟨[v, keep, gone], [v, keep, gone]⟩
    else return none) g.spiders

end ZXRewriting.GraphLike

import ZXRewriting.GraphLike.Basic
import ZXRewriting.Rewriting.Rule

/-!
# Fusing phase gadgets

A *phase gadget* is a leaf behind a spider with phase 0 or pi, its *centre*: it puts the phase
of the leaf on the parity of the other neighbours of the centre, its *support*. Two gadgets with
the same support are one, with the sum of the phases.
-/

namespace ZXRewriting.GraphLike

/-- The leaf behind a spider with the edges of a gadget centre: single Hadamard edges to Z
    spiders, exactly one of which is a leaf. -/
def gadgetLeaf? (g : GraphLike) (c : Vertex) : Except Fault (Option Vertex) := do
  if !(← g.isZ c) then return none
  else if !(g.phase c).isPauli then return none
  else
    let edges ← g.incidentEdges c
    let proper ← edges.allM fun (n, kind) =>
      pure (kind == .hadamard) <&&> g.isZ n <&&> (return (← g.edgeCount c n) == 1)
    if proper then
      let (leaves, others) ← edges.foldlM (fun (leaves, others) (n, _) =>
        return if ← g.isLeaf n then (n :: leaves, others) else (leaves, n :: others))
        (([], []) : List Vertex × List Vertex)
      match leaves, others with
      | [leaf], _ :: _ => return some leaf
      | _, _ => return none
    else return none

/-- The neighbours of a gadget centre other than its leaf. -/
def gadgetSupport (g : GraphLike) (c leaf : Vertex) : Except Fault (List Vertex) :=
  return (← g.neighborSet c).filter (· ≠ leaf)

/-- Whether two spiders are the centres of gadgets with the same support. -/
def checkFuseGadgets (g : GraphLike) (c d : Vertex) : Except Fault Bool := do
  if c = d then
    return false
  else
    let l ← g.gadgetLeaf? c
    let m ← g.gadgetLeaf? d
    match l, m with
    | some l, some m => return (← g.gadgetSupport c l) == (← g.gadgetSupport d m)
    | _, _ => return false

/-- Clears a half turn on a centre by negating the phase of its leaf. -/
def clearCentre (g : GraphLike) (c leaf : Vertex) : GraphLike :=
  if (g.phase c).isPi then (g.setPhase c .zero).negatePhase leaf else g

/-- Fuses the gadget of the second centre into that of the first. -/
def fuseGadgets (g : GraphLike) (c d : Vertex) : Except Fault GraphLike := do
  let l ← g.gadgetLeaf? c
  let m ← g.gadgetLeaf? d
  match l, m with
  | some l, some m =>
    let g := (g.clearCentre c l).clearCentre d m
    let g := (g.addToPhase l (g.phase m)).mergeCarriers l m
    (← g.removeSpider m).removeSpider d
  | _, _ => return g

/-- A gadget: its support, centre and leaf. -/
structure Gadget where
  support : List Vertex
  centre : Vertex
  leaf : Vertex
  deriving DecidableEq, Repr

/-- Whether a gadget comes before another one: by support, then by centre. -/
def Gadget.before (a b : Gadget) : Bool :=
  compare a.support b.support == .lt ||
    (a.support == b.support && (a.centre < b.centre || (a.centre == b.centre && a.leaf ≤ b.leaf)))

/-- The gadgets of a diagram. -/
def gadgets (g : GraphLike) : Except Fault (List Gadget) := do
  let found ← g.spiders.mapM fun c => do
    match ← g.gadgetLeaf? c with
    | none => return none
    | some leaf => return some ⟨← g.gadgetSupport c leaf, c, leaf⟩
  return found.reduceOption

/-- Pairs up the first gadgets that have their support in common with the next one. -/
def pairUp : List Gadget → List Match
  | a :: b :: rest =>
    if a.support = b.support then [a.centre, b.centre, a.leaf, b.leaf] :: pairUp rest
    else pairUp (b :: rest)
  | _ => []

/-- The pairs of gadgets that can be fused, in the order of their supports. -/
def fuseGadgetsSites (g : GraphLike) : Except Fault (List Match) :=
  return pairUp ((← g.gadgets).mergeSort Gadget.before)

end ZXRewriting.GraphLike

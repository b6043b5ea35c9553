import ZXRewriting.Diagram.Identities

/-!
# Changing colours

An X spider is a Z spider with a Hadamard box on every wire; and a spider all of whose wires
lead into boxes of their own is one of the other colour without them.
-/

namespace ZXRewriting.Diagram

/-- Whether a spider is coloured X. -/
def checkHadamard (d : Diagram) (v : Vertex) : Except Fault Bool :=
  return (← d.kind v) == .x

/-- Turns a spider into a Z spider with a box on every wire. -/
def hadamard (d : Diagram) (v : Vertex) : Except Fault Diagram := do
  let ns ← d.neighborSet v
  let boxed ← ns.foldlM (fun d w => return (← d.insertSpider v w .box .zero).2) d
  return boxed.setKind v .z

/-- The spiders coloured X. -/
def hadamardSites (d : Diagram) : Except Fault (List Match) := d.sitesWhere d.checkHadamard

/-- The boxes around a spider in ascending order. -/
def boxesAround (d : Diagram) (v : Vertex) : Except Fault (List Vertex) := do
  (← d.neighborSet v).filterM fun h => return (← d.kind h) == .box

/-- Whether every wire of a coloured spider, which has some, leads into a box of its own. -/
def checkColourChange (d : Diagram) (v : Vertex) : Except Fault Bool :=
  (return (← d.kind v).isPhased) <&&> (return 0 < (← d.degree v)) <&&> do
    (← d.neighborSet v).allM fun h => d.isWireBox h <&&> (return (← d.wires v h) == 1)

/-- Removes a box next to `v`, and joins its other neighbour to `v`. -/
def absorbBox (v : Vertex) (d : Diagram) (h : Vertex) : Except Fault Diagram := do
  let far := (← d.neighborSet h).find? (· ≠ v)
  let d ← d.removeSpider h
  match far with
  | some w => d.addWire v w
  | none => return d

/-- Gives a spider the other colour, and removes the boxes around it. -/
def changeColour (d : Diagram) (v : Vertex) : Except Fault Diagram := do
  let d ← (← d.boxesAround v).foldlM (absorbBox v) d
  return d.setKind v (← d.kind v).opposite

/-- The spiders that can change colour, no two of which share a box. -/
def colourChangeSites (d : Diagram) : Except Fault (List Match) :=
  scan (fun taken v => do
    if ← d.checkColourChange v then
      let hs ← d.boxesAround v
      return if hs.any (· ∈ taken) then none else some ⟨v :: hs, v :: hs⟩
    else return none) d.spiders

end ZXRewriting.Diagram

import ZXRewriting.Diagram.Fusion

/-!
# Removing what acts as the identity

A coloured spider without a phase that joins two others is a wire. Parallel wires between
spiders of the two colours cancel in pairs, and so do two Hadamard boxes in a row.
-/

namespace ZXRewriting.Diagram

/-- Whether a spider has no phase and exactly one wire to each of two others. -/
def checkIdentity (d : Diagram) (v : Vertex) : Except Fault Bool :=
  (return (← d.kind v).isPhased) <&&> pure (d.phase v).isZero <&&>
    (return (← d.degree v) == 2) <&&> (return (← d.neighborSet v).length == 2)

/-- Removes a spider and joins its two neighbours. -/
def removeIdentity (d : Diagram) (v : Vertex) : Except Fault Diagram := do
  let ns ← d.neighborSet v
  let d ← d.removeSpider v
  match ns with
  | a :: b :: _ => d.addWire a b
  | _ => throw .outOfBounds

/-- The spiders that pass a check, as matches of their own. -/
def sitesWhere (d : Diagram) (check : Vertex → Except Fault Bool) :
    Except Fault (List Match) :=
  scan (fun _ v => return if ← check v then some ⟨[v], [v]⟩ else none) d.spiders

/-- The spiders that act as a wire. -/
def identitySites (d : Diagram) : Except Fault (List Match) := d.sitesWhere d.checkIdentity

/-- Whether a spider is a Hadamard box on a wire between two others. -/
def isWireBox (d : Diagram) (v : Vertex) : Except Fault Bool :=
  (return (← d.kind v) == .box) <&&> (return (← d.degree v) == 2) <&&>
    (return (← d.neighborSet v).length == 2)

/-- Whether two spiders are of the two colours with parallel wires, or two boxes in a row. -/
def checkCancel (d : Diagram) (v w : Vertex) : Except Fault Bool := do
  if v = w then
    return false
  else
    let s ← d.kind v
    let t ← d.kind w
    if s.isPhased && t == s.opposite then
      return 2 ≤ (← d.wires v w)
    else
      d.isWireBox v <&&> d.isWireBox w <&&> (return (← d.wires v w) == 1)

/-- Cancels parallel wires in pairs, or two boxes, the far ends of which are joined. -/
def cancel (d : Diagram) (v w : Vertex) : Except Fault Diagram := do
  if (← d.kind v) = .box then
    let a := (← d.neighborSet v).find? (· ≠ w)
    let b := (← d.neighborSet w).find? (· ≠ v)
    let d ← d.removeSpiders [v, w]
    match a, b with
    | some a, some b => if a ≠ b then d.addWire a b else return d
    | _, _ => return d
  else
    let m ← d.wires v w
    return (← d.removeWires v w (m - m % 2)).2

/-- The places where wires or boxes cancel. -/
def cancelSites (d : Diagram) : Except Fault (List Match) :=
  scan (d.pairAbove d.checkCancel) d.spiders

end ZXRewriting.Diagram

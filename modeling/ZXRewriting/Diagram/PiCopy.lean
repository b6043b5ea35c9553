import ZXRewriting.Diagram.Identities

/-!
# Copying a half turn

A spider of phase pi on a wire can be pushed through a spider of the other colour with a phase
of zero or pi: a copy of it comes out on every other wire. To have it move towards the outputs,
the rule asks that the first spider comes before the second.
-/

namespace ZXRewriting.Diagram

/-- Whether a spider comes before another: by column if both have one, else by age. -/
def precedes (d : Diagram) (v w : Vertex) : Bool :=
  match d.column? v, d.column? w with
  | some a, some b => a.less b
  | _, _ => v < w

/-- Whether the first spider is a half turn on a wire, and the second one, further along, of the
    other colour with a phase that commutes with it. -/
def checkPiCopy (d : Diagram) (v w : Vertex) : Except Fault Bool := do
  let s ← d.kind v
  pure s.isPhased <&&> pure (d.phase v).isPi <&&>
    (return (← d.degree v) == 2) <&&> (return (← d.neighborSet v).length == 2) <&&>
    (return (← d.wires v w) == 1) <&&> (return (← d.kind w) == s.opposite) <&&>
    pure ((d.phase w).isPauli && d.precedes v w)

/-- Pushes the first spider through the second. -/
def piCopy (d : Diagram) (v w : Vertex) : Except Fault Diagram := do
  let s ← d.kind v
  let far := (← d.neighborSet v).find? (· ≠ w)
  let others := (← d.neighborSet w).filter (· ≠ v)
  let copied ← others.foldlM (fun d u => return (← d.insertSpider w u s .pi).2) d
  let d ← copied.removeSpider v
  match far with
  | some u => d.addWire u w
  | none => return d

/-- The places where a half turn can be pushed on. -/
def piCopySites (d : Diagram) : Except Fault (List Match) :=
  scan (fun taken v => do
    let ns ← d.neighborSet v
    let w? ← (ns.filter (· ∉ taken)).findM? (d.checkPiCopy v)
    return w?.map fun w => ⟨[v, w], [v, w]⟩) d.spiders

end ZXRewriting.Diagram

import ZXRewriting.Diagram.Basic
import ZXRewriting.Rewriting.Rule

/-!
# Fusing spiders

Two spiders of one colour that share a wire are one spider, the phases being added. The wires
of the second one move to the first, and the wires between them go.
-/

namespace ZXRewriting.Diagram

/-- Whether the spiders are distinct, of one colour, and joined. -/
def checkFusion (d : Diagram) (v w : Vertex) : Except Fault Bool :=
  pure (v ≠ w : Bool) <&&> (return (← d.kind v).isPhased) <&&>
    (return (← d.kind v) == (← d.kind w)) <&&> d.connected v w

/-- Fuses the second spider into the first. -/
def fuse (d : Diagram) (v w : Vertex) : Except Fault Diagram := do
  let ns ← d.neighbors w
  let moved ← (ns.filter (· ≠ v)).foldlM (·.addWire v ·) d
  (moved.addToPhase v (moved.phase w)).removeSpider w

/-- A pair found at `v`, the second spider being the first one after `v` that passes `check`. -/
def pairAbove (d : Diagram) (check : Vertex → Vertex → Except Fault Bool)
    (taken : List Vertex) (v : Vertex) : Except Fault (Option Claim) := do
  let ns ← d.neighborSet v
  let w? ← (ns.filter fun w => v < w && w ∉ taken).findM? (check v)
  return w?.map fun w => ⟨[v, w], [v, w]⟩

/-- The places where two spiders can be fused. -/
def fusionSites (d : Diagram) : Except Fault (List Match) :=
  scan (fun taken v => do
    if (← d.kind v).isPhased then d.pairAbove d.checkFusion taken v else return none) d.spiders

end ZXRewriting.Diagram

import ZXRewriting.Diagram.Rules
import ZXRewriting.Extraction.Basic
import ZXRewriting.GraphLike.OfDiagram

/-!
# Optimising circuits

Two fixed ways to make a circuit smaller.

*Clifford simplification* brings the diagram into graph-like form, removes the inner spiders
with Clifford phases, and extracts a new circuit.

*Phase teleportation* keeps the circuit. It simplifies a graph-like copy as far as it can only to
find out which phases come to be added, and has the master add them; then spiders without a phase
are removed from the master, and what is left next to each other cancels.
-/

namespace ZXRewriting

/-- Applies a rule to a diagram in circuit form until it applies nowhere. -/
def Diagram.simplify (rule : DiagramRule) (d : Diagram) : Except Fault (Nat × Diagram) :=
  Rule.simplifyWithin rule d.roundLimit d

/-- Applies a rule to a graph-like diagram until it applies nowhere. -/
def GraphLike.simplify (rule : GraphRule) (g : GraphLike) : Except Fault (Nat × GraphLike) :=
  Rule.simplifyWithin rule g.roundLimit g

/-- Applies several rules, one after the other. -/
def GraphLike.simplifyAll (rules : List GraphRule) (g : GraphLike) : Except Fault GraphLike :=
  rules.foldlM (fun g rule => return (← g.simplify rule).2) g

/-- The graph-like form of a diagram without inner spiders with Clifford phases, and with those
    pairs removed, one of which is at the boundary. -/
def cliffordForm (d : Diagram) : Except Fault GraphLike := do
  let g ← GraphLike.ofDiagram d
  let g ← g.simplifyAll [.localComplement, .pivot]
  return (← Rule.replace GraphRule.pivotBoundary g).2

/-- Clifford simplification of the circuit of a diagram. -/
def cliffordSimplification (d : Diagram) : Attempt Unextracted Circuit := do
  Extraction.circuitOf (← cliffordForm d)

/-- One round of finding phases to be added, with the number of identities and gadgets fused. -/
def teleportRound (g : GraphLike) : Except Fault (Nat × GraphLike) := do
  let g ← g.simplifyAll [.localComplement, .pivot, .pivotGadget, .pivotBoundaryGadget]
  let (identities, g) ← Rule.replace GraphRule.identity g
  let (gadgets, g) ← Rule.replace GraphRule.gadgetFusion g
  return (identities + gadgets, g)

/-- Rounds until nothing is fused. -/
def teleportWithin : (rounds : Nat) → GraphLike → Except Fault GraphLike
  | 0, _ => throw .outOfRounds
  | rounds + 1, g => do
    let (fused, g) ← teleportRound g
    if fused = 0 then return g else teleportWithin rounds g

/-- Phase teleportation of a diagram in circuit form. -/
def phaseTeleportation (d : Diagram) : Except Fault Diagram := do
  let g ← GraphLike.ofDiagram d
  let g ← teleportWithin g.roundLimit g
  let (_, d) ← g.master.simplify .identity
  return (← d.simplify .cancel).2

end ZXRewriting

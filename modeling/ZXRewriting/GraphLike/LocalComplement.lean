import ZXRewriting.GraphLike.Basic
import ZXRewriting.Rewriting.Rule

/-!
# Local complementation

An inner spider with a phase of a quarter turn, either way, can be removed: its neighbours lose
its phase, and every two of them get one more Hadamard edge, so that those that were joined are
not any more and the other way round.
-/

namespace ZXRewriting.GraphLike

/-- Whether a spider is inner, with a phase of a quarter turn. -/
def checkLocalComplement (g : GraphLike) (v : Vertex) : Except Fault Bool :=
  pure (g.phase v).isProperClifford <&&> g.isInner v

/-- Takes `p` off the phase of each spider of a list, and joins every two of them. -/
def complement (p : Phase) : List Vertex → GraphLike → Except Fault GraphLike
  | [], g => return g
  | n :: rest, g => do
    let joined ← rest.foldlM (·.addEdgeReduced n · .hadamard) (g.addToPhase n (-p))
    complement p rest joined

/-- Removes a spider and complements its neighbourhood. -/
def localComplement (g : GraphLike) (v : Vertex) : Except Fault GraphLike := do
  let ns ← g.neighborSet v
  (← complement (g.phase v) ns g).removeSpider v

/-- The spiders which can be removed, no two of them neighbours or with one in common. -/
def localComplementSites (g : GraphLike) : Except Fault (List Match) :=
  scan (fun _ v => do
    if ← g.checkLocalComplement v then return some ⟨[v], v :: (← g.neighborSet v)⟩
    else return none) g.spiders

end ZXRewriting.GraphLike

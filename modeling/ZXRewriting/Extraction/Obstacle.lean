import ZXRewriting.Circuit.Basic
import ZXRewriting.GraphLike.Basic

/-!
# When no circuit can be extracted

Extraction takes gates off the output side of a graph-like diagram. Where it cannot go on it
gives the reason, the gates it has taken off, and the diagram they were taken off.
-/

namespace ZXRewriting

/-- What is in the way of extraction. -/
inductive Obstacle
  /-- An output without an edge. -/
  | badOutput (o : Vertex)
  /-- A spider with an edge to a boundary spider that is no input, beside its output. -/
  | sharedOutput (v : Vertex)
  /-- A neighbour at the outputs that is no Z spider. -/
  | badNeighbor (n : Vertex)
  /-- A gadget next to the outputs that cannot be removed by pivoting. -/
  | gadget (v n : Vertex)
  /-- No spider next to the outputs can be extracted. -/
  | stuck
  /-- An output that does not end up at an input. -/
  | unwiredOutput (o : Vertex)
  deriving DecidableEq, Repr

/-- What an obstacle says. -/
def Obstacle.message : Obstacle → String
  | badOutput o => s!"Bad output spider {o}"
  | sharedOutput v => s!"Two outputs connected to a single spider {v}"
  | badNeighbor n => s!"Bad neighbour: {n}"
  | gadget v n => s!"Could not remove gadget by pivoting: ({v}, {n})"
  | stuck => "No extractible spider found."
  | unwiredOutput o => s!"Output {o} is not wired to an input"

/-- An extraction that could not go on. -/
structure Unextracted where
  obstacle : Obstacle
  /-- The gates taken off, which come after the rest. -/
  circuit : Circuit
  /-- The diagram that is left. -/
  rest : GraphLike

end ZXRewriting

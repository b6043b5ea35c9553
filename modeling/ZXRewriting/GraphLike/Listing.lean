import ZXRewriting.Diagram.Listing
import ZXRewriting.GraphLike.Basic

/-!
# Listings of graph-like diagrams

As for diagrams in circuit form, but each neighbour once, a Hadamard edge being marked.
-/

namespace ZXRewriting.GraphLike

/-- An end of an edge. -/
def endText : Vertex × EdgeKind → String
  | (w, .plain) => toString w
  | (w, .hadamard) => toString w ++ "h"

/-- A graph-like diagram as text. -/
def toText (g : GraphLike) : Except Fault String :=
  g.listing "ZX-graph" fun v =>
    return "[" ++ ", ".intercalate ((← g.incidentEdges v).map endText) ++ "]"

end ZXRewriting.GraphLike

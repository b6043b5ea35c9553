import ZXRewriting.Diagram.Refusal
import ZXRewriting.Diagram.Basic

/-!
# Listings of diagrams

One line for each spider: its kind, its phase if it has one, and its neighbours.
-/

namespace ZXRewriting.Diagram

/-- A spider up to its neighbours. -/
def spiderText (d : Diagram) (v : Vertex) : Except Fault String := do
  let kind ← d.kind v
  let phase := if kind.isPhased then "(" ++ (d.phase v).toText ++ "*pi)" else ""
  return s!"  S_{v}: " ++ kind.label ++ phase ++ " -> "

/-- A listing under the given title, with the neighbours of a spider written by `ends`. -/
def listing (d : Diagram) (title : String) (ends : Vertex → Except Fault String) :
    Except Fault String := do
  let spiders := d.graph.vertexCount
  let edges := d.graph.edgeCount
  let lines ← d.spiders.mapM fun v => return (← d.spiderText v) ++ (← ends v) ++ "\n"
  return title ++ s!" with {spiders} spiders and {edges} edges:\n" ++ String.join lines

/-- A diagram in circuit form as text. -/
def toText (d : Diagram) : Except Fault String :=
  d.listing "ZX-diagram" fun v => return listText (← d.neighbors v)

end ZXRewriting.Diagram

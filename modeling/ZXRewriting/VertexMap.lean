import Std.Data.ExtTreeMap
import ZXRewriting.Fault

/-!
# Data attached to vertices

Finite maps from vertices. Two maps are equal exactly when they give every vertex the same
datum.
-/

namespace ZXRewriting

/-- A finite map from vertices. -/
abbrev VertexMap (α : Type) := Std.ExtTreeMap Vertex α compare

/-- Whether two maps have the same vertices, with data that `same` holds equal. -/
def VertexMap.agree {α : Type} (same : α → α → Bool) (a b : VertexMap α) : Bool :=
  a.size == b.size &&
    a.toList.all fun (v, x) => match b[v]? with
      | some y => same x y
      | none => false

end ZXRewriting

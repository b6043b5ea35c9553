import ZXRewriting.GraphLike.Identities
import ZXRewriting.GraphLike.LocalComplement
import ZXRewriting.GraphLike.Pivot
import ZXRewriting.Proofs.Diagram.Web

/-!
# Properties in which edges have no say

Many a property of graph-like diagrams is about the spiders, their phases and their carriers only. If
it is also kept by new Z spiders without a phase, and by adding to a phase as far as `A` allows
(`GraphLike.Stable`), then the loops of the rewrites keep it: joining spiders adds half turns only,
and what else is added to phases there is the phase of the spider that the rewrite is made at.

Nothing is asked of a diagram here, so that this holds of rewrites at whatever spiders.
-/

namespace ZXRewriting

open Function (update)

namespace Multigraph

variable {g : Multigraph} {s t v : Vertex} {k : EdgeKind} {m : ℕ}

/-! Changing edges makes no vertices. -/

theorem leaves_modifyLinks {f : List Link → List Link} :
    Leaves (g.modifyLinks v f) fun g' => g'.nextVertex = g.nextVertex :=
  Leaves.after fun _ _ => Array.size_setIfInBounds

theorem leaves_addEdges : Leaves (g.addEdges s t k m) fun g' => g'.nextVertex = g.nextVertex := by
  rw [addEdges]
  split
  · exact trivial
  split
  · exact rfl
  · exact leaves_modifyLinks.bind fun _ h₁ => leaves_modifyLinks.bind fun _ h₂ => h₂.trans h₁

theorem leaves_removeEdges :
    Leaves (g.removeEdges s t k m) fun r => r.2.nextVertex = g.nextVertex := by
  refine Leaves.after fun found _ => ?_
  dsimp only
  split
  · exact rfl
  · exact leaves_modifyLinks.bind fun _ h₁ => leaves_modifyLinks.bind fun _ h₂ => h₂.trans h₁

theorem leaves_removeKind : Leaves (g.removeKind s t k) fun r => r.2.nextVertex = g.nextVertex :=
  Leaves.after fun _ _ => leaves_removeEdges

theorem leaves_disconnect : Leaves (g.disconnect s t) fun r => r.2.nextVertex = g.nextVertex :=
  leaves_removeKind.bind fun _ h₁ => leaves_removeKind.bind fun _ h₂ => h₂.trans h₁

theorem leaves_setEdgeKind :
    Leaves (g.setEdgeKind s t k) fun g' => g'.nextVertex = g.nextVertex :=
  leaves_disconnect.bind fun _ h₁ => leaves_addEdges.imp fun _ h₂ => h₂.trans h₁

end Multigraph

namespace GraphLike

variable {A : Vertex → Phase → Prop} {P Q : GraphLike → Prop} {g : GraphLike} {s t u v : Vertex}
  {k : EdgeKind} {p q : Phase} {vs : List Vertex}

/-- Removing a spider, apart from the edges. -/
theorem leaves_removeSpider : Leaves (g.removeSpider v) fun g' =>
    g'.web.kind = update g.web.kind v none ∧ g'.web.phase = update g.web.phase v .zero ∧
      g'.web.carrier = update g.web.carrier v none ∧ g'.master = g.master := by
  rw [removeSpider, Diagram.removeSpider]
  cases g.graph.removeVertex v with
  | error e => exact trivial
  | ok graph =>
    refine ⟨VertexMap.erase_eq g.kinds v, funext fun u => ?_, VertexMap.erase_eq g.carriers v, rfl⟩
    change ((g.phases.erase v)[u]?).getD .zero = _
    rw [congrFun (VertexMap.erase_eq g.phases v) u, Function.update_apply, Function.update_apply]
    split <;> rfl

/-- A property that changes of edges keep, and new spiders without a phase, and adding to the
    phases that `A` allows. -/
structure Stable (A : Vertex → Phase → Prop) (P : GraphLike → Prop) : Prop where
  rewire : ∀ (g : GraphLike) (graph : Multigraph), graph.nextVertex = g.graph.nextVertex → P g →
    P { g with graph }
  addToPhase : ∀ g v p, A v p → P g → P (g.addToPhase v p)
  addSpider : ∀ g qubit column, P g → P (g.addSpider .zero qubit column).2

namespace Stable

section

variable (h : Stable A P)
include h

theorem and {B : Vertex → Phase → Prop} (h' : Stable B Q) :
    Stable (fun v p => A v p ∧ B v p) fun g => P g ∧ Q g where
  rewire g graph hn hg := ⟨h.rewire g graph hn hg.1, h'.rewire g graph hn hg.2⟩
  addToPhase g v p hp hg := ⟨h.addToPhase g v p hp.1 hg.1, h'.addToPhase g v p hp.2 hg.2⟩
  addSpider g qubit column hg := ⟨h.addSpider g qubit column hg.1, h'.addSpider g qubit column hg.2⟩

variable (hg : P g)
include hg

/-! ### Edges -/

theorem leaves_rewire {x : Except Fault Multigraph}
    (hx : Leaves x fun graph => graph.nextVertex = g.graph.nextVertex) :
    Leaves (do return { g with graph := ← x }) P :=
  Meets.bind hx fun graph hn => h.rewire g graph hn hg

theorem leaves_addEdge : Leaves (g.addEdge s t k) P := h.leaves_rewire hg Multigraph.leaves_addEdges

theorem leaves_setEdgeKind : Leaves (g.setEdgeKind s t k) P :=
  h.leaves_rewire hg Multigraph.leaves_setEdgeKind

theorem leaves_removeEdge : Leaves (g.removeEdge s t) P :=
  Meets.bind Multigraph.leaves_disconnect fun r hn => h.rewire g r.2 hn hg

theorem leaves_addEdgeReduced (hs : A s .pi) : Leaves (g.addEdgeReduced s t k) P := by
  have hphase := h.addToPhase g s .pi hs hg
  rw [addEdgeReduced]
  split
  · split
    · exact hphase
    · exact hg
  · refine Leaves.after fun old _ => ?_
    cases old with
    | none => exact h.leaves_addEdge hg
    | some old =>
      refine Leaves.after fun b _ => ?_
      split
      · exact trivial
      refine Leaves.after fun b _ => ?_
      split
      · exact trivial
      cases old <;> cases k
      · exact hg
      · exact hphase
      · exact (h.leaves_setEdgeKind hg).bind fun g₁ h₁ => h.addToPhase g₁ s .pi hs h₁
      · exact h.leaves_removeEdge hg

theorem leaves_joinTo (hs : A s .pi) :
    Leaves (vs.foldlM (fun g t => g.addEdgeReduced s t .hadamard) g) P :=
  .foldlM hg fun _ _ _ hg' => h.leaves_addEdgeReduced hg' hs

/-! ### Phases -/

theorem addToPhases (hvs : ∀ v ∈ vs, A v p) : P (vs.foldl (·.addToPhase · p) g) := by
  induction vs generalizing g with
  | nil => exact hg
  | cons v rest ih =>
    exact ih (h.addToPhase g v p (hvs v List.mem_cons_self) hg) fun u hu =>
      hvs u (List.mem_cons_of_mem v hu)

theorem leaves_complement (hvs : ∀ v ∈ vs, A v (-p) ∧ A v .pi) : Leaves (complement p vs g) P := by
  induction vs generalizing g with
  | nil => exact hg
  | cons n rest ih =>
    obtain ⟨hn, hpi⟩ := hvs n List.mem_cons_self
    rw [complement]
    exact (h.leaves_joinTo (h.addToPhase g n (-p) hn hg) hpi).bind fun _ h₁ =>
      ih h₁ fun v hv => hvs v (List.mem_cons_of_mem n hv)

/-- The first part of a pivot: the neighbours of the one spider are joined to those of the other. -/
theorem leaves_pivotNeighbors {others : Vertex → List Vertex} (hvs : ∀ v ∈ vs, A v q ∧ A v .pi) :
    Leaves (vs.foldlM (fun g n => pivotNeighbor q (others n) g n) g) P :=
  .foldlM hg fun n hn g' hg' => by
    obtain ⟨hq, hpi⟩ := hvs n hn
    exact h.leaves_joinTo (h.addToPhase g' n q hq hg') hpi

/-! ### The boundary -/

theorem leaves_shiftBoundary : Leaves (shiftBoundary v g t) P := by
  rw [shiftBoundary]
  refine Leaves.after fun b _ => ?_
  split
  · refine Leaves.after fun k _ => ?_
    cases k with
    | none => exact hg
    | some k =>
      exact (h.leaves_addEdge (h.addSpider g _ _ hg)).bind fun _ h₁ =>
        (h.leaves_addEdge h₁).bind fun _ h₂ => h.leaves_removeEdge h₂
  · exact hg

theorem leaves_shiftBoundaries : Leaves (g.shiftBoundaries v) P :=
  Leaves.after fun _ _ => .foldlM hg fun _ _ _ hg' => h.leaves_shiftBoundary hg'

/-! ### Rewrites -/

variable (hremove : ∀ g v, P g → Leaves (g.removeSpider v) Q)
include hremove

theorem leaves_localComplement (hvs : ∀ ns, g.neighborSet v = .ok ns →
    ∀ n ∈ ns, A n (-g.phase v) ∧ A n .pi) : Leaves (g.localComplement v) Q :=
  Leaves.after fun ns hns => (h.leaves_complement hg (hvs ns hns)).bind fun g₁ h₁ => hremove g₁ v h₁

theorem leaves_pivot (hremove' : ∀ g v, Q g → Leaves (g.removeSpider v) Q)
    (hns : ∀ ns, g.neighborSet v = .ok ns → ∀ n ∈ ns, A n (g.phase u) ∧ A n .pi)
    (hms : ∀ ms, g.neighborSet u = .ok ms → ∀ m ∈ ms, A m (g.phase v)) :
    Leaves (g.pivot v u) Q :=
  Leaves.after fun ns hv => Leaves.after fun ms hu =>
    (h.leaves_pivotNeighbors hg (hns ns hv)).bind fun _ h₁ =>
      (hremove _ v (h.addToPhases h₁ (hms ms hu))).bind fun g₂ h₂ => hremove' g₂ u h₂

end

end Stable

end GraphLike

end ZXRewriting

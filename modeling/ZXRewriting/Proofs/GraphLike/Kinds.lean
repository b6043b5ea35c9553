import ZXRewriting.GraphLike.Rules
import ZXRewriting.Proofs.Diagram.Kinds
import ZXRewriting.Proofs.GraphLike.Form

/-!
# Edits of graphs without faults

As for diagrams in circuit form: which spiders there are, and of which kinds, says whether edits come to
a fault. An edge that is reduced must not be a second one at the end of a wire; two spiders that are
not ends can always be joined.
-/

namespace ZXRewriting

open Function (update update_self update_of_ne)

namespace GraphLike

variable {g : GraphLike} {κ : Vertex → Option SpiderKind} {k : EdgeKind} {p : Phase} {s t v : Vertex}
  {vs : List Vertex}

/-- A coherent graph with at least the spiders that have a kind by `κ`, each of that kind. -/
def Bears (κ : Vertex → Option SpiderKind) (g : GraphLike) : Prop := Diagram.Bears κ g.toDiagram

/-- A spider of a known kind which is not the end of a wire. -/
def Inside (κ : Vertex → Option SpiderKind) (v : Vertex) : Prop :=
  ∃ k, κ v = some k ∧ k.isBoundary = false

theorem Inside.isSome (h : Inside κ v) : (κ v).isSome := by
  obtain ⟨k, hk, -⟩ := h
  rw [hk]
  rfl

theorem inside_of_isZ (h : κ v = some .z) : Inside κ v := ⟨.z, h, rfl⟩

theorem Coherent.bears (hg : g.Coherent) : Bears g.web.kind g := Diagram.Coherent.bears hg

namespace Bears

theorem coherent (h : Bears κ g) : g.Coherent := Diagram.Bears.coherent h

theorem has (h : Bears κ g) (hv : (κ v).isSome) : g.web.Has v := Diagram.Bears.has h hv

theorem kind (h : Bears κ g) {k : SpiderKind} (hk : κ v = some k) : g.web.kind v = some k :=
  Diagram.Bears.kind h v k hk

theorem of_gives {x : Except Fault GraphLike} {w : Web} {m : Diagram} (h : Bears κ g)
    (hx : Gives x w m) (hkind : w.kind = g.web.kind) : Attains x (Bears κ) := by
  obtain ⟨g', rfl, hg', rfl, -⟩ := hx
  exact .ok (Diagram.Bears.of_kinds h hg' hkind)

theorem setPhase (h : Bears κ g) (v : Vertex) (p : Phase) : Bears κ (g.setPhase v p) :=
  Diagram.Bears.setPhase h v p

theorem addToPhase (h : Bears κ g) (v : Vertex) (p : Phase) : Bears κ (g.addToPhase v p) :=
  h.setPhase v _

theorem negatePhase (h : Bears κ g) (v : Vertex) : Bears κ (g.negatePhase v) :=
  ⟨Coherent.negatePhase h.coherent v, fun _ _ hk => by rw [web_negatePhase]; exact h.kind hk⟩

theorem moveCarrier (h : Bears κ g) (s t : Vertex) : Bears κ (g.moveCarrier s t) :=
  ⟨Coherent.moveCarrier h.coherent s t, fun _ _ hk => by
    rw [web_moveCarrier, Web.kind_moveCarrier]; exact h.kind hk⟩

theorem mergeCarriers (h : Bears κ g) (s t : Vertex) : Bears κ (g.mergeCarriers s t) :=
  ⟨Coherent.mergeCarriers h.coherent s t, fun _ _ hk => by
    rw [web_mergeCarriers, Web.kind_mergeCarriers]; exact h.kind hk⟩

theorem addEdge (h : Bears κ g) (hs : (κ s).isSome) (ht : (κ t).isSome) (hst : s ≠ t)
    (k : EdgeKind) : Attains (g.addEdge s t k) (Bears κ) :=
  h.of_gives (Gives.addEdge h.coherent (h.has hs) (h.has ht) hst k) rfl

theorem removeEdge (h : Bears κ g) (hs : (κ s).isSome) (t : Vertex) :
    Attains (g.removeEdge s t) (Bears κ) :=
  h.of_gives (Gives.removeEdge h.coherent (h.has hs) t) rfl

theorem setEdgeKind (h : Bears κ g) (hs : (κ s).isSome) (ht : (κ t).isSome) (hst : s ≠ t)
    (k : EdgeKind) : Attains (g.setEdgeKind s t k) (Bears κ) :=
  h.of_gives (Gives.setEdgeKind h.coherent (h.has hs) (h.has ht) hst k) rfl

theorem removeSpider (h : Bears κ g) (hv : (κ v).isSome) :
    Attains (g.removeSpider v) (Bears (update κ v none)) := by
  rw [GraphLike.removeSpider]
  exact Attains.bind (Diagram.Bears.removeSpider h hv) fun d hd => .ok hd

/-- A new spider, which is none of those there were. -/
theorem addSpider (h : Bears κ g) (p : Phase) (qubit column) :
    Bears (update κ g.web.next (some .z)) (g.addSpider p qubit column).2 := by
  refine ⟨Coherent.addSpider h.coherent p, fun u k hk => ?_⟩
  rw [web_addSpider, Web.kind_addSpider]
  rw [Function.update_apply] at hk ⊢
  split at hk
  · next hu => rw [if_pos hu, hk]
  · next hu =>
    rw [if_neg hu]
    exact h.kind hk

theorem isBoundary_eq_false (h : Bears κ g) (hv : Inside κ v) : g.isBoundary v = .ok false := by
  obtain ⟨k, hk, hinside⟩ := hv
  rw [Diagram.isBoundary, Diagram.kind_eq (h.kind hk)]
  exact congrArg Except.ok hinside

/-- Two spiders which are not the ends of wires can be joined, whatever joins them already. -/
theorem addEdgeReduced (h : Bears κ g) (hs : Inside κ s) (ht : Inside κ t) (k : EdgeKind) :
    Attains (g.addEdgeReduced s t k) (Bears κ) := by
  rw [GraphLike.addEdgeReduced]
  split
  · next hst =>
    split
    · exact .ok (h.addToPhase s .pi)
    · exact .ok h
  next hst =>
  rw [edgeKind?_eq h.coherent (h.has hs.isSome), h.isBoundary_eq_false hs, h.isBoundary_eq_false ht]
  cases g.web.link s t with
  | none => exact h.addEdge hs.isSome ht.isSome hst k
  | some old =>
    cases old <;> cases k
    · exact .ok h
    · exact .ok (h.addToPhase s .pi)
    · exact (h.setEdgeKind hs.isSome ht.isSome hst .plain).bind fun g' h' => .ok (h'.addToPhase s .pi)
    · exact h.removeEdge hs.isSome t

/-- Edges from one spider to others. -/
theorem joinTo (h : Bears κ g) (hv : Inside κ v) (hvs : ∀ u ∈ vs, Inside κ u) (k : EdgeKind) :
    Attains (vs.foldlM (fun g u => g.addEdgeReduced v u k) g) (Bears κ) :=
  .foldlM h fun u hu _ h => h.addEdgeReduced hv (hvs u hu) k

/-- Edges between every two of a list of spiders. -/
theorem complement (h : Bears κ g) (p : Phase) (hvs : ∀ u ∈ vs, Inside κ u) :
    Attains (GraphLike.complement p vs g) (Bears κ) := by
  induction vs generalizing g with
  | nil => exact .ok h
  | cons n rest ih =>
    obtain ⟨hn, hrest⟩ := List.forall_mem_cons.1 hvs
    rw [GraphLike.complement]
    exact ((h.addToPhase n (-p)).joinTo hn hrest .hadamard).bind fun g' h' => ih h' hrest

end Bears

end GraphLike

end ZXRewriting

import ZXRewriting.Diagram.Gates
import ZXRewriting.Proofs.Diagram.Web

/-!
# Editing diagrams

What the edits of a diagram in circuit form do to its web and its layout (`Diagram.Gives`): adding
and removing spiders and wires.
-/

namespace ZXRewriting

open Function (update update_self update_of_ne)
open Multigraph (SamePair)

namespace Web

variable {w : Web} {s t u v : Vertex} {k : EdgeKind} {p : Phase} {kind : SpiderKind}

/-- Adds a spider of a kind without edges. Only a coloured one has the phase, and is carried. -/
def addNode (w : Web) (kind : SpiderKind) (p : Phase) : Web :=
  { w with
    next := w.next + 1
    kind := update w.kind w.next (some kind)
    phase := update w.phase w.next (if kind.isPhased then p else .zero)
    carrier := if kind.isPhased then update w.carrier w.next (some ⟨w.next, 1⟩) else w.carrier }

/-- Takes away edges of a kind between two vertices, as far as there are any. -/
def takeEdges (w : Web) (s t : Vertex) (k : EdgeKind) (m : ℕ) : Web :=
  w.setCount s t fun k' => w.count s t k' - if k = k' then m else 0

section Fields

@[simp] theorem next_addNode : (w.addNode kind p).next = w.next + 1 := rfl
@[simp] theorem kind_addNode : (w.addNode kind p).kind = update w.kind w.next (some kind) := rfl
@[simp] theorem count_addNode : (w.addNode kind p).count = w.count := rfl
@[simp] theorem phase_addNode :
    (w.addNode kind p).phase = update w.phase w.next (if kind.isPhased then p else .zero) := rfl
@[simp] theorem inputs_addNode : (w.addNode kind p).inputs = w.inputs := rfl
@[simp] theorem outputs_addNode : (w.addNode kind p).outputs = w.outputs := rfl

end Fields

theorem Valid.addNode (hw : w.Valid) (kind : SpiderKind) (p : Phase) : (w.addNode kind p).Valid where
  lt u hu := by
    rw [Has, kind_addNode] at hu
    by_cases h : u = w.next
    · exact h ▸ Nat.lt_succ_self _
    · rw [update_of_ne h] at hu
      exact Nat.lt_succ_of_lt (hw.lt u hu)
  symm := hw.symm
  self := hw.self
  has a b k h := by
    have hlt := hw.lt a (hw.has a b k h)
    rw [Has, kind_addNode, update_of_ne (Nat.ne_of_lt hlt)]
    exact hw.has a b k h

theorem Valid.has_addNode (hw : w.Valid) (h : w.Has u) : (w.addNode kind p).Has u := by
  rw [Has, kind_addNode, update_of_ne (Nat.ne_of_lt (hw.lt u h))]
  exact h

theorem has_addNode_next : (w.addNode kind p).Has w.next := by
  rw [Has, kind_addNode, update_self]
  rfl

/-- Taking away the only edge between two vertices. -/
theorem takeEdges_eq_cut (hk : w.count s t k ≤ 1) (hother : ∀ k', k' ≠ k → w.count s t k' = 0) :
    w.takeEdges s t k 1 = w.cut s t := by
  rw [takeEdges, cut]
  congr 1
  funext k'
  by_cases h : k' = k
  · subst h
    rw [if_pos rfl]
    omega
  · rw [hother k' h]
    exact Nat.zero_sub _

end Web

/-! ### Neighbours -/

namespace Multigraph

variable {g : Multigraph} {v : Vertex}

/-- Each vertex is among the neighbours once for every edge. -/
theorem count_flatMap_links (links : List Link) (u : Vertex) :
    (links.flatMap fun l => List.replicate l.count l.node).count u =
      Links.total (links.filter (·.node == u)) := by
  induction links with
  | nil => rfl
  | cons l rest ih =>
    rw [List.flatMap_cons, List.count_append, ih, List.filter_cons, List.count_replicate]
    split <;> simp [Links.total]

theorem WellFormed.exists_neighbors (hg : g.WellFormed) (hv : g.contains v) :
    ∃ l, g.neighbors v = .ok l ∧ ∀ u, l.count u = g.joins v u := by
  obtain ⟨links, hl⟩ := contains_iff.1 hv
  refine ⟨_, by rw [neighbors, links_eq hl]; rfl, fun u => ?_⟩
  have h := hg.totalMultiplicity_eq (t := u) hv
  rw [totalMultiplicity, links_eq hl] at h
  rw [count_flatMap_links]
  exact Except.ok.inj h

end Multigraph

namespace Diagram

variable {d d' : Diagram} {w w' : Web} {s t u v : Vertex} {l l' : Layout} {k : EdgeKind}

theorem exists_neighbors (hd : d.Coherent) (hv : d.web.Has v) :
    ∃ ns, d.neighbors v = .ok ns ∧ ∀ u, ns.count u = d.web.joins v u :=
  hd.wf.exists_neighbors ((hd.has v).1 hv)

/-- The first neighbour of a spider with a single edge. -/
theorem firstNeighbor?_eq (hd : d.Coherent) (hv : d.web.Has v)
    (h : ∀ x, d.web.joins v x = if x = u then 1 else 0) : d.firstNeighbor? v = .ok (some u) := by
  obtain ⟨ns, hns, hcount⟩ := exists_neighbors hd hv
  have hperm : ns.Perm [u] := List.perm_iff_count.2 fun x => by
    rw [hcount, h, List.count_singleton]
    by_cases hx : x = u
    · simp [hx]
    · simp [hx, Ne.symm hx]
  rw [firstNeighbor?, hns, List.perm_singleton.1 hperm]
  rfl

/-! ### Edits -/

/-- A program ends with a coherent diagram that has the given web and layout. -/
def Gives (x : Except Fault Diagram) (w : Web) (l : Layout) : Prop :=
  ∃ d, x = .ok d ∧ d.Coherent ∧ d.web = w ∧ d.layout = l

namespace Gives

theorem ok (h : d.Coherent) : Gives (.ok d) d.web d.layout := ⟨d, rfl, h, rfl, rfl⟩

/-- A sequence of two edits. -/
theorem bind {x : Except Fault Diagram} {f : Diagram → Except Fault Diagram} (h : Gives x w l)
    (hf : ∀ d, d.Coherent → d.web = w → d.layout = l → Gives (f d) w' l') :
    Gives (x >>= f) w' l' := by
  obtain ⟨d, rfl, hd, hw, hl⟩ := h
  exact hf d hd hw hl

/-- Other edges between the same spiders. -/
theorem rewired {graph : Multigraph} {c : Vertex → Vertex → EdgeKind → ℕ} (hd : d.Coherent)
    (h : Multigraph.Rewired d.graph graph c) :
    Gives (.ok { d with graph }) { d.web with count := c } d.layout := by
  refine ⟨_, rfl, ⟨h.wf, fun u => ?_⟩, ?_, rfl⟩
  · rw [h.contains, ← hd.has]
    rfl
  · exact Web.ext h.next rfl rfl
      (funext fun a => funext fun b => funext fun k => h.count a b k) rfl rfl rfl

theorem addWire (hd : d.Coherent) (hs : d.web.Has s) (ht : d.web.Has t) (hst : s ≠ t) :
    Gives (d.addWire s t) (d.web.addEdges s t .plain 1) d.layout := by
  obtain ⟨graph, hok, h⟩ :=
    Multigraph.addEdge_spec hd.wf ((hd.has s).1 hs) ((hd.has t).1 ht) hst .plain
  obtain ⟨d', hd', hco, hw, hl⟩ := rewired hd h
  refine ⟨d', ?_, hco, hw.trans (Web.withCount_eq (fun k => ?_) (fun k => ?_) fun a b k hab => ?_),
    hl⟩
  · rw [Diagram.addWire, hok]
    exact hd'
  · simp [SamePair, Diagram.web]
  · simp [SamePair, Diagram.web, hd.wf.symm t s]
  · simp [hab, Diagram.web]

theorem removeWires (hd : d.Coherent) (hs : d.web.Has s) (t : Vertex) (m : ℕ) :
    ∃ n d', d.removeWires s t m = .ok (n, d') ∧ d'.Coherent ∧
      d'.web = d.web.takeEdges s t .plain m ∧ d'.layout = d.layout := by
  obtain ⟨graph, hok, h⟩ := Multigraph.removeEdges_spec hd.wf (t := t) ((hd.has s).1 hs) .plain m
  obtain ⟨d', hd', hco, hw, hl⟩ := rewired hd h
  refine ⟨min (d.graph.count s t .plain) m, d', ?_, hco,
    hw.trans (Web.withCount_eq (fun k => ?_) (fun k => ?_) fun a b k hab => ?_), hl⟩
  · rw [Diagram.removeWires, hok, ← Except.ok.inj hd']
    rfl
  · simp [SamePair, Diagram.web]
  · simp [SamePair, Diagram.web, hd.wf.symm t s]
  · simp [hab, Diagram.web]

theorem removeSpider (hd : d.Coherent) (hv : d.web.Has v) :
    Gives (d.removeSpider v) (d.web.remove v) (d.layout.remove v) := by
  obtain ⟨graph, hok, h⟩ := Multigraph.removeVertex_spec hd.wf ((hd.has v).1 hv)
  have hkinds (u : Vertex) : (d.kinds.erase v)[u]? = update d.web.kind v none u :=
    congrFun (VertexMap.erase_eq d.kinds v) u
  refine ⟨{ d with
    graph
    kinds := d.kinds.erase v
    phases := d.phases.erase v
    carriers := d.carriers.erase v
    layout := d.layout.remove v }, ?_, ⟨h.wf, fun u => ?_⟩, ?_, rfl⟩
  · rw [Diagram.removeSpider, hok]
    rfl
  · change ((d.kinds.erase v)[u]?).isSome ↔ graph.contains u
    rw [hkinds, h.contains, Bool.and_eq_true, ← hd.has, Web.Has]
    by_cases hu : u = v <;> simp [hu]
  · refine Web.ext h.next (funext hkinds) (funext fun u => ?_)
      (funext fun a => funext fun b => funext fun k => h.count a b k) rfl rfl
      (VertexMap.erase_eq d.carriers v)
    change ((d.phases.erase v)[u]?).getD .zero = _
    rw [congrFun (VertexMap.erase_eq d.phases v) u, Web.phase_remove, Function.update_apply,
      Function.update_apply]
    split <;> rfl

/-- Adding a spider with wires. -/
theorem addSpider (hd : d.Coherent) (kind : SpiderKind) (p : Phase) {l : List Vertex}
    (hl : ∀ u ∈ l, d.web.Has u) : ∃ d', d.addSpider kind p l = .ok (d.web.next, d') ∧
      d'.Coherent ∧ d'.web = l.foldl (fun w u => w.addEdges d.web.next u .plain 1)
        (d.web.addNode kind p) ∧ d'.layout = d.layout := by
  -- the new spider on its own
  set d₀ : Diagram := { d with
    graph := d.graph.addVertex.2
    kinds := d.kinds.insert d.graph.nextVertex kind
    phases := d.phases.insert d.graph.nextVertex (if kind.isPhased then p else .zero)
    carriers := if kind.isPhased then d.carriers.insert d.graph.nextVertex ⟨d.graph.nextVertex, 1⟩
      else d.carriers } with hd₀
  have hweb : d₀.web = d.web.addNode kind p := by
    refine Web.ext (Multigraph.nextVertex_addVertex _) (funext fun u => ?_) (funext fun u => ?_)
      (funext fun a => funext fun b => funext fun k => Multigraph.count_addVertex _ _ _ _) rfl rfl
      (funext fun u => ?_)
    · exact congrFun (VertexMap.insert_eq d.kinds d.graph.nextVertex kind) u
    · change ((d.phases.insert d.graph.nextVertex (if kind.isPhased then p else .zero))[u]?).getD
        .zero = _
      rw [congrFun (VertexMap.insert_eq d.phases d.graph.nextVertex _) u, Web.phase_addNode,
        Function.update_apply, Function.update_apply]
      change _ = if u = d.graph.nextVertex then _ else d.phase u
      split <;> rfl
    · change (d₀.carriers)[u]? = (d.web.addNode kind p).carrier u
      rw [hd₀, Web.addNode]
      dsimp only
      split
      · exact congrFun (VertexMap.insert_eq d.carriers d.graph.nextVertex _) u
      · rfl
  have hco : d₀.Coherent := by
    refine ⟨hd.wf.addVertex, fun u => ?_⟩
    rw [hweb]
    change _ ↔ d.graph.addVertex.2.contains u
    rw [Multigraph.contains_addVertex, Web.Has, Web.kind_addNode]
    by_cases h : u = d.graph.nextVertex
    · simp [h, Diagram.web]
    · rw [Function.update_of_ne (show u ≠ d.web.next from h), decide_eq_false h, Bool.false_or]
      exact hd.has u
  have hloop : ∀ (us : List Vertex) (d₁ : Diagram), d₁.Coherent → d₁.web.Has d.web.next →
      (∀ u ∈ us, d₁.web.Has u ∧ u ≠ d.web.next) →
      Gives (us.foldlM (fun d₂ u => d₂.addWire d.web.next u) d₁)
        (us.foldl (fun w u => w.addEdges d.web.next u .plain 1) d₁.web) d₁.layout := by
    intro us
    induction us with
    | nil => exact fun d₁ h₁ _ _ => .ok h₁
    | cons u rest ih =>
      intro d₁ h₁ hn hus
      obtain ⟨hu, hne⟩ := hus u List.mem_cons_self
      obtain ⟨d₂, hok, h₂, hw₂, hl₂⟩ := addWire h₁ hn hu hne.symm
      rw [List.foldlM_cons, hok, List.foldl_cons, ← hw₂, ← hl₂]
      exact ih d₂ h₂ (hw₂ ▸ hn) fun x hx => by
        obtain ⟨hx', hne'⟩ := hus x (List.mem_cons_of_mem u hx)
        exact ⟨hw₂ ▸ hx', hne'⟩
  obtain ⟨d', hok, hco', hw', hl'⟩ := hloop l d₀ hco (hweb ▸ Web.has_addNode_next)
    fun u hu => ⟨hweb ▸ hd.valid.has_addNode (hl u hu),
      Nat.ne_of_lt (hd.valid.lt u (hl u hu))⟩
  refine ⟨d', ?_, hco', hw'.trans (by rw [hweb]), hl'⟩
  rw [Diagram.addSpider]
  change (l.foldlM (fun d₂ u => d₂.addWire d.web.next u) d₀ >>= fun d₂ =>
    Except.ok (d.web.next, d₂)) = _
  rw [hok]
  rfl

end Gives

theorem web_place {qubit column} : (d.place v qubit column).web = d.web := rfl

theorem Coherent.place (hd : d.Coherent) (v : Vertex) (qubit column) :
    (d.place v qubit column).Coherent := ⟨hd.wf, hd.has⟩

end Diagram

end ZXRewriting

import ZXRewriting.Proofs.GraphLike.Conversion
import ZXRewriting.Proofs.Multigraph.Edges

/-!
# Conversion to graph-like form is sound

The graph-like form of a diagram that is drawn from a circuit exists and denotes the same map up to a
scalar (`GraphLike.exists_ofDiagram`). Each of the four passes goes over a list of spiders or edges,
and what it has done so far is a `Stage`: a coherent diagram with its ends in order, which denotes
what the diagram at the start does.
-/

namespace ZXRewriting

open Function (update update_self update_of_ne)
open Multigraph (SamePair)

/-- A map made from a list of vertices, as a function. -/
theorem VertexMap.getElem?_ofList {α : Type} {vs : List Vertex} (hvs : vs.Nodup) (f : Vertex → α)
    (u : Vertex) : (Std.ExtTreeMap.ofList (vs.map fun v => (v, f v)) compare : VertexMap α)[u]? =
      if u ∈ vs then some (f u) else none := by
  split
  · next h =>
    refine Std.ExtTreeMap.getElem?_ofList_of_mem (Nat.compare_eq_eq.2 rfl) ?_
      (List.mem_map.2 ⟨u, h, rfl⟩)
    rw [List.pairwise_map]
    exact hvs.imp fun hne hc => hne (Nat.compare_eq_eq.1 hc)
  · next h =>
    refine Std.ExtTreeMap.getElem?_ofList_of_contains_eq_false ?_
    rw [List.map_map, Bool.eq_false_iff]
    intro hc
    rw [List.contains_iff_mem, List.mem_map] at hc
    obtain ⟨v, hv, rfl⟩ := hc
    exact h hv

namespace GraphLike

variable {g : GraphLike} {d : Diagram} {w₀ : Web} {a b h s t u v : Vertex} {D : ℕ}
  {k k₁ k₂ : EdgeKind}

/-- A diagram on the way to graph-like form. -/
structure Stage (D : ℕ) (w₀ : Web) (g : GraphLike) : Prop where
  coherent : g.Coherent
  framed : g.web.Framed
  onGrid : g.web.OnGrid D
  converts : Web.Converts w₀ g.web

/-- The links of a spider, which are the edges there. -/
theorem exists_links (hg : g.Coherent) (hv : g.web.Has v) :
    ∃ links, g.links v = .ok links ∧ g.web.LinksAre v links := by
  obtain ⟨links, hok, hproper, hmem⟩ := Diagram.exists_links hg hv
  exact ⟨links, hok, hproper, hmem⟩

theorem mem_spiders (hg : g.Coherent) : v ∈ g.spiders ↔ g.web.Has v :=
  Multigraph.mem_vertices.trans (hg.has v).symm

/-! ### The start -/

/-- The diagram as it is at the start: with the same spiders, each with its phase recorded. -/
theorem exists_start (hd : d.Coherent) : ∃ g, start d = .ok g ∧ g.Coherent ∧
    (∀ v, (g.phases[v]?).isSome ↔ g.web.Has v) ∧ g.web.kind = d.web.kind ∧
      g.web.count = d.web.count ∧ g.web.inputs = d.web.inputs ∧ g.web.outputs = d.web.outputs ∧
        g.web.next = d.web.next ∧
          (∀ v, g.web.phase v = if d.web.Has v then d.web.phase v else .zero) ∧
            g.master = d ∧ ∀ v, g.web.carrier v =
              if (d.web.kind v).any (·.isPhased) then some ⟨v, 1⟩ else none := by
  have hspiders {v : Vertex} : v ∈ d.spiders ↔ d.web.Has v :=
    Multigraph.mem_vertices.trans (hd.has v).symm
  have hnodup : d.spiders.Nodup := Multigraph.nodup_vertices
  have hkind {v : Vertex} (hv : v ∈ d.spiders) : d.kind v = .ok (d.web.kindAt v) := by
    obtain ⟨k, hk⟩ := Option.isSome_iff_exists.1 (hspiders.1 hv)
    rw [Diagram.kind_eq hk, Web.kindAt_eq hk]
  have hkinds (v : Vertex) : (Std.ExtTreeMap.ofList
      (d.spiders.map fun v => (v, d.web.kindAt v)) compare : VertexMap SpiderKind)[v]? =
        d.web.kind v := by
    rw [VertexMap.getElem?_ofList hnodup]
    split
    · next h =>
      obtain ⟨k, hk⟩ := Option.isSome_iff_exists.1 (hspiders.1 h)
      rw [Web.kindAt_eq hk, hk]
    · next h => exact (Option.not_isSome_iff_eq_none.1 fun hv => h (hspiders.2 hv)).symm
  set g : GraphLike := {
    graph := d.graph
    kinds := .ofList (d.spiders.map fun v => (v, d.web.kindAt v)) compare
    phases := .ofList (d.spiders.map fun v => (v, d.phase v)) compare
    layout := d.layout
    inputs := d.inputs
    outputs := d.outputs
    carriers := .ofList ((d.spiders.filter fun v => (d.web.kindAt v).isPhased).map
      fun v => (v, ⟨v, 1⟩)) compare
    master := d } with hg
  have hk : g.web.kind = d.web.kind := funext hkinds
  have hphases (v : Vertex) : g.phases[v]? = if d.web.Has v then some (d.phase v) else none := by
    rw [hg]
    dsimp only
    rw [VertexMap.getElem?_ofList hnodup]
    simp only [hspiders]
  have hco : g.Coherent := ⟨hd.wf, fun v => by
    rw [Web.Has, hk]
    exact hd.has v⟩
  refine ⟨g, ?_, hco, fun v => ?_, hk, rfl, rfl, rfl, rfl, fun v => ?_, rfl, fun v => ?_⟩
  · rw [start, filterM_eq (p := fun v => (d.web.kindAt v).isPhased) fun v hv => ?_]
    · change (d.spiders.mapM (fun v => do return (v, ← d.kind v)) >>= _) = _
      rw [mapM_eq (q := fun v => (v, d.web.kindAt v)) fun v hv => ?_]
      · rfl
      · rw [hkind hv]
        rfl
    · rw [hkind hv]
      rfl
  · have hhas : g.web.Has v ↔ d.web.Has v := by rw [Web.Has, hk, Web.Has]
    rw [hphases, hhas]
    split <;> simp_all
  · change (g.phases[v]?).getD .zero = _
    rw [hphases]
    split <;> rfl
  · have hmem : v ∈ d.spiders.filter (fun v => (d.web.kindAt v).isPhased) ↔
        (d.web.kind v).any (·.isPhased) = true := by
      rw [List.mem_filter, hspiders, Web.Has]
      cases hv : d.web.kind v with
      | none => simp
      | some κ => simp [Web.kindAt_eq hv]
    change (Std.ExtTreeMap.ofList _ compare : VertexMap Carrier)[v]? = _
    rw [VertexMap.getElem?_ofList (hnodup.sublist List.filter_sublist)]
    simp only [hmem]

theorem exists_start_stage (hd : d.Coherent) (hw : d.web.Framed) (hgrid : d.web.OnGrid D) :
    ∃ g, start d = .ok g ∧ Stage D d.web g ∧ g.web.kind = d.web.kind ∧
      g.web.count = d.web.count := by
  obtain ⟨g, hok, hco, -, hk, hc, hin, hout, hn, hphase, -⟩ := exists_start hd
  refine ⟨g, hok, ⟨hco, ?_, fun v => ?_, .of_phase hn hk hc hin hout fun v hv => ?_⟩, hk, hc⟩
  · have hsame : Web.SameEnds d.web g.web := fun v => .inl (congrFun hk v)
    refine hw.of_hung (hw.toHung.of_ends hco.valid hsame fun t u k _ htu => ⟨u, k, ?_⟩) hin hout hsame
    intro x k'
    rw [hc]
    exact htu x k'
  · rw [hphase]
    split
    · exact hgrid v
    · exact Phase.onGrid_zero
  · rw [hphase, if_pos hv]

/-! ### Boxes -/

/-- A list of two with the same elements as a pair. -/
theorem eq_pair_of_endsAre {w : Web} {ends : List (Vertex × EdgeKind)} (hends : w.EndsAre h ends)
    (hpair : w.EndsAre h [(a, k₁), (b, k₂)]) : ∃ e e', ends = [e, e'] := by
  have hperm : ends.Perm [(a, k₁), (b, k₂)] := List.perm_iff_count.2 fun e => by
    rw [← hends e.1 e.2, hpair]
  exact List.length_eq_two.1 hperm.length_eq

/-- What becomes of a box, by the other ends of its wires. -/
theorem removeBox_eq {links : List Link} (hlinks : g.links h = .ok links) : g.removeBox h =
    match links.flatMap fun l => List.replicate l.count (l.node, l.kind) with
    | [] => g.removeSpider h
    | [_] => .ok { g.setPhase h .pi with kinds := g.kinds.insert h .z }
    | [(a, k₁), (b, k₂)] => g.removeSpider h >>= fun g₁ =>
      if a = b then
        .ok (if (k₁.merge k₂).opposite = .hadamard then g₁.addToPhase a .pi else g₁)
      else g₁.addEdge a b (k₁.merge k₂).opposite
    | ends => g.expandBox h ends := by
  simp only [GraphLike.removeBox, hlinks, Bind.bind, Except.bind]
  generalize (links.flatMap fun l => List.replicate l.count (l.node, l.kind)) = ends
  rcases ends with - | ⟨_, - | ⟨_, - | ⟨_, _⟩⟩⟩ <;> rfl

/-- Taking out a box with two wires. -/
theorem Gives.removeBox {links : List Link} (hg : g.Coherent) (hh : g.web.Has h)
    (hlinks : g.links h = .ok links) (hare : g.web.LinksAre h links)
    (hends : (links.flatMap fun l => List.replicate l.count (l.node, l.kind)) = [(a, k₁), (b, k₂)]) :
    Gives (g.removeBox h) (g.web.unbox h a b (k₁.merge k₂).opposite) g.master := by
  have hedges : g.web.EndsAre h [(a, k₁), (b, k₂)] := hends ▸ hare.endsAre
  set k := (k₁.merge k₂).opposite with hk
  obtain ⟨g₁, hok₁, hg₁, hw₁, hm₁⟩ := Gives.removeSpider hg hh
  have hprogram : g.removeBox h =
      if a = b then .ok (if k = .hadamard then g₁.addToPhase a .pi else g₁)
      else g₁.addEdge a b k := by
    rw [removeBox_eq hlinks, hends, hok₁]
    rfl
  rw [hprogram, Web.unbox, ← hm₁]
  split_ifs with hab hodd
  · rw [← hw₁, ← web_addToPhase]
    exact Gives.ok (Coherent.addToPhase hg₁ a .pi)
  · rw [← hw₁]
    exact Gives.ok hg₁
  · have hold {x : Vertex} {k : EdgeKind} (hx : (x, k) ∈ [(a, k₁), (b, k₂)]) : g₁.web.Has x := by
      have hhas := hg.valid.has_of_endsAre hedges hx
      rw [hw₁, Web.Has, Web.kind_remove, update_of_ne hhas.2]
      exact hhas.1
    rw [← hw₁]
    exact Gives.addEdge hg₁ (hold List.mem_cons_self)
      (hold (List.mem_cons_of_mem _ List.mem_cons_self)) hab k

/-- Taking out a box, all of which have two wires. -/
theorem exists_removeBox_inLine (hg : g.Coherent) (hline : g.web.BoxesInLine)
    (hbox : g.web.kind h = some .box) : ∃ a k₁ b k₂ g', g.web.EndsAre h [(a, k₁), (b, k₂)] ∧
      g.removeBox h = .ok g' ∧ g'.Coherent ∧
        g'.web = g.web.unbox h a b (k₁.merge k₂).opposite ∧ g'.master = g.master := by
  have hhas := Web.has_of_kind hbox
  obtain ⟨links, hok, hlinks⟩ := exists_links hg hhas
  obtain ⟨a', k₁', c', k₂', hpair, -⟩ := hline h hbox
  obtain ⟨⟨a, k₁⟩, ⟨b, k₂⟩, hends⟩ := eq_pair_of_endsAre hlinks.endsAre hpair
  obtain ⟨g', hok', hg', hw', hm'⟩ := Gives.removeBox hg hhas hok hlinks hends
  exact ⟨a, k₁, b, k₂, g', hends ▸ hlinks.endsAre, hok', hg', hw', hm'⟩

/-- Taking out all boxes, the oldest one first, each of which is taken out without leaving new
    ones. -/
theorem exists_removeBoxes {P : GraphLike → Prop} (hP : ∀ g, P g → g.Coherent)
    (hstep : ∀ g h, P g → g.web.kind h = some .box → (∀ v, g.web.kind v = some .box → h ≤ v) →
      ∃ g', g.removeBox h = .ok g' ∧ P g' ∧
        ∀ v, g'.web.kind v = some .box ↔ g.web.kind v = some .box ∧ v ≠ h) (hg : P g) :
    ∃ g', g.removeBoxes = .ok g' ∧ P g' ∧ ∀ v, g'.web.kind v ≠ some .box := by
  set boxes := g.spiders.filter fun v => g.web.kind v == some .box with hboxes
  have hmem {v : Vertex} : v ∈ boxes ↔ g.web.kind v = some .box := by
    rw [hboxes, List.mem_filter, beq_iff_eq, and_iff_right_iff_imp]
    exact fun hv => (mem_spiders (hP g hg)).2 (Web.has_of_kind hv)
  have hsorted : boxes.Pairwise (· < ·) := Multigraph.pairwise_vertices.sublist List.filter_sublist
  obtain ⟨g', hok, hg', hdone⟩ := exists_foldlM (f := removeBox)
    (fun done (g' : GraphLike) => P g' ∧
      ∀ v, g'.web.kind v = some .box ↔ g.web.kind v = some .box ∧ v ∉ done) boxes
    ⟨hg, by simp⟩ fun done h rest g₁ hl hinv => by
      obtain ⟨h₁, hdone₁⟩ := hinv
      -- the boxes that are left come later in the list
      rw [hl, List.pairwise_append] at hsorted
      have hnot : h ∉ done := fun hd => Nat.lt_irrefl _ (hsorted.2.2 h hd h List.mem_cons_self)
      have hbox := (hdone₁ h).2 ⟨hmem.1 (hl ▸ List.mem_append_right done List.mem_cons_self), hnot⟩
      have hmin (v : Vertex) (hv : g₁.web.kind v = some .box) : h ≤ v := by
        obtain ⟨hv, hd⟩ := (hdone₁ v).1 hv
        rcases List.mem_cons.1 ((List.mem_append.1 (hl ▸ hmem.2 hv)).resolve_left hd) with rfl | hv
        · exact Nat.le_refl _
        · exact Nat.le_of_lt (List.rel_of_pairwise_cons hsorted.2.1 hv)
      obtain ⟨g₂, hok₂, h₂, hiff⟩ := hstep g₁ h h₁ hbox hmin
      refine ⟨g₂, hok₂, h₂, fun v => ?_⟩
      rw [hiff, hdone₁, List.mem_append, List.mem_singleton]
      tauto
  refine ⟨g', ?_, hg', fun v hv => ?_⟩
  · rw [removeBoxes, filterM_eq (p := fun v => g.web.kind v == some .box) fun v hv => ?_]
    · exact hok
    · obtain ⟨k, hk⟩ := Option.isSome_iff_exists.1 ((mem_spiders (hP g hg)).1 hv)
      rw [Diagram.kind_eq hk, hk]
      rfl
  · obtain ⟨hbox, hnot⟩ := (hdone v).1 hv
    exact hnot (hmem.2 hbox)

/-! ### Colours -/

/-- Turning an X spider into a Z spider. -/
theorem Gives.recolour (hg : g.Coherent) (hx : g.web.kind v = some .x) :
    Gives (g.recolour v) (g.web.flip v) g.master := by
  have hv := (hg.has v).1 (Web.has_of_kind hx)
  obtain ⟨links, cut, graph, hlinks, hcut, hok, hgraph⟩ := hg.wf.exists_flip hv
  have hkinds (u : Vertex) : (g.kinds.insert v .z)[u]? = (g.web.flip v).kind u := by
    rw [Web.kind_flip, Web.kindAt_eq hx]
    exact congrFun (VertexMap.insert_eq g.kinds v .z) u
  refine ⟨{ g with kinds := g.kinds.insert v .z, graph }, ?_, ⟨hgraph.wf, fun u => ?_⟩, ?_, rfl⟩
  · rw [GraphLike.recolour, Diagram.kind_eq hx]
    change (g.graph.links v >>= fun links => _) = _
    rw [hlinks]
    simp only [Bind.bind, Except.bind] at hcut ⊢
    rw [hcut]
    dsimp only
    rw [hok]
    rfl
  · change ((g.kinds.insert v .z)[u]?).isSome ↔ graph.contains u
    rw [hkinds, hgraph.contains, ← hg.has]
    exact Web.has_flip (Web.has_of_kind hx)
  · exact Web.ext hgraph.next (funext hkinds) rfl
      (funext fun a => funext fun b => funext fun k => hgraph.count a b k) rfl rfl rfl

/-- What turning X spiders into Z spiders and fusing those keep, one at a time. -/
structure Lasting (P : GraphLike → Prop) : Prop where
  coherent : ∀ g, P g → g.Coherent
  recolour : ∀ g g' v, P g → g.web.kind v = some .x → g.recolour v = .ok g' → g'.Coherent →
    g'.web = g.web.flip v → P g'
  fuseInto : ∀ g g' v u links, P g → g.web.IsZ v → g.web.IsZ u → v ≠ u → g.web.LinksAre u links →
    0 < g.web.count u v .plain → g.fuseInto v u = .ok g' → g'.Coherent →
      g'.web = g.web.takeIn v u links → P g'

theorem Stage.lasting (hD : Phase.IsGrid D) : Lasting (Stage D w₀) where
  coherent g hs := hs.coherent
  recolour g g' v hs hx _ hg' hw' := by
    refine ⟨hg', ?_, ?_, ?_⟩
    · rw [hw']
      exact hs.framed.flip hx rfl
    · rw [hw']
      exact hs.onGrid.flip
    · rw [hw']
      exact hs.converts.trans (hs.framed.converts_flip hx rfl)
  fuseInto g g' v u links hs hv hu hne hlinks hpos _ hg' hw' := by
    refine ⟨hg', ?_, ?_, ?_⟩
    · rw [hw']
      exact hlinks.framed_takeIn hv hu hne hs.framed
    · rw [hw']
      exact hs.onGrid.takeIn hD
    · rw [hw']
      exact hs.converts.trans (hlinks.converts_takeIn hv hu hne hs.framed hD hs.onGrid hpos)

/-- What else is kept on the way to graph-like form, where all boxes have two wires. -/
structure Drawing (D : ℕ) (w₀ : Web) (P : GraphLike → Prop) : Prop where
  recolour : ∀ g g' v, Stage D w₀ g → P g → g.web.kind v = some .x → g.recolour v = .ok g' →
    g'.Coherent → g'.web = g.web.flip v → P g'
  fuseInto : ∀ g g' v u links, Stage D w₀ g → P g → g.web.IsZ v → g.web.IsZ u → v ≠ u →
    g.web.LinksAre u links → 0 < g.web.count u v .plain → g.fuseInto v u = .ok g' → g'.Coherent →
      g'.web = g.web.takeIn v u links → P g'
  unbox : ∀ g g' h a b k₁ k₂ k, P g → g.web.kind h = some .box →
    g.web.EndsAre h [(a, k₁), (b, k₂)] → Web.Converts g.web g'.web →
      g'.web = g.web.unbox h a b k → g'.master = g.master → P g'
  reduce : ∀ g g', P g → Web.Converts g.web g'.web → g'.web = g.web.reduced →
    g'.master = g.master → P g'

theorem Drawing.lasting {P : GraphLike → Prop} (hP : Drawing D w₀ P) (hD : Phase.IsGrid D) :
    Lasting fun g => Stage D w₀ g ∧ P g where
  coherent _ hs := hs.1.coherent
  recolour g g' v hs hx hok hg' hw' := ⟨(Stage.lasting hD).recolour g g' v hs.1 hx hok hg' hw',
    hP.recolour g g' v hs.1 hs.2 hx hok hg' hw'⟩
  fuseInto g g' v u links hs hv hu hne hlinks hpos hok hg' hw' :=
    ⟨(Stage.lasting hD).fuseInto g g' v u links hs.1 hv hu hne hlinks hpos hok hg' hw',
      hP.fuseInto g g' v u links hs.1 hs.2 hv hu hne hlinks hpos hok hg' hw'⟩

/-- Taking out all boxes of a diagram in which they have two wires each. -/
theorem Drawing.exists_removeBoxes {P : GraphLike → Prop} (hP : Drawing D w₀ P)
    (hs : Stage D w₀ g) (hp : P g) (hD : Phase.IsGrid D) (hline : g.web.BoxesInLine) :
    ∃ g', g.removeBoxes = .ok g' ∧ (Stage D w₀ g' ∧ P g') ∧ ∀ v, g'.web.kind v ≠ some .box := by
  obtain ⟨g', hok, ⟨hs', hp', -⟩, hbox⟩ := GraphLike.exists_removeBoxes
    (P := fun g => Stage D w₀ g ∧ P g ∧ g.web.BoxesInLine) (fun _ h => h.1.coherent)
    (fun g h hinv hbox hmin => by
      obtain ⟨hs, hp, hline⟩ := hinv
      obtain ⟨a, k₁, b, k₂, g', hedges, hok, hg', hw', hm'⟩ :=
        exists_removeBox_inLine hs.coherent hline hbox
      have hconverts : Web.Converts g.web g'.web := by
        rw [hw']
        exact hs.framed.converts_unbox hD hs.onGrid hline hbox hmin hedges
      refine ⟨g', hok, ⟨⟨hg', ?_, ?_, hs.converts.trans hconverts⟩,
        hP.unbox g g' h a b k₁ k₂ _ hp hbox hedges hconverts hw' hm', ?_⟩, fun v => ?_⟩ <;> rw [hw']
      · exact hs.framed.unbox hedges hbox
      · exact hs.onGrid.unbox hD
      · exact hs.framed.boxesInLine_unbox hedges hline hbox hmin
      · exact Web.isBox_unbox) ⟨hs, hp, hline⟩
  exact ⟨g', hok, ⟨hs', hp'⟩, hbox⟩

section Lasting

variable {P : GraphLike → Prop} (hP : Lasting P)
include hP

/-- Turning all X spiders into Z spiders. -/
theorem Lasting.exists_recolourAll (hg : P g) : ∃ g', g.recolourAll = .ok g' ∧ P g' ∧
    ∀ v, g'.web.kind v = if g.web.kind v = some .x then some .z else g.web.kind v := by
  have hsorted : g.spiders.Pairwise (· < ·) := Multigraph.pairwise_vertices
  obtain ⟨g', hok, hg', hkind⟩ := exists_foldlM (f := GraphLike.recolour)
    (fun done (g' : GraphLike) => P g' ∧ ∀ v, g'.web.kind v =
      if v ∈ done ∧ g.web.kind v = some .x then some .z else g.web.kind v) g.spiders
    ⟨hg, fun v => by simp⟩ fun done v rest g₁ hl hinv => by
      obtain ⟨hg₁, hkind₁⟩ := hinv
      have hnot : v ∉ done := fun hd => by
        rw [hl, List.pairwise_append] at hsorted
        exact Nat.lt_irrefl _ (hsorted.2.2 v hd v List.mem_cons_self)
      have hat : g₁.web.kind v = g.web.kind v := by rw [hkind₁, if_neg fun h => hnot h.1]
      by_cases hx : g.web.kind v = some .x
      · obtain ⟨g₂, hok₂, hg₂, hw₂, -⟩ := Gives.recolour (hP.coherent _ hg₁) (hat.trans hx)
        refine ⟨g₂, hok₂, hP.recolour _ _ v hg₁ (hat.trans hx) hok₂ hg₂ hw₂, fun u => ?_⟩
        rw [hw₂, Web.kind_flip, Function.update_apply, Web.kindAt_eq (hat.trans hx), hkind₁]
        by_cases hu : u = v
        · simp [hu, hx, SpiderKind.opposite]
        · simp [hu]
      · have hv : g₁.web.Has v := by
          rw [Web.Has, hat]
          exact (mem_spiders (hP.coherent _ hg)).1
            (hl ▸ List.mem_append_right done List.mem_cons_self)
        obtain ⟨k, hk⟩ := Option.isSome_iff_exists.1 hv
        have hne : k ≠ .x := fun h => hx (by rw [← hat, hk, h])
        refine ⟨g₁, ?_, hg₁, fun u => ?_⟩
        · rw [GraphLike.recolour, Diagram.kind_eq hk]
          change (if k = .x then _ else _) = _
          rw [if_neg hne]
          rfl
        · rw [hkind₁]
          by_cases hu : u = v
          · simp [hu, hx]
          · simp [hu]
  refine ⟨g', hok, hg', fun v => ?_⟩
  rw [hkind]
  by_cases hx : g.web.kind v = some .x
  · rw [if_pos hx, if_pos ⟨(mem_spiders (hP.coherent _ hg)).2 (Web.has_of_kind hx), hx⟩]
  · rw [if_neg hx, if_neg fun h => hx h.2]

end Lasting

/-! ### Fusion -/

/-- Moving a link. -/
theorem Gives.moveLink {l : Link} (hg : g.Coherent) (hv : g.web.Has v) (hl : g.web.Has l.node) :
    Gives (moveLink v g l) (Web.moveLink v g.web l) g.master := by
  rw [GraphLike.moveLink, Web.moveLink]
  split_ifs with hne hodd
  · exact Gives.addEdges hg hv hl (Ne.symm hne) l.kind l.count
  · rw [← web_addToPhase]
    exact Gives.ok (Coherent.addToPhase hg v .pi)
  · exact Gives.ok hg

/-- Fusing a Z spider into another one. -/
theorem exists_fuseInto (hg : g.Coherent) (hv : g.web.IsZ v) (hu : g.web.IsZ u) :
    ∃ links, g.web.LinksAre u links ∧ Gives (g.fuseInto v u) (g.web.takeIn v u links)
      ((g.web.gather v u links).mergedMaster g.master v u) := by
  obtain ⟨links, hok, hlinks⟩ := exists_links hg hu.has
  set g₀ := g.addToPhase v (g.phase u)
  have hg₀ : g₀.Coherent := Coherent.addToPhase hg v _
  have hw₀ : g₀.web = g.web.addToPhase v (g.web.phase u) := web_addToPhase
  have hhas {x : Vertex} (hx : g.web.Has x) : g₀.web.Has x := by
    rw [hw₀]
    exact hx
  obtain ⟨⟨g₁, hok₁, hg₁, hw₁, hm₁⟩, -⟩ := Gives.foldlM (f := moveLink v) (F := Web.moveLink v)
    (fun w => w.kind = g₀.web.kind) links hg₀ rfl fun l hl g₁ hg₁ hk₁ => by
      have hold {x : Vertex} (hx : g.web.Has x) : g₁.web.Has x := by
        rw [Web.Has, hk₁]
        exact hhas hx
      obtain ⟨-, hkind, -, -⟩ := Web.moveLink_fields v g₁.web l
      exact ⟨.moveLink hg₁ (hold hv.has) (hold (hlinks.has hg.valid hl).1), hkind.trans hk₁⟩
  have hkind : (g₁.mergeCarriers v u).web.kind = g.web.kind := by
    obtain ⟨-, hkind, -, -⟩ := Web.moveLinks_fields v g₀.web links
    rw [web_mergeCarriers, Web.kind_mergeCarriers, hw₁, hkind, hw₀]
    rfl
  obtain ⟨g', hok', hg', hw', hm'⟩ := Gives.removeSpider (v := u) (Coherent.mergeCarriers hg₁ v u) (by
    rw [Web.Has, hkind]
    exact hu.has)
  refine ⟨links, hlinks, g', ?_, hg', ?_, ?_⟩
  · rw [fuseInto]
    change (g.links u >>= fun links => _) = _
    rw [hok]
    change (links.foldlM (moveLink v) g₀ >>= fun g => _) = _
    rw [hok₁]
    exact hok'
  · rw [hw', web_mergeCarriers, hw₁, hw₀]
    rfl
  · rw [hm', master_mergeCarriers, hw₁, hw₀, hm₁]
    rfl

/-- Each spider of the graph is one of the web. -/
theorem vertexCount_eq (hg : g.Coherent) : g.graph.vertexCount = g.web.spiders.card := by
  have hset : g.web.spiders = g.graph.vertices.toFinset := by
    ext v
    rw [List.mem_toFinset, Multigraph.mem_vertices, Web.mem_spiders, ← hg.has,
      and_iff_right_iff_imp]
    exact hg.valid.lt v
  rw [hset, List.toFinset_card_of_nodup Multigraph.nodup_vertices]
  exact hg.wf.size

/-- What fusing the spiders around one keeps, and what it achieves. -/
structure Fused (P : GraphLike → Prop) (v : Vertex) (g g' : GraphLike) : Prop where
  lasting : P g'
  uniform : g'.web.Uniform
  isZ : ∀ s, g'.web.IsZ s → g.web.IsZ s
  unfusible : ∀ s, g.web.Unfusible s → g'.web.Unfusible s
  here : g'.web.Unfusible v

section Lasting

variable {P : GraphLike → Prop} (hP : Lasting P)
include hP

/-- Fusing the Z spiders behind plain edges of a Z spider. -/
theorem Lasting.exists_fuseAround (hs : P g) (hu : g.web.Uniform) (hv : g.web.IsZ v) {n : ℕ}
    (hn : g.web.spiders.card ≤ n) : ∃ g', fuseAround v n g = .ok g' ∧ Fused P v g g' := by
  have hco := hP.coherent g hs
  induction n generalizing g with
  | zero =>
    have hmem : v ∈ g.web.spiders := Web.mem_spiders.2 ⟨hco.valid.lt v hv.has, hv.has⟩
    exact absurd hn (Nat.not_le.2 (Finset.card_pos.2 ⟨v, hmem⟩))
  | succ n ih =>
    obtain ⟨links, hok, hlinks⟩ := exists_links hco hv.has
    have hfind : (links.findM? fun (l : Link) =>
        (pure (l.kind == .plain) <&&> g.isZ l.node : Except Fault Bool)) =
          .ok (links.find? fun l => l.kind == .plain && decide (g.web.IsZ l.node)) :=
      findM?_eq fun l hl => and_eq fun _ => isZ_eq (hlinks.has hco.valid hl).1
    rw [fuseAround, hok]
    simp only [bind, Except.bind] at hfind ⊢
    rw [hfind]
    cases hnext : links.find? fun l => l.kind == .plain && decide (g.web.IsZ l.node) with
    | none =>
      refine ⟨g, rfl, hs, hu, fun _ h => h, fun _ h => h, fun x hx => ?_⟩
      by_contra hne
      have hl : (⟨x, .plain, g.web.count v x .plain⟩ : Link) ∈ links :=
        (hlinks.mem_iff _).2 ⟨Nat.pos_of_ne_zero hne, rfl⟩
      have := List.find?_eq_none.1 hnext _ hl
      simp [hx] at this
    | some l =>
      have hl := List.mem_of_find?_eq_some hnext
      have htest := List.find?_some hnext
      rw [Bool.and_eq_true, beq_iff_eq, decide_eq_true_iff] at htest
      obtain ⟨hplain, hz⟩ := htest
      have hne : v ≠ l.node := (hlinks.has hco.valid hl).2.symm
      have hpos : 0 < g.web.count l.node v .plain := by
        rw [hco.valid.symm, ← hplain, ((hlinks.mem_iff l).1 hl).2]
        exact ((hlinks.mem_iff l).1 hl).1
      obtain ⟨links', hlinks', g₁, hok₁, hg₁, hw₁, -⟩ := exists_fuseInto hco hv hz
      have hs₁ := hP.fuseInto _ _ v l.node links' hs hv hz hne hlinks' hpos hok₁ hg₁ hw₁
      have hhas (s : Vertex) : g₁.web.Has s ↔ g.web.Has s ∧ s ≠ l.node := by
        rw [hw₁]
        exact Web.has_takeIn
      have hz₁ (s : Vertex) : g₁.web.IsZ s ↔ g.web.IsZ s ∧ s ≠ l.node := by
        rw [hw₁]
        exact Web.isZ_takeIn
      -- there is one spider less
      have hcard : g₁.web.spiders.card ≤ n := by
        have hsub : g₁.web.spiders ⊆ g.web.spiders.erase l.node := fun s hs' => by
          obtain ⟨h, hne⟩ := (hhas s).1 (Web.mem_spiders.1 hs').2
          exact Finset.mem_erase.2 ⟨hne, Web.mem_spiders.2 ⟨hco.valid.lt s h, h⟩⟩
        have hmem : l.node ∈ g.web.spiders :=
          Web.mem_spiders.2 ⟨hco.valid.lt _ hz.has, hz.has⟩
        have := Finset.card_le_card hsub
        rw [Finset.card_erase_of_mem hmem] at this
        omega
      have hu₁ : g₁.web.Uniform := fun s hs' => by
        obtain ⟨h, hne⟩ := (hhas s).1 hs'
        rcases hu s h with hzs | hend
        · exact .inl ((hz₁ s).2 ⟨hzs, hne⟩)
        · right
          rw [Web.IsEnd, hw₁, Web.kind_takeIn, update_of_ne hne]
          exact hend
      obtain ⟨g', hok', hfused⟩ := ih hs₁ hu₁ ((hz₁ v).2 ⟨hv, hne⟩) hcard hg₁
      refine ⟨g', ?_, hfused.lasting, hfused.uniform, fun s h => ((hz₁ s).1 (hfused.isZ s h)).1,
        fun s hc => hfused.unfusible s ?_, hfused.here⟩
      · change (g.fuseInto v l.node >>= fuseAround v n) = _
        rw [hok₁]
        exact hok'
      · rw [hw₁]
        exact hlinks'.unfusible_takeIn hco.valid hv hz hpos hc

/-- Fusing all plain edges between Z spiders. -/
theorem Lasting.exists_fuseAll (hs : P g) (hu : g.web.Uniform) :
    ∃ g', g.fuseAll = .ok g' ∧ P g' ∧ g'.web.Uniform ∧
      ∀ s, g'.web.IsZ s → g'.web.Unfusible s := by
  obtain ⟨g', hok, hs', hu', hz, hdone⟩ := exists_foldlM (f := fuseAt)
    (fun done (g' : GraphLike) => P g' ∧ g'.web.Uniform ∧
      (∀ s, g'.web.IsZ s → g.web.IsZ s) ∧ ∀ s ∈ done, g'.web.IsZ s → g'.web.Unfusible s) g.spiders
    ⟨hs, hu, fun _ h => h, fun s hs => absurd hs List.not_mem_nil⟩
    fun done v rest g₁ _ hinv => by
      obtain ⟨hs₁, hu₁, hz₁, hdone₁⟩ := hinv
      -- where there is no Z spider, nothing is done
      have hskip (h : ¬g₁.web.IsZ v) : ∀ s ∈ done ++ [v], g₁.web.IsZ s → g₁.web.Unfusible s :=
        fun s hs hzs => by
          rcases List.mem_append.1 hs with hs | hs
          · exact hdone₁ s hs hzs
          · exact absurd (List.mem_singleton.1 hs ▸ hzs) h
      have hco₁ := hP.coherent _ hs₁
      rw [fuseAt, Diagram.contains_eq hco₁]
      by_cases hv : g₁.web.Has v
      · rw [decide_eq_true hv, if_pos rfl, isZ_eq hv]
        by_cases hzv : g₁.web.IsZ v
        · obtain ⟨g₂, hok₂, hfused⟩ := hP.exists_fuseAround hs₁ hu₁ hzv
            (vertexCount_eq hco₁).ge
          refine ⟨g₂, ?_, hfused.lasting, hfused.uniform, fun s h => hz₁ s (hfused.isZ s h),
            fun s hs hzs => ?_⟩
          · rw [decide_eq_true hzv]
            exact hok₂
          · rcases List.mem_append.1 hs with hs | hs
            · exact hfused.unfusible s (hdone₁ s hs (hfused.isZ s hzs))
            · rw [List.mem_singleton.1 hs]
              exact hfused.here
        · rw [decide_eq_false hzv]
          exact ⟨g₁, rfl, hs₁, hu₁, hz₁, hskip hzv⟩
      · rw [decide_eq_false hv]
        exact ⟨g₁, rfl, hs₁, hu₁, hz₁, hskip fun h => hv h.has⟩
  exact ⟨g', hok, hs', hu', fun s h => hdone s ((mem_spiders (hP.coherent _ hs)).2 (hz s h).has) h⟩

end Lasting

/-! ### Parallel edges -/

/-- Cancels parallel Hadamard edges in pairs, in the graph alone. -/
def cancelEdge (graph : Multigraph) (e : Vertex × Link) : Except Fault Multigraph :=
  if e.2.kind = .hadamard ∧ 1 < e.2.count then do
    return (← graph.removeEdges e.1 e.2.node e.2.kind (e.2.count - e.2.count % 2)).2
  else return graph

theorem exists_cancelEdge {graph : Multigraph} (hgraph : graph.WellFormed) {e : Vertex × Link}
    (hs : graph.contains e.1) : ∃ graph', cancelEdge graph e = .ok graph' ∧
      Multigraph.Rewired graph graph' (Multigraph.changeAt (e.1, e.2.node, e.2.kind)
        (fun c => if e.2.kind = .hadamard then c - (e.2.count - e.2.count % 2) else c)
          graph.count) := by
  rw [cancelEdge]
  split
  · next h =>
    obtain ⟨graph', hok, hgraph'⟩ := Multigraph.removeEdges_spec (t := e.2.node) hgraph hs e.2.kind
      (e.2.count - e.2.count % 2)
    refine ⟨graph', by rw [hok]; rfl, hgraph'.congr fun a b k => ?_⟩
    rw [Multigraph.changeAt, if_pos h.1]
    split <;> rfl
  · next h =>
    have hsame : Multigraph.Rewired graph graph graph.count :=
      ⟨hgraph, rfl, fun _ => rfl, fun _ _ _ => rfl⟩
    -- a single edge makes no pair
    have hnone (hk : e.2.kind = .hadamard) : e.2.count - e.2.count % 2 = 0 := by
      have : ¬1 < e.2.count := fun h1 => h ⟨hk, h1⟩
      omega
    refine ⟨graph, rfl, hsame.congr fun a b k => ?_⟩
    rw [Multigraph.changeAt]
    split
    · split
      · next hk => rw [hnone hk, Nat.sub_zero]
      · rfl
    · rfl

/-- Cancelling all parallel Hadamard edges of a graph. -/
theorem exists_cancelEdges {graph : Multigraph} (hg : graph.WellFormed) :
    ∃ graph', graph.edges.foldlM cancelEdge graph = .ok graph' ∧
      Multigraph.Rewired graph graph' fun a b k =>
        if k = .hadamard then graph.count a b .hadamard % 2 else graph.count a b .plain := by
  obtain ⟨graph', hok, hgraph, hat, hoff⟩ :=
    Multigraph.exists_foldlM_edges graph.edges hg hg.pairwise_edges fun e he g₁ hg₁ hcontains => by
      obtain ⟨-, hpos, hcount⟩ := hg.mem_edges.1 he
      exact exists_cancelEdge hg₁
        ((hcontains e.1).trans (hg.contains_of_count_pos (hcount ▸ hpos)).1)
  have hedge {a b : Vertex} {k : EdgeKind} (hlt : a < b) (hpos : 0 < graph.count a b k) :
      graph'.count a b k = if k = .hadamard then graph.count a b k % 2 else graph.count a b k := by
    rw [hat (a, ⟨b, k, graph.count a b k⟩) (hg.mem_edges.2 ⟨hlt, hpos, rfl⟩) a b k
      ⟨.inl ⟨rfl, rfl⟩, rfl⟩]
    dsimp only
    split
    · omega
    · rfl
  refine ⟨graph', hok, hgraph.congr fun a b k => ?_⟩
  have hcount : graph'.count a b k =
      if k = .hadamard then graph.count a b k % 2 else graph.count a b k := by
    rcases Nat.eq_zero_or_pos (graph.count a b k) with h0 | hpos
    · rw [hoff a b k fun e he hs => ?_, h0]
      · split <;> rfl
      · obtain ⟨-, hpos, hcount⟩ := hg.mem_edges.1 he
        obtain ⟨⟨rfl, rfl⟩ | ⟨rfl, rfl⟩, rfl⟩ := hs
        · exact absurd (hcount ▸ h0) hpos.ne'
        · exact absurd (hcount ▸ hg.symm _ _ _ ▸ h0) hpos.ne'
    · rcases Nat.lt_trichotomy a b with h | h | h
      · exact hedge h hpos
      · rw [h, hg.count_self] at hpos
        exact absurd hpos (Nat.lt_irrefl _)
      · rw [hgraph.wf.symm, hg.symm a b]
        exact hedge h (hg.symm a b k ▸ hpos)
  rw [hcount]
  cases k <;> rfl

/-- The loop over the edges changes the graph alone. -/
theorem foldlM_reduceEdge {es : List (Vertex × Link)} {g₁ g₂ : Multigraph}
    (h : es.foldlM cancelEdge g₁ = .ok g₂) :
    es.foldlM (fun (g : GraphLike) (e : Vertex × Link) => g.reduceEdge e.1 e.2)
      { g with graph := g₁ } = .ok { g with graph := g₂ } := by
  induction es generalizing g₁ with
  | nil =>
    rw [Except.ok.inj h]
    rfl
  | cons e rest ih =>
    rw [List.foldlM_cons] at h ⊢
    obtain ⟨g₃, h₃, hrest⟩ := of_bind_eq_ok h
    have hstep : GraphLike.reduceEdge { g with graph := g₁ } e.1 e.2 =
        .ok { g with graph := g₃ } := by
      rw [reduceEdge]
      rw [cancelEdge] at h₃
      dsimp only
      split at h₃
      · next hc =>
        obtain ⟨r, hr, hr'⟩ := of_bind_eq_ok h₃
        rw [if_pos hc, hr, ← Except.ok.inj hr']
        rfl
      · next hc =>
        rw [if_neg hc, ← Except.ok.inj h₃]
        rfl
    rw [hstep]
    exact ih hrest

/-- Cancelling all parallel Hadamard edges. -/
theorem exists_reduceEdges (hg : g.Coherent) : ∃ g', g.reduceEdges = .ok g' ∧ g'.Coherent ∧
    g'.web = g.web.reduced ∧ g'.phases = g.phases ∧ g'.master = g.master := by
  obtain ⟨graph, hok, hgraph⟩ := exists_cancelEdges hg.wf
  obtain ⟨g', hg', hco, hw, hm⟩ := Gives.rewired hg hgraph
  obtain rfl := Except.ok.inj hg'
  exact ⟨_, foldlM_reduceEdge hok, hco, hw, rfl, hm⟩

/-! ### The conversion -/

/-- The passes one after the other. -/
theorem ofDiagram_eq_ok {g₁ g₂ g₃ g₄ g₅ : GraphLike} (h₁ : start d = .ok g₁)
    (h₂ : g₁.removeBoxes = .ok g₂) (h₃ : g₂.recolourAll = .ok g₃) (h₄ : g₃.fuseAll = .ok g₄)
    (h₅ : g₄.reduceEdges = .ok g₅) : ofDiagram d = .ok g₅ := by
  rw [ofDiagram, h₁]
  change (g₁.removeBoxes >>= fun g => _) = _
  rw [h₂]
  change (g₂.recolourAll >>= fun g => _) = _
  rw [h₃]
  change (g₃.fuseAll >>= fun g => _) = _
  rw [h₄]
  exact h₅

/-- Without boxes and X spiders there are Z spiders and ends only. -/
theorem uniform_recoloured {w w' : Web} (hbox : ∀ v, w.kind v ≠ some .box)
    (hk : ∀ v, w'.kind v = if w.kind v = some .x then some .z else w.kind v) : w'.Uniform :=
  fun v hv => by
    obtain ⟨k, hkv⟩ := Option.isSome_iff_exists.1 hv
    have hkv' := hkv
    rw [hk] at hkv'
    rw [Web.IsZ, Web.IsEnd, hkv]
    have := hbox v
    cases k <;> grind [SpiderKind.isBoundary]

/-- What comes after the boxes are taken out: the spiders get one colour and are fused, and the edges
    are cancelled. -/
theorem Lasting.exists_reduced {P : GraphLike → Prop} {g₁ g₂ : GraphLike} (hP : Lasting P)
    (h₁ : start d = .ok g₁) (h₂ : g₁.removeBoxes = .ok g₂) (hp : P g₂)
    (hbox : ∀ v, g₂.web.kind v ≠ some .box) : ∃ g g', ofDiagram d = .ok g' ∧ P g ∧
      g.web.Uniform ∧ (∀ s, g.web.IsZ s → g.web.Unfusible s) ∧ g'.Coherent ∧
        g'.web = g.web.reduced ∧ g'.phases = g.phases ∧ g'.master = g.master := by
  obtain ⟨g₃, hok₃, hp₃, hk₃⟩ := hP.exists_recolourAll hp
  obtain ⟨g₄, hok₄, hp₄, hu₄, hclear⟩ := hP.exists_fuseAll hp₃ (uniform_recoloured hbox hk₃)
  obtain ⟨g₅, hok₅, hreduced⟩ := exists_reduceEdges (hP.coherent g₄ hp₄)
  exact ⟨g₄, g₅, ofDiagram_eq_ok h₁ h₂ hok₃ hok₄ hok₅, hp₄, hu₄, hclear, hreduced⟩

/-- A diagram drawn from a circuit has a graph-like form, which denotes the same up to a scalar, with
    what is kept besides. -/
theorem Drawing.exists_ofDiagram {P : GraphLike → Prop} (hP : Drawing D d.web P) (hd : d.Coherent)
    (hw : d.web.Drawn) (hD : Phase.IsGrid D) (hgrid : d.web.OnGrid D)
    (hstart : ∀ g, start d = .ok g → P g) : ∃ g, ofDiagram d = .ok g ∧ g.Coherent ∧
      g.web.InForm ∧ g.web.OnGrid D ∧ Web.Converts d.web g.web ∧ P g := by
  obtain ⟨g₁, hok₁, hs₁, hk₁, hc₁⟩ := exists_start_stage hd hw.framed hgrid
  have hline : g₁.web.BoxesInLine := fun h hh => by
    rw [hk₁] at hh ⊢
    obtain ⟨a, k₁, c, k₂, hends, hc⟩ := hw.boxesInLine h hh
    exact ⟨a, k₁, c, k₂, fun x k => by rw [hc₁, hends], hc⟩
  obtain ⟨g₂, hok₂, hs₂, hbox₂⟩ := hP.exists_removeBoxes hs₁ (hstart g₁ hok₁) hD hline
  obtain ⟨g, g', hok, ⟨hs, hp⟩, hu, hclear, hg', hw', -, hm'⟩ :=
    (hP.lasting hD).exists_reduced hok₁ hok₂ hs₂ hbox₂
  have hconverts : Web.Converts g.web g'.web := hw' ▸ hu.converts_reduced
  refine ⟨g', hok, hg', ?_, ?_, hs.converts.trans hconverts, hP.reduce g g' hp hconverts hw' hm'⟩
  · rw [hw']
    exact hs.framed.inForm_reduced hu hclear
  · rw [hw']
    exact hs.onGrid

/-- A diagram drawn from a circuit has a graph-like form, which denotes the same up to a scalar. -/
theorem exists_ofDiagram (hd : d.Coherent) (hw : d.web.Drawn) (hD : Phase.IsGrid D)
    (hgrid : d.web.OnGrid D) : ∃ g, ofDiagram d = .ok g ∧ g.Coherent ∧ g.web.InForm ∧
      g.web.OnGrid D ∧ Web.Converts d.web g.web := by
  have hP : Drawing D d.web fun _ => True :=
    ⟨fun _ _ _ _ _ _ _ _ _ => trivial, fun _ _ _ _ _ _ _ _ _ _ _ _ _ _ _ => trivial,
      fun _ _ _ _ _ _ _ _ _ _ _ _ _ _ => trivial, fun _ _ _ _ _ _ => trivial⟩
  obtain ⟨g, hok, hg, hform, hgrid', hconverts, -⟩ :=
    hP.exists_ofDiagram hd hw hD hgrid fun _ _ => trivial
  exact ⟨g, hok, hg, hform, hgrid', hconverts⟩

end GraphLike

end ZXRewriting

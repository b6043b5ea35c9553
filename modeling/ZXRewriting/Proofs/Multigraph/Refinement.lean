import Mathlib
import ZXRewriting.Proofs.Multigraph.Edges
import ZXRewriting.Proofs.Multigraph.Wiring

/-!
# Multigraphs refine their abstract view

Lists of links with both ends of every edge in them, and two counters beside: `Represents` says
that all of this agrees with a `Wiring`. Each edit of the lists does what the edit of the wiring
does, with the same answer or the same fault (`Represents.perform`), and so does a sequence of
them (`Represents.performAll`). What is read off the lists and counters after any edits that start
with the empty graph is therefore what the abstract edits come to (`performAll_empty`).
-/

namespace ZXRewriting

namespace Multigraph

/-- What an edit does to the lists of links. -/
def perform (g : Multigraph) : Edit → Except Fault (Answer × Multigraph)
  | .addVertex => .ok (.made g.addVertex.1, g.addVertex.2)
  | .removeVertex v => return (.done, ← g.removeVertex v)
  | .addEdge s t kind => return (.done, ← g.addEdge s t kind)
  | .addEdges s t kind m => return (.done, ← g.addEdges s t kind m)
  | .removeEdges s t kind m => do
    let (removed, g) ← g.removeEdges s t kind m
    return (.removed removed, g)
  | .removeKind s t kind => do
    let (removed, g) ← g.removeKind s t kind
    return (.removed removed, g)
  | .disconnect s t => do
    let (removed, g) ← g.disconnect s t
    return (.removed removed, g)
  | .setEdgeKind s t kind => return (.done, ← g.setEdgeKind s t kind)

variable {g g' : Multigraph} {w : Wiring} {s t v : Vertex} {kind : EdgeKind} {m r : ℕ}

/-! ### The counter of edges -/

theorem edgeCount_modifyLinks {f : List Link → List Link} (h : g.modifyLinks v f = .ok g') :
    g'.edgeCount = g.edgeCount := by
  rw [modifyLinks] at h
  obtain ⟨links, -, h⟩ := of_bind_eq_ok h
  exact Except.ok.inj h ▸ rfl

theorem links_eq_error (h : g.links? v = none) : g.links v = .error (.vertexNotFound v) := by
  rw [links, h]

theorem modifyLinks_eq_error {f : List Link → List Link} (h : g.links? v = none) :
    g.modifyLinks v f = .error (.vertexNotFound v) := by
  rw [modifyLinks, links_eq_error h]
  rfl

theorem edgeCount_addEdges (h : g.addEdges s t kind m = .ok g') :
    g'.edgeCount = g.edgeCount + m := by
  rw [addEdges] at h
  split at h
  · cases h
  · split at h
    · next hm =>
      rw [hm, ← Except.ok.inj h, Nat.add_zero]
    · obtain ⟨g₁, h₁, h⟩ := of_bind_eq_ok h
      obtain ⟨g₂, h₂, h⟩ := of_bind_eq_ok h
      rw [← Except.ok.inj h, ← edgeCount_modifyLinks h₁, ← edgeCount_modifyLinks h₂]

theorem edgeCount_removeEdges (h : g.removeEdges s t kind m = .ok (r, g')) :
    g'.edgeCount = g.edgeCount - r := by
  rw [removeEdges] at h
  obtain ⟨there, -, h⟩ := of_bind_eq_ok h
  dsimp only at h
  split at h
  · obtain ⟨rfl, rfl⟩ := Prod.mk.inj (Except.ok.inj h)
    rfl
  · obtain ⟨g₁, h₁, h⟩ := of_bind_eq_ok h
    obtain ⟨g₂, h₂, h⟩ := of_bind_eq_ok h
    obtain ⟨rfl, rfl⟩ := Prod.mk.inj (Except.ok.inj h)
    rw [← edgeCount_modifyLinks h₁, ← edgeCount_modifyLinks h₂]

theorem edgeCount_removeKind (h : g.removeKind s t kind = .ok (r, g')) :
    g'.edgeCount = g.edgeCount - r := by
  rw [removeKind] at h
  obtain ⟨there, -, h⟩ := of_bind_eq_ok h
  exact edgeCount_removeEdges h

theorem edgeCount_disconnect (h : g.disconnect s t = .ok (r, g')) :
    g'.edgeCount = g.edgeCount - r := by
  rw [disconnect] at h
  obtain ⟨⟨r₁, g₁⟩, h₁, h⟩ := of_bind_eq_ok h
  obtain ⟨⟨r₂, g₂⟩, h₂, h⟩ := of_bind_eq_ok h
  obtain ⟨rfl, rfl⟩ := Prod.mk.inj (Except.ok.inj h)
  rw [edgeCount_removeKind h₂, edgeCount_removeKind h₁, Nat.sub_sub]

/-- A vertex takes as many edges with it as its links stand for. -/
theorem edgeCount_removeVertex {links : List Link} (hl : g.links v = .ok links)
    (h : g.removeVertex v = .ok g') : g'.edgeCount = g.edgeCount - Links.total links := by
  have hloop : Leaves (g.removeVertex v)
      fun g' => g'.edgeCount = g.edgeCount - Links.total links := by
    rw [removeVertex, hl]
    refine Meets.foldlM (fun (done : List Link) (g' : Multigraph) =>
      g'.edgeCount = g.edgeCount - Links.total done) links rfl fun done l _ g₁ _ hg₁ => ?_
    refine Leaves.after fun g₂ h₂ => ?_
    have htotal : Links.total (done ++ [l]) = Links.total done + l.count := by
      rw [Links.total_append]
      rfl
    change g₂.edgeCount - l.count = _
    rw [edgeCount_modifyLinks h₂, hg₁, htotal, Nat.sub_sub]
  exact hloop.of_ok h

/-! ### One edit -/

/-- The lists of links and the counters of `g` are those of `w`. -/
structure Represents (g : Multigraph) (w : Wiring) : Prop where
  wf : g.WellFormed
  made : g.nextVertex = w.made
  live : ∀ v, g.contains v = true ↔ v ∈ w.live
  count : ∀ s t kind, g.count s t kind = w.count s t kind
  size : g.edgeCount = w.size

namespace Represents

theorem empty : Represents .empty .empty where
  wf := by
    have hnone (v : Vertex) : Multigraph.empty.links? v = none := rfl
    refine ⟨fun {v links} h => ?_, fun {v links} h => ?_, fun _ _ _ => rfl, rfl⟩
    · rw [hnone] at h
      cases h
    · rw [hnone] at h
      cases h
  made := rfl
  live v := by
    constructor
    · intro h
      exact absurd (lt_nextVertex h) (Nat.not_lt_zero v)
    · intro h
      exact absurd h (Finset.notMem_empty v)
  count _ _ _ := rfl
  size := rfl

theorem count_of_samePair (h : g.Represents w) {a b : Vertex} (hp : SamePair a b s t)
    (kind : EdgeKind) : g.count a b kind = w.count s t kind := by
  rw [h.count]
  obtain ⟨rfl, rfl⟩ | ⟨rfl, rfl⟩ := hp
  · rfl
  · exact w.symm _ _ _

theorem joins (h : g.Represents w) (s t : Vertex) : g.joins s t = w.joins s t := by
  rw [Multigraph.joins, Wiring.joins, h.count, h.count]

theorem links?_eq_none (h : g.Represents w) (hv : v ∉ w.live) : g.links? v = none := by
  have hc : g.contains v = false := Bool.eq_false_iff.2 fun hc => hv ((h.live v).1 hc)
  simpa [contains] using hc

/-- The links of a vertex stand for the edges at it. -/
theorem total_links (h : g.Represents w) (hv : v ∈ w.live) :
    ∃ links, g.links v = .ok links ∧ Links.total links = w.degree v := by
  obtain ⟨links, hl⟩ := contains_iff.1 ((h.live v).2 hv)
  refine ⟨links, links_eq hl, ?_⟩
  have hdeg := h.wf.degree_eq ((h.live v).2 hv)
  rw [degree, links_eq hl] at hdeg
  rw [show Links.total links = _ from Except.ok.inj hdeg, Wiring.degree]
  simp only [h.joins]
  refine (Finset.sum_subset (fun u hu => Finset.mem_range.2 ?_) fun u _ hu => ?_).symm
  · exact h.made ▸ w.lt_made u hu
  · exact Wiring.joins_eq_zero fun hlive => hu hlive.2.1

theorem addVertex (h : g.Represents w) : g.addVertex.2.Represents w.addVertex where
  wf := h.wf.addVertex
  made := by rw [nextVertex_addVertex, h.made]; rfl
  live v := by
    rw [contains_addVertex, Bool.or_eq_true, decide_eq_true_iff, h.live, h.made]
    exact Finset.mem_insert.symm
  count s t kind := (count_addVertex g s t kind).trans (h.count s t kind)
  size := h.size.trans w.size_addVertex.symm

theorem removeVertex (h : g.Represents w) (hv : v ∈ w.live) :
    ∃ g', g.removeVertex v = .ok g' ∧ g'.Represents (w.removeVertex v) := by
  obtain ⟨links, hl, htotal⟩ := h.total_links hv
  obtain ⟨g', hok, hwithout⟩ := removeVertex_spec h.wf ((h.live v).2 hv)
  refine ⟨g', hok, hwithout.wf, hwithout.next.trans h.made, fun u => ?_, fun s t kind => ?_, ?_⟩
  · rw [hwithout.contains, Bool.and_eq_true, h.live, bne_iff_ne, and_comm]
    exact Finset.mem_erase.symm
  · rw [hwithout.count, h.count]
    rfl
  · rw [edgeCount_removeVertex hl hok, htotal, h.size, ← Wiring.size_removeVertex hv,
      Nat.add_sub_cancel]

/-- Edges between two vertices that are counted as they are joined anew. -/
theorem rejoin (h : g.Represents w) {c : EdgeKind → ℕ}
    {hc : ∀ kind, 0 < c kind → s ∈ w.live ∧ t ∈ w.live ∧ s ≠ t}
    {f : Vertex → Vertex → EdgeKind → ℕ} (hrew : Rewired g g' f)
    (hf : ∀ a b kind, f a b kind = if SamePair a b s t then c kind else g.count a b kind)
    (hsize : g'.edgeCount + g.joins s t = g.edgeCount + (c .plain + c .hadamard)) :
    g'.Represents (w.rejoin s t c hc) where
  wf := hrew.wf
  made := hrew.next.trans h.made
  live v := by rw [hrew.contains, h.live]; rfl
  count a b kind := by rw [hrew.count, hf, h.count]; rfl
  size := by
    have := Wiring.size_rejoin (h := hc)
    rw [h.joins, h.size] at hsize
    omega

theorem addEdges (h : g.Represents w) (s t : Vertex) (kind : EdgeKind) (m : ℕ) :
    Agree Represents (g.addEdges s t kind m) (w.addEdges s t kind m) := by
  rw [Multigraph.addEdges, Wiring.addEdges]
  split
  · exact .error _
  next hne =>
  split
  · exact .ok h
  next hm =>
  by_cases hs : s ∈ w.live
  · rw [dif_pos hs]
    by_cases ht : t ∈ w.live
    · rw [dif_pos ht]
      obtain ⟨g', hok, hrew⟩ := addEdges_spec h.wf ((h.live s).2 hs) ((h.live t).2 ht) hne kind m
      have hcount := edgeCount_addEdges hok
      rw [Multigraph.addEdges, if_neg hne, if_neg hm] at hok
      refine .of_ok ⟨g', hok, h.rejoin hrew (fun a b k => ?_) ?_⟩
      · by_cases hp : SamePair a b s t
        · simp [hp, h.count_of_samePair hp]
        · simp [hp]
      · rw [hcount, h.joins, Wiring.joins]
        cases kind <;> simp <;> omega
    · -- the links of the first vertex are changed before the second one is looked for
      rw [dif_neg ht]
      obtain ⟨links, hl⟩ := contains_iff.1 ((h.live s).2 hs)
      obtain ⟨g₁, h₁, -, -, hl₁⟩ := modifyLinks_spec hl (Links.add · t kind m)
      have hnone : g₁.links? t = none := by
        rw [hl₁, if_neg (Ne.symm hne)]
        exact h.links?_eq_none ht
      refine .of_error ?_
      rw [h₁]
      simp only [bind, Except.bind, modifyLinks_eq_error hnone]
  · rw [dif_neg hs]
    refine .of_error ?_
    rw [modifyLinks_eq_error (h.links?_eq_none hs)]
    rfl

/-- Edges between two vertices are taken away, and their number is the answer. -/
theorem fewer (h : g.Represents w) {x : Except Fault (ℕ × Multigraph)} {c : EdgeKind → ℕ}
    (hc : ∀ kind, c kind ≤ w.count s t kind)
    (hmissing : g.links? s = none → x = .error (.vertexNotFound s))
    (hthere : g.contains s → ∃ g', x = .ok (r, g') ∧
      Rewired g g' fun a b kind => if SamePair a b s t then c kind else g.count a b kind)
    (hr : r + (c .plain + c .hadamard) = w.joins s t)
    (hcount : ∀ g', x = .ok (r, g') → g'.edgeCount = g.edgeCount - r) :
    Agree (fun a b => a.1 = r ∧ a.2.Represents b) x (w.fewer s t c hc) := by
  rw [Wiring.fewer]
  split
  · next hs =>
    obtain ⟨g', hok, hrew⟩ := hthere ((h.live s).2 hs)
    refine .of_ok ⟨_, hok, rfl, h.rejoin hrew (fun _ _ _ => rfl) ?_⟩
    have hle := w.joins_le_size s t
    rw [hcount g' hok, h.joins, h.size]
    omega
  · next hs => exact .of_error (hmissing (h.links?_eq_none hs))

theorem removeEdges (h : g.Represents w) (s t : Vertex) (kind : EdgeKind) (m : ℕ) :
    Agree (fun a b => a.1 = min (w.count s t kind) m ∧ a.2.Represents b)
      (g.removeEdges s t kind m)
      (w.fewer s t (fun k => w.count s t k - if kind = k then m else 0)
        fun _ => Nat.sub_le _ _) := by
  refine h.fewer _ (fun hs => ?_) (fun hs => ?_) ?_ fun _ => edgeCount_removeEdges
  · rw [Multigraph.removeEdges, multiplicity, links_eq_error hs]
    rfl
  · obtain ⟨g', hok, hrew⟩ := removeEdges_spec (t := t) h.wf hs kind m
    refine ⟨g', h.count s t kind ▸ hok, hrew.congr fun a b k => ?_⟩
    by_cases hp : SamePair a b s t
    · simp [hp, h.count_of_samePair hp]
    · simp [hp]
  · rw [Wiring.joins]
    cases kind <;> simp <;> omega

theorem removeKind (h : g.Represents w) (s t : Vertex) (kind : EdgeKind)
    (hc : ∀ k, (if kind = k then 0 else w.count s t k) ≤ w.count s t k) :
    Agree (fun a b => a.1 = w.count s t kind ∧ a.2.Represents b) (g.removeKind s t kind)
      (w.fewer s t (fun k => if kind = k then 0 else w.count s t k) hc) := by
  refine h.fewer _ (fun hs => ?_) (fun hs => ?_) ?_ fun _ => edgeCount_removeKind
  · rw [Multigraph.removeKind, multiplicity, links_eq_error hs]
    rfl
  · obtain ⟨g', hok, hrew⟩ := removeKind_spec h.wf hs t kind
    refine ⟨g', h.count s t kind ▸ hok, hrew.congr fun a b k => ?_⟩
    by_cases hp : SamePair a b s t
    · simp [hp, h.count_of_samePair hp]
    · simp [hp]
  · rw [Wiring.joins]
    cases kind <;> simp
    omega

theorem disconnect_eq_error (hs : g.links? s = none) :
    g.disconnect s t = .error (.vertexNotFound s) := by
  rw [Multigraph.disconnect, Multigraph.removeKind, multiplicity, links_eq_error hs]
  rfl

theorem disconnect (h : g.Represents w) (s t : Vertex) :
    Agree (fun a b => a.1 = w.joins s t ∧ a.2.Represents b) (g.disconnect s t)
      (w.fewer s t (fun _ => 0) fun _ => Nat.zero_le _) := by
  refine h.fewer _ disconnect_eq_error (fun hs => ?_) rfl fun _ => edgeCount_disconnect
  rw [← h.joins]
  exact disconnect_spec h.wf hs t

theorem setEdgeKind (h : g.Represents w) (s t : Vertex) (kind : EdgeKind) :
    Agree Represents (g.setEdgeKind s t kind) (w.setEdgeKind s t kind) := by
  rw [Wiring.setEdgeKind]
  by_cases hs : s ∈ w.live
  · rw [if_pos hs]
    obtain ⟨g₁, hok₁, h₁⟩ := disconnect_spec h.wf ((h.live s).2 hs) t
    by_cases hne : s = t
    · rw [if_pos hne]
      refine .of_error ?_
      rw [Multigraph.setEdgeKind, hok₁]
      exact if_pos hne
    · rw [if_neg hne]
      have hle : g.joins s t ≤ g.edgeCount := h.joins s t ▸ h.size ▸ w.joins_le_size s t
      -- where the second vertex is missing there are no edges to add again
      obtain ⟨g', hok', hrew⟩ : ∃ g', g₁.addEdges s t kind (g.joins s t) = .ok g' ∧
          Rewired g g' fun a b k =>
            if SamePair a b s t then if kind = k then g.joins s t else 0 else g.count a b k := by
        by_cases ht : t ∈ w.live
        · obtain ⟨g', hok, hrew⟩ :=
            setEdgeKind_spec h.wf ((h.live s).2 hs) ((h.live t).2 ht) hne kind
          rw [Multigraph.setEdgeKind, hok₁] at hok
          exact ⟨g', hok, hrew⟩
        · have hz : g.joins s t = 0 :=
            (h.joins s t).trans (Wiring.joins_eq_zero fun hlive => ht hlive.2.1)
          refine ⟨g₁, by rw [Multigraph.addEdges, if_neg hne, if_pos hz]; rfl, ?_⟩
          simpa only [hz, ite_self] using h₁
      refine .of_ok ⟨g', by rw [Multigraph.setEdgeKind, hok₁]; exact hok', h.rejoin hrew ?_ ?_⟩
      · intro a b k
        rw [← h.joins]
      · rw [edgeCount_addEdges hok', edgeCount_disconnect hok₁, ← h.joins]
        cases kind <;> simp <;> omega
  · rw [if_neg hs]
    refine .of_error ?_
    rw [Multigraph.setEdgeKind, disconnect_eq_error (h.links?_eq_none hs)]
    rfl

/-- Every edit does what it asks for. -/
theorem perform (h : g.Represents w) (edit : Edit) :
    Agree (fun a b => a.1 = b.1 ∧ a.2.Represents b.2) (g.perform edit) (w.perform edit) := by
  cases edit with
  | addVertex => exact .ok ⟨congrArg Answer.made h.made, h.addVertex⟩
  | removeVertex v =>
    rw [Multigraph.perform, Wiring.perform]
    split
    · next hv =>
      obtain ⟨g', hok, hg'⟩ := h.removeVertex hv
      exact .of_ok ⟨_, by rw [hok]; rfl, rfl, hg'⟩
    · next hv =>
      refine .of_error ?_
      rw [Multigraph.removeVertex, links_eq_error (h.links?_eq_none hv)]
      rfl
  | addEdge s t kind => exact (h.addEdges s t kind 1).bind fun _ _ hg => .ok ⟨rfl, hg⟩
  | addEdges s t kind m => exact (h.addEdges s t kind m).bind fun _ _ hg => .ok ⟨rfl, hg⟩
  | removeEdges s t kind m =>
    exact (h.removeEdges s t kind m).bind fun _ _ hg => .ok ⟨congrArg Answer.removed hg.1, hg.2⟩
  | removeKind s t kind =>
    exact (h.removeKind s t kind _).bind fun _ _ hg => .ok ⟨congrArg Answer.removed hg.1, hg.2⟩
  | disconnect s t =>
    exact (h.disconnect s t).bind fun _ _ hg => .ok ⟨congrArg Answer.removed hg.1, hg.2⟩
  | setEdgeKind s t kind => exact (h.setEdgeKind s t kind).bind fun _ _ hg => .ok ⟨rfl, hg⟩

/-! ### Any edits -/

/-- A sequence of edits gives the answers of the abstract ones, and meets a fault where those
    do. -/
theorem performAll (h : g.Represents w) (edits : List Edit) :
    Agree (fun a b => a.1 = b.1 ∧ a.2.Represents b.2)
      (performAll Multigraph.perform edits g) (performAll Wiring.perform edits w) := by
  induction edits generalizing g w with
  | nil => exact .ok ⟨rfl, h⟩
  | cons edit rest ih =>
    refine (h.perform edit).bind fun a b hab => ?_
    refine (ih hab.2).bind fun a' b' hab' => .ok ⟨?_, hab'.2⟩
    rw [hab.1, hab'.1]

/-! ### Reading off -/

theorem vertices (h : g.Represents w) : g.vertices.toFinset = w.live := by
  ext v
  rw [List.mem_toFinset, mem_vertices, h.live]

/-- A sum over the vertices that are there. -/
theorem sum_vertices (h : g.Represents w) (f : Vertex → ℕ) :
    (g.vertices.map f).sum = ∑ v ∈ w.live, f v := by
  rw [← List.sum_toFinset f nodup_vertices, h.vertices]

theorem vertexCount (h : g.Represents w) : g.vertexCount = w.live.card := by
  rw [h.wf.size, ← h.vertices, List.toFinset_card_of_nodup nodup_vertices]

/-- The links that lead up stand for the edges of which a vertex is the lower end. -/
theorem total_above (h : g.Represents w) (hs : s ∈ w.live) :
    ∃ links, g.links? s = some links ∧
      Links.total (links.filter (s < ·.node)) = ∑ t ∈ w.live with s < t, w.joins s t := by
  obtain ⟨links, hl⟩ := contains_iff.1 ((h.live s).2 hs)
  refine ⟨links, hl, ?_⟩
  have hproper : Links.Proper (links.filter (s < ·.node)) :=
    (h.wf.proper hl).sublist List.filter_sublist
  rw [hproper.total_eq fun l hm => lt_nextVertex (h.wf.present hl l (List.mem_of_mem_filter hm)).2,
    Finset.sum_filter]
  have hjoins (t : Vertex) : Links.count (links.filter (s < ·.node)) t .plain +
      Links.count (links.filter (s < ·.node)) t .hadamard = if s < t then w.joins s t else 0 := by
    rw [Links.count_filter_node links (s < ·), Links.count_filter_node links (s < ·),
      ← count_of_links? hl, ← count_of_links? hl, ← h.joins]
    by_cases hst : s < t <;> simp [hst, Multigraph.joins]
  simp only [hjoins]
  refine (Finset.sum_subset (fun t ht => Finset.mem_range.2 ?_) fun t _ ht => ?_).symm
  · exact h.made ▸ w.lt_made t ht
  · rw [Wiring.joins_eq_zero fun hlive => ht hlive.2.1, ite_self]

/-- The counter of edges says how many the listing of the edges comes to. -/
theorem sum_edges (h : g.Represents w) : (g.edges.map (·.2.count)).sum = g.edgeCount := by
  have hsum (links : List Link) : (links.map (·.count)).sum = Links.total links := by
    induction links with
    | nil => rfl
    | cons a rest ih => rw [List.map_cons, List.sum_cons, ih, Links.total]
  have habove : ∀ s ∈ g.vertices,
      ((((g.links? s).getD []).filter (s < ·.node)).map (·.count)).sum =
        ∑ t ∈ w.live with s < t, w.joins s t := by
    intro s hs
    obtain ⟨links, hl, htotal⟩ := h.total_above ((h.live s).1 (mem_vertices.1 hs))
    rw [hl, Option.getD_some, hsum, htotal]
  calc (g.edges.map (·.2.count)).sum
      = (g.vertices.map fun s =>
          ((((g.links? s).getD []).filter (s < ·.node)).map (·.count)).sum).sum := by
        rw [edges, List.map_flatMap, List.flatMap_def, List.sum_flatten, List.map_map]
        simp only [List.map_map, Function.comp_def]
    _ = (g.vertices.map fun s => ∑ t ∈ w.live with s < t, w.joins s t).sum :=
        congrArg List.sum (List.map_congr_left habove)
    _ = ∑ s ∈ w.live, ∑ t ∈ w.live with s < t, w.joins s t := h.sum_vertices _
    _ = g.edgeCount := h.size.symm

/-- Every edge is at two vertices. -/
theorem sum_degrees (h : g.Represents w) :
    ∃ degrees, g.vertices.mapM g.degree = .ok degrees ∧ 2 * g.edgeCount = degrees.sum := by
  refine ⟨g.vertices.map w.degree, mapM_eq fun v hv => ?_, ?_⟩
  · obtain ⟨links, hl, htotal⟩ := h.total_links ((h.live v).1 (mem_vertices.1 hv))
    rw [degree, hl, ← htotal]
    rfl
  · rw [h.size, w.two_mul_size, h.sum_vertices]

end Represents

/-- Lists of links with counters are a multigraph in the abstract sense. Edits that start with the
    empty graph stop with a fault where the abstract edits do. Otherwise they give the same
    answers, and leave lists that are proper, symmetric, and those of the abstract counts; the
    counters are the number of vertices, of the edges listed, and half the sum of the degrees; and
    the names handed out go up.

    What an abstract edit changes is in `Wiring.perform`: the counts of one pair of vertices. A
    removal answers by how much it makes them less, and another kind leaves as many edges. -/
theorem performAll_empty (edits : List Edit) :
    Meets (ZXRewriting.performAll perform edits empty)
      (fun r => ∃ w, ZXRewriting.performAll Wiring.perform edits .empty = .ok (r.1, w) ∧
        r.2.Represents w ∧ r.2.vertexCount = w.live.card ∧
        r.2.edgeCount = (r.2.edges.map (·.2.count)).sum ∧
        (∃ degrees, r.2.vertices.mapM r.2.degree = .ok degrees ∧
          2 * r.2.edgeCount = degrees.sum) ∧
        (r.1.filterMap Answer.vertex?).Pairwise (· < ·))
      (fun fault => ZXRewriting.performAll Wiring.perform edits .empty = .error fault) ∧
    (∀ w edit r w', Wiring.perform w edit = .ok (.removed r, w') → w'.size + r = w.size) ∧
    ∀ w s t kind w', Wiring.perform w (.setEdgeKind s t kind) = .ok (.done, w') →
      ∀ a b, w'.joins a b = w.joins a b := by
  refine ⟨(Represents.empty.performAll edits).mono ?_ fun _ h => h,
    fun w edit r w' => Wiring.size_of_removed, fun w s t kind w' h => ?_⟩
  · rintro ⟨answers, g⟩ ⟨⟨answers', w⟩, hw, rfl, hg⟩
    exact ⟨w, hw, hg, hg.vertexCount, hg.sum_edges.symm, hg.sum_degrees,
      (Wiring.pairwise_vertices hw).1⟩
  · obtain ⟨w₁, hok, h⟩ := of_bind_eq_ok h
    obtain ⟨-, rfl⟩ := Prod.mk.inj (Except.ok.inj h)
    exact Wiring.joins_of_setEdgeKind hok

end Multigraph

end ZXRewriting

import ZXRewriting.Proofs.Multigraph.Links
import ZXRewriting.Proofs.Outcome

/-!
# Multigraphs as symmetric counts

A multigraph is *well-formed* when its lists of links are proper, lead to other vertices that are
there, and agree at both ends of every edge. On a well-formed graph every operation whose
vertices are there succeeds, and is described by what it does to the vertices and to
`Multigraph.count` alone (`addEdges_spec`, `removeEdges_spec`, `disconnect_spec`,
`setEdgeKind_spec`, `removeVertex_spec`, `addVertex_spec`); reading is described by counts too.
-/

namespace ZXRewriting.Multigraph

/-- The links of every vertex are proper, lead to other vertices that are there, and agree with
    the links of those. -/
structure WellFormed (g : Multigraph) : Prop where
  proper : ∀ {v links}, g.links? v = some links → Links.Proper links
  present : ∀ {v links}, g.links? v = some links → ∀ l ∈ links, l.node ≠ v ∧ g.contains l.node
  symm : ∀ s t kind, g.count s t kind = g.count t s kind
  size : g.vertexCount = g.vertices.length

/-- `g'` is a well-formed graph with the vertices of `g`, the counts of which are `c`. -/
structure Rewired (g g' : Multigraph) (c : Vertex → Vertex → EdgeKind → Nat) : Prop where
  wf : g'.WellFormed
  next : g'.nextVertex = g.nextVertex
  contains : ∀ v, g'.contains v = g.contains v
  count : ∀ s t kind, g'.count s t kind = c s t kind

variable {g g' : Multigraph} {s t v w : Vertex} {kind : EdgeKind}

theorem contains_iff : g.contains v = true ↔ ∃ links, g.links? v = some links := by
  rw [contains, Option.isSome_iff_exists]

theorem lt_nextVertex (h : g.contains v) : v < g.nextVertex := by
  obtain ⟨links, hl⟩ := contains_iff.1 h
  rw [links?] at hl
  by_contra hn
  rw [Array.getElem?_eq_none (by simpa [nextVertex] using hn)] at hl
  simp at hl

@[simp] theorem mem_vertices : v ∈ g.vertices ↔ g.contains v = true := by
  simp only [vertices, List.mem_filter, List.mem_range, and_iff_right_iff_imp]
  exact fun h => lt_nextVertex h

theorem pairwise_vertices : g.vertices.Pairwise (· < ·) :=
  List.pairwise_lt_range.sublist List.filter_sublist

theorem nodup_vertices : g.vertices.Nodup := pairwise_vertices.imp Nat.ne_of_lt

/-- The vertices in order are given by which ones there are. -/
theorem vertices_congr (hn : g'.nextVertex = g.nextVertex)
    (hc : ∀ v, g'.contains v = g.contains v) : g'.vertices = g.vertices := by
  rw [vertices, vertices, show g'.slots.size = g.slots.size from hn]
  exact List.filter_congr fun v _ => hc v

theorem Rewired.vertices {c} (h : Rewired g g' c) : g'.vertices = g.vertices :=
  vertices_congr h.next h.contains

/-! ### Counts -/

theorem count_of_links? {links : List Link} (h : g.links? s = some links) :
    g.count s t kind = Links.count links t kind := by
  rw [count, h, Option.getD_some]

theorem count_eq_zero_of_not_contains (h : g.contains s = false) : g.count s t kind = 0 := by
  have hn : g.links? s = none := by simpa [contains] using h
  rw [count, hn]
  rfl

/-- Edges lead to vertices that are there. -/
theorem WellFormed.contains_of_count_pos (hg : g.WellFormed) (h : 0 < g.count s t kind) :
    g.contains s ∧ g.contains t := by
  have aux {s t : Vertex} (h : 0 < g.count s t kind) : g.contains s := by
    by_contra hs
    rw [count_eq_zero_of_not_contains (by simpa using hs)] at h
    simp at h
  exact ⟨aux h, aux (hg.symm s t kind ▸ h)⟩

/-- No edge joins a vertex to itself. -/
theorem WellFormed.count_self (hg : g.WellFormed) : g.count v v kind = 0 := by
  by_contra h
  obtain ⟨links, hl⟩ := contains_iff.1 (hg.contains_of_count_pos (Nat.pos_of_ne_zero h)).1
  rw [count_of_links? hl] at h
  obtain ⟨l, hm, hn, -, -⟩ := Links.exists_of_count_pos (Nat.pos_of_ne_zero h)
  exact (hg.present hl l hm).1 hn

theorem WellFormed.ne_of_count_pos (hg : g.WellFormed) (h : 0 < g.count s t kind) : s ≠ t := by
  rintro rfl
  rw [hg.count_self] at h
  simp at h

/-- A link of a vertex is a positive count. -/
theorem WellFormed.mem_links (hg : g.WellFormed) {links : List Link}
    (hl : g.links? v = some links) {l : Link} :
    l ∈ links ↔ 0 < l.count ∧ g.count v l.node l.kind = l.count := by
  rw [count_of_links? hl]
  constructor
  · exact fun h => ⟨(hg.proper hl).pos l h, (hg.proper hl).count_of_mem h⟩
  · rintro ⟨hp, hc⟩
    obtain ⟨l', hm, hn, hk, hcount⟩ := Links.exists_of_count_pos (hc.symm ▸ hp)
    obtain rfl : l' = l := by
      cases l
      cases l'
      simp_all
    exact hm

/-! ### Reading -/

theorem links_eq {links : List Link} (h : g.links? v = some links) : g.links v = .ok links := by
  rw [Multigraph.links, h]

/-- The number of edges between two vertices. -/
def joins (g : Multigraph) (s t : Vertex) : Nat := g.count s t .plain + g.count s t .hadamard

theorem WellFormed.joins_comm (hg : g.WellFormed) (s t : Vertex) : g.joins s t = g.joins t s := by
  rw [joins, joins, hg.symm s t, hg.symm s t]

theorem joins_pos_iff : 0 < g.joins s t ↔ ∃ kind, 0 < g.count s t kind := by
  constructor
  · intro h
    rcases Nat.eq_zero_or_pos (g.count s t .plain) with hp | hp
    · exact ⟨.hadamard, by rw [joins] at h; omega⟩
    · exact ⟨.plain, hp⟩
  · rintro ⟨kind, h⟩
    cases kind <;> rw [joins] <;> omega

theorem multiplicity_eq (h : g.contains s) : g.multiplicity s t kind = .ok (g.count s t kind) := by
  obtain ⟨links, hl⟩ := contains_iff.1 h
  rw [multiplicity, links_eq hl, count_of_links? hl]
  rfl

theorem WellFormed.any_node_iff (hg : g.WellFormed) {links : List Link}
    (hl : g.links? s = some links) : (∃ l ∈ links, l.node = t) ↔ 0 < g.joins s t := by
  rw [joins_pos_iff]
  constructor
  · rintro ⟨l, hm, rfl⟩
    obtain ⟨hp, hc⟩ := (hg.mem_links hl).1 hm
    exact ⟨l.kind, hc ▸ hp⟩
  · rintro ⟨kind, h⟩
    rw [count_of_links? hl] at h
    obtain ⟨l, hm, hn, -, -⟩ := Links.exists_of_count_pos h
    exact ⟨l, hm, hn⟩

theorem WellFormed.connected_eq (hg : g.WellFormed) (h : g.contains s) :
    g.connected s t = .ok (decide (0 < g.joins s t)) := by
  obtain ⟨links, hl⟩ := contains_iff.1 h
  rw [connected, links_eq hl]
  refine congrArg Except.ok ?_
  rw [Bool.eq_iff_iff, List.any_eq_true, decide_eq_true_iff, ← hg.any_node_iff hl]
  simp

/-- The vertices with an edge to `v`, in ascending order. -/
def nearby (g : Multigraph) (v : Vertex) : List Vertex :=
  ascending (((g.links? v).getD []).map (·.node))

theorem neighborSet_eq (h : g.contains v) : g.neighborSet v = .ok (g.nearby v) := by
  obtain ⟨links, hl⟩ := contains_iff.1 h
  rw [neighborSet, links_eq hl, nearby, hl]
  rfl

theorem WellFormed.mem_nearby (hg : g.WellFormed) : w ∈ g.nearby v ↔ 0 < g.joins v w := by
  rw [nearby, mem_ascending, List.mem_map]
  cases hl : g.links? v with
  | some links => exact hg.any_node_iff hl
  | none =>
    have hc : g.contains v = false := by simp [contains, hl]
    simp [joins, count_eq_zero_of_not_contains hc]

theorem pairwise_nearby : (g.nearby v).Pairwise (· < ·) := pairwise_ascending _

theorem nodup_nearby : (g.nearby v).Nodup := pairwise_nearby.imp Nat.ne_of_lt

/-- The number of edges at a vertex. -/
theorem WellFormed.degree_eq (hg : g.WellFormed) (h : g.contains v) :
    g.degree v = .ok (∑ u ∈ Finset.range g.nextVertex, g.joins v u) := by
  obtain ⟨links, hl⟩ := contains_iff.1 h
  rw [degree, links_eq hl]
  refine congrArg Except.ok ?_
  rw [(hg.proper hl).total_eq fun l hm => lt_nextVertex (hg.present hl l hm).2]
  simp only [joins, count_of_links? hl]

theorem WellFormed.totalMultiplicity_eq (hg : g.WellFormed) (h : g.contains s) :
    g.totalMultiplicity s t = .ok (g.joins s t) := by
  obtain ⟨links, hl⟩ := contains_iff.1 h
  rw [totalMultiplicity, links_eq hl]
  refine congrArg Except.ok ?_
  set there := links.filter (·.node == t) with hthere
  have hp : Links.Proper there := (hg.proper hl).sublist List.filter_sublist
  have hcount (u : Vertex) (k : EdgeKind) :
      Links.count there u k = if u = t then Links.count links u k else 0 := by
    rw [hthere, Links.count_filter_node links (· == t)]
    simp only [beq_iff_eq]
  have hnode : ∀ l ∈ there, l.node < t + 1 := fun l hm => by
    have : l.node = t := by simpa using (List.mem_filter.1 hm).2
    exact this ▸ Nat.lt_succ_self _
  have hbelow : ∀ u ∈ Finset.range t,
      Links.count there u .plain + Links.count there u .hadamard = 0 := fun u hu => by
    have hne : u ≠ t := Nat.ne_of_lt (Finset.mem_range.1 hu)
    rw [hcount, hcount, if_neg hne, if_neg hne]
  rw [hp.total_eq hnode, Finset.sum_range_succ, Finset.sum_eq_zero hbelow, Nat.zero_add, joins,
    count_of_links? hl, count_of_links? hl, hcount, hcount, if_pos rfl, if_pos rfl]

/-- The kind of the edges between two vertices, where there are no edges of two kinds. -/
theorem WellFormed.edgeKind?_eq (hg : g.WellFormed) (h : g.contains s) :
    g.edgeKind? s t = .ok (if 0 < g.count s t .plain then some .plain
      else if 0 < g.count s t .hadamard then some .hadamard else none) := by
  obtain ⟨links, hl⟩ := contains_iff.1 h
  rw [edgeKind?, links_eq hl]
  refine congrArg Except.ok ?_
  have hk (k : EdgeKind) : (∃ l ∈ links.filter (·.node == t), l.kind = k) ↔
      0 < g.count s t k := by
    rw [count_of_links? hl, (hg.proper hl).count_pos_iff]
    constructor
    · rintro ⟨l, hm, hk⟩
      exact ⟨l, (List.mem_filter.1 hm).1, by simpa using (List.mem_filter.1 hm).2, hk⟩
    · rintro ⟨l, hm, hn, hk⟩
      exact ⟨l, List.mem_filter.2 ⟨hm, by simpa using hn⟩, hk⟩
  have hany : (links.filter (·.node == t)).any (·.kind == .plain) = true ↔
      0 < g.count s t .plain := by
    rw [← hk .plain]
    simp only [List.any_eq_true, beq_iff_eq]
  by_cases hp : 0 < g.count s t .plain
  · rw [if_pos (hany.2 hp), if_pos hp]
  · rw [if_neg (mt hany.1 hp), if_neg hp]
    cases hf : links.filter (·.node == t) with
    | nil =>
      have := (hk .hadamard).not.1 (by simp [hf])
      rw [if_neg this]
      rfl
    | cons l rest =>
      have hm : l ∈ links.filter (·.node == t) := hf ▸ List.mem_cons_self
      cases hlk : l.kind with
      | plain => exact absurd ((hk .plain).1 ⟨l, hm, hlk⟩) hp
      | hadamard =>
        rw [if_pos ((hk .hadamard).1 ⟨l, hm, hlk⟩)]
        simp [hlk]

/-! ### Editing -/

/-- Changing the links of a vertex changes nothing else. -/
theorem modifyLinks_spec {links : List Link} (h : g.links? v = some links)
    (f : List Link → List Link) : ∃ g', g.modifyLinks v f = .ok g' ∧
      g'.nextVertex = g.nextVertex ∧ g'.vertexCount = g.vertexCount ∧
      ∀ u, g'.links? u = if u = v then some (f links) else g.links? u := by
  refine ⟨{ g with slots := g.slots.setIfInBounds v (some (f links)) }, ?_, ?_, rfl, fun u => ?_⟩
  · rw [modifyLinks, links_eq h]
    rfl
  · simp [nextVertex]
  · have hv : v < g.slots.size := lt_nextVertex (contains_iff.2 ⟨_, h⟩)
    simp only [links?, Array.getElem?_setIfInBounds]
    by_cases hu : v = u
    · subst hu
      simp [hv]
    · rw [if_neg hu, if_neg (Ne.symm hu)]

/-- Changing the links of two vertices, each about the other one, when the changed lists are
    proper and have the counts asked for. -/
theorem modifyLinks_both (hg : g.WellFormed) {ls lt : List Link} (hs : g.links? s = some ls)
    (ht : g.links? t = some lt) (hne : s ≠ t) (fs ft : List Link → List Link)
    (hfs : Links.Proper (fs ls) ∧ ∀ l ∈ fs ls, l.node = t ∨ ∃ l' ∈ ls, l'.node = l.node)
    (hft : Links.Proper (ft lt) ∧ ∀ l ∈ ft lt, l.node = s ∨ ∃ l' ∈ lt, l'.node = l.node)
    {c : Vertex → Vertex → EdgeKind → Nat} (hsymm : ∀ a b k, c a b k = c b a k)
    (hcs : ∀ b k, Links.count (fs ls) b k = c s b k)
    (hct : ∀ b k, Links.count (ft lt) b k = c t b k)
    (hc : ∀ a b k, a ≠ s → a ≠ t → c a b k = g.count a b k) :
    ∃ g₁ g₂, g.modifyLinks s fs = .ok g₁ ∧ g₁.modifyLinks t ft = .ok g₂ ∧
      ∀ edges, Rewired g { g₂ with edgeCount := edges } c := by
  obtain ⟨g₁, h₁, hn₁, hv₁, hl₁⟩ := modifyLinks_spec hs fs
  have ht₁ : g₁.links? t = some lt := by rw [hl₁, if_neg (Ne.symm hne), ht]
  obtain ⟨g₂, h₂, hn₂, hv₂, hl₂⟩ := modifyLinks_spec ht₁ ft
  refine ⟨g₁, g₂, h₁, h₂, fun edges => ?_⟩
  have hlinks (u : Vertex) : Multigraph.links? { g₂ with edgeCount := edges } u =
      if u = t then some (ft lt) else if u = s then some (fs ls) else g.links? u := by
    rw [← hl₁ u]
    exact hl₂ u
  have hcontains (u : Vertex) : Multigraph.contains { g₂ with edgeCount := edges } u =
      g.contains u := by
    rw [contains, hlinks, contains]
    split
    · next hu => rw [hu, ht]; rfl
    · split
      · next hu => rw [hu, hs]; rfl
      · rfl
  have hcount (a b : Vertex) (k : EdgeKind) :
      Multigraph.count { g₂ with edgeCount := edges } a b k = c a b k := by
    rw [Multigraph.count, hlinks]
    by_cases hat : a = t
    · rw [if_pos hat, Option.getD_some, hct, hat]
    · rw [if_neg hat]
      by_cases has : a = s
      · rw [if_pos has, Option.getD_some, hcs, has]
      · rw [if_neg has, hc a b k has hat, Multigraph.count]
  have hnext : Multigraph.nextVertex { g₂ with edgeCount := edges } = g.nextVertex :=
    hn₂.trans hn₁
  refine ⟨⟨fun {u links} hu => ?_, fun {u links} hu l hl => ?_, fun a b k => ?_, ?_⟩, hnext,
    hcontains, hcount⟩
  · rw [hlinks] at hu
    split at hu
    · exact Option.some.inj hu ▸ hft.1
    · split at hu
      · exact Option.some.inj hu ▸ hfs.1
      · exact hg.proper hu
  · rw [hcontains]
    rw [hlinks] at hu
    split at hu
    · next h =>
      obtain rfl := Option.some.inj hu
      rcases hft.2 l hl with h' | ⟨l', hl', h'⟩
      · rw [h, h']
        exact ⟨hne, contains_iff.2 ⟨_, hs⟩⟩
      · rw [h, ← h']
        exact hg.present ht l' hl'
    · split at hu
      · next h =>
        obtain rfl := Option.some.inj hu
        rcases hfs.2 l hl with h' | ⟨l', hl', h'⟩
        · rw [h, h']
          exact ⟨Ne.symm hne, contains_iff.2 ⟨_, ht⟩⟩
        · rw [h, ← h']
          exact hg.present hs l' hl'
      · exact hg.present hu l hl
  · rw [hcount, hcount, hsymm]
  · rw [vertices_congr hnext hcontains, ← hg.size]
    exact hv₂.trans hv₁

/-- Whether two pairs of vertices are the same, whichever comes first. -/
def SamePair (a b s t : Vertex) : Prop := a = s ∧ b = t ∨ a = t ∧ b = s

instance (a b s t : Vertex) : Decidable (SamePair a b s t) := inferInstanceAs (Decidable (_ ∨ _))

theorem SamePair.swap_iff {a b s t : Vertex} : SamePair b a s t ↔ SamePair a b s t := by
  rw [SamePair, SamePair]
  tauto

theorem SamePair.comm_iff {a b s t : Vertex} : SamePair a b t s ↔ SamePair a b s t := or_comm

theorem SamePair.symm {a b s t : Vertex} (h : SamePair a b s t) : SamePair s t a b := by
  rw [SamePair] at h ⊢
  tauto

/-- Adding edges changes the count it names and no other. -/
theorem addEdges_spec (hg : g.WellFormed) (hs : g.contains s) (ht : g.contains t) (hne : s ≠ t)
    (kind : EdgeKind) (m : Nat) : ∃ g', g.addEdges s t kind m = .ok g' ∧
      Rewired g g' fun a b k => g.count a b k + if SamePair a b s t ∧ kind = k then m else 0 := by
  obtain ⟨ls, hls⟩ := contains_iff.1 hs
  obtain ⟨lt, hlt⟩ := contains_iff.1 ht
  rw [addEdges, if_neg hne]
  by_cases hm : m = 0
  · rw [if_pos hm]
    exact ⟨g, rfl, hg, rfl, fun _ => rfl, fun a b k => by simp [hm]⟩
  · rw [if_neg hm]
    have hpos := Nat.pos_of_ne_zero hm
    have hmem {l : Link} {ls : List Link} {u : Vertex} (hl : l ∈ Links.add ls u kind m) :
        l.node = u ∨ ∃ l' ∈ ls, l'.node = l.node :=
      (Links.mem_add hl).elim (fun h => .inr ⟨l, h, rfl⟩) fun h => .inl h.1
    obtain ⟨g₁, g₂, h₁, h₂, h⟩ := modifyLinks_both hg hls hlt hne
      (Links.add · t kind m) (Links.add · s kind m)
      (c := fun a b k => g.count a b k + if SamePair a b s t ∧ kind = k then m else 0)
      ⟨(hg.proper hls).add t kind hpos, fun _ hl => hmem hl⟩
      ⟨(hg.proper hlt).add s kind hpos, fun _ hl => hmem hl⟩
      (fun a b k => by simp only [hg.symm a b, SamePair.swap_iff (a := a) (b := b)])
      (fun b k => by
        rw [Links.count_add, count_of_links? hls]
        simp only [SamePair, hne, true_and, false_and, or_false, eq_comm])
      (fun b k => by
        rw [Links.count_add, count_of_links? hlt]
        simp only [SamePair, Ne.symm hne, true_and, false_and, false_or, eq_comm])
      (fun a b k has hat => by simp [SamePair, has, hat])
    exact ⟨_, by simp only [bind, Except.bind, h₁, h₂]; rfl, h _⟩

theorem addEdge_spec (hg : g.WellFormed) (hs : g.contains s) (ht : g.contains t) (hne : s ≠ t)
    (kind : EdgeKind) : ∃ g', g.addEdge s t kind = .ok g' ∧
      Rewired g g' fun a b k => g.count a b k + if SamePair a b s t ∧ kind = k then 1 else 0 :=
  addEdges_spec hg hs ht hne kind 1

/-- Removing edges takes off the count it names as many as there are, and no other. -/
theorem removeEdges_spec (hg : g.WellFormed) (hs : g.contains s) (kind : EdgeKind) (m : Nat) :
    ∃ g', g.removeEdges s t kind m = .ok (min (g.count s t kind) m, g') ∧
      Rewired g g' fun a b k => g.count a b k - if SamePair a b s t ∧ kind = k then m else 0 := by
  obtain ⟨ls, hls⟩ := contains_iff.1 hs
  rw [removeEdges, multiplicity_eq hs]
  simp only [bind, Except.bind]
  by_cases hm : min (g.count s t kind) m = 0
  · rw [if_pos hm, hm]
    refine ⟨g, rfl, hg, rfl, fun _ => rfl, fun a b k => ?_⟩
    split
    · next hc =>
      obtain ⟨⟨rfl, rfl⟩ | ⟨rfl, rfl⟩, rfl⟩ := hc
      · omega
      · rw [hg.symm]
        omega
    · rfl
  · rw [if_neg hm]
    have hpos : 0 < g.count s t kind := by omega
    have hne := hg.ne_of_count_pos hpos
    obtain ⟨lt, hlt⟩ := contains_iff.1 (hg.contains_of_count_pos hpos).2
    set r := min (g.count s t kind) m with hr
    obtain ⟨hps, hms, hcs⟩ := (hg.proper hls).remove t kind r
    obtain ⟨hpt, hmt, hct⟩ := (hg.proper hlt).remove s kind r
    have hmin (a b k) : g.count a b k - (if SamePair a b s t ∧ kind = k then r else 0) =
        g.count a b k - if SamePair a b s t ∧ kind = k then m else 0 := by
      split
      · next hc =>
        obtain ⟨⟨rfl, rfl⟩ | ⟨rfl, rfl⟩, rfl⟩ := hc
        · omega
        · have := hg.symm a b kind
          omega
      · rfl
    obtain ⟨g₁, g₂, h₁, h₂, hrew⟩ := modifyLinks_both hg hls hlt hne
      (Links.remove · t kind r) (Links.remove · s kind r)
      (c := fun a b k => g.count a b k - if SamePair a b s t ∧ kind = k then r else 0)
      ⟨hps, fun l hl => .inr (hms l hl)⟩ ⟨hpt, fun l hl => .inr (hmt l hl)⟩
      (fun a b k => by simp only [hg.symm a b, SamePair.swap_iff (a := a) (b := b)])
      (fun b k => by
        rw [hcs, count_of_links? hls]
        simp only [SamePair, hne, true_and, false_and, or_false, eq_comm])
      (fun b k => by
        rw [hct, count_of_links? hlt]
        simp only [SamePair, Ne.symm hne, true_and, false_and, false_or, eq_comm])
      (fun a b k has hat => by simp [SamePair, has, hat])
    refine ⟨_, by simp only [h₁, h₂]; rfl, (hrew _).wf, (hrew _).next, (hrew _).contains,
      fun a b k => ((hrew _).count a b k).trans (hmin a b k)⟩

/-- Removing every edge of a kind between two vertices. -/
theorem removeKind_spec (hg : g.WellFormed) (hs : g.contains s) (t : Vertex) (kind : EdgeKind) :
    ∃ g', g.removeKind s t kind = .ok (g.count s t kind, g') ∧
      Rewired g g' fun a b k => if SamePair a b s t ∧ kind = k then 0 else g.count a b k := by
  obtain ⟨g', hok, h⟩ := removeEdges_spec (t := t) hg hs kind (g.count s t kind)
  rw [Nat.min_self] at hok
  refine ⟨g', by rw [removeKind, multiplicity_eq hs]; exact hok, h.wf, h.next, h.contains,
    fun a b k => (h.count a b k).trans ?_⟩
  split
  · next hc =>
    obtain ⟨⟨rfl, rfl⟩ | ⟨rfl, rfl⟩, rfl⟩ := hc
    · exact Nat.sub_self _
    · rw [hg.symm a b, Nat.sub_self]
  · rfl

/-- Removing every edge between two vertices. -/
theorem disconnect_spec (hg : g.WellFormed) (hs : g.contains s) (t : Vertex) :
    ∃ g', g.disconnect s t = .ok (g.joins s t, g') ∧
      Rewired g g' fun a b k => if SamePair a b s t then 0 else g.count a b k := by
  obtain ⟨g₁, hok₁, h₁⟩ := removeKind_spec hg hs t .plain
  obtain ⟨g₂, hok₂, h₂⟩ := removeKind_spec h₁.wf ((h₁.contains s).trans hs) t .hadamard
  have hcount : g₁.count s t .hadamard = g.count s t .hadamard := by simp [h₁.count]
  refine ⟨g₂, ?_, h₂.wf, h₂.next.trans h₁.next, fun v => (h₂.contains v).trans (h₁.contains v),
    fun a b k => (h₂.count a b k).trans ?_⟩
  · rw [disconnect, hok₁]
    simp only [bind, Except.bind, hok₂, hcount]
    rfl
  · rw [h₁.count]
    cases k <;> simp

/-- Giving every edge between two vertices the same kind. -/
theorem setEdgeKind_spec (hg : g.WellFormed) (hs : g.contains s) (ht : g.contains t) (hne : s ≠ t)
    (kind : EdgeKind) : ∃ g', g.setEdgeKind s t kind = .ok g' ∧
      Rewired g g' fun a b k =>
        if SamePair a b s t then if kind = k then g.joins s t else 0 else g.count a b k := by
  obtain ⟨g₁, hok₁, h₁⟩ := disconnect_spec hg hs t
  obtain ⟨g₂, hok₂, h₂⟩ := addEdges_spec h₁.wf ((h₁.contains s).trans hs)
    ((h₁.contains t).trans ht) hne kind (g.joins s t)
  refine ⟨g₂, by rw [setEdgeKind, hok₁]; exact hok₂, h₂.wf, h₂.next.trans h₁.next,
    fun v => (h₂.contains v).trans (h₁.contains v), fun a b k => (h₂.count a b k).trans ?_⟩
  rw [h₁.count]
  by_cases hp : SamePair a b s t <;> simp [hp]

/-! ### Vertices -/

/-- `g'` is the well-formed graph `g` without `v` and its edges. -/
structure Without (g g' : Multigraph) (v : Vertex) : Prop where
  wf : g'.WellFormed
  next : g'.nextVertex = g.nextVertex
  contains : ∀ u, g'.contains u = (g.contains u && u != v)
  count : ∀ s t kind, g'.count s t kind = if s = v ∨ t = v then 0 else g.count s t kind

/-- Leaving out the links to `v` by the kinds of a list, at the vertices where they lead. -/
private def strip (v u : Vertex) (done links : List Link) : List Link :=
  done.foldl (fun ls l => if l.node = u then ls.filter fun back => !back.leadsTo v l.kind else ls)
    links

private theorem mem_strip {done links : List Link} {u : Vertex} {b : Link} :
    b ∈ strip v u done links ↔
      b ∈ links ∧ ∀ l ∈ done, l.node = u → ¬(b.node = v ∧ b.kind = l.kind) := by
  induction done generalizing links with
  | nil => simp [strip]
  | cons l rest ih =>
    rw [strip, List.foldl_cons, ← strip, ih]
    by_cases hl : l.node = u
    · rw [if_pos hl, List.mem_filter, List.forall_mem_cons, Bool.not_eq_true',
        Bool.eq_false_iff, Ne, Links.leadsTo_iff]
      tauto
    · rw [if_neg hl, List.forall_mem_cons]
      tauto

private theorem strip_sublist (done links : List Link) (u : Vertex) :
    (strip v u done links).Sublist links := by
  induction done generalizing links with
  | nil => exact .refl _
  | cons l rest ih =>
    rw [strip, List.foldl_cons, ← strip]
    refine (ih _).trans ?_
    split
    · exact List.filter_sublist
    · exact .refl _

/-- Removing a vertex strips the links of all others of those which lead back to it. -/
theorem WellFormed.exists_stripped {links : List Link} (hg : g.WellFormed)
    (hl : g.links? v = some links) : ∃ g', g.removeVertex v = .ok g' ∧
      g'.nextVertex = g.nextVertex ∧ g'.vertexCount = g.vertexCount - 1 ∧
      ∀ u, g'.links? u = if u = v then none else (g.links? u).map (strip v u links) := by
  have hlt := lt_nextVertex (contains_iff.2 ⟨links, hl⟩)
  rw [removeVertex, links_eq hl]
  refine exists_foldlM (fun (done : List Link) (g' : Multigraph) => g'.nextVertex = g.nextVertex ∧
    g'.vertexCount = g.vertexCount - 1 ∧
    ∀ u, g'.links? u = if u = v then none else (g.links? u).map (strip v u done)) links
    ⟨by simp [nextVertex], rfl, fun u => ?_⟩ fun done l rest g' hsplit hinv => ?_
  · simp only [links?, Array.getElem?_setIfInBounds]
    by_cases hu : v = u
    · subst hu
      simp [show v < g.slots.size from hlt]
    · rw [if_neg hu, if_neg (Ne.symm hu)]
      have : strip v u [] = id := rfl
      rw [this, Option.map_id, id]
  · -- the links of the vertices met so far have lost those which lead back
    obtain ⟨hn, hvc, hls⟩ := hinv
    have hmem : l ∈ links := by simp [hsplit]
    obtain ⟨hne, hthere⟩ := hg.present hl l hmem
    obtain ⟨back, hback⟩ := contains_iff.1 hthere
    have hlinks : g'.links? l.node = some (strip v l.node done back) := by
      rw [hls, if_neg hne, hback, Option.map_some]
    obtain ⟨g₁, hok, hn₁, hvc₁, hl₁⟩ :=
      modifyLinks_spec hlinks (·.filter fun back => !back.leadsTo v l.kind)
    refine ⟨{ g₁ with edgeCount := g₁.edgeCount - l.count }, by rw [hok]; rfl, hn₁.trans hn,
      hvc₁.trans hvc, fun u => (hl₁ u).trans ?_⟩
    have hstep (ls : List Link) : strip v u (done ++ [l]) ls =
        if l.node = u then (strip v u done ls).filter fun back => !back.leadsTo v l.kind
        else strip v u done ls := by
      rw [strip, List.foldl_append, ← strip]
      rfl
    by_cases hu : u = l.node
    · rw [if_pos hu, hu, if_neg hne, hback, Option.map_some, ← hu, hstep, if_pos hu.symm]
    · rw [if_neg hu, hls]
      cases hlu : g.links? u with
      | none => rfl
      | some ls =>
        rw [Option.map_some, Option.map_some, hstep, if_neg (Ne.symm hu)]

/-- Of stripped links those are left that do not lead to the vertex. -/
theorem WellFormed.count_strip {links ls : List Link} (hg : g.WellFormed)
    (hl : g.links? v = some links) (hls : g.links? s = some ls) (t : Vertex) (kind : EdgeKind) :
    Links.count (strip v s links ls) t kind = if t = v then 0 else g.count s t kind := by
  have hp : Links.Proper (strip v s links ls) :=
    (hg.proper hls).sublist (strip_sublist links ls s)
  by_cases ht : t = v
  · rw [if_pos ht]
    -- an edge back to the vertex is among its own links
    refine Links.count_eq_zero fun l hm hinv => ?_
    obtain ⟨hn, hk⟩ := hinv
    obtain ⟨hm, hall⟩ := mem_strip.1 hm
    have hpos : 0 < g.count v s l.kind := by
      rw [hg.symm, count_of_links? hls, ← ht, ← hn, (hg.proper hls).count_of_mem hm]
      exact (hg.proper hls).pos l hm
    rw [count_of_links? hl] at hpos
    obtain ⟨l', hm', hn', hk', -⟩ := Links.exists_of_count_pos hpos
    exact hall l' hm' hn' ⟨hn.trans ht, hk'.symm⟩
  · rw [if_neg ht, count_of_links? hls]
    by_cases hz : ∃ l ∈ ls, l.node = t ∧ l.kind = kind
    · obtain ⟨l, hm, rfl, rfl⟩ := hz
      rw [(hg.proper hls).count_of_mem hm]
      exact hp.count_of_mem (mem_strip.2 ⟨hm, fun _ _ _ hc => ht hc.1⟩)
    · push Not at hz
      rw [Links.count_eq_zero fun l hm hc => hz l hm hc.1 hc.2,
        Links.count_eq_zero fun l hm hc => hz l (mem_strip.1 hm).1 hc.1 hc.2]

/-- Removing a vertex removes its edges, and no other. -/
theorem removeVertex_spec (hg : g.WellFormed) (hv : g.contains v) :
    ∃ g', g.removeVertex v = .ok g' ∧ Without g g' v := by
  obtain ⟨links, hl⟩ := contains_iff.1 hv
  obtain ⟨g', hok, hn', hvc', hl'⟩ := hg.exists_stripped hl
  have hcontains (u : Vertex) : g'.contains u = (g.contains u && u != v) := by
    rw [Multigraph.contains, hl', Multigraph.contains]
    by_cases hu : u = v <;> simp [hu]
  have hcount (a b : Vertex) (k : EdgeKind) :
      g'.count a b k = if a = v ∨ b = v then 0 else g.count a b k := by
    rw [Multigraph.count, hl']
    by_cases ha : a = v
    · simp [ha, Links.count]
    rw [if_neg ha]
    cases hla : g.links? a with
    | none => simp [Multigraph.count, hla, Links.count]
    | some ls =>
      rw [Option.map_some, Option.getD_some, hg.count_strip hl hla]
      simp only [ha, false_or]
  refine ⟨g', hok, ⟨fun {u ls} hu => ?_, fun {u ls} hu l hm => ?_, fun a b k => ?_, ?_⟩, hn',
    hcontains, hcount⟩
  · rw [hl'] at hu
    split at hu
    · simp at hu
    · obtain ⟨ls', hls', rfl⟩ := Option.map_eq_some_iff.1 hu
      exact (hg.proper hls').sublist (strip_sublist links ls' u)
  · have hpos : 0 < g'.count u l.node l.kind := by
      rw [hl'] at hu
      split at hu
      · simp at hu
      · next hne =>
        obtain ⟨ls', hls', rfl⟩ := Option.map_eq_some_iff.1 hu
        have hp := (hg.proper hls').sublist (strip_sublist links ls' u (v := v))
        rw [Multigraph.count, hl', if_neg hne, hls', Option.map_some, Option.getD_some,
          hp.count_of_mem hm]
        exact hp.pos l hm
    rw [hcount] at hpos
    split at hpos
    · simp at hpos
    · next hc =>
      have := hg.contains_of_count_pos hpos
      rw [hcontains, this.2]
      push Not at hc
      exact ⟨(hg.ne_of_count_pos hpos).symm, by simp [hc.2]⟩
  · rw [hcount, hcount, hg.symm a b]
    simp only [or_comm]
  · rw [hvc', hg.size]
    have hperm : g'.vertices = g.vertices.filter (· != v) := by
      rw [vertices, vertices, List.filter_filter, show g'.slots.size = g.slots.size from hn']
      exact List.filter_congr fun u _ => by rw [hcontains, Bool.and_comm]
    rw [hperm, ← List.Nodup.erase_eq_filter nodup_vertices,
      List.length_erase_of_mem (mem_vertices.2 hv)]

/-- The graph with one more vertex is well-formed, and the vertex has no edges. -/
theorem WellFormed.addVertex (hg : g.WellFormed) : g.addVertex.2.WellFormed := by
  have hcontains (u : Vertex) : g.contains u → g.addVertex.2.contains u := by
    intro hu
    rw [Multigraph.contains, links?_addVertex]
    split
    · rfl
    · exact hu
  refine ⟨fun {u ls} hu => ?_, fun {u ls} hu l hm => ?_, fun s t k => ?_, ?_⟩
  · rw [links?_addVertex] at hu
    split at hu
    · exact Option.some.inj hu ▸ Links.proper_nil
    · exact hg.proper hu
  · rw [links?_addVertex] at hu
    split at hu
    · rw [← Option.some.inj hu] at hm
      simp at hm
    · exact (hg.present hu l hm).imp_right (hcontains _)
  · rw [count_addVertex, count_addVertex, hg.symm]
  · have hnew : g.addVertex.2.vertices = g.vertices ++ [g.nextVertex] := by
      have hself : g.addVertex.2.contains g.nextVertex = true := by simp [Multigraph.contains]
      rw [vertices, show g.addVertex.2.slots.size = g.nextVertex + 1 from Array.size_push _,
        List.range_succ, List.filter_append, List.filter_singleton, hself]
      refine congrArg (· ++ _) (List.filter_congr fun u hu => ?_)
      rw [Multigraph.contains, links?_addVertex, if_neg (Nat.ne_of_lt (List.mem_range.1 hu)),
        Multigraph.contains]
    rw [hnew, List.length_append, ← hg.size]
    rfl

@[simp] theorem contains_addVertex (g : Multigraph) (v : Vertex) :
    g.addVertex.2.contains v = (decide (v = g.nextVertex) || g.contains v) := by
  rw [contains, links?_addVertex, contains]
  by_cases h : v = g.nextVertex <;> simp [h]

@[simp] theorem nextVertex_addVertex (g : Multigraph) :
    g.addVertex.2.nextVertex = g.nextVertex + 1 := Array.size_push _

@[simp] theorem fst_addVertex (g : Multigraph) : g.addVertex.1 = g.nextVertex := rfl

end ZXRewriting.Multigraph

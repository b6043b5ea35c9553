import ZXRewriting.Proofs.Multigraph.WellFormed

/-!
# Loops over edges

The edges of a well-formed multigraph come up once each (`WellFormed.pairwise_edges`), and a loop
that changes one count at a time, at a different place in each round, changes each of these counts
by itself (`exists_foldlM_edges`).
-/

namespace ZXRewriting.Multigraph

variable {g g' : Multigraph} {s v : Vertex} {l : Link}

/-- Whether two places, each given by two vertices and a kind, are those of the same edges. -/
def SameEdge (a b : Vertex × Vertex × EdgeKind) : Prop :=
  SamePair a.1 a.2.1 b.1 b.2.1 ∧ a.2.2 = b.2.2

/-- Changes the edges at one place: between two vertices, of one kind. -/
def changeAt (e : Vertex × Vertex × EdgeKind) (n : ℕ → ℕ)
    (c : Vertex → Vertex → EdgeKind → ℕ) (a b : Vertex) (k : EdgeKind) : ℕ :=
  if SamePair a b e.1 e.2.1 ∧ e.2.2 = k then n (c a b k) else c a b k

/-- A loop, each round of which changes the edges at a place of its own. -/
theorem exists_foldlM_edges {α : Type} {f : Multigraph → α → Except Fault Multigraph}
    {p : α → Vertex × Vertex × EdgeKind} {n : α → ℕ → ℕ} (xs : List α) (hg : g.WellFormed)
    (hplaces : xs.Pairwise fun x y => ¬SameEdge (p x) (p y))
    (step : ∀ x ∈ xs, ∀ g₁ : Multigraph, g₁.WellFormed → (∀ v, g₁.contains v = g.contains v) →
      ∃ g₂, f g₁ x = .ok g₂ ∧ Rewired g₁ g₂ (changeAt (p x) (n x) g₁.count)) :
    ∃ g', xs.foldlM f g = .ok g' ∧ Rewired g g' g'.count ∧
      (∀ x ∈ xs, ∀ a b k, SameEdge (a, b, k) (p x) → g'.count a b k = n x (g.count a b k)) ∧
      ∀ a b k, (∀ x ∈ xs, ¬SameEdge (a, b, k) (p x)) → g'.count a b k = g.count a b k := by
  induction xs generalizing g with
  | nil =>
    refine ⟨g, rfl, ⟨hg, rfl, fun _ => rfl, fun _ _ _ => rfl⟩, fun x hx => ?_, fun _ _ _ _ => rfl⟩
    exact absurd hx List.not_mem_nil
  | cons x rest ih =>
    obtain ⟨g₁, hok, h₁⟩ := step x List.mem_cons_self g hg fun _ => rfl
    obtain ⟨hx, hrest⟩ := List.pairwise_cons.1 hplaces
    obtain ⟨g', hok', h', hat, hoff⟩ := ih h₁.wf hrest fun y hy g₂ hg₂ hc =>
      step y (List.mem_cons_of_mem x hy) g₂ hg₂ fun v => (hc v).trans (h₁.contains v)
    have hcount {a b : Vertex} {k : EdgeKind} (h : ¬SameEdge (a, b, k) (p x)) :
        g₁.count a b k = g.count a b k :=
      (h₁.count a b k).trans (if_neg fun hs => h ⟨hs.1, hs.2.symm⟩)
    refine ⟨g', by rw [List.foldlM_cons, hok]; exact hok', ⟨h'.wf, h'.next.trans h₁.next,
      fun v => (h'.contains v).trans (h₁.contains v), fun _ _ _ => rfl⟩, fun y hy a b k hs => ?_,
      fun a b k hs => ?_⟩
    · rcases List.mem_cons.1 hy with rfl | hy
      · -- the later rounds are at other places
        rw [hoff a b k fun z hz hsz => hx z hz ?_, h₁.count, changeAt, if_pos ⟨hs.1, hs.2.symm⟩]
        obtain ⟨hp, hk⟩ := hs
        obtain ⟨hp', hk'⟩ := hsz
        refine ⟨?_, hk.symm.trans hk'⟩
        simp only [SamePair] at hp hp' ⊢
        grind
      · rw [hat y hy a b k hs, hcount fun hsx => hx y hy ?_]
        obtain ⟨hp, hk⟩ := hs
        obtain ⟨hp', hk'⟩ := hsx
        refine ⟨?_, hk'.symm.trans hk⟩
        simp only [SamePair] at hp hp' ⊢
        grind
    · rw [hoff a b k fun y hy => hs y (List.mem_cons_of_mem x hy),
        hcount (hs x List.mem_cons_self)]

theorem Rewired.congr {c c' : Vertex → Vertex → EdgeKind → ℕ} (h : Rewired g g' c)
    (hc : ∀ a b k, c a b k = c' a b k) : Rewired g g' c' :=
  ⟨h.wf, h.next, h.contains, fun a b k => (h.count a b k).trans (hc a b k)⟩

/-- Giving the edges at a vertex the other kind. -/
theorem WellFormed.exists_flip (hg : g.WellFormed) (hv : g.contains v) :
    ∃ links cut g', g.links v = .ok links ∧
      links.foldlM (fun (graph : Multigraph) (l : Link) => do
        return (← graph.removeEdges v l.node l.kind l.count).2) g = .ok cut ∧
      links.foldlM (fun (graph : Multigraph) (l : Link) =>
        graph.addEdges v l.node l.kind.opposite l.count) cut = .ok g' ∧
      Rewired g g' fun a b k => g.count a b (if a = v ∨ b = v then k.opposite else k) := by
  obtain ⟨links, hl⟩ := contains_iff.1 hv
  have hmem {l : Link} : l ∈ links ↔ 0 < l.count ∧ g.count v l.node l.kind = l.count :=
    hg.mem_links hl
  have hkeyed := (hg.proper hl).keyed
  have hsame {x y : Vertex} {k k' : EdgeKind} (h : SameEdge (v, x, k) (v, y, k')) :
      x = y ∧ k = k' := by
    obtain ⟨⟨-, h⟩ | ⟨h, h'⟩, hk⟩ := h
    · exact ⟨h, hk⟩
    · exact ⟨h'.trans h, hk⟩
  obtain ⟨cut, hcut, hc, hat, hoff⟩ := exists_foldlM_edges (g := g)
    (f := fun graph l => do return (← graph.removeEdges v l.node l.kind l.count).2)
    (p := fun l => (v, l.node, l.kind)) (n := fun l c => c - l.count) links hg
    (hkeyed.imp fun h hs => h (hsame hs)) fun l hl g₁ hg₁ hc₁ => by
      obtain ⟨g₂, hok, h₂⟩ := removeEdges_spec (t := l.node) hg₁ ((hc₁ v).trans hv) l.kind l.count
      refine ⟨g₂, by rw [hok]; rfl, h₂.congr fun a b k => ?_⟩
      rw [changeAt]
      split <;> rfl
  have hopposite : Function.Injective EdgeKind.opposite := fun k k' h => by
    cases k <;> cases k' <;> first | rfl | cases h
  obtain ⟨g', hok', h', hat', hoff'⟩ := exists_foldlM_edges (g := cut)
    (f := fun graph l => graph.addEdges v l.node l.kind.opposite l.count)
    (p := fun l => (v, l.node, l.kind.opposite)) (n := fun l c => c + l.count) links hc.wf
    (hkeyed.imp fun h hs => h ⟨(hsame hs).1, hopposite (hsame hs).2⟩) fun l hlmem g₁ hg₁ hc₁ => by
      obtain ⟨hne, hnode⟩ := hg.present hl l hlmem
      obtain ⟨g₂, hok, h₂⟩ := addEdges_spec hg₁
        ((hc₁ v).trans ((hc.contains v).trans hv))
        ((hc₁ l.node).trans ((hc.contains l.node).trans hnode)) (Ne.symm hne) l.kind.opposite l.count
      refine ⟨g₂, hok, h₂.congr fun a b k => ?_⟩
      rw [changeAt]
      split <;> rfl
  -- at first no edges are left at the vertex
  have hzero (x : Vertex) (k : EdgeKind) : cut.count v x k = 0 := by
    rcases Nat.eq_zero_or_pos (g.count v x k) with h0 | hpos
    · rw [hoff v x k fun l hl hs => ?_, h0]
      obtain ⟨hpos, hcount⟩ := hmem.1 hl
      obtain ⟨rfl, rfl⟩ := hsame hs
      omega
    · rw [hat ⟨x, k, g.count v x k⟩ (hmem.2 ⟨hpos, rfl⟩) v x k ⟨.inl ⟨rfl, rfl⟩, rfl⟩, Nat.sub_self]
  have hflipped (x : Vertex) (k : EdgeKind) : g'.count v x k = g.count v x k.opposite := by
    rcases Nat.eq_zero_or_pos (g.count v x k.opposite) with h0 | hpos
    · rw [hoff' v x k fun l hl hs => ?_, hzero, h0]
      obtain ⟨hpos, hcount⟩ := hmem.1 hl
      obtain ⟨rfl, rfl⟩ := hsame hs
      rw [EdgeKind.opposite_opposite] at h0
      omega
    · rw [hat' ⟨x, k.opposite, g.count v x k.opposite⟩ (hmem.2 ⟨hpos, rfl⟩) v x k
        ⟨.inl ⟨rfl, rfl⟩, (EdgeKind.opposite_opposite k).symm⟩, hzero, Nat.zero_add]
  refine ⟨links, cut, g', links_eq hl, hcut, hok', h'.wf, h'.next.trans hc.next,
    fun u => (h'.contains u).trans (hc.contains u), fun a b k => ?_⟩
  by_cases ha : a = v
  · rw [if_pos (.inl ha), ha]
    exact hflipped b k
  · by_cases hb : b = v
    · rw [if_pos (.inr hb), hb, h'.wf.symm, hg.symm a v]
      exact hflipped a k
    · have hnot {l : Link} {k k' : EdgeKind} : ¬SameEdge (a, b, k) (v, l.node, k') := by
        rintro ⟨⟨h, -⟩ | ⟨-, h⟩, -⟩
        · exact ha h
        · exact hb h
      rw [if_neg (not_or.2 ⟨ha, hb⟩), hoff' a b k fun l _ => hnot, hoff a b k fun l _ => hnot]

/-- The edges in ascending order of their lower end. -/
theorem WellFormed.mem_edges (hg : g.WellFormed) : (s, l) ∈ g.edges ↔
    s < l.node ∧ 0 < l.count ∧ g.count s l.node l.kind = l.count := by
  rw [edges, List.mem_flatMap]
  constructor
  · rintro ⟨v, hv, hl⟩
    obtain ⟨l', hl', heq⟩ := List.mem_map.1 hl
    obtain ⟨rfl, rfl⟩ := Prod.mk.inj heq
    obtain ⟨links, hlinks⟩ := contains_iff.1 (mem_vertices.1 hv)
    rw [hlinks, Option.getD_some] at hl'
    obtain ⟨hmem, hlt⟩ := List.mem_filter.1 hl'
    exact ⟨of_decide_eq_true hlt, (hg.mem_links hlinks).1 hmem⟩
  · rintro ⟨hlt, hpos, hcount⟩
    have hs := (hg.contains_of_count_pos (hcount ▸ hpos)).1
    obtain ⟨links, hlinks⟩ := contains_iff.1 hs
    refine ⟨s, mem_vertices.2 hs, List.mem_map.2 ⟨l, List.mem_filter.2 ⟨?_, decide_eq_true hlt⟩, rfl⟩⟩
    rw [hlinks, Option.getD_some]
    exact (hg.mem_links hlinks).2 ⟨hpos, hcount⟩

/-- Each edge comes up once. -/
theorem WellFormed.pairwise_edges (hg : g.WellFormed) : g.edges.Pairwise fun x y =>
    ¬SameEdge (x.1, x.2.node, x.2.kind) (y.1, y.2.node, y.2.kind) := by
  rw [edges, List.pairwise_flatMap]
  refine ⟨fun v hv => ?_, pairwise_vertices.imp fun {v v'} hlt x hx y hy => ?_⟩
  · obtain ⟨links, hlinks⟩ := contains_iff.1 (mem_vertices.1 hv)
    rw [hlinks, Option.getD_some, List.pairwise_map]
    refine ((hg.proper hlinks).keyed.filter _).imp_of_mem fun {a b} ha hb hne hs => hne ?_
    obtain ⟨⟨-, hnode⟩ | ⟨hnode, -⟩, hkind⟩ := hs
    · exact ⟨hnode, hkind⟩
    · exact absurd hnode (Nat.ne_of_lt (of_decide_eq_true (List.mem_filter.1 hb).2))
  · -- an edge comes up at its lower end
    obtain ⟨a, ha, rfl⟩ := List.mem_map.1 hx
    obtain ⟨b, hb, rfl⟩ := List.mem_map.1 hy
    have hb' : v' < b.node := of_decide_eq_true (List.mem_filter.1 hb).2
    rintro ⟨⟨heq, -⟩ | ⟨heq, -⟩, -⟩
    · exact Nat.ne_of_lt hlt heq
    · change v = b.node at heq
      exact Nat.lt_asymm hlt (heq ▸ hb')

end ZXRewriting.Multigraph

import ZXRewriting.Proofs.Semantics.Amplitude

/-!
# Deciding the graph-like form

Whether a graph is well-formed, a diagram coherent and a coherent diagram graph-like can be decided:
vertices are below the next one, so finitely many of them have to be looked at.
-/

namespace ZXRewriting

/-! ### Graphs -/

instance (links : List Link) : Decidable (Links.Proper links) :=
  decidable_of_iff
    ((links.Pairwise fun a b => ¬(a.node = b.node ∧ a.kind = b.kind)) ∧ ∀ l ∈ links, 0 < l.count)
    ⟨fun h => ⟨h.1, h.2⟩, fun h => ⟨h.keyed, h.pos⟩⟩

namespace Multigraph

variable {g : Multigraph}

/-- What has to be looked at to see that a graph is well-formed. -/
theorem wellFormed_iff : g.WellFormed ↔
    (∀ v < g.nextVertex, ∀ links ∈ g.links? v, Links.Proper links ∧
      ∀ l ∈ links, l.node ≠ v ∧ g.contains l.node) ∧
    (∀ s < g.nextVertex, ∀ t < g.nextVertex, g.count s t .plain = g.count t s .plain ∧
      g.count s t .hadamard = g.count t s .hadamard) ∧ g.vertexCount = g.vertices.length := by
  constructor
  · intro h
    exact ⟨fun v _ links hl => ⟨h.proper hl, h.present hl⟩,
      fun s _ t _ => ⟨h.symm s t _, h.symm s t _⟩, h.size⟩
  · rintro ⟨hlinks, hsymm, hsize⟩
    have hlt {v : Vertex} {links : List Link} (hl : g.links? v = some links) :
        v < g.nextVertex := lt_nextVertex (contains_iff.2 ⟨links, hl⟩)
    -- edges lead from and to vertices that are there
    have hends {s t : Vertex} {k : EdgeKind} (h : 0 < g.count s t k) :
        s < g.nextVertex ∧ t < g.nextVertex := by
      cases hl : g.links? s with
      | none =>
        rw [count, hl] at h
        exact absurd h (Nat.lt_irrefl 0)
      | some links =>
        rw [count_of_links? hl] at h
        obtain ⟨l, hm, rfl, -⟩ := Links.exists_of_count_pos h
        exact ⟨hlt hl, lt_nextVertex ((hlinks s (hlt hl) links hl).2 l hm).2⟩
    refine ⟨fun hl => (hlinks _ (hlt hl) _ hl).1, fun hl => (hlinks _ (hlt hl) _ hl).2,
      fun s t k => ?_, hsize⟩
    by_cases h : s < g.nextVertex ∧ t < g.nextVertex
    · cases k
      · exact (hsymm s h.1 t h.2).1
      · exact (hsymm s h.1 t h.2).2
    · have hzero {a b : Vertex} (hab : ¬(a < g.nextVertex ∧ b < g.nextVertex)) :
          g.count a b k = 0 := Nat.eq_zero_of_not_pos fun hpos => hab (hends hpos)
      rw [hzero h, hzero fun h' => h h'.symm]

instance : Decidable g.WellFormed := decidable_of_iff _ wellFormed_iff.symm

end Multigraph

/-! ### Diagrams -/

namespace Diagram

variable {d : Diagram} {D : ℕ}

theorem coherent_iff : d.Coherent ↔ d.graph.WellFormed ∧
    (∀ v ∈ d.kinds.keys, d.graph.contains v) ∧ ∀ v ∈ d.graph.vertices, d.web.Has v := by
  have hkeys (v : Vertex) : d.web.Has v ↔ v ∈ d.kinds.keys := by
    rw [Std.ExtTreeMap.mem_keys, Std.ExtTreeMap.mem_iff_isSome_getElem?]
    rfl
  constructor
  · intro h
    exact ⟨h.wf, fun v hv => (h.has v).1 ((hkeys v).2 hv),
      fun v hv => (h.has v).2 (Multigraph.mem_vertices.1 hv)⟩
  · rintro ⟨hwf, hin, hout⟩
    exact ⟨hwf, fun v => ⟨fun h => hin v ((hkeys v).1 h),
      fun h => hout v (Multigraph.mem_vertices.2 h)⟩⟩

instance : Decidable d.Coherent := decidable_of_iff _ coherent_iff.symm

theorem onGrid_iff : d.web.OnGrid D ↔ ∀ v ∈ d.phases.keys, (d.phase v).OnGrid D := by
  refine ⟨fun h v _ => h v, fun h v => ?_⟩
  by_cases hv : v ∈ d.phases.keys
  · exact h v hv
  · rw [Std.ExtTreeMap.mem_keys, Std.ExtTreeMap.mem_iff_isSome_getElem?, Bool.not_eq_true,
      Option.isSome_eq_false_iff, Option.isNone_iff_eq_none] at hv
    change (d.phase v).OnGrid D
    rw [Diagram.phase, hv]
    exact Phase.onGrid_zero

instance : Decidable (d.web.OnGrid D) :=
  haveI : DecidablePred fun p : Phase => p.OnGrid D := fun p =>
    inferInstanceAs (Decidable (p.den ∣ D))
  decidable_of_iff _ onGrid_iff.symm

end Diagram

/-! ### Graph-like diagrams -/

namespace Web

variable {w : Web}

/-- What has to be looked at to see that a valid web is graph-like. -/
theorem Valid.inForm_iff (hw : w.Valid) : w.InForm ↔
    (∀ v < w.next, (w.Has v → w.IsZ v ∨ w.IsEnd v) ∧ (w.IsEnd v → w.degree v = 1) ∧
      (w.kind v = some .input → v ∈ w.inputs) ∧ (w.kind v = some .output → v ∈ w.outputs)) ∧
    (∀ s < w.next, ∀ t < w.next, (w.IsZ s → w.IsZ t → w.count s t .plain = 0) ∧ w.joins s t ≤ 1) ∧
    (∀ v ∈ w.inputs, w.kind v = some .input) ∧ (∀ v ∈ w.outputs, w.kind v = some .output) ∧
    w.inputs.Nodup ∧ w.outputs.Nodup := by
  constructor
  · intro h
    exact ⟨fun v _ => ⟨h.simple.colour v, h.degree_end v, (h.mem_inputs v).2, (h.mem_outputs v).2⟩,
      fun s _ t _ => ⟨h.simple.plain s t, h.simple.single s t⟩, fun v => (h.mem_inputs v).1,
      fun v => (h.mem_outputs v).1, h.inputs_nodup, h.outputs_nodup⟩
  · rintro ⟨hspiders, hedges, hin, hout, hinputs, houtputs⟩
    have hlt {v : Vertex} {k : SpiderKind} (hk : w.kind v = some k) : v < w.next :=
      hw.lt v (by rw [Has, hk]; rfl)
    refine ⟨⟨hw, fun v hv => (hspiders v (hw.lt v hv)).1 hv,
      fun s t hs ht => (hedges s (hw.lt s hs.has) t (hw.lt t ht.has)).1 hs ht, fun s t => ?_⟩,
      fun v hv => (hspiders v (hw.lt v hv.has)).2.1 hv, hinputs, houtputs,
      fun v => ⟨hin v, fun hk => (hspiders v (hlt hk)).2.2.1 hk⟩,
      fun v => ⟨hout v, fun hk => (hspiders v (hlt hk)).2.2.2 hk⟩⟩
    by_cases h : w.Has s ∧ w.Has t
    · exact (hedges s (hw.lt s h.1) t (hw.lt t h.2)).2
    · exact Nat.le_of_not_lt fun hpos => h (hw.has_of_joins (Nat.lt_of_succ_lt hpos))

end Web

namespace GraphLike

variable {g : GraphLike}

set_option synthInstance.maxSize 512 in
instance : Decidable (g.Coherent ∧ g.web.InForm) :=
  if h : g.Coherent then
    decidable_of_iff _ ((h.valid.inForm_iff).symm.trans (and_iff_right h).symm)
  else isFalse fun h' => h h'.1

/-- Three spiders on a wire, the middle one with a quarter turn. -/
def quarterTurn : GraphLike where
  graph := ⟨#[some [⟨2, .plain, 1⟩], some [⟨4, .plain, 1⟩], some [⟨0, .plain, 1⟩, ⟨3, .hadamard, 1⟩],
    some [⟨2, .hadamard, 1⟩, ⟨4, .hadamard, 1⟩], some [⟨3, .hadamard, 1⟩, ⟨1, .plain, 1⟩]], 5, 4⟩
  kinds := .ofList [(0, .input), (1, .output), (2, .z), (3, .z), (4, .z)] compare
  phases := .ofList [(3, .reduce 1 2)] compare
  layout := .new 1
  inputs := [0]
  outputs := [1]
  carriers := ∅
  master := .blank 1

theorem quarterTurn_inForm : quarterTurn.Coherent ∧ quarterTurn.web.InForm := by decide +kernel

theorem quarterTurn_onGrid : quarterTurn.web.OnGrid 2 := by decide +kernel

end GraphLike

/-- A Hadamard box between an input and two outputs. -/
def tripleBox : Diagram where
  graph := ⟨#[some [⟨3, .plain, 1⟩], some [⟨3, .plain, 1⟩], some [⟨3, .plain, 1⟩],
    some [⟨0, .plain, 1⟩, ⟨1, .plain, 1⟩, ⟨2, .plain, 1⟩]], 4, 3⟩
  kinds := .ofList [(0, .input), (1, .output), (2, .output), (3, .box)] compare
  phases := ∅
  layout := .new 1
  inputs := [0]
  outputs := [1, 2]
  carriers := ∅

theorem tripleBox_coherent : tripleBox.Coherent := by decide +kernel

theorem tripleBox_degree_end (v : Vertex) (hv : tripleBox.web.IsEnd v) :
    tripleBox.web.degree v = 1 := by
  have hall : ∀ v < 4, tripleBox.web.IsEnd v → tripleBox.web.degree v = 1 := by decide +kernel
  exact hall v (tripleBox_coherent.valid.lt v hv.has) hv

end ZXRewriting

import ZXRewriting.Proofs.GraphLike.Shift

/-!
# Rewriting graph-like diagrams

The rules that remove spiders change edges and phases inside a diagram only (`Web.Within`), so they
keep the graph-like form. `Web.Rewrites` is what all of them have in common: the diagram stays
graph-like with the same inputs and outputs, and denotes the same up to a scalar. Here are local
complementation, pivoting, and pivoting after moving off what is in the way, on webs and as
programs.
-/

namespace ZXRewriting

open Function (update update_self update_of_ne)
open Multigraph (SamePair)

namespace Web

variable {w w' w'' : Web} {s t u v : Vertex} {vs : List Vertex} {p q : Phase} {D : ℕ}

/-! ### Edits inside -/

/-- Only phases, and edges between spiders inside, are different. -/
structure Within (w w' : Web) : Prop where
  next : w'.next = w.next
  kind : w'.kind = w.kind
  count : ∀ v, w.IsEnd v → w'.count v = w.count v
  inputs : w'.inputs = w.inputs
  outputs : w'.outputs = w.outputs
  carrier : w'.carrier = w.carrier

namespace Within

theorem refl (w : Web) : Within w w := ⟨rfl, rfl, fun _ _ => rfl, rfl, rfl, rfl⟩

theorem isEnd (h : Within w w') : w'.IsEnd v ↔ w.IsEnd v := by rw [IsEnd, h.kind, IsEnd]

theorem isZ (h : Within w w') : w'.IsZ v ↔ w.IsZ v := by rw [IsZ, h.kind, IsZ]

theorem joins (h : Within w w') (hv : w.IsEnd v) (u : Vertex) : w'.joins v u = w.joins v u := by
  rw [Web.joins, h.count v hv, Web.joins]

theorem trans (h : Within w w') (h' : Within w' w'') : Within w w'' where
  next := h'.next.trans h.next
  kind := h'.kind.trans h.kind
  count v hv := (h'.count v (h.isEnd.2 hv)).trans (h.count v hv)
  inputs := h'.inputs.trans h.inputs
  outputs := h'.outputs.trans h.outputs
  carrier := h'.carrier.trans h.carrier

theorem setPhase (w : Web) (v : Vertex) (p : Phase) : Within w (w.setPhase v p) :=
  ⟨rfl, rfl, fun _ _ => rfl, rfl, rfl, rfl⟩

theorem toggle (hs : w.IsZ s) (ht : w.IsZ t) : Within w (w.toggle s t) := by
  rw [Web.toggle]
  split
  · exact setPhase w s _
  · refine ⟨rfl, rfl, fun v hv => ?_, rfl, rfl, rfl⟩
    have (u : Vertex) : ¬SamePair v u s t := by
      rintro (⟨rfl, -⟩ | ⟨rfl, -⟩)
      · exact hs.not_isEnd hv
      · exact ht.not_isEnd hv
    funext u k
    simp only [setCount, if_neg (this u)]

theorem toggleAll (hs : w.IsZ s) (hvs : ∀ t ∈ vs, w.IsZ t) : Within w (w.toggleAll s vs) := by
  induction vs generalizing w with
  | nil => exact refl w
  | cons t rest ih =>
    exact (toggle hs (hvs t List.mem_cons_self)).trans
      (ih (isZ_toggle.2 hs) fun u hu => isZ_toggle.2 (hvs u (List.mem_cons_of_mem t hu)))

theorem complement (hvs : ∀ t ∈ vs, w.IsZ t) : Within w (Web.complement p vs w) := by
  induction vs generalizing w with
  | nil => exact refl w
  | cons n rest ih =>
    have hrest : ∀ t ∈ rest, w.IsZ t := fun t ht => hvs t (List.mem_cons_of_mem n ht)
    exact ((setPhase w n _).trans (toggleAll (hvs n List.mem_cons_self) hrest)).trans
      (ih fun t ht => isZ_toggleAll.2 (hrest t ht))

theorem joinAll {others : Vertex → List Vertex} (hvs : ∀ n ∈ vs, w.IsZ n)
    (hothers : ∀ n ∈ vs, ∀ m ∈ others n, w.IsZ m) : Within w (Web.joinAll q others w vs) := by
  induction vs generalizing w with
  | nil => exact refl w
  | cons n rest ih =>
    exact ((setPhase w n _).trans (toggleAll (hvs n List.mem_cons_self)
      (hothers n List.mem_cons_self))).trans
      (ih (fun t ht => isZ_toggleAll.2 (hvs t (List.mem_cons_of_mem n ht)))
        fun t ht m hm => isZ_toggleAll.2 (hothers t (List.mem_cons_of_mem n ht) m hm))

theorem addToPhases (w : Web) (vs : List Vertex) (p : Phase) : Within w (w.addToPhases vs p) := by
  induction vs generalizing w with
  | nil => exact refl w
  | cons n rest ih => exact (setPhase w n _).trans (ih _)

/-- Edits inside keep the graph-like form if the web stays simple. -/
theorem inForm (h : Within w w') (hw : w.InForm) (hs : w'.Simple) : w'.InForm where
  simple := hs
  degree_end v hv := by
    rw [← hw.degree_end v (h.isEnd.1 hv), degree, degree, h.next]
    exact Finset.sum_congr rfl fun u _ => h.joins (h.isEnd.1 hv) u
  inputs_nodup := h.inputs ▸ hw.inputs_nodup
  outputs_nodup := h.outputs ▸ hw.outputs_nodup
  mem_inputs v := by
    rw [h.inputs, h.kind]
    exact hw.mem_inputs v
  mem_outputs v := by
    rw [h.outputs, h.kind]
    exact hw.mem_outputs v

end Within

/-- Removing a spider that is joined to spiders inside only. -/
theorem InForm.remove (hw : w.InForm) (hv : w.IsZ v) (h : ∀ u, w.IsEnd u → w.joins u v = 0) :
    (w.remove v).InForm := by
  have hold {u : Vertex} (hu : (w.remove v).IsEnd u) : u ≠ v ∧ w.IsEnd u := by
    rw [IsEnd, kind_remove, Function.update_apply] at hu
    split at hu
    · simp at hu
    · next hne => exact ⟨hne, hu⟩
  have hkind {k : SpiderKind} (hk : k.isBoundary) (u : Vertex) :
      w.kind u = some k ↔ (w.remove v).kind u = some k := by
    rw [kind_remove, Function.update_apply]
    split
    · next he =>
      rw [he, show w.kind v = some .z from hv]
      refine ⟨fun h => ?_, fun h => by simp at h⟩
      rw [← Option.some.inj h] at hk
      simp [SpiderKind.isBoundary] at hk
    · rfl
  refine ⟨hw.simple.remove v, fun u hu => ?_, hw.inputs_nodup, hw.outputs_nodup,
    fun u => (hw.mem_inputs u).trans (hkind rfl u), fun u => (hw.mem_outputs u).trans (hkind rfl u)⟩
  obtain ⟨hne, he⟩ := hold hu
  rw [← hw.degree_end u he, degree, degree]
  refine Finset.sum_congr rfl fun x _ => ?_
  by_cases hx : x = v
  · rw [hx, h u he, joins]
    simp [Web.remove]
  · simp [joins, Web.remove, hne, hx]

/-- Removing a spider, after edits inside a web in which it was joined to spiders inside only. -/
theorem Within.remove (h : Within w w') (hw : w.InForm) (hs : w'.Simple) (hv : w.IsZ v)
    (hns : ∀ u ∈ w.nearby v, w.IsZ u) : (w'.remove v).InForm := by
  refine (h.inForm hw hs).remove (h.isZ.2 hv) fun u hu => ?_
  rw [h.joins (h.isEnd.1 hu)]
  refine Nat.eq_zero_of_not_pos fun hpos => ?_
  rw [← hw.simple.valid.mem_nearby, hw.simple.valid.mem_nearby_comm] at hpos
  exact (hns u hpos).not_isEnd (h.isEnd.1 hu)

theorem InForm.localComplement (hw : w.InForm) (hv : w.IsZ v) (hns : ∀ u ∈ w.nearby v, w.IsZ u) :
    (w.localComplement v).InForm :=
  (Within.complement hns).remove hw (Simple.complement hns hw.simple) hv hns

/-- Removing two spiders, after edits inside a web in which they were joined to spiders inside
    only. -/
theorem Within.remove_remove (h : Within w w') (hw : w.InForm) (hs : w'.Simple) (hv : w.IsZ v)
    (hu : w.IsZ u) (hne : u ≠ v) (hnv : ∀ x ∈ w.nearby v, w.IsZ x)
    (hnu : ∀ x ∈ w.nearby u, w.IsZ x) : ((w'.remove v).remove u).InForm := by
  refine (h.remove hw hs hv hnv).remove ?_ fun x hx => ?_
  · rw [IsZ, kind_remove, update_of_ne hne]
    exact h.isZ.2 hu
  · have he : w.IsEnd x := by
      rw [IsEnd, kind_remove, Function.update_apply] at hx
      split at hx
      · simp at hx
      · exact h.isEnd.1 hx
    have hzero : w.joins x u = 0 := by
      refine Nat.eq_zero_of_not_pos fun hpos => ?_
      rw [← hw.simple.valid.mem_nearby, hw.simple.valid.mem_nearby_comm] at hpos
      exact (hnu x hpos).not_isEnd he
    have := h.joins he u
    rw [hzero, Web.joins] at this
    rw [Web.joins]
    simp only [Web.remove]
    split
    · rfl
    · exact this

theorem InForm.pivot (hw : w.InForm) (h : w.Pivotable v u) : (w.pivot v u).InForm := by
  have hwithin := (Within.joinAll (q := w.phase u) h.left_nearby h.partners).trans
    (Within.addToPhases _ (w.nearby u) (w.phase v))
  have hsimple := h.simple_joined (w.phase u) (w.nearby u) (w.phase v) hw.simple
  exact hwithin.remove_remove hw hsimple h.left h.right (h.ne hw.simple.valid).symm h.left_nearby
    h.right_nearby

/-! ### Rewriting -/

/-- A web is graph-like, with the inputs and outputs of another one. -/
structure Keeps (w w' : Web) : Prop where
  form : w'.InForm
  inputs : w'.inputs = w.inputs
  outputs : w'.outputs = w.outputs

theorem Keeps.refl (hw : w.InForm) : Keeps w w := ⟨hw, rfl, rfl⟩

theorem Keeps.trans (h : Keeps w w') (h' : Keeps w' w'') : Keeps w w'' :=
  ⟨h'.form, h'.inputs.trans h.inputs, h'.outputs.trans h.outputs⟩

theorem InForm.keeps_localComplement (hw : w.InForm) (hv : w.IsZ v)
    (hns : ∀ u ∈ w.nearby v, w.IsZ u) : Keeps w (w.localComplement v) :=
  ⟨hw.localComplement hv hns, (Within.complement hns).inputs, (Within.complement hns).outputs⟩

theorem InForm.keeps_pivot (hw : w.InForm) (h : w.Pivotable v u) : Keeps w (w.pivot v u) := by
  have hwithin := (Within.joinAll (q := w.phase u) h.left_nearby h.partners).trans
    (Within.addToPhases _ (w.nearby u) (w.phase v))
  exact ⟨hw.pivot h, hwithin.inputs, hwithin.outputs⟩

/-- Clearing a spider. -/
theorem InForm.keeps_clear (hw : w.InForm) (hv : w.IsZ v) :
    Keeps w (w.clear v) ∧ Frame v w (w.clear v) ∧ (w.clear v).Cleared v := by
  obtain ⟨hform₁, hframe₁, hphase₁⟩ := hw.shiftPhase hv
  have hv₁ := hframe₁.isZ hv
  obtain ⟨hform₂, hframe₂, -, hnear₂⟩ := hform₁.shiftBoundaries hv₁
  have hframe := hframe₁.trans hframe₂
  refine ⟨⟨hform₂, hframe.inputs, hframe.outputs⟩, hframe, hframe₂.isZ hv₁, ?_, hnear₂⟩
  rw [clear, hform₁.phase_shiftBoundaries hv₁]
  exact hphase₁

/-- Two joined spiders can be pivoted after clearing both. -/
theorem InForm.keeps_frontierPivot (hw : w.InForm) (hv : w.IsZ v) (hu : w.IsZ u)
    (hj : u ∈ w.nearby v) : Keeps w (((w.clear v).clear u).pivot v u) ∧ (w.clear v).InForm ∧
      (w.clear v).IsZ u ∧ Cleared ((w.clear v).clear u) v ∧ Cleared ((w.clear v).clear u) u ∧
      ((w.clear v).clear u).InForm ∧ ((w.clear v).clear u).Pivotable v u := by
  have hne : v ≠ u := fun h => hw.simple.valid.notMem_nearby_self (h ▸ hj)
  obtain ⟨h₁, hf₁, hc₁⟩ := hw.keeps_clear hv
  have hu₁ := hf₁.isZ hu
  obtain ⟨h₂, hf₂, hc₂⟩ := h₁.form.keeps_clear hu₁
  have hc := hf₂.cleared hc₁ hne
  have hjoined : u ∈ ((w.clear v).clear u).nearby v := by
    rw [hf₂.nearby v hc₁.isZ hne]
    exact hf₁.keep u hu hj
  have hpivot : ((w.clear v).clear u).Pivotable v u :=
    ⟨hc.isZ, hc₂.isZ, hjoined, hc.nearby, hc₂.nearby⟩
  exact ⟨(h₁.trans h₂).trans (h₂.form.keeps_pivot hpivot), h₁.form, hu₁, hc, hc₂, h₂.form, hpivot⟩

/-- A web comes from another one by rewriting, with the phases on a grid: it is graph-like with the
    same inputs and outputs, and denotes the same up to a scalar. -/
structure Rewrites (D : ℕ) (w w' : Web) : Prop extends Keeps w w' where
  grid : w'.OnGrid D
  amplitude : Proportional w.amplitude w'.amplitude

theorem Rewrites.refl (hw : w.InForm) (hg : w.OnGrid D) : Rewrites D w w :=
  ⟨.refl hw, hg, .refl _⟩

theorem Rewrites.trans (h : Rewrites D w w') (h' : Rewrites D w' w'') : Rewrites D w w'' :=
  ⟨h.toKeeps.trans h'.toKeeps, h'.grid, h.amplitude.trans h'.amplitude⟩

section

variable (hw : w.InForm) (hD : Phase.IsGrid D) (hg : w.OnGrid D)
include hw hD hg

theorem InForm.rewrites_localComplement (hv : w.IsZ v) (hns : ∀ u ∈ w.nearby v, w.IsZ u)
    (hp : (w.phase v).isProperClifford) : Rewrites D w (w.localComplement v) where
  toKeeps := hw.keeps_localComplement hv hns
  grid := (hg.complement hD (hg v)).remove v
  amplitude := hw.simple.amplitude_localComplement hD hg hv hns hp rfl

theorem InForm.rewrites_pivot (h : w.Pivotable v u) (hv : (w.phase v).isPauli)
    (hu : (w.phase u).isPauli) : Rewrites D w (w.pivot v u) where
  toKeeps := hw.keeps_pivot h
  grid := (((hg.joinAll hD (hg u)).addToPhases hD (hg v) _).remove v).remove u
  amplitude := hw.simple.amplitude_pivot hD hg h hv hu rfl rfl

omit hD in
theorem InForm.rewrites_shiftPhase (hv : w.IsZ v) : Rewrites D w (w.shiftPhase v) := by
  obtain ⟨hform, hframe, -⟩ := hw.shiftPhase hv
  refine ⟨⟨hform, hframe.inputs, hframe.outputs⟩, hg.shiftPhase, ?_⟩
  by_cases hp : (w.phase v).isPauli
  · rw [Web.shiftPhase, if_pos hp]
  · exact hw.amplitude_shiftPhase hv hp (fun _ _ _ => rfl) rfl rfl rfl

omit hD in
theorem InForm.rewrites_clear (hv : w.IsZ v) : Rewrites D w (w.clear v) := by
  obtain ⟨hform₁, hframe₁, -⟩ := hw.shiftPhase hv
  obtain ⟨-, -, hamp₂, -⟩ := hform₁.shiftBoundaries (hframe₁.isZ hv)
  exact ⟨(hw.keeps_clear hv).1, hg.shiftPhase.shiftBoundaries,
    (hw.rewrites_shiftPhase hg hv).amplitude.trans hamp₂⟩

/-- Pivoting two joined spiders after clearing both. -/
theorem InForm.rewrites_frontierPivot (hv : w.IsZ v) (hu : w.IsZ u) (hj : u ∈ w.nearby v) :
    Rewrites D w (((w.clear v).clear u).pivot v u) := by
  obtain ⟨-, hform₁, hu₁, hc, hc₂, hform₂, hpivot⟩ := hw.keeps_frontierPivot hv hu hj
  have h₁ := hw.rewrites_clear hg hv
  have h₂ := hform₁.rewrites_clear h₁.grid hu₁
  exact (h₁.trans h₂).trans (hform₂.rewrites_pivot hD h₂.grid hpivot hc.phase hc₂.phase)

end

end Web

/-! ### The program -/

namespace GraphLike

variable {g : GraphLike} {s t u v : Vertex} {kind : EdgeKind} {D : ℕ}

open Web

/-- Moving one end away from a spider. -/
theorem Gives.shiftBoundary (hg : g.Coherent) (hv : g.web.IsZ v) (ht : g.web.IsEnd t) :
    Gives (g.shiftBoundary v t) (Web.shiftBoundary v g.web t) g.master := by
  have hval := hg.valid
  have hne : v ≠ t := fun h => hv.not_isEnd (h ▸ ht)
  rw [GraphLike.shiftBoundary, Diagram.isBoundary_eq ht.has, edgeKind?_eq hg hv.has,
    Web.shiftBoundary]
  simp only [ht, decide_true]
  cases hk : g.web.link v t with
  | none => exact Gives.ok hg
  | some kind =>
    have hvn := hval.ne_next hv.has
    have htn := hval.ne_next ht.has
    have hweb := web_addSpider (q := g.qubit? v) (c := g.column? v) g .zero
    have hnew : (g.web.addSpider .zero).Has g.web.next := by
      rw [Has, kind_addSpider, update_self]
      rfl
    have hold {u : Vertex} (hu : g.web.Has u) : (g.web.addSpider .zero).Has u := by
      rw [Has, kind_addSpider, update_of_ne (hval.ne_next hu)]
      exact hu
    have h₁ := Gives.addEdge (Coherent.addSpider (q := g.qubit? v) (c := g.column? v) hg
      .zero) (s := v) (t := g.web.next) (hweb ▸ hold hv.has) (hweb ▸ hnew) hvn .hadamard
    rw [hweb, master_addSpider] at h₁
    refine h₁.bind fun g₁ hg₁ hw₁ hm₁ => ?_
    have hhas₁ {u : Vertex} (hu : (g.web.addSpider .zero).Has u) : g₁.web.Has u := hw₁ ▸ hu
    have h₂ := Gives.addEdge hg₁ (hhas₁ hnew) (hhas₁ (hold ht.has)) htn.symm kind.opposite
    refine h₂.bind fun g₂ hg₂ hw₂ hm₂ => ?_
    have hhas₂ {u : Vertex} (hu : (g.web.addSpider .zero).Has u) : g₂.web.Has u :=
      hw₂ ▸ hhas₁ hu
    have h₃ := Gives.removeEdge hg₂ (hhas₂ (hold hv.has)) t
    rw [hw₂, hw₁, hm₂, hm₁] at h₃
    have hend : ¬SamePair g.web.next t v t := by
      rw [SamePair]
      tauto
    have hstart : ¬SamePair v g.web.next v t := by
      rw [SamePair]
      tauto
    rwa [cut_addEdges hend, cut_addEdges hstart] at h₃

/-- Moving all ends away from a spider. -/
theorem Gives.shiftBoundaries (hg : g.Coherent) (hw : g.web.InForm) (hv : g.web.IsZ v) :
    Gives (g.shiftBoundaries v) (g.web.shiftBoundaries v) g.master := by
  rw [GraphLike.shiftBoundaries, boundaryNeighbors_eq hg hv.has]
  refine (Gives.foldlM (F := Web.shiftBoundary v) (fun w => w.InForm ∧ Frame v g.web w)
    (g.web.ends v) hg ⟨hw, .refl v _⟩ fun t ht g₁ hg₁ hinv => ?_).1
  obtain ⟨hw₁, hf₁⟩ := hinv
  have hend : g.web.IsEnd t := by simpa using (List.mem_filter.1 ht).2
  obtain ⟨hw₂, hf₂, -⟩ := hw₁.shiftBoundary (hf₁.isZ hv) (hf₁.isEnd hend)
  exact ⟨Gives.shiftBoundary hg₁ (hf₁.isZ hv) (hf₁.isEnd hend), hw₂, hf₁.trans hf₂⟩

/-- Moving a phase onto a leaf. -/
theorem Gives.shiftPhase (hg : g.Coherent) (hv : g.web.IsZ v) :
    Gives (g.shiftPhase v) (g.web.shiftPhase v) g.master := by
  have hval := hg.valid
  rw [GraphLike.shiftPhase, Web.shiftPhase]
  change Gives (if (g.phase v).isPauli = true then _ else _)
    (if (g.phase v).isPauli = true then _ else _) _
  split
  · exact Gives.ok hg
  · have hvn := hval.ne_next hv.has
    have hnn : g.web.next ≠ g.web.next + 1 := Nat.ne_of_lt (Nat.lt_succ_self _)
    -- the two new spiders, and the one without its phase
    obtain ⟨g₁, hg₁⟩ : ∃ g₁, g₁ = (((g.addSpider .zero none (g.column? v)).2.addSpider (g.phase v)
      none (g.column? v)).2.setPhase v .zero) := ⟨_, rfl⟩
    have hweb : g₁.web =
        ((g.web.addSpider .zero).addSpider (g.web.phase v)).setPhase v .zero := by
      rw [hg₁, web_setPhase, web_addSpider, web_addSpider]
      rfl
    have hmaster : g₁.master = g.master := by
      rw [hg₁]
      rfl
    have hcoh : g₁.Coherent := by
      rw [hg₁]
      exact Coherent.setPhase (Coherent.addSpider (Coherent.addSpider hg .zero) _) _ _
    have hhas {u : Vertex} (hu : g.web.Has u ∨ u = g.web.next ∨ u = g.web.next + 1) :
        g₁.web.Has u := by
      rw [hweb, Has, kind_setPhase, kind_addSpider, kind_addSpider, Function.update_apply,
        Function.update_apply]
      split
      · rfl
      split
      · rfl
      · next h₁ h₂ => exact hu.resolve_right fun h => h.elim h₂ h₁
    have hadd := Gives.addEdge hcoh (hhas (.inl hv.has)) (hhas (.inr (.inl rfl))) hvn .hadamard
    have hlast : Gives (do
        let g₂ ← g₁.addEdge v g.web.next .hadamard
        let g₃ ← g₂.addEdge g.web.next (g.web.next + 1) .hadamard
        return g₃.moveCarrier v (g.web.next + 1))
        (((g₁.web.addEdges v g.web.next .hadamard 1).addEdges g.web.next (g.web.next + 1)
          .hadamard 1).moveCarrier v (g.web.next + 1)) g.master := by
      refine hadd.bind fun g₂ hg₂ hw₂ hm₂ => ?_
      have hadd' := Gives.addEdge hg₂ (s := g.web.next) (t := g.web.next + 1)
        (hw₂ ▸ hhas (.inr (.inl rfl))) (hw₂ ▸ hhas (.inr (.inr rfl))) hnn .hadamard
      refine hadd'.bind fun g₃ hg₃ hw₃ hm₃ => ?_
      exact Gives.pure (Coherent.moveCarrier hg₃ v _)
        (by rw [web_moveCarrier, hw₃, hw₂]) (by rw [master_moveCarrier, hm₃, hm₂, hmaster])
    have hleaf : ((g.addSpider .zero none (g.column? v)).2.addSpider (g.phase v) none
        (g.column? v)).1 = g.web.next + 1 := by
      rw [fst_addSpider, web_addSpider, next_addSpider]
    rw [hweb, hg₁, ← hleaf] at hlast
    rw [← hleaf]
    exact hlast

/-- Clearing a spider. -/
theorem Gives.clear (hg : g.Coherent) (hw : g.web.InForm) (hv : g.web.IsZ v) :
    Gives (g.clear v) (g.web.clear v) g.master := by
  obtain ⟨hform, hframe, -⟩ := hw.shiftPhase hv
  refine (Gives.shiftPhase hg hv).bind fun g₁ hg₁ hw₁ hm₁ => ?_
  have h := Gives.shiftBoundaries hg₁ (hw₁ ▸ hform) (hw₁ ▸ hframe.isZ hv)
  rwa [hw₁, hm₁] at h

theorem isPivotable_eq (hg : g.Coherent) (hw : g.web.InForm) (hv : g.web.Has v) :
    g.isPivotable v = .ok (decide (g.web.IsZ v)) := by
  have hval := hw.simple.valid
  rw [isPivotable, isZ_eq hv]
  refine (and_eq (b := true) fun hz => ?_).trans (by rw [Bool.and_true])
  have hz' : g.web.IsZ v := of_decide_eq_true hz
  rw [incidentEdges_eq hg hw.simple.noParallel hv]
  refine (allM_eq (p := fun _ => true) fun e hx => ?_).trans (by simp)
  obtain ⟨x, k⟩ := e
  obtain ⟨hnear, hlink⟩ := mem_incident.1 hx
  have hhas := hval.has_of_mem_nearby hnear
  change (do
    let neighbor ← g.kind x
    return (neighbor == .z && k == .hadamard) || neighbor.isBoundary) = Except.ok true
  rcases hw.simple.colour x hhas with hx' | hx'
  · rw [Diagram.kind_eq hx']
    rw [hw.simple.link_eq hz' hx', if_pos (hval.mem_nearby.1 hnear)] at hlink
    obtain rfl := Option.some.inj hlink
    rfl
  · obtain ⟨k', hk'⟩ := Option.isSome_iff_exists.1 hhas
    rw [IsEnd, hk'] at hx'
    rw [Diagram.kind_eq hk']
    have hb : k'.isBoundary = true := hx'
    change Except.ok (_ || k'.isBoundary) = _
    rw [hb, Bool.or_true]

theorem checkFrontierPivot_eq (hg : g.Coherent) (hw : g.web.InForm) (hv : g.web.Has v)
    (hu : g.web.Has u) : g.checkFrontierPivot v u =
      .ok (decide ((v ≠ u ∧ g.web.link v u = some .hadamard) ∧ g.web.IsZ v ∧ g.web.IsZ u ∧
        (g.phase v).isPauli ∧ g.web.ends v ≠ [])) := by
  rw [checkFrontierPivot, hadamardJoined_eq hg hv, isPivotable_eq hg hw hv, isPivotable_eq hg hw hu,
    boundaryNeighbors_eq hg hv]
  change (Except.ok _ <&&> (Except.ok _ <&&> (Except.ok _ <&&>
    (Except.ok _ <&&> Except.ok _)))) = _
  rw [and_eq (b := decide (g.web.IsZ v) && (decide (g.web.IsZ u) && ((g.phase v).isPauli &&
    !(g.web.ends v).isEmpty))) fun _ => ?_]
  · congr 1
    cases g.web.ends v <;> simp [Bool.and_assoc, Bool.decide_and]
  · rw [and_eq fun _ => and_eq fun _ => and_eq fun _ => rfl]

/-- Pivoting two joined spiders after clearing both. -/
theorem Gives.frontierPivot (hg : g.Coherent) (hw : g.web.InForm) (hv : g.web.IsZ v)
    (hu : g.web.IsZ u) (hj : u ∈ g.web.nearby v) :
    Gives (g.frontierPivot v u) (((g.web.clear v).clear u).pivot v u) g.master := by
  obtain ⟨-, hform₁, hu₁, -, -, hform₂, hpivot⟩ := hw.keeps_frontierPivot hv hu hj
  rw [GraphLike.frontierPivot]
  refine (Gives.clear hg hw hv).bind fun g₁ hg₁ hw₁ hm₁ => ?_
  have hclear := Gives.clear hg₁ (hw₁ ▸ hform₁) (hw₁ ▸ hu₁)
  rw [hw₁, hm₁] at hclear
  refine hclear.bind fun g₂ hg₂ hw₂ hm₂ => ?_
  have h := Gives.pivot hg₂ (hw₂ ▸ hform₂.simple) (hw₂ ▸ hpivot)
  rwa [hw₂, hm₂] at h

end GraphLike

end ZXRewriting

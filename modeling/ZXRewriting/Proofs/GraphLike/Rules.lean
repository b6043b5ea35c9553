import ZXRewriting.Proofs.GraphLike.Decide
import ZXRewriting.Proofs.GraphLike.Steps

/-!
# The rules for graph-like diagrams are sound

At each match that its check accepts, a rule gives a graph-like diagram with the same inputs and
outputs that denotes the same linear map up to a scalar (`GraphLike.denotes_of_check`). So does the pivot at
the frontier of an extraction.
-/

namespace ZXRewriting

open Function (update update_self update_of_ne)

namespace Web

variable {w w' : Web} {u v : Vertex} {D : ℕ}

theorem InForm.rewrites_shiftBoundaries (hw : w.InForm) (hg : w.OnGrid D) (hu : w.IsZ u) :
    Rewrites D w (w.shiftBoundaries u) := by
  obtain ⟨hform, hframe, hamp, -⟩ := hw.shiftBoundaries hu
  exact ⟨⟨hform, hframe.inputs, hframe.outputs⟩, hg.shiftBoundaries, hamp⟩

/-- Pivoting an inner spider and one that was moved away from what is in the way. -/
theorem Rewrites.pivot (h : Rewrites D w w') (hD : Phase.IsGrid D) (hready : Readied u w w')
    (hv : w.IsInner v) (hj : u ∈ w.nearby v) (hpv : (w.phase v).isPauli)
    (hne : v ≠ u) : Rewrites D w (w'.pivot v u) := by
  have hpv' : (w'.phase v).isPauli := by
    rw [hready.frame.phase v hv.1.1 hne]
    exact hpv
  exact h.trans (h.form.rewrites_pivot hD h.grid (hready.pivotable hv hj hne) hpv' hready.phase)

/-- Steps keep what the diagram denotes up to a scalar. -/
theorem Step.rewrites (h : Step w w') (hw : w.InForm) (hD : Phase.IsGrid D) (hg : w.OnGrid D) :
    Rewrites D w w' := by
  have hne {v u : Vertex} (hj : u ∈ w.nearby v) : v ≠ u :=
    fun h => hw.simple.valid.notMem_nearby_self (h ▸ hj)
  cases h with
  | localComplement hv hp =>
    exact hw.rewrites_localComplement hD hg hv.1.1 (fun u hu => (hv.2 u hu).1) hp
  | pivot hv hu hj hpv hpu =>
    exact (Rewrites.refl hw hg).pivot hD (hw.readied hu hpu) hv hj hpv (hne hj)
  | pivotBoundary hv hu hj hpv hpu =>
    exact (hw.rewrites_shiftBoundaries hg hu.1).pivot hD (hw.readied_shiftBoundaries hu.1 hpu) hv hj
      hpv (hne hj)
  | pivotGadget hv hu hj hpv =>
    exact (hw.rewrites_shiftPhase hg hu.1.1).pivot hD (hw.readied_shiftPhase hu) hv hj hpv (hne hj)
  | pivotBoundaryGadget hv hu hj hpv =>
    have h₁ := hw.rewrites_shiftBoundaries hg hu.1
    obtain ⟨hform₁, hframe₁, -⟩ := hw.shiftBoundaries hu.1
    exact (h₁.trans (hform₁.rewrites_shiftPhase h₁.grid (hframe₁.isZ hu.1))).pivot hD
      (hw.readied_shiftPhase_shiftBoundaries hu.1) hv hj hpv (hne hj)
  | identity h => exact h.rewrites hw hD hg
  | gadgetFusion h hc hd => exact h.rewrites hw hD hg hc hd

end Web

/-! ### The program -/

namespace GraphLike

variable {g : GraphLike} {u v : Vertex} {w : Web} {m : Diagram} {D : ℕ}

open Web

/-- Two diagrams with the same inputs and outputs that denote the same linear map up to a scalar. -/
def SameMap (g g' : GraphLike) : Prop :=
  g'.inputs = g.inputs ∧ g'.outputs = g.outputs ∧ ∃ c : ℂ, c ≠ 0 ∧
    g.linearMap g.outputs.length g.inputs.length =
      c • g'.linearMap g.outputs.length g.inputs.length

theorem sameMap_of_proportional {g' : GraphLike} (hin : g'.inputs = g.inputs)
    (hout : g'.outputs = g.outputs) (h : Proportional g.web.amplitude g'.web.amplitude) :
    g.SameMap g' := by
  obtain ⟨c, hc, hamp⟩ := h
  refine ⟨hin, hout, c, hc, ?_⟩
  ext y x
  rw [linearMap, linearMap, hin, hout, Matrix.smul_apply, smul_eq_mul]
  exact hamp _

theorem sameMap_of_rewrites {g' : GraphLike} (h : Rewrites D g.web g'.web) : g.SameMap g' :=
  sameMap_of_proportional h.inputs h.outputs h.amplitude

/-- A program ends with a diagram that another one rewrites to. -/
def RewritesTo (D : ℕ) (g : GraphLike) (x : Except Fault GraphLike) : Prop :=
  ∃ g', x = .ok g' ∧ g'.Coherent ∧ Rewrites D g.web g'.web

theorem Gives.rewritesTo {x : Except Fault GraphLike} (h : Gives x w m)
    (hr : Rewrites D g.web w) : RewritesTo D g x := by
  obtain ⟨g', hx, hg', rfl, -⟩ := h
  exact ⟨g', hx, hg', hr⟩

/-! ### Rewriting at a match -/

section

variable (hD : Phase.IsGrid D) (hg : g.Coherent) (hw : g.web.InForm) (hgrid : g.web.OnGrid D)
include hD hg hw hgrid

theorem rewritesTo_frontierPivot (h : g.checkFrontierPivot v u = .ok true) :
    RewritesTo D g (g.frontierPivot v u) := by
  obtain ⟨hv, hu, hj⟩ := of_checkFrontierPivot hg hw h
  exact (Gives.frontierPivot hg hw hv hu hj).rewritesTo
    (hw.rewrites_frontierPivot hD hgrid hv hu hj)

/-- Each rule, at a match that its check accepts. -/
theorem rewritesTo_apply {rule : GraphRule} {s : Match} (h : rule.check g s = .ok true) :
    RewritesTo D g (rule.apply g s) := by
  obtain ⟨w, m, hgives, hstep⟩ := gives_of_check hg hw h
  exact hgives.rewritesTo (hstep.rewrites hw hD hgrid)

/-- A rule for graph-like diagrams, at a match that its check accepts, gives a graph-like diagram
    that denotes the same linear map up to a scalar. So does a pivot at the frontier. -/
theorem denotes_of_check :
    (∀ (rule : GraphRule) (s : Match), rule.check g s = .ok true →
      ∃ g', rule.apply g s = .ok g' ∧ g'.Coherent ∧ g'.web.InForm ∧ g'.web.OnGrid D ∧
        g.SameMap g') ∧
    ∀ v u, g.checkFrontierPivot v u = .ok true →
      ∃ g', g.frontierPivot v u = .ok g' ∧ g'.Coherent ∧ g'.web.InForm ∧ g'.web.OnGrid D ∧
        g.SameMap g' := by
  have hsame {x : Except Fault GraphLike} (h : RewritesTo D g x) :
      ∃ g', x = .ok g' ∧ g'.Coherent ∧ g'.web.InForm ∧ g'.web.OnGrid D ∧ g.SameMap g' := by
    obtain ⟨g', hx, hg', hr⟩ := h
    exact ⟨g', hx, hg', hr.form, hr.grid, sameMap_of_rewrites hr⟩
  exact ⟨fun rule s h => hsame (rewritesTo_apply hD hg hw hgrid h),
    fun v u h => hsame (rewritesTo_frontierPivot hD hg hw hgrid h)⟩

end

/-- Removing the quarter turn between two spiders. -/
theorem quarterTurn_denotes : GraphRule.localComplement.check quarterTurn [3] = .ok true ∧
    ∃ g', GraphRule.localComplement.apply quarterTurn [3] = .ok g' ∧ g'.Coherent ∧
      g'.web.InForm ∧ g'.web.OnGrid 2 ∧ quarterTurn.SameMap g' := by
  have hcheck : GraphRule.localComplement.check quarterTurn [3] = .ok true := by decide +kernel
  have hD : Phase.IsGrid 2 := ⟨by decide, by decide⟩
  exact ⟨hcheck, (denotes_of_check hD quarterTurn_inForm.1 quarterTurn_inForm.2
    quarterTurn_onGrid).1 _ _ hcheck⟩

end GraphLike

end ZXRewriting

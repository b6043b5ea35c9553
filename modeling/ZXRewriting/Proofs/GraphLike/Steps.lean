import ZXRewriting.Proofs.GraphLike.Checks

/-!
# What a rule does at a match

The edits of webs that the seven rules come down to (`Web.Step`), each with what the check of the
rule has found out. At a match that its check accepts, a rule gives a diagram whose web is one such
step away (`GraphLike.gives_of_check`), and a step leads from one graph-like web to another
(`Web.Step.keeps`).
-/

namespace ZXRewriting

namespace Web

variable {w w' : Web} {u v : Vertex}

/-- An inner spider and one that was moved away from the ends of the wires can be pivoted. -/
theorem Frame.pivotable (h : Frame u w w') (hv : w.IsInner v) (hu : w.IsZ u)
    (hj : u ∈ w.nearby v) (hne : v ≠ u) (hnear : ∀ x ∈ w'.nearby u, w'.IsZ x) :
    w'.Pivotable v u := by
  refine ⟨h.isZ hv.1.1, h.isZ hu, ?_, fun x hx => ?_, hnear⟩
  · rw [h.nearby v hv.1.1 hne]
    exact hj
  · rw [h.nearby v hv.1.1 hne] at hx
    exact h.isZ (hv.2 x hx).1

/-- A web in which what is in the way of pivoting at `u` has been moved off. -/
structure Readied (u : Vertex) (w w' : Web) : Prop where
  form : w'.InForm
  frame : Frame u w w'
  isZ : w.IsZ u
  nearby : ∀ x ∈ w'.nearby u, w'.IsZ x
  phase : (w'.phase u).isPauli

theorem Readied.pivotable (h : Readied u w w') (hv : w.IsInner v) (hj : u ∈ w.nearby v)
    (hne : v ≠ u) : w'.Pivotable v u := h.frame.pivotable hv h.isZ hj hne h.nearby

/-- Nothing is in the way at an inner spider with a phase of 0 or pi. -/
theorem InForm.readied (hw : w.InForm) (hu : w.IsInner u) (hp : (w.phase u).isPauli) :
    Readied u w w :=
  ⟨hw, .refl u w, hu.1.1, fun x hx => (hu.2 x hx).1, hp⟩

theorem InForm.readied_shiftBoundaries (hw : w.InForm) (hu : w.IsZ u) (hp : (w.phase u).isPauli) :
    Readied u w (w.shiftBoundaries u) := by
  obtain ⟨hform, hframe, -, hnear⟩ := hw.shiftBoundaries hu
  refine ⟨hform, hframe, hu, hnear, ?_⟩
  rw [hw.phase_shiftBoundaries hu]
  exact hp

theorem InForm.readied_shiftPhase (hw : w.InForm) (hu : w.IsInner u) :
    Readied u w (w.shiftPhase u) := by
  obtain ⟨hform, hframe, hp⟩ := hw.shiftPhase hu.1.1
  exact ⟨hform, hframe, hu.1.1, hw.isZ_nearby_shiftPhase hu.1.1 fun x hx => (hu.2 x hx).1, hp⟩

theorem InForm.readied_shiftPhase_shiftBoundaries (hw : w.InForm) (hu : w.IsZ u) :
    Readied u w ((w.shiftBoundaries u).shiftPhase u) := by
  obtain ⟨hform₁, hframe₁, -, hnear₁⟩ := hw.shiftBoundaries hu
  have hu₁ := hframe₁.isZ hu
  obtain ⟨hform, hframe₂, hp⟩ := hform₁.shiftPhase hu₁
  exact ⟨hform, hframe₁.trans hframe₂, hu, hform₁.isZ_nearby_shiftPhase hu₁ hnear₁, hp⟩

/-- What the rules do to a web, and where. -/
inductive Step (w : Web) : Web → Prop
  /-- Removing an inner spider with a phase of a quarter turn. -/
  | localComplement {v : Vertex} (hv : w.IsInner v) (hp : (w.phase v).isProperClifford) :
    Step w (w.localComplement v)
  /-- Removing two joined inner spiders with phases 0 or pi. -/
  | pivot {v u : Vertex} (hv : w.IsInner v) (hu : w.IsInner u) (hj : u ∈ w.nearby v)
    (hpv : (w.phase v).isPauli) (hpu : (w.phase u).isPauli) : Step w (w.pivot v u)
  /-- The same with the second one at the boundary. -/
  | pivotBoundary {v u : Vertex} (hv : w.IsInner v) (hu : w.AtBoundary u) (hj : u ∈ w.nearby v)
    (hpv : (w.phase v).isPauli) (hpu : (w.phase u).isPauli) :
    Step w ((w.shiftBoundaries u).pivot v u)
  /-- The same with a phase of the second one in the way. -/
  | pivotGadget {v u : Vertex} (hv : w.IsInner v) (hu : w.IsInner u) (hj : u ∈ w.nearby v)
    (hpv : (w.phase v).isPauli) : Step w ((w.shiftPhase u).pivot v u)
  /-- The same with the second one at the boundary and its phase in the way. -/
  | pivotBoundaryGadget {v u : Vertex} (hv : w.IsInner v) (hu : w.AtBoundary u)
    (hj : u ∈ w.nearby v) (hpv : (w.phase v).isPauli) :
    Step w (((w.shiftBoundaries u).shiftPhase u).pivot v u)
  /-- Fusing the neighbours of a spider. -/
  | identity {v keep gone : Vertex} (h : w.Fusable v keep gone) : Step w (w.fuse v keep gone)
  /-- Fusing two gadgets. -/
  | gadgetFusion {c d l m : Vertex} (h : w.SameSupport c d l m) (hc : (w.phase c).isPauli)
    (hd : (w.phase d).isPauli) : Step w (w.fuseGadgets c d l m)

/-- Steps keep the graph-like form. -/
theorem Step.keeps (h : Step w w') (hw : w.InForm) : Keeps w w' := by
  have hpivot {w₁ : Web} {v u : Vertex} (h : Readied u w w₁) (hv : w.IsInner v)
      (hj : u ∈ w.nearby v) : Keeps w (w₁.pivot v u) :=
    Keeps.trans ⟨h.form, h.frame.inputs, h.frame.outputs⟩
      (h.form.keeps_pivot (h.pivotable hv hj (hw.simple.valid.ne_of_mem_nearby hj)))
  cases h with
  | localComplement hv _ => exact hw.keeps_localComplement hv.1.1 fun u hu => (hv.2 u hu).1
  | pivot hv hu hj _ hpu => exact hpivot (hw.readied hu hpu) hv hj
  | pivotBoundary hv hu hj _ hpu => exact hpivot (hw.readied_shiftBoundaries hu.1 hpu) hv hj
  | pivotGadget hv hu hj _ => exact hpivot (hw.readied_shiftPhase hu) hv hj
  | pivotBoundaryGadget hv hu hj _ =>
    exact hpivot (hw.readied_shiftPhase_shiftBoundaries hu.1) hv hj
  | identity h => exact h.keeps hw
  | gadgetFusion h _ _ => exact h.keeps hw

end Web

/-! ### The program -/

namespace GraphLike

variable {g : GraphLike} {u v : Vertex}

open Web

/-- A program ends with a diagram that is one step away. -/
def GivesStep (g : GraphLike) (x : Except Fault GraphLike) : Prop :=
  ∃ w m, Gives x w m ∧ Step g.web w

/-- The rewrites of a diagram by a rule at matches that are accepted, with what the checks have found
    out. -/
inductive Accepted (g : GraphLike) : GraphRule → Except Fault GraphLike → Prop
  | localComplement {v : Vertex} (hv : g.web.IsInner v) (hp : (g.phase v).isProperClifford) :
    Accepted g .localComplement (g.localComplement v)
  | pivot {v u : Vertex} (hv : g.web.IsInner v) (hu : g.web.IsInner u) (hj : u ∈ g.web.nearby v)
    (hpv : (g.phase v).isPauli) (hpu : (g.phase u).isPauli) : Accepted g .pivot (g.pivot v u)
  | pivotBoundary {v u : Vertex} (hv : g.web.IsInner v) (hu : g.web.AtBoundary u)
    (hj : u ∈ g.web.nearby v) (hpv : (g.phase v).isPauli) (hpu : (g.phase u).isPauli) :
    Accepted g .pivotBoundary (g.pivotBoundary v u)
  | pivotGadget {v u : Vertex} (hv : g.web.IsInner v) (hu : g.web.IsInner u)
    (hj : u ∈ g.web.nearby v) (hpv : (g.phase v).isPauli) :
    Accepted g .pivotGadget (g.pivotGadget v u)
  | pivotBoundaryGadget {v u : Vertex} (hv : g.web.IsInner v) (hu : g.web.AtBoundary u)
    (hj : u ∈ g.web.nearby v) (hpv : (g.phase v).isPauli) :
    Accepted g .pivotBoundaryGadget (g.pivotBoundaryGadget v u)
  | fuseNeighbors {v keep gone : Vertex} (h : g.web.Fusable v keep gone)
    (hends : g.web.identityEnds v = some (keep, gone)) : Accepted g .identity (g.fuseNeighbors v)
  | fuseGadgets {c d l m : Vertex} (h : g.web.SameSupport c d l m)
    (hl : g.gadgetLeaf? c = .ok (some l)) (hm : g.gadgetLeaf? d = .ok (some m))
    (hc : (g.phase c).isPauli) (hd : (g.phase d).isPauli) :
    Accepted g .gadgetFusion (g.fuseGadgets c d)

section

variable (hg : g.Coherent) (hw : g.web.InForm)
include hg hw

/-! What a pivot does, and what its check has found out. -/

theorem gives_pivotBoundary (hv : g.web.IsInner v) (hu : g.web.AtBoundary u)
    (hj : u ∈ g.web.nearby v) (hpu : (g.phase u).isPauli) :
    Gives (g.pivotBoundary v u) ((g.web.shiftBoundaries u).pivot v u) g.master := by
  have hready := hw.readied_shiftBoundaries hu.1 hpu
  refine (Gives.shiftBoundaries hg hw hu.1).bind fun g₁ hg₁ hw₁ hm₁ => ?_
  have hpivot := Gives.pivot hg₁ (hw₁ ▸ hready.form.simple)
    (hw₁ ▸ hready.pivotable hv hj (hg.valid.ne_of_mem_nearby hj))
  rwa [hw₁, hm₁] at hpivot

theorem gives_pivotGadget (hv : g.web.IsInner v) (hu : g.web.IsInner u) (hj : u ∈ g.web.nearby v) :
    Gives (g.pivotGadget v u) ((g.web.shiftPhase u).pivot v u) g.master := by
  have hready := hw.readied_shiftPhase hu
  refine (Gives.shiftPhase hg hu.1.1).bind fun g₁ hg₁ hw₁ hm₁ => ?_
  have hpivot := Gives.pivot hg₁ (hw₁ ▸ hready.form.simple)
    (hw₁ ▸ hready.pivotable hv hj (hg.valid.ne_of_mem_nearby hj))
  rwa [hw₁, hm₁] at hpivot

theorem gives_pivotBoundaryGadget (hv : g.web.IsInner v) (hu : g.web.AtBoundary u)
    (hj : u ∈ g.web.nearby v) : Gives (g.pivotBoundaryGadget v u)
      (((g.web.shiftBoundaries u).shiftPhase u).pivot v u) g.master := by
  obtain ⟨hform₁, hframe₁, -⟩ := hw.shiftBoundaries hu.1
  have hready := hw.readied_shiftPhase_shiftBoundaries hu.1
  refine (Gives.shiftBoundaries hg hw hu.1).bind fun g₁ hg₁ hw₁ hm₁ => ?_
  have hshift := Gives.shiftPhase hg₁ (hw₁ ▸ hframe₁.isZ hu.1)
  rw [hw₁, hm₁] at hshift
  refine hshift.bind fun g₂ hg₂ hw₂ hm₂ => ?_
  have hpivot := Gives.pivot hg₂ (hw₂ ▸ hready.form.simple)
    (hw₂ ▸ hready.pivotable hv hj (hg.valid.ne_of_mem_nearby hj))
  rwa [hw₂, hm₂] at hpivot

section Pairs

variable (hv : g.web.Has v) (hu : g.web.Has u)
include hv hu

theorem of_checkPivot (h : g.checkPivot v u = .ok true) : g.web.IsInner v ∧ g.web.IsInner u ∧
    u ∈ g.web.nearby v ∧ (g.phase v).isPauli ∧ (g.phase u).isPauli := by
  rw [checkPivot_eq hg hw.simple hv hu] at h
  simp only [Except.ok.injEq, Bool.and_eq_true, decide_eq_true_iff] at h
  obtain ⟨⟨-, hlink⟩, ⟨hpv, hv⟩, hpu, hu⟩ := h
  exact ⟨hv, hu, hg.valid.mem_nearby_of_link hlink, hpv, hpu⟩

theorem of_checkPivotBoundary (h : g.checkPivotBoundary v u = .ok true) : g.web.IsInner v ∧
    g.web.AtBoundary u ∧ u ∈ g.web.nearby v ∧ (g.phase v).isPauli ∧ (g.phase u).isPauli := by
  rw [checkPivotBoundary_eq hg hw.simple hv hu] at h
  simp only [Except.ok.injEq, Bool.and_eq_true, decide_eq_true_iff] at h
  obtain ⟨⟨-, hlink⟩, ⟨hpv, hv⟩, hpu, hu⟩ := h
  exact ⟨hv, hu, hg.valid.mem_nearby_of_link hlink, hpv, hpu⟩

theorem of_checkPivotGadget (h : g.checkPivotGadget v u = .ok true) : g.web.IsInner v ∧
    g.web.IsInner u ∧ u ∈ g.web.nearby v ∧ (g.phase v).isPauli := by
  rw [checkPivotGadget_eq hg hw.simple hv hu] at h
  simp only [Except.ok.injEq, Bool.and_eq_true, decide_eq_true_iff] at h
  obtain ⟨⟨-, hlink⟩, ⟨hpv, hv⟩, -, hu⟩ := h
  exact ⟨hv, hu, hg.valid.mem_nearby_of_link hlink, hpv⟩

theorem of_checkPivotBoundaryGadget (h : g.checkPivotBoundaryGadget v u = .ok true) :
    g.web.IsInner v ∧ g.web.AtBoundary u ∧ u ∈ g.web.nearby v ∧ (g.phase v).isPauli := by
  rw [checkPivotBoundaryGadget_eq hg hw.simple hv hu] at h
  simp only [Except.ok.injEq, Bool.and_eq_true, decide_eq_true_iff] at h
  obtain ⟨⟨-, hlink⟩, ⟨hpv, hv⟩, -, hu⟩ := h
  exact ⟨hv, hu, hg.valid.mem_nearby_of_link hlink, hpv⟩

end Pairs

theorem of_checkLocalComplement (hv : g.web.Has v) (h : g.checkLocalComplement v = .ok true) :
    g.web.IsInner v ∧ (g.phase v).isProperClifford := by
  rw [checkLocalComplement_eq hg hw.simple hv] at h
  obtain ⟨hp, hv⟩ := Bool.and_eq_true_iff.1 (Except.ok.inj h)
  exact ⟨of_decide_eq_true hv, hp⟩

/-- What is accepted is one of the rewrites, where it may be made. -/
theorem accepted_of_check {rule : GraphRule} {s : Match} (h : rule.check g s = .ok true) :
    Accepted g rule (rule.apply g s) := by
  rw [GraphRule.check] at h
  split at h
  swap
  · cases h
  next hall =>
  have hhas : ∀ x ∈ s, g.web.Has x := fun x hx => (hg.has x).2 (List.all_eq_true.1 hall x hx)
  rw [GraphRule.checkPresent.eq_def] at h
  split at h
  case h_1 v =>
    obtain ⟨hv, hp⟩ := of_checkLocalComplement hg hw (hhas v (by simp)) h
    exact .localComplement hv hp
  case h_2 v u =>
    obtain ⟨hv, hu, hj, hpv, hpu⟩ := of_checkPivot hg hw (hhas v (by simp)) (hhas u (by simp)) h
    exact .pivot hv hu hj hpv hpu
  case h_3 v u _ =>
    obtain ⟨hv, hu, hj, hpv, hpu⟩ := of_checkPivotBoundary hg hw (hhas v (by simp))
      (hhas u (by simp)) (and_eq_true_iff.1 h).1
    exact .pivotBoundary hv hu hj hpv hpu
  case h_4 v u =>
    obtain ⟨hv, hu, hj, hpv⟩ := of_checkPivotGadget hg hw (hhas v (by simp)) (hhas u (by simp)) h
    exact .pivotGadget hv hu hj hpv
  case h_5 v u _ =>
    obtain ⟨hv, hu, hj, hpv⟩ := of_checkPivotBoundaryGadget hg hw (hhas v (by simp))
      (hhas u (by simp)) (and_eq_true_iff.1 h).1
    exact .pivotBoundaryGadget hv hu hj hpv
  case h_6 v keep gone =>
    obtain ⟨hcheck, hends⟩ := and_eq_true_iff.1 h
    obtain ⟨ends, hends, heq⟩ := of_bind_eq_ok hends
    rw [eq_of_beq (Except.ok.inj heq)] at hends
    obtain ⟨hfusable, hends⟩ := fusable_of_check hg hw (hhas v (by simp)) hcheck hends
    exact .fuseNeighbors hfusable hends
  case h_7 c d _ _ =>
    obtain ⟨l, m, hl, hm, hsame, hc, hd⟩ := sameSupport_of_check hg hw.simple (hhas c (by simp))
      (hhas d (by simp)) (and_eq_true_iff.1 h).1
    exact .fuseGadgets hsame hl hm hc hd
  case h_8 => cases h

/-- Each rewrite makes a step. -/
theorem Accepted.givesStep {rule : GraphRule} {x : Except Fault GraphLike} (h : Accepted g rule x) :
    GivesStep g x := by
  cases h with
  | localComplement hv hp =>
    exact ⟨_, _, Gives.localComplement hg hw.simple hv.1.1.has fun u hu => (hv.2 u hu).1,
      .localComplement hv hp⟩
  | pivot hv hu hj hpv hpu =>
    exact ⟨_, _, Gives.pivot hg hw.simple
      ((hw.readied hu hpu).pivotable hv hj (hg.valid.ne_of_mem_nearby hj)), .pivot hv hu hj hpv hpu⟩
  | pivotBoundary hv hu hj hpv hpu =>
    exact ⟨_, _, gives_pivotBoundary hg hw hv hu hj hpu, .pivotBoundary hv hu hj hpv hpu⟩
  | pivotGadget hv hu hj hpv =>
    exact ⟨_, _, gives_pivotGadget hg hw hv hu hj, .pivotGadget hv hu hj hpv⟩
  | pivotBoundaryGadget hv hu hj hpv =>
    exact ⟨_, _, gives_pivotBoundaryGadget hg hw hv hu hj, .pivotBoundaryGadget hv hu hj hpv⟩
  | fuseNeighbors h hends => exact ⟨_, _, Gives.fuseNeighbors hg hw h hends, .identity h⟩
  | fuseGadgets h hl hm hc hd =>
    exact ⟨_, _, Gives.fuseGadgets hg hw.simple h hl hm, .gadgetFusion h hc hd⟩

/-- Each rule makes a step at a match that its check accepts. -/
theorem gives_of_check {rule : GraphRule} {s : Match} (h : rule.check g s = .ok true) :
    GivesStep g (rule.apply g s) := (accepted_of_check hg hw h).givesStep hg hw

omit hg hw in
/-- A spider that is asked for its edges is there. -/
theorem contains_of_hadamardJoined (h : g.hadamardJoined v u = .ok true) : g.graph.contains v := by
  rw [hadamardJoined, and_eq_true_iff] at h
  obtain ⟨k, hk, -⟩ := of_bind_eq_ok h.2
  obtain ⟨links, hl, -⟩ := of_bind_eq_ok hk
  rw [Multigraph.contains]
  rw [Multigraph.links] at hl
  split at hl
  · next heq => rw [heq, Option.isSome_some]
  · cases hl

/-- Two spiders that pass the check at the frontier are joined Z spiders. -/
theorem of_checkFrontierPivot (h : g.checkFrontierPivot v u = .ok true) :
    g.web.IsZ v ∧ g.web.IsZ u ∧ u ∈ g.web.nearby v := by
  have hjoined := (and_eq_true_iff.1 h).1
  have hv := (hg.has v).2 (contains_of_hadamardJoined hjoined)
  rw [hadamardJoined_eq hg hv] at hjoined
  have hj := hg.valid.mem_nearby_of_link (of_decide_eq_true (Except.ok.inj hjoined)).2
  rw [checkFrontierPivot_eq hg hw hv (hg.valid.has_of_mem_nearby hj)] at h
  obtain ⟨-, hv, hu, -⟩ := of_decide_eq_true (Except.ok.inj h)
  exact ⟨hv, hu, hj⟩

end

end GraphLike

end ZXRewriting

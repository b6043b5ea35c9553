import ZXRewriting.Proofs.GraphLike.Weight
import ZXRewriting.Proofs.Phase.Classes

/-!
# What pivoting leaves of the inner spiders

With its phases on a grid, a pivot at an inner spider makes no spider inner that was not, adds but
multiples of a half turn to the phases of those that stay, and joins two of them only if one was
next to that spider (`Web.Prunes`).

Now suppose that no inner spider with a phase of 0 or pi is next to another one. Then what comes to
be joined beside such a spider has other phases, so that no such pair comes about. The same goes
for pairs of one of them and an inner spider with any other phase (`Web.Apart.keeps`).
-/

namespace ZXRewriting

open Function (update update_self update_of_ne)
open Multigraph (SamePair)

namespace Web

variable {w w₁ w' : Web} {p q : Phase} {s t u v x y : Vertex} {vs : List Vertex} {D : ℕ}

/-! ### Phases -/

/-- The phases have the denominators that they have in another web, and are on the grid. -/
def Alike (D : ℕ) (w w' : Web) : Prop :=
  w'.OnGrid D ∧ ∀ x, (w'.phase x).den = (w.phase x).den

namespace Alike

variable (hD : Phase.IsGrid D)
include hD

theorem addToPhase (h : Alike D w w') (hp : p.isPauli) (t : Vertex) :
    Alike D w (w'.addToPhase t p) := by
  have hpgrid : p.OnGrid D := Phase.onGrid_of_isPauli hp
  refine ⟨h.1.addToPhase hD hpgrid t, fun x => ?_⟩
  rw [phase_addToPhase, Function.update_apply]
  split
  · next hx => rw [(h.1 t).den_add hD hp, h.2 t, hx]
  · exact h.2 x

theorem toggle (h : Alike D w w') (s t : Vertex) : Alike D w (w'.toggle s t) := by
  rw [Web.toggle]
  split
  · exact h.addToPhase hD rfl s
  · exact h

theorem toggleAll (h : Alike D w w') (s : Vertex) (ts : List Vertex) :
    Alike D w (w'.toggleAll s ts) := by
  induction ts generalizing w' with
  | nil => exact h
  | cons t rest ih => exact ih (h.toggle hD s t)

theorem joinAll (h : Alike D w w') (hq : q.isPauli) (others : Vertex → List Vertex)
    (ts : List Vertex) : Alike D w (joinAll q others w' ts) := by
  induction ts generalizing w' with
  | nil => exact h
  | cons t rest ih => exact ih ((h.addToPhase hD hq t).toggleAll hD t _)

theorem addToPhases (h : Alike D w w') (hp : p.isPauli) (ts : List Vertex) :
    Alike D w (w'.addToPhases ts p) := by
  induction ts generalizing w' with
  | nil => exact h
  | cons t rest ih => exact ih (h.addToPhase hD hp t)

end Alike

/-- Pivoting only adds multiples of a half turn to the spiders that stay. -/
theorem OnGrid.den_pivot (hg : w.OnGrid D) (hD : Phase.IsGrid D) (hv : (w.phase v).isPauli)
    (hu : (w.phase u).isPauli) (hxv : x ≠ v) (hxu : x ≠ u) :
    ((w.pivot v u).phase x).den = (w.phase x).den := by
  have h : Alike D w _ := (Alike.joinAll hD ⟨hg, fun _ => rfl⟩ hu (w.pivotPartners v u)
    (w.nearby v)).addToPhases hD hv (w.nearby u)
  rw [pivot, phase_remove, update_of_ne hxu, phase_remove, update_of_ne hxv, h.2]

/-! ### Edges -/

theorem joins_toggleAll_of_ne (hx : x ≠ s) (hy : y ≠ s) :
    (w.toggleAll s vs).joins x y = w.joins x y := by
  induction vs generalizing w with
  | nil => rfl
  | cons t rest ih =>
    rw [toggleAll_cons, ih, toggle]
    split
    · rfl
    · have hpair : ¬SamePair x y s t := by rintro (⟨rfl, -⟩ | ⟨-, rfl⟩) <;> contradiction
      simp only [joins, setCount, if_neg hpair]

/-- Two spiders, neither of which is in the list, are not joined. -/
theorem joins_joinAll_of_ne {others : Vertex → List Vertex} (hx : x ∉ vs) (hy : y ∉ vs) :
    (joinAll q others w vs).joins x y = w.joins x y := by
  induction vs generalizing w with
  | nil => rfl
  | cons n rest ih =>
    rw [List.mem_cons, not_or] at hx hy
    rw [joinAll_cons, ih hx.2 hy.2, joins_toggleAll_of_ne hx.1 hy.1]
    rfl

theorem joins_pivot_of_notMem (hx : (w.pivot v u).Has x) (hy : (w.pivot v u).Has y)
    (hxv : x ∉ w.nearby v) (hyv : y ∉ w.nearby v) : (w.pivot v u).joins x y = w.joins x y := by
  have hx := has_pivot.1 hx
  have hy := has_pivot.1 hy
  rw [pivot, joins_remove, if_neg (by tauto), joins_remove, if_neg (by tauto), joins, joins,
    count_addToPhases, ← joins, joins_joinAll_of_ne hxv hyv, joins]

/-! ### Inner spiders -/

/-- Inner spiders were inner before, with phases of the same denominators, and are joined as
    before unless one of them was next to `v`. -/
structure Prunes (v : Vertex) (w w' : Web) : Prop where
  inner : ∀ x, w'.IsInner x → w.IsInner x
  den : ∀ x, w'.IsInner x → (w'.phase x).den = (w.phase x).den
  near : ∀ x y, w'.IsInner x → w'.IsInner y → y ∈ w'.nearby x →
    y ∈ w.nearby x ∨ x ∈ w.nearby v ∨ y ∈ w.nearby v

theorem Simple.prunes_pivot (hw : w.Simple) (hw' : (w.pivot v u).Simple) (hD : Phase.IsGrid D)
    (hg : w.OnGrid D) (hv : w.IsInner v) (hu : w.IsInner u) (hpv : (w.phase v).isPauli)
    (hpu : (w.phase u).isPauli) : Prunes v w (w.pivot v u) where
  inner x hx := (thins_pivot hw hv hu).isInner hw'.valid hw.valid hx
  den x hx := by
    obtain ⟨hxu, hxv, -⟩ := has_pivot.1 hx.1.1.has
    exact hg.den_pivot hD hpv hpu hxv hxu
  near x y hx hy hj := by
    by_contra hnot
    push Not at hnot
    rw [hw'.valid.mem_nearby, joins_pivot_of_notMem hx.1.1.has hy.1.1.has hnot.2.1 hnot.2.2,
      ← hw.valid.mem_nearby] at hj
    exact hnot.1 hj

/-- Moving off what is in the way of a spider that goes. -/
theorem Widens.prunes (h : Widens u w w₁) (hw : w.Simple) (hw₁ : w₁.Simple) (hv : w.IsZ v)
    (hne : v ≠ u) (hp : Prunes v w₁ w') (hgone : ¬w'.Has u) : Prunes v w w' := by
  have hold {x : Vertex} (hx : w'.IsInner x) : w.IsZ x ∧ x ≠ u := by
    have hx₁ := hp.inner x hx
    have hhas := (h.new x hx₁.1.1.has).resolve_right fun hnew => hnew.2 hx₁
    exact ⟨(h.frame.kind x hhas).symm.trans hx₁.1.1, fun he => hgone (he ▸ hx.1.1.has)⟩
  refine ⟨fun x hx => ?_, fun x hx => ?_, fun x y hx hy hj => ?_⟩
  · exact (h.isInner_iff hw hw₁ (hold hx).1 (hold hx).2).1 (hp.inner x hx)
  · rw [hp.den x hx, h.frame.phase x (hold hx).1 (hold hx).2]
  · rw [← h.frame.nearby x (hold hx).1 (hold hx).2, ← h.frame.nearby v hv hne]
    exact hp.near x y hx hy hj

section Pivots

variable (hw : w.InForm) (hD : Phase.IsGrid D) (hg : w.OnGrid D) (hv : w.IsInner v)
  (hj : u ∈ w.nearby v) (hpv : (w.phase v).isPauli)
include hw hD hg hv hj hpv

theorem InForm.prunes_pivot (hu : w.IsInner u) (hpu : (w.phase u).isPauli) :
    Prunes v w (w.pivot v u) :=
  hw.simple.prunes_pivot ((Step.pivot hv hu hj hpv hpu).keeps hw).form.simple hD hg hv hu hpv hpu

theorem InForm.prunes_pivotGadget (hu : w.IsInner u) :
    Prunes v w ((w.shiftPhase u).pivot v u) := by
  have hne := hw.simple.valid.ne_of_mem_nearby hj
  obtain ⟨hwidens, hu₁, -⟩ := hw.widens_shiftPhase hu
  have hready := hw.readied_shiftPhase hu
  have hv₁ := (hwidens.isInner_iff hw.simple hready.form.simple hv.1.1 hne).2 hv
  refine hwidens.prunes hw.simple hready.form.simple hv.1.1 hne ?_ fun h => (has_pivot.1 h).1 rfl
  refine hready.form.prunes_pivot hD hg.shiftPhase hv₁ ?_ ?_ hu₁ hready.phase
  · rwa [hready.frame.nearby v hv.1.1 hne]
  · rwa [hready.frame.phase v hv.1.1 hne]

theorem InForm.prunes_pivotBoundaryGadget (hu : w.AtBoundary u) :
    Prunes v w (((w.shiftBoundaries u).shiftPhase u).pivot v u) := by
  have hne := hw.simple.valid.ne_of_mem_nearby hj
  obtain ⟨hwidens, hu₁, -⟩ := hw.widens_shiftBoundaries hu hv.1.1 hj
  obtain ⟨hform, hframe, -⟩ := hw.shiftBoundaries hu.1
  have hv₁ := (hwidens.isInner_iff hw.simple hform.simple hv.1.1 hne).2 hv
  refine hwidens.prunes hw.simple hform.simple hv.1.1 hne ?_ fun h => (has_pivot.1 h).1 rfl
  refine hform.prunes_pivotGadget hD hg.shiftBoundaries hv₁ ?_ ?_ hu₁
  · rwa [hframe.nearby v hv.1.1 hne]
  · rwa [hframe.phase v hv.1.1 hne]

end Pivots

/-! ### What is kept -/

/-- No inner spider has a phase of a quarter turn. -/
def Unturned (w : Web) : Prop := ∀ x, w.IsInner x → ¬(w.phase x).isProperClifford

/-- No inner spider with a phase of 0 or pi is next to an inner spider, the denominator of whose
    phase passes a test. -/
def Apart (P : ℕ → Prop) (w : Web) : Prop := ∀ x y, w.IsInner x → w.IsInner y →
  (w.phase x).isPauli → P (w.phase y).den → y ∉ w.nearby x

theorem Unturned.keeps (hw : w.Unturned) (h : Prunes v w w') : w'.Unturned := fun x hx => by
  rw [Phase.isProperClifford, h.den x hx]
  exact hw x (h.inner x hx)

/-- What comes to be joined was next to the spider that the pivot removes, and so is no such
    pair. -/
theorem Apart.keeps {P : ℕ → Prop} (hP : w.Apart P) (hpauli : w.Apart (· = 1)) (h : Prunes v w w')
    (hv : w.IsInner v) (hpv : (w.phase v).isPauli) : w'.Apart P := by
  intro x y hx hy hpx hPy hj
  have hx' := h.inner x hx
  have hy' := h.inner y hy
  rw [Phase.isPauli, h.den x hx] at hpx
  rw [h.den y hy] at hPy
  rcases h.near x y hx hy hj with hold | hnear | hnear
  · exact hP x y hx' hy' hpx hPy hold
  · exact hpauli v x hv hx' hpv (beq_iff_eq.1 hpx) hnear
  · exact hP v y hv hy' hpv hPy hnear

/-- No inner spider with a phase of 0 or pi is next to another inner one, and none has a phase of a
    quarter turn. -/
structure Sparse (w : Web) : Prop where
  unturned : w.Unturned
  pauli : w.Apart (· = 1)
  other : w.Apart (2 < ·)

theorem Sparse.keeps (hw : w.Sparse) (h : Prunes v w w') (hv : w.IsInner v)
    (hpv : (w.phase v).isPauli) : w'.Sparse :=
  ⟨hw.unturned.keeps h, hw.pauli.keeps hw.pauli h hv hpv, hw.other.keeps hw.pauli h hv hpv⟩

theorem Sparse.not_isInner (h : w.Sparse) (hv : w.IsInner v) (hp : (w.phase v).isPauli)
    (hy : y ∈ w.nearby v) : ¬w.IsInner y := fun hin => by
  have hone : (w.phase y).den ≠ 1 := fun he => h.pauli v y hv hin hp he hy
  have htwo : (w.phase y).den ≠ 2 := fun he => h.unturned y hin (beq_iff_eq.2 he)
  have hmore : ¬2 < (w.phase y).den := fun he => h.other v y hv hin hp he hy
  have hpos := (w.phase y).den_pos
  omega

end Web

end ZXRewriting

import ZXRewriting.Proofs.GraphLike.Runs
import ZXRewriting.Proofs.GraphLike.Traced
import ZXRewriting.Proofs.GraphLike.Unboxing

/-!
# Phases are neither lost nor counted twice

Every step of the conversion to graph-like form and every rewrite keeps the phases traced: a phase is
negated with the sign of its name, is moved with the name, or is added to another one with the master
being told (`Web.Traced.fuse`, `Web.Traced.fuseGadgets`, `Web.Traced.takeIn`); other additions are
multiples of a quarter turn. So however a graph-like form is rewritten, its master accounts for all
phases of the diagram that it was made from (`GraphLike.accounts_run`).
-/

namespace ZXRewriting

open Function (update update_self update_of_ne)

namespace Web

variable {w w' m : Web} {M : Diagram} {D : ℕ} {K : Finset Vertex} {P off : Vertex → ℚ} {p q : Phase}
  {c d l keep gone s t u v : Vertex} {k : EdgeKind} {vs : List Vertex}

theorem carrier_toggle : (w.toggle s t).carrier = w.carrier := by
  rw [toggle]
  split <;> rfl

theorem carrier_toggleAll : (w.toggleAll s vs).carrier = w.carrier := by
  rw [toggleAll]
  induction vs generalizing w with
  | nil => rfl
  | cons t rest ih => exact ih.trans carrier_toggle

theorem carrier_moveLinks {links : List Link} :
    (links.foldl (moveLink v) w).carrier = w.carrier := by
  induction links generalizing w with
  | nil => rfl
  | cons l rest ih =>
    refine ih.trans ?_
    rw [moveLink]
    split_ifs <;> rfl

theorem not_isColoured_remove (w : Web) (v : Vertex) : ¬(w.remove v).IsColoured v := by
  rw [IsColoured, kind_remove, update_self]
  simp

namespace Traced

/-- No spider is off. -/
theorem congr_zero (h : Traced D K P off w m) (hoff : ∀ u, w.IsColoured u → off u ∈ quarters) :
    Traced D K P 0 w m :=
  h.mono fun u hu => by
    rw [Pi.zero_apply, sub_zero]
    exact hoff u hu

section

variable (h : Traced D K P 0 w m)
include h

theorem addSpider_zero (hfree : ¬w.Has w.next) : Traced D K P 0 (w.addSpider .zero) m :=
  (h.addSpider hfree Phase.onGrid_zero).congr_zero fun u _ => by
    rw [Function.update_apply]
    split
    · exact Phase.value_mem_of_isPauli rfl
    · exact quarters.zero_mem

theorem split (hfree : ¬w.Has w.next) (s t : Vertex) (k : EdgeKind) :
    Traced D K P 0 (w.split s t k) m := by
  have hcut : Traced D K P 0 (w.cut s t) m := h.congr (fun _ => .rfl) (fun _ _ => rfl) rfl
  exact (hcut.addSpider_zero hfree).congr (fun _ => .rfl) (fun _ _ => rfl) rfl

theorem shiftBoundary (hw : w.Valid) (v t : Vertex) : Traced D K P 0 (shiftBoundary v w t) m := by
  rw [Web.shiftBoundary]
  split
  · exact h
  · exact h.split hw.not_has_next v t _

theorem shiftBoundaries (hw : w.InForm) (hv : w.IsZ v) : Traced D K P 0 (w.shiftBoundaries v) m := by
  have hts : ∀ t ∈ w.ends v, w.IsEnd t := fun t ht => by simpa using (List.mem_filter.1 ht).2
  rw [Web.shiftBoundaries]
  generalize w.ends v = ts at hts
  induction ts generalizing w with
  | nil => exact h
  | cons t rest ih =>
    obtain ⟨hw₁, hf₁, -⟩ := hw.shiftBoundary hv (hts t List.mem_cons_self)
    exact ih (h.shiftBoundary hw.simple.valid v t) hw₁ (hf₁.isZ hv)
      fun u hu => hf₁.isEnd (hts u (List.mem_cons_of_mem t hu))

/-- The leaf takes the phase and the name over. -/
theorem shiftPhase (hw : w.Valid) (hv : w.IsZ v) :
    Traced D K P 0 (w.shiftPhase v) m := by
  rw [Web.shiftPhase]
  split
  · exact h
  have hcol := hv.isColoured
  have hp := h.grid v hcol
  have hne := hw.ne_next hv.has
  have hne' := hw.ne_next_succ hv.has
  have hnone : w.carrier (w.next + 1) = none :=
    h.carrier_of_not_coloured fun hc => hw.ne_next_succ hc.has rfl
  have hphase : ((w.addSpider .zero).addSpider (w.phase v)).phase v = w.phase v := by
    rw [phase_addSpider, next_addSpider, update_of_ne hne', phase_addSpider, update_of_ne hne]
  have hspiders := ((h.addSpider_zero hw.not_has_next).addSpider
    (hw.addSpider .zero).not_has_next hp).setPhase (v := v) (p := .zero)
    (x := -(w.phase v).value) fun _ => ⟨Phase.onGrid_zero, by
      rw [hphase]
      convert Phase.value_mem_of_isPauli (p := .zero) rfl using 1
      ring⟩
  set w₁ := ((w.addSpider .zero).addSpider (w.phase v)).setPhase v .zero
  have hedges : Traced D K P _ ((w₁.addEdges v w.next .hadamard 1).addEdges w.next (w.next + 1)
    .hadamard 1) m := hspiders.congr (fun _ => .rfl) (fun _ _ => rfl) rfl
  have hz : (w₁.addEdges v w.next .hadamard 1).addEdges w.next (w.next + 1) .hadamard 1
    |>.IsZ (w.next + 1) := update_self (w.next + 1) _ _
  refine (hedges.moveCarrier (s := v) hz.isColoured hnone).congr_zero fun u _ => ?_
  have hdue : ((w₁.addEdges v w.next .hadamard 1).addEdges w.next (w.next + 1) .hadamard 1).due m v =
    w.due m v := rfl
  have hnear := h.near v hcol
  rw [Pi.zero_apply, sub_zero] at hnear
  simp only [next_addSpider]
  rw [hdue]
  by_cases hleaf : u = w.next + 1
  · subst hleaf
    rw [update_self, update_of_ne hne'.symm, update_self]
    exact hnear
  rw [update_of_ne hleaf]
  by_cases huv : u = v
  · subst huv
    rw [update_self, update_self, update_of_ne hleaf]
    convert quarters.neg_mem hnear using 1
    rw [Pi.zero_apply]
    ring
  · rw [update_of_ne huv, update_of_ne huv, update_of_ne hleaf]
    exact quarters.zero_mem

/-- Turning an X spider into a Z spider changes neither phases nor names. -/
theorem flip (hv : w.kind v = some .x) : Traced D K P 0 (w.flip v) m := by
  refine h.congr (fun u => ?_) (fun _ _ => rfl) rfl
  rw [IsColoured, kind_flip, kindAt_eq hv, Function.update_apply, IsColoured]
  split
  · next hu => simp [hu, hv, SpiderKind.opposite, SpiderKind.isPhased]
  · rfl

/-- A spider without a name that comes to be a Z spider is off by its phase. -/
theorem colour (hnone : w.carrier v = none) (hp : (w.phase v).OnGrid D) :
    Traced D K P (update 0 v (w.phase v).value)
      { w with kind := update w.kind v (some .z) } m := by
  have hold {u : Vertex} (hu : u ≠ v) :
      IsColoured { w with kind := update w.kind v (some .z) } u ↔ w.IsColoured u := by
    rw [IsColoured]
    dsimp only
    rw [update_of_ne hu, IsColoured]
  refine ⟨h.ledger, fun u hu => ?_, fun u c hc => ?_, h.sign, h.own, h.distinct, fun u hu => ?_⟩
  · by_cases huv : u = v
    · exact huv ▸ hp
    · exact h.grid u ((hold huv).1 hu)
  · refine (hold fun he => ?_).2 (h.coloured u c hc)
    rw [he] at hc
    cases hnone.symm.trans hc
  · by_cases huv : u = v
    · have hdue : due { w with kind := update w.kind v (some .z) } m v = 0 := due_of_none hnone
      rw [huv, hdue, update_self]
      simp
    · rw [update_of_ne huv]
      exact h.near u ((hold huv).1 hu)

/-- A box that is left as a spider gets a half turn. -/
theorem unboxed (hD : Phase.IsGrid D) (hbox : w.kind v = some .box) (hu : Unboxed w v w') :
    Traced D K P 0 w' m := by
  cases hu with
  | alone => exact h.remove v
  | leaf =>
    have hnone : w.carrier v = none := h.carrier_of_not_coloured fun hc => by
      rw [IsColoured, hbox] at hc
      cases hc
    have hpi : (w.setPhase v .pi).phase v = .pi := update_self v _ _
    have hset : Traced D K P 0 (w.setPhase v .pi) m := h.setPhase_quarter fun hc => by
      rw [IsColoured, hbox] at hc
      cases hc
    refine (hset.colour hnone (hpi.symm ▸ Phase.onGrid_pi)).congr_zero fun u _ => ?_
    rw [Function.update_apply]
    split
    · rw [hpi]
      exact Phase.value_mem_of_isPauli rfl
    · exact quarters.zero_mem
  | wire _ =>
    rw [unbox]
    split_ifs
    · exact (h.remove v).addToPhase_quarter hD Phase.onGrid_pi (Phase.value_mem_of_isPauli rfl)
    · exact h.remove v
    · exact (h.remove v).congr (fun _ => .rfl) (fun _ _ => rfl) rfl

/-! ### Rewriting -/

theorem complement (hD : Phase.IsGrid D) (hp : p.OnGrid D) (hq : p.value ∈ quarters)
    (vs : List Vertex) : Traced D K P 0 (complement p vs w) m := by
  induction vs generalizing w with
  | nil => exact h
  | cons n rest ih =>
    obtain ⟨k, hk⟩ := hp.value_neg hD
    refine ih ((h.addToPhase_quarter hD (hp.neg hD).1 ?_).toggleAll hD n rest)
    rw [hk]
    exact quarters.add_mem (quarters.neg_mem hq) (two_mul_mem_quarters k)

theorem localComplement (hD : Phase.IsGrid D) (hv : w.IsZ v) (hp : (w.phase v).isProperClifford) :
    Traced D K P 0 (w.localComplement v) m :=
  (h.complement hD (h.grid v hv.isColoured) (Phase.value_mem_of_isProperClifford hp) _).remove v

theorem joinAll (hD : Phase.IsGrid D) (hq : q.isPauli) (others : Vertex → List Vertex)
    (vs : List Vertex) : Traced D K P 0 (joinAll q others w vs) m := by
  rw [Web.joinAll]
  induction vs generalizing w with
  | nil => exact h
  | cons n rest ih =>
    exact ih ((h.addToPhase_quarter hD (Phase.onGrid_of_isPauli hq)
      (Phase.value_mem_of_isPauli hq)).toggleAll hD n _)

theorem pivot (hD : Phase.IsGrid D) (hpv : (w.phase v).isPauli) (hpu : (w.phase u).isPauli) :
    Traced D K P 0 (w.pivot v u) m :=
  (((h.joinAll hD hpu _ _).addToPhases hD (Phase.onGrid_of_isPauli hpv)
    (Phase.value_mem_of_isPauli hpv) _).remove v).remove u

/-- A pivot after moving off what is in the way. -/
theorem pivot_of_readied {w₀ : Web} (hD : Phase.IsGrid D) (hr : Readied u w₀ w) (hv : w₀.IsZ v)
    (hne : v ≠ u) (hpv : (w₀.phase v).isPauli) : Traced D K P 0 (w.pivot v u) m := by
  refine h.pivot hD ?_ hr.phase
  rw [hr.frame.phase v hv hne]
  exact hpv

theorem clear (hw : w.InForm) (hv : w.IsZ v) : Traced D K P 0 (w.clear v) m := by
  obtain ⟨hform, hframe, -⟩ := hw.shiftPhase hv
  exact (h.shiftPhase hw.simple.valid hv).shiftBoundaries hform (hframe.isZ hv)

theorem frontierPivot (hD : Phase.IsGrid D) (hw : w.InForm) (hv : w.IsZ v) (hu : w.IsZ u)
    (hj : u ∈ w.nearby v) : Traced D K P 0 (((w.clear v).clear u).pivot v u) m := by
  obtain ⟨-, hform, hu₁, hcv, hcu, -⟩ := hw.keeps_frontierPivot hv hu hj
  exact ((h.clear hw hv).clear hform hu₁).pivot hD hcv.phase hcu.phase

theorem pushThrough (hD : Phase.IsGrid D) (v gone : Vertex) :
    Traced D K P 0 (w.pushThrough v gone) m := by
  rw [Web.pushThrough]
  split
  · exact (h.negatePhase hD rfl).addToPhases hD Phase.onGrid_pi (Phase.value_mem_of_isPauli rfl) _
  · exact h

theorem clearCentre (hD : Phase.IsGrid D) (c l : Vertex) : Traced D K P 0 (w.clearCentre c l) m := by
  rw [Web.clearCentre]
  split
  · next hpi =>
    refine (h.setPhase_quarter fun _ => ⟨Phase.onGrid_zero, ?_⟩).negatePhase hD rfl
    exact quarters.sub_mem (Phase.value_mem_of_isPauli rfl)
      (Phase.value_mem_of_isPauli (Bool.and_eq_true_iff.1 hpi).2)
  · exact h

end

theorem moveLinks (h : Traced D K P off w m) (hD : Phase.IsGrid D) (v : Vertex)
    (links : List Link) : Traced D K P off (links.foldl (moveLink v) w) m := by
  induction links generalizing w with
  | nil => exact h
  | cons l rest ih =>
    refine ih (w := Web.moveLink v w l) ?_
    rw [moveLink]
    split_ifs
    · exact h.congr (fun _ => .rfl) (fun _ _ => rfl) rfl
    · exact h.addToPhase_quarter hD Phase.onGrid_pi (Phase.value_mem_of_isPauli rfl)
    · exact h

/-- Where the phase of a spider has been added to that of another one, other edits aside that keep
    the names, the one can be merged with the other and be removed. -/
theorem merge {w₀ : Web} (hD : Phase.IsGrid D) (h₀ : Traced D K P 0 w₀ M.web)
    (h : Traced D K P (update 0 keep (0 + (w₀.phase gone).value)) w M.web)
    (hgone : w₀.IsColoured gone) (hkeep : w.IsColoured keep) (hcarrier : w.carrier = w₀.carrier)
    (hne : keep ≠ gone) : Traced D K P (update 0 gone (w.due M.web gone)) (w.mergeCarriers keep gone)
      (w.mergedMaster M keep gone).web := by
  rw [zero_add] at h
  refine h.mergeCarriers hD hkeep hne ?_
  have hnear := h₀.near gone hgone
  rw [Pi.zero_apply, sub_zero] at hnear
  rwa [due, hcarrier]

theorem fuse (h : Traced D K P 0 w M.web) (hD : Phase.IsGrid D)
    (hf : w.Fusable v keep gone) : Traced D K P 0 (w.fuse v keep gone)
      (((w.pushThrough v gone).handOver v keep gone).mergedMaster M keep gone).web := by
  have h₁ := h.pushThrough hD v gone
  have hgone : (w.pushThrough v gone).IsColoured gone := by
    rw [IsColoured, kind_pushThrough]
    exact hf.gone_isZ.isColoured
  have hkeep : ((w.pushThrough v gone).handOver v keep gone).IsColoured keep := by
    rw [IsColoured, handOver, kind_toggleAll, kind_addToPhase, kind_pushThrough]
    exact hf.keep_isZ.isColoured
  have h₂ : Traced D K P _ ((w.pushThrough v gone).handOver v keep gone) M.web :=
    (h₁.addToPhase hD (h₁.grid gone hgone)).toggleAll hD keep _
  have hmerge := merge hD h₁ h₂ hgone hkeep carrier_toggleAll hf.ne
  exact ((hmerge.remove v).remove gone).forget (not_isColoured_remove _ gone)

/-- Fusing behind a plain edge. -/
theorem takeIn (h : Traced D K P 0 w M.web) (hD : Phase.IsGrid D) (hv : w.IsZ v) (hu : w.IsZ u)
    (hne : v ≠ u) (links : List Link) : Traced D K P 0 (w.takeIn v u links)
      ((w.gather v u links).mergedMaster M v u).web := by
  have hgather : Traced D K P (update 0 v (0 + (w.phase u).value)) (w.gather v u links) M.web :=
    (h.addToPhase hD (h.grid u hu.isColoured)).moveLinks hD v links
  obtain ⟨-, hkind, -⟩ := moveLinks_fields v (w.addToPhase v (w.phase u)) links
  have hcol : (w.gather v u links).IsColoured v := by
    rw [IsColoured, gather, hkind]
    exact hv.isColoured
  exact ((merge hD h hgather hu.isColoured hcol carrier_moveLinks hne).remove u).forget
    (not_isColoured_remove _ u)

theorem fuseGadgets (h : Traced D K P 0 w M.web) (hD : Phase.IsGrid D)
    (hs : w.SameSupport c d l t) : Traced D K P 0 (w.fuseGadgets c d l t)
      ((((w.clearCentre c l).clearCentre d t).addToPhase l
        (((w.clearCentre c l).clearCentre d t).phase t)).mergedMaster M l t).web := by
  have h₁ := (h.clearCentre hD c l).clearCentre hD d t
  have hz {x : Vertex} (hx : w.IsZ x) : ((w.clearCentre c l).clearCentre d t).IsColoured x := by
    rw [IsColoured, kind_clearCentre, kind_clearCentre]
    exact hx.isColoured
  have h₂ := h₁.addToPhase (v := l) hD (h₁.grid t (hz hs.right.leaf))
  have hmerge := merge hD h₁ h₂ (hz hs.right.leaf) (hz hs.left.leaf) rfl hs.leaf_ne_leaf
  exact ((hmerge.remove t).forget (not_isColoured_remove _ t)).remove d

end Traced

end Web

namespace GraphLike

open Web

variable {g g' : GraphLike} {x : Except Fault GraphLike} {D : ℕ} {K : Finset Vertex}
  {P : Vertex → ℚ} {i o : List Vertex} {u v : Vertex}

/-- The phases of a diagram are traced in its master. -/
def Traced (D : ℕ) (K : Finset Vertex) (P : Vertex → ℚ) (g : GraphLike) : Prop :=
  Web.Traced D K P 0 g.web g.master.web

/-- Listing the ends changes neither the phases nor the names. -/
theorem traced_relist : (g.relist i o).Traced D K P ↔ g.Traced D K P :=
  ⟨fun h => Web.Traced.congr h (fun _ => .rfl) (fun _ _ => rfl) rfl,
    fun h => Web.Traced.congr h (fun _ => .rfl) (fun _ _ => rfl) rfl⟩

section

variable (hD : Phase.IsGrid D) (hg : g.Coherent) (ht : g.Traced D K P)
include hD hg ht

/-- The rewrites keep the phases traced. -/
theorem Accepted.traced (hw : g.web.InForm) {rule : GraphRule} (h : Accepted g rule x) :
    ∃ w m, Gives x w m ∧ Web.Traced D K P 0 w m.web := by
  cases h with
  | localComplement hv hp =>
    exact ⟨_, _, Gives.localComplement hg hw.simple hv.1.1.has fun u hu => (hv.2 u hu).1,
      Web.Traced.localComplement ht hD hv.1.1 hp⟩
  | pivot hv hu hj hpv hpu =>
    exact ⟨_, _, Gives.pivot hg hw.simple
      ((hw.readied hu hpu).pivotable hv hj (hg.valid.ne_of_mem_nearby hj)),
      Web.Traced.pivot ht hD hpv hpu⟩
  | pivotBoundary hv hu hj hpv hpu =>
    exact ⟨_, _, gives_pivotBoundary hg hw hv hu hj hpu,
      (Web.Traced.shiftBoundaries ht hw hu.1).pivot_of_readied hD
        (hw.readied_shiftBoundaries hu.1 hpu) hv.1.1 (hg.valid.ne_of_mem_nearby hj) hpv⟩
  | pivotGadget hv hu hj hpv =>
    exact ⟨_, _, gives_pivotGadget hg hw hv hu hj,
      (Web.Traced.shiftPhase ht hg.valid hu.1.1).pivot_of_readied hD (hw.readied_shiftPhase hu)
        hv.1.1 (hg.valid.ne_of_mem_nearby hj) hpv⟩
  | pivotBoundaryGadget hv hu hj hpv =>
    obtain ⟨hform, hframe, -⟩ := hw.shiftBoundaries hu.1
    exact ⟨_, _, gives_pivotBoundaryGadget hg hw hv hu hj,
      ((Web.Traced.shiftBoundaries ht hw hu.1).shiftPhase hform.simple.valid
        (hframe.isZ hu.1)).pivot_of_readied hD (hw.readied_shiftPhase_shiftBoundaries hu.1) hv.1.1
          (hg.valid.ne_of_mem_nearby hj) hpv⟩
  | fuseNeighbors h hends =>
    exact ⟨_, _, Gives.fuseNeighbors hg hw h hends, Web.Traced.fuse ht hD h⟩
  | fuseGadgets h hl hm hc hd =>
    exact ⟨_, _, Gives.fuseGadgets hg hw.simple h hl hm, Web.Traced.fuseGadgets ht hD h⟩

/-- A rewrite at a match that is accepted keeps the phases traced. -/
theorem Traced.apply (hw : g.web.Formed) {rule : GraphRule} {s : Match}
    (hcheck : rule.check g s = .ok true) (hok : rule.apply g s = .ok g') : g'.Traced D K P := by
  obtain ⟨i, o, hin⟩ := exists_listed hw
  have hg' := coherent_relist (i := i) (o := o).2 hg
  obtain ⟨w, m, hgives, hw'⟩ := (accepted_of_check hg' hin
    ((rule.check_relist g s i o).trans hcheck)).traced hD hg' (traced_relist.2 ht) hin
  obtain ⟨-, rfl, rfl⟩ := of_relisted (f := fun g => rule.apply g s) (rule.apply_relist g s i o)
    hgives hok
  exact traced_relist.1 hw'

theorem Traced.frontierPivot (hw : g.web.Formed) (hcheck : g.checkFrontierPivot v u = .ok true)
    (hok : g.frontierPivot v u = .ok g') : g'.Traced D K P := by
  obtain ⟨i, o, hin⟩ := exists_listed hw
  have hg' := coherent_relist (i := i) (o := o).2 hg
  obtain ⟨hv, hu, hj⟩ := of_checkFrontierPivot hg' hin hcheck
  obtain ⟨-, hweb, hmaster⟩ := of_relisted (f := fun g => g.frontierPivot v u)
    (relist_frontierPivot g v u) (Gives.frontierPivot hg' hin hv hu hj) hok
  have hpivot := Web.Traced.frontierPivot (traced_relist (i := i) (o := o).2 ht) hD hin hv hu hj
  rw [← hweb] at hpivot
  refine traced_relist (i := i) (o := o).1 ?_
  rw [Traced, show (g'.relist i o).master = g.master from hmaster]
  exact hpivot

end

/-- A run keeps the phases traced. -/
theorem Traced.run {w : Web} (hD : Phase.IsGrid D) (hr : Regular w g) (ht : g.Traced D K P)
    (h : Run g g') : g'.Traced D K P := by
  induction h with
  | start => exact ht
  | rule rule s hrun hcheck hok ih =>
    exact ih.apply hD (hr.run hrun).coherent (hr.run hrun).formed hcheck hok
  | frontierPivot v u hrun hcheck hok ih =>
    exact ih.frontierPivot hD (hr.run hrun).coherent (hr.run hrun).formed hcheck hok

/-! ### Conversion -/

/-- The conversion keeps the phases traced. -/
theorem Traced.converting (hD : Phase.IsGrid D) :
    Converting fun g => g.Coherent ∧ g.Traced D K P where
  coherent g h := h.1
  recolour g g' v h hx hok hg' hw' := by
    obtain ⟨g₁, hok₁, -, -, hm⟩ := Gives.recolour h.1 hx
    obtain rfl : g₁ = g' := Except.ok.inj (hok₁.symm.trans hok)
    refine ⟨hg', ?_⟩
    rw [Traced, hw', hm]
    exact Web.Traced.flip h.2 hx
  fuseInto g g' v u _ h hv hu hne _ _ hok hg' _ := by
    obtain ⟨links, -, g₁, hok₁, -, hw, hm⟩ := exists_fuseInto h.1 hv hu
    obtain rfl : g₁ = g' := Except.ok.inj (hok₁.symm.trans hok)
    refine ⟨hg', ?_⟩
    rw [Traced, hw, hm]
    exact Web.Traced.takeIn h.2 hD hv hu hne links
  unbox g g' h hg hbox hu hg' hm := by
    refine ⟨hg', ?_⟩
    rw [Traced, hm]
    exact Web.Traced.unboxed hg.2 hD hbox hu
  reduce g g' h hg' hw hm := by
    refine ⟨hg', ?_⟩
    rw [Traced, hw, hm]
    exact Web.Traced.congr h.2 (fun _ => .rfl) (fun _ _ => rfl) rfl

/-- The coloured spiders of a diagram. -/
def colouredSpiders (d : Diagram) : Finset Vertex := (Finset.range d.web.next).filter d.web.IsColoured

theorem mem_colouredSpiders {d : Diagram} (hd : d.Coherent) :
    v ∈ colouredSpiders d ↔ d.web.IsColoured v := by
  rw [colouredSpiders, Finset.mem_filter, Finset.mem_range, and_iff_right_iff_imp]
  exact fun hv => hd.valid.lt v hv.has

/-- How a graph-like form accounts for the phases of a diagram: the master has an entry for every
    coloured spider, with the spider that carries its phase and the sign it is carried with. Who
    carries phases is carried by itself and has their sum, and the others have none. A spider of
    the graph-like form that has a name has the phase that is carried under it, but for a multiple of
    a quarter turn, and no two have the same name. -/
structure Accounts (d : Diagram) (g : GraphLike) : Prop where
  distinct : ∀ (u u' : Vertex) (c c' : Carrier), g.carriers[u]? = some c → g.carriers[u']? = some c' →
    c.spider = c'.spider → u = u'
  named : ∀ (u : Vertex) (c : Carrier), g.carriers[u]? = some c →
    (c.sign = 1 ∨ c.sign = -1) ∧ g.master.web.IsOwn c.spider
  entry : ∀ v : Vertex, (g.master.carriers[v]?).isSome ↔ v ∈ colouredSpiders d
  carried : ∀ (v : Vertex) (c : Carrier), g.master.carriers[v]? = some c →
    (c.sign = 1 ∨ c.sign = -1) ∧ g.master.web.IsOwn c.spider
  total : ∀ r, g.master.web.IsOwn r → ∃ k : ℤ, (g.master.phase r).value =
    ∑ v ∈ colouredSpiders d, g.master.web.share r v * (d.phase v).value + 2 * k
  rest : ∀ v ∈ colouredSpiders d, ¬g.master.web.IsOwn v → g.master.phase v = .zero
  near : ∀ (u : Vertex) (c : Carrier), g.carriers[u]? = some c →
    ∃ k : ℤ, (g.phase u).value - c.sign * (g.master.phase c.spider).value = k / 2

theorem Traced.accounts {d : Diagram}
    (h : g.Traced D (colouredSpiders d) fun v => (d.phase v).value) : Accounts d g where
  distinct := h.distinct
  named u c hc := ⟨h.sign u c hc, h.own u c hc⟩
  entry v := (h.ledger.entry v).symm
  carried v c hc := ⟨h.ledger.sign v c hc, h.ledger.own v c hc⟩
  total r hr := h.ledger.total r (h.ledger.mem_of_own hr)
  rest := h.ledger.rest
  near u c hc := by
    have hnear := h.near u (h.coloured u c hc)
    rw [due_of_some hc, Pi.zero_apply, sub_zero] at hnear
    exact mem_quarters.1 hnear

/-- At first every coloured spider is carried by itself. -/
theorem traced_start {d : Diagram} (hd : d.Coherent)
    (hcarrier : ∀ v, d.carriers[v]? = if d.web.IsColoured v then some ⟨v, 1⟩ else none)
    (hgrid : ∀ v, d.web.IsColoured v → (d.phase v).OnGrid D) (hok : start d = .ok g) :
    g.Coherent ∧ g.Traced D (colouredSpiders d) fun v => (d.phase v).value := by
  obtain ⟨g₁, hok₁, hg, -, hk, -, -, -, -, hphase, hm, hc⟩ := exists_start hd
  obtain rfl : g₁ = g := Except.ok.inj (hok₁.symm.trans hok)
  have hcol (u : Vertex) : g₁.web.IsColoured u ↔ d.web.IsColoured u := by
    rw [IsColoured, hk, IsColoured]
  have hname {u : Vertex} {c : Carrier} (h : g₁.web.carrier u = some c) :
      d.web.IsColoured u ∧ c = ⟨u, 1⟩ := by
    rw [hc] at h
    split at h
    · next hu => exact ⟨hu, (Option.some.inj h).symm⟩
    · cases h
  have hown {u : Vertex} (hu : d.web.IsColoured u) : d.web.IsOwn u := (hcarrier u).trans (if_pos hu)
  refine ⟨hg, ?_⟩
  rw [Traced, hm]
  refine ⟨Ledger.start (w := d.web) (fun v => ?_) fun v hv =>
    hgrid v ((mem_colouredSpiders hd).1 hv), fun u hu => ?_,
    fun u c h => (hcol u).2 (hname h).1, fun u c h => .inl ?_, fun u c h => ?_,
    fun u u' c c' h h' he => ?_, fun u hu => ?_⟩
  · simp only [mem_colouredSpiders hd]
    exact hcarrier v
  · have hu' := (hcol u).1 hu
    rw [hphase, if_pos hu'.has]
    exact hgrid u hu'
  · rw [(hname h).2]
  · rw [(hname h).2]
    exact hown (hname h).1
  · rw [(hname h).2, (hname h').2] at he
    exact he
  · have hu' := (hcol u).1 hu
    have hcu : g₁.web.carrier u = some ⟨u, 1⟩ := (hc u).trans (if_pos hu')
    rw [hphase, if_pos hu'.has, due_of_some hcu]
    simp

/-- The graph-like form of a diagram accounts for the phases of the diagram, however it is rewritten. At
    first, the coloured spiders are carried by themselves, with their phases on a grid, and no box
    has more than two wires. -/
theorem accounts_run {d : Diagram} (hd : d.Coherent)
    (hends : ∀ v, d.web.IsEnd v → d.web.degree v = 1)
    (hboxes : ∀ v, d.web.kind v = some .box → d.web.degree v ≤ 2)
    (hcarrier : ∀ v, d.carriers[v]? = if d.web.IsColoured v then some ⟨v, 1⟩ else none)
    (hD : Phase.IsGrid D) (hgrid : ∀ v, d.web.IsColoured v → (d.phase v).OnGrid D) :
    ∃ g, ofDiagram d = .ok g ∧ ∀ g', Run g g' → Accounts d g' := by
  obtain ⟨g, hok, hg, hr, hw, -⟩ := exists_ofDiagram_formed hd (hd.valid.hung hends)
  obtain ⟨-, ht⟩ := (Traced.converting hD).of_ofDiagram hd hboxes
    (fun g hstart => traced_start hd hcarrier hgrid hstart) hok
  exact ⟨g, hok, fun g' hrun => (ht.run hD ⟨hg, hr, hw, fun _ _ => rfl⟩ hrun).accounts⟩

end GraphLike

/-- Three coloured spiders and a box on a wire. -/
def Diagram.threeTurns : Diagram where
  graph := ⟨#[some [⟨2, .plain, 1⟩], some [⟨5, .plain, 1⟩], some [⟨0, .plain, 1⟩, ⟨3, .plain, 1⟩],
    some [⟨2, .plain, 1⟩, ⟨4, .plain, 1⟩], some [⟨3, .plain, 1⟩, ⟨5, .plain, 1⟩],
    some [⟨1, .plain, 1⟩, ⟨4, .plain, 1⟩]], 6, 5⟩
  kinds := .ofList [(0, .input), (1, .output), (2, .z), (3, .box), (4, .x), (5, .z)] compare
  phases := .ofList [(2, .reduce 1 4), (4, .reduce 3 4), (5, .reduce 1 2)] compare
  layout := .new 1
  inputs := [0]
  outputs := [1]
  carriers := .ofList ([2, 4, 5].map fun v => (v, ⟨v, 1⟩)) compare

namespace GraphLike

theorem threeTurns_accounts :
    (Diagram.threeTurns.Coherent ∧ (∀ v, Diagram.threeTurns.web.IsEnd v →
      Diagram.threeTurns.web.degree v = 1) ∧ Diagram.threeTurns.web.ShortBoxes ∧
      (∀ v, Diagram.threeTurns.carriers[v]? =
        if Diagram.threeTurns.web.IsColoured v then some ⟨v, 1⟩ else none) ∧ Phase.IsGrid 4 ∧
      ∀ v, Diagram.threeTurns.web.IsColoured v → (Diagram.threeTurns.phase v).OnGrid 4) ∧
    ∃ g, ofDiagram Diagram.threeTurns = .ok g ∧
      ∀ g', Run g g' → Accounts Diagram.threeTurns g' := by
  have hco : Diagram.threeTurns.Coherent := by decide +kernel
  have hall : ∀ v < 6, (Diagram.threeTurns.web.IsEnd v → Diagram.threeTurns.web.degree v = 1) ∧
      (Diagram.threeTurns.web.kind v = some .box → Diagram.threeTurns.web.degree v ≤ 2) ∧
      (v ∈ [2, 4, 5] ↔ Diagram.threeTurns.web.IsColoured v) ∧
      (Diagram.threeTurns.phase v).den ∣ 4 := by decide +kernel
  have hlt {v : Vertex} (hv : Diagram.threeTurns.web.Has v) : v < 6 := hco.valid.lt v hv
  have hends (v : Vertex) (hv : Diagram.threeTurns.web.IsEnd v) := (hall v (hlt hv.has)).1 hv
  have hboxes (v : Vertex) (hv : Diagram.threeTurns.web.kind v = some .box) :=
    (hall v (hlt (Web.has_of_kind hv))).2.1 hv
  have hgrid (v : Vertex) (hv : Diagram.threeTurns.web.IsColoured v) := (hall v (hlt hv.has)).2.2.2
  have hcarrier (v : Vertex) : Diagram.threeTurns.carriers[v]? =
      if Diagram.threeTurns.web.IsColoured v then some ⟨v, 1⟩ else none := by
    have hmem : v ∈ [2, 4, 5] ↔ Diagram.threeTurns.web.IsColoured v := by
      by_cases hv : v < 6
      · exact (hall v hv).2.2.1
      · refine iff_of_false (fun hm => hv ?_) fun hc => hv (hlt hc.has)
        fin_cases hm <;> decide
    refine (VertexMap.getElem?_ofList (by decide) _ v).trans ?_
    simp only [hmem]
  have hD : Phase.IsGrid 4 := ⟨by decide, by decide⟩
  exact ⟨⟨hco, hends, hboxes, hcarrier, hD, hgrid⟩,
    accounts_run hco hends hboxes hcarrier hD hgrid⟩

end GraphLike

end ZXRewriting

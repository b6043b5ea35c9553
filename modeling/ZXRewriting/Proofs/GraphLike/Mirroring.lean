import ZXRewriting.Proofs.GraphLike.Flow
import ZXRewriting.Proofs.GraphLike.Mirror
import ZXRewriting.Proofs.GraphLike.Settled

/-!
# The master mirrors the graph-like form throughout

The rules that phase teleportation applies keep a diagram mirrored by its master (`GraphLike.Mirrored`)
and the spiders without names anchored. Where the neighbours of a spider are fused and where gadgets
are, the master is told; all else that a rule does is sound for any twists. The pivots at the boundary
keep it because of the rules that come before them in a pass. So does the conversion to graph-like form,
at the end of which all spiders have names.

So it is once the graph-like form is made (`GraphLike.exists_mirrored`), and after any number of rounds of
phase teleportation (`GraphLike.Mirrored.of_teleportWithin`).
-/

namespace ZXRewriting

open Function (update update_self update_of_ne)

namespace Web

variable {w w₀ m : Web} {D : ℕ} {K : Finset Vertex} {P : Vertex → ℚ} {u v : Vertex}

/-- A pivot after moving off what is in the way. -/
theorem Traced.reflects_pivot_of_readied (h : Traced D K P 0 w m) (hD : Phase.IsGrid D)
    (hg : w.OnGrid D) (hr : Readied u w₀ w) (hv : w₀.IsInner v) (hj : u ∈ w₀.nearby v) (hne : v ≠ u)
    (hpv : (w₀.phase v).isPauli) : Reflects w (w.pivot v u) := by
  refine h.reflects_pivot hr.form hD hg (hr.pivotable hv hj hne) ?_ hr.phase
  rwa [hr.frame.phase v hv.1.1 hne]

end Web

/-- Whether a diagram denotes an invertible map, whatever its phases are, and whatever the factors of its
    spiders are twisted by. -/
def Diagram.Firm (n : ℕ) (d : Diagram) : Prop := ∀ (m : Diagram) (τ : Vertex → ℂ),
  (∃ phases carriers, m = { d with phases, carriers }) → (∀ v, τ v ≠ 0) →
    (∀ v, d.web.kind v = some .box → τ v = 1) →
      Reversible n d.outputs d.inputs (m.web.tensors τ).amplitude

namespace GraphLike

open Web

variable {g g' : GraphLike} {d : Diagram} {x : Except Fault GraphLike} {D n : ℕ} {K : Finset Vertex}
  {P : Vertex → ℚ} {rule : GraphRule} {s : Match}

section

variable (hg : g.Coherent) (hw : g.web.InForm)
include hg hw

/-- The rules keep a diagram mirrored by its master. -/
theorem Accepted.mirrors (hD : Phase.IsGrid D) (hgrid : g.web.OnGrid D) (ht : g.Traced D K P)
    (hm : g.web.Mirrors g.master.web) (hcol : ∀ r, g.master.web.IsOwn r → g.master.web.IsColoured r)
    {outputs inputs : List Vertex} (hf : g.web.Firm n outputs inputs)
    (ha : g.web.Anchored fun _ => True) (h : Accepted g rule x) :
    ∃ w m, Gives x w m ∧ w.Mirrors m.web := by
  have hne {v u : Vertex} (hj : u ∈ g.web.nearby v) : v ≠ u := hg.valid.ne_of_mem_nearby hj
  cases h with
  | localComplement hv hp =>
    exact ⟨_, _, Gives.localComplement hg hw.simple hv.1.1.has fun u hu => (hv.2 u hu).1,
      hm.reflects (Web.Traced.reflects_localComplement ht hw hD hgrid hv hp)⟩
  | pivot hv hu hj hpv hpu =>
    exact ⟨_, _, Gives.pivot hg hw.simple ((hw.readied hu hpu).pivotable hv hj (hne hj)),
      hm.reflects (Web.Traced.reflects_pivot_of_readied ht hD hgrid (hw.readied hu hpu) hv hj
        (hne hj) hpv)⟩
  | pivotBoundary hv hu hj hpv hpu =>
    have hshift := Web.Traced.reflects_shiftBoundaries ht hw hu.1
    have hpivot := (Web.Traced.shiftBoundaries ht hw hu.1).reflects_pivot_of_readied hD
      hgrid.shiftBoundaries (hw.readied_shiftBoundaries hu.1 hpu) hv hj (hne hj) hpv
    exact ⟨_, _, gives_pivotBoundary hg hw hv hu hj hpu, hm.reflects (hshift.trans hpivot)⟩
  | pivotGadget hv hu hj hpv =>
    have hshift := Web.Traced.reflects_shiftPhase ht hw hu.1.1
    have hpivot := (Web.Traced.shiftPhase ht hg.valid hu.1.1).reflects_pivot_of_readied hD
      hgrid.shiftPhase (hw.readied_shiftPhase hu) hv hj (hne hj) hpv
    exact ⟨_, _, gives_pivotGadget hg hw hv hu hj, hm.reflects (hshift.trans hpivot)⟩
  | pivotBoundaryGadget hv hu hj hpv =>
    obtain ⟨hform, hframe, -⟩ := hw.shiftBoundaries hu.1
    have hz := hframe.isZ hu.1
    have htraced := Web.Traced.shiftBoundaries ht hw hu.1
    have hshift := (Web.Traced.reflects_shiftBoundaries ht hw hu.1).trans
      (htraced.reflects_shiftPhase hform hz)
    have hpivot := (htraced.shiftPhase hform.simple.valid hz).reflects_pivot_of_readied hD
      hgrid.shiftBoundaries.shiftPhase (hw.readied_shiftPhase_shiftBoundaries hu.1) hv hj (hne hj) hpv
    exact ⟨_, _, gives_pivotBoundaryGadget hg hw hv hu hj, hm.reflects (hshift.trans hpivot)⟩
  | fuseNeighbors h hends =>
    exact ⟨_, _, Gives.fuseNeighbors hg hw h hends, hm.fuse ht hD hgrid hcol hw h⟩
  | fuseGadgets h hl hm' hc hd =>
    exact ⟨_, _, Gives.fuseGadgets hg hw.simple h hl hm',
      hm.fuseGadgets ht hD hgrid hcol hw hf ha h hc hd⟩

/-- The rules but one keep the spiders without names anchored, if pivots at the boundary are at spiders that
    are next to no inner one. -/
theorem Accepted.anchored (ha : g.web.Anchored fun _ => True) (hrule : rule ≠ .pivotBoundary)
    (hlone : rule = .pivotBoundaryGadget → ∀ v, g.web.IsInner v → (g.phase v).isPauli →
      ∀ y ∈ g.web.nearby v, ¬g.web.IsInner y) (h : Accepted g rule x) :
    ∃ w m, Gives x w m ∧ w.Anchored fun _ => True := by
  have hne {v u : Vertex} (hj : u ∈ g.web.nearby v) : v ≠ u := hg.valid.ne_of_mem_nearby hj
  cases h with
  | localComplement hv hp =>
    exact ⟨_, _, Gives.localComplement hg hw.simple hv.1.1.has fun u hu => (hv.2 u hu).1,
      ha.localComplement hw hv⟩
  | pivot hv hu hj hpv hpu =>
    exact ⟨_, _, Gives.pivot hg hw.simple ((hw.readied hu hpu).pivotable hv hj (hne hj)),
      ha.pivotInner hw hv hj hu hpu⟩
  | pivotBoundary => exact absurd rfl hrule
  | pivotGadget hv hu hj hpv =>
    exact ⟨_, _, gives_pivotGadget hg hw hv hu hj, ha.pivotGadget hw hv hj hu⟩
  | pivotBoundaryGadget hv hu hj hpv =>
    exact ⟨_, _, gives_pivotBoundaryGadget hg hw hv hu hj,
      ha.pivotBoundaryGadget hw hv hj hu (hlone rfl _ hv hpv)⟩
  | fuseNeighbors h hends => exact ⟨_, _, Gives.fuseNeighbors hg hw h hends, ha.fuse hw h⟩
  | fuseGadgets h hl hm' hc hd =>
    exact ⟨_, _, Gives.fuseGadgets hg hw.simple h hl hm', ha.fuseGadgets hw h⟩

end

/-- A graph-like form of a diagram, mirrored by its master. -/
structure Mirrored (D : ℕ) (d : Diagram) (g : GraphLike) : Prop where
  coherent : g.Coherent
  form : g.web.InForm
  grid : g.web.OnGrid D
  traced : g.Traced D (colouredSpiders d) fun v => (d.phase v).value
  framed : ∃ phases carriers, g.master = { d with phases, carriers }
  mirrors : g.web.Mirrors g.master.web
  anchored : g.web.Anchored fun _ => True

namespace Mirrored

theorem inGrid (h : g.Mirrored D d) : g.InGrid D := ⟨⟨h.coherent, h.form.formed⟩, h.grid⟩

section

variable (h : g.Mirrored D d) (hd : d.Coherent)
include h hd

/-- Whoever carries phases has one. -/
theorem coloured {r : Vertex} (hr : g.master.web.IsOwn r) : g.master.web.IsColoured r := by
  have hmem := (mem_colouredSpiders hd).1 (h.traced.ledger.mem_of_own hr)
  obtain ⟨phases, carriers, hm⟩ := h.framed
  rw [hm]
  exact hmem

/-- The map of the diagram is invertible, and so is the one with twists. -/
theorem firm (hf : d.Firm n) : g.web.Firm n d.outputs d.inputs := by
  refine h.mirrors.firm fun τ hτ => hf g.master τ h.framed hτ.ne_zero fun v hv => hτ.eq_one v ?_
  rintro ⟨u, c, hu, rfl⟩
  have hcol := h.coloured hd (h.traced.own u c hu)
  obtain ⟨phases, carriers, hm⟩ := h.framed
  have hkind : g.master.web.kind = d.web.kind := by rw [hm]; rfl
  rw [IsColoured, hkind, hv] at hcol
  cases hcol

/-- Rewriting at a match, at the boundary where no inner spiders are. -/
theorem exists_apply (hD : Phase.IsGrid D) (hf : d.Firm n) (hrule : rule ≠ .pivotBoundary)
    (hlone : rule = .pivotBoundaryGadget → ∀ v, g.web.IsInner v → (g.phase v).isPauli →
      ∀ y ∈ g.web.nearby v, ¬g.web.IsInner y) (hcheck : rule.check g s = .ok true) :
    ∃ g', rule.apply g s = .ok g' ∧ g'.Mirrored D d := by
  have haccepted := accepted_of_check h.coherent h.form hcheck
  obtain ⟨w, m, ⟨g', hok, hg', rfl, -⟩, hstep⟩ := gives_of_check h.coherent h.form hcheck
  have hkept := hstep.rewrites h.form hD h.grid
  obtain ⟨_, _, ⟨g₁, hok₁, -, rfl, rfl⟩, hmirrors⟩ := haccepted.mirrors h.coherent h.form hD h.grid
    h.traced h.mirrors (fun _ => h.coloured hd) (h.firm hd hf) h.anchored
  obtain rfl : g₁ = g' := Except.ok.inj (hok₁.symm.trans hok)
  obtain ⟨_, _, ⟨g₂, hok₂, -, rfl, -⟩, hanchored⟩ :=
    haccepted.anchored h.coherent h.form h.anchored hrule hlone
  obtain rfl : g₂ = g₁ := Except.ok.inj (hok₂.symm.trans hok)
  have hbooked : Booked _ g₂ := (keeps_booked rule g s ⟨bookkeeping_frame d, h.framed⟩ hcheck).of_ok hok
  exact ⟨g₂, hok, hg', hkept.form, hkept.grid,
    h.traced.apply hD h.coherent h.form.formed hcheck hok, hbooked.holds, hmirrors, hanchored⟩

end

end Mirrored

/-! ### Rounds -/

section

variable (hD : Phase.IsGrid D) (hd : d.Coherent) (hf : d.Firm n)
include hD hd hf

/-- The rules of phase teleportation that do not look at the boundary. -/
theorem keeps_mirrored (rule : GraphRule) (hrule : rule ≠ .pivotBoundary)
    (hrule' : rule ≠ .pivotBoundaryGadget) : Rule.Keeps rule (Mirrored D d) := fun g s h hcheck => by
  obtain ⟨g', hok, h'⟩ := h.exists_apply hd hD hf hrule (fun he => absurd he hrule') hcheck
  exact Meets.of_exists ⟨g', hok, h'⟩

/-- The pivots at the boundary after the others. -/
theorem keeps_mirrored_sparse : Rule.Keeps GraphRule.pivotBoundaryGadget
    fun g : GraphLike => g.Mirrored D d ∧ g.web.Sparse := fun g s hinv hcheck => by
  obtain ⟨h, hsparse⟩ := hinv
  obtain ⟨g', hok, h'⟩ := h.exists_apply hd hD hf (by decide)
    (fun _ v hv hp y hy => hsparse.not_isInner hv hp hy) hcheck
  have hkept := (keeps_sparse hD g s ⟨h.inGrid, hsparse⟩ hcheck).of_ok hok
  exact Meets.of_exists ⟨g', hok, h', hkept.2⟩

namespace Mirrored

theorem of_pass (h : g.Mirrored D d) (hok : g.simplifyAll passRules = .ok g') :
    g'.Mirrored D d := by
  obtain ⟨n₁, g₁, h₁, hok⟩ := of_simplifyAll_cons hok
  obtain ⟨n₂, g₂, h₂, hok⟩ := of_simplifyAll_cons hok
  obtain ⟨n₃, g₃, h₃, hok⟩ := of_simplifyAll_cons hok
  obtain ⟨n₄, g₄, h₄, hok⟩ := of_simplifyAll_cons hok
  obtain rfl : g₄ = g' := Except.ok.inj hok
  have hkept {rule : GraphRule} (hrule : rule ≠ .pivotBoundary) (hrule' : rule ≠ .pivotBoundaryGadget)
      {m : ℕ} {g g' : GraphLike} (h : g.Mirrored D d) (hok : g.simplify rule = .ok (m, g')) :
      g'.Mirrored D d := (keeps_mirrored hD hd hf rule hrule hrule').of_simplifyWithin h hok
  have hmirrored := hkept (by decide) (by decide)
    (hkept (by decide) (by decide) (hkept (by decide) (by decide) h h₁) h₂) h₃
  obtain ⟨-, hsparse⟩ := sparse_of_simplify hD h.inGrid h₁ h₂ h₃
  exact ((keeps_mirrored_sparse hD hd hf).of_simplifyWithin ⟨hmirrored, hsparse⟩ h₄).1

theorem of_teleportRound {fused : ℕ} (h : g.Mirrored D d) (hok : teleportRound g = .ok (fused, g')) :
    g'.Mirrored D d := by
  obtain ⟨g₁, n₂, g₂, n₃, h₁, h₂, h₃, -⟩ := GraphLike.of_teleportRound hok
  have hidentity := keeps_mirrored hD hd hf .identity (by decide) (by decide)
  have hfusion := keeps_mirrored hD hd hf .gadgetFusion (by decide) (by decide)
  exact (hfusion.replace ((hidentity.replace (h.of_pass hD hd hf h₁)).of_ok h₂)).of_ok h₃

/-- Rounds keep a diagram mirrored by its master, however many there are. -/
theorem of_teleportWithin (h : g.Mirrored D d) {rounds : ℕ} (hok : teleportWithin rounds g = .ok g') :
    g'.Mirrored D d := by
  induction rounds generalizing g with
  | zero => cases hok
  | succ rounds ih =>
    rw [teleportWithin] at hok
    obtain ⟨⟨fused, g₁⟩, h₁, hok⟩ := of_bind_eq_ok hok
    have hround := h.of_teleportRound hD hd hf h₁
    dsimp only at hok
    split at hok
    · exact Except.ok.inj hok ▸ hround
    · exact ih hround hok

end Mirrored

end

/-! ### Conversion -/

/-- What is kept on the way to graph-like form: the coloured spiders have names, and the master mirrors what
    there is. -/
structure Mirroring (D : ℕ) (d : Diagram) (g : GraphLike) : Prop where
  traced : g.Traced D (colouredSpiders d) fun v => (d.phase v).value
  booked : Booked (fun _ m => ∃ phases carriers, m = { d with phases, carriers }) g
  mirrors : g.web.Mirrors g.master.web
  named : ∀ v, g.web.IsColoured v → g.web.carrier v ≠ none

/-- A step of the conversion that leaves the master and the names of those that stay as they are. -/
theorem Mirroring.of_converts (h : g.Mirroring D d)
    (htraced : Web.Traced D (colouredSpiders d) (fun v => (d.phase v).value) 0 g'.web g.master.web)
    (hm : g'.master = g.master) (hconverts : Converts g.web g'.web)
    (hstay : ∀ v, g'.web.IsColoured v → g.web.IsColoured v ∧ g'.web.carrier v = g.web.carrier v) :
    g'.Mirroring D d := by
  refine ⟨?_, ⟨h.booked.keeping, hm ▸ h.booked.holds⟩, ?_, fun v hv => ?_⟩
  · rw [Traced, hm]
    exact htraced
  · rw [hm]
    refine h.mirrors.reflects (Web.Traced.reflects_of_converts h.traced hconverts (fun v => ?_)
      fun v hv => htraced.carrier_of_not_coloured fun hcol => hv hcol.has)
    by_cases hv : g'.web.IsColoured v
    · exact .inr (hstay v hv).2
    · exact .inl (htraced.carrier_of_not_coloured hv)
  · rw [(hstay v hv).2]
    exact h.named v (hstay v hv).1

/-- The master is told of spiders that are fused. -/
theorem Mirroring.of_fuseInto {v u : Vertex} (h : g.Mirroring D d)
    (hD : Phase.IsGrid D) (hd : d.Coherent) (hg : g.Coherent) (hgrid : g.web.OnGrid D)
    (hv : g.web.IsZ v) (hu : g.web.IsZ u) (hne : v ≠ u) (hpos : 0 < g.web.count u v .plain)
    (hok : g.fuseInto v u = .ok g') : g'.Mirroring D d := by
  obtain ⟨links, hlinks, g₁, hok₁, -, hw, hm⟩ := exists_fuseInto hg hv hu
  obtain rfl : g₁ = g' := Except.ok.inj (hok₁.symm.trans hok)
  have hcol {r : Vertex} (hr : g.master.web.IsOwn r) : g.master.web.IsColoured r := by
    obtain ⟨phases, carriers, hm⟩ := h.booked.holds
    rw [hm]
    exact (mem_colouredSpiders hd).1 (h.traced.ledger.mem_of_own hr)
  refine ⟨?_, h.booked.fuseInto.of_ok hok, ?_, fun x hx hnone => ?_⟩
  · rw [Traced, hw, hm]
    exact Web.Traced.takeIn h.traced hD hv hu hne links
  · rw [hw, hm]
    exact h.mirrors.takeIn h.traced hD hgrid (fun _ => hcol) hg.valid hv hu hne hlinks hpos
  · have hxu : x ≠ u := fun he => by
      rw [hw, he, IsColoured, kind_takeIn, update_self] at hx
      cases hx
    rw [hw, IsColoured, kind_takeIn, update_of_ne hxu] at hx
    rw [hw, Web.takeIn, carrier_remove, update_of_ne hxu] at hnone
    have hgather : (g.web.gather v u links).carrier = g.web.carrier := carrier_moveLinks
    refine h.named x hx ?_
    by_cases hxv : x = v
    · subst hxv
      rw [← hgather]
      exact (carrier_mergeCarriers_eq_none hne hnone).1
    · rwa [carrier_mergeCarriers_of_ne hxv hxu, hgather] at hnone

/-- Each step of the conversion keeps that. -/
theorem drawing_mirroring (hD : Phase.IsGrid D) (hd : d.Coherent) :
    Drawing D d.web (Mirroring D d) where
  recolour g g' v hs h hx hok hg' hw' := by
    obtain ⟨g₁, hok₁, -, -, hm⟩ := Gives.recolour hs.coherent hx
    obtain rfl : g₁ = g' := Except.ok.inj (hok₁.symm.trans hok)
    refine h.of_converts ?_ hm ?_ fun u hu => ?_ <;> rw [hw'] at *
    · exact Web.Traced.flip h.traced hx
    · exact hs.framed.converts_flip hx rfl
    · exact ⟨(isColoured_flip hx rfl).1 hu, rfl⟩
  fuseInto g g' v u _ hs h hv hu hne _ hpos hok _ _ :=
    h.of_fuseInto hD hd hs.coherent hs.onGrid hv hu hne hpos hok
  unbox g g' b a c k₁ k₂ k h hbox hends hconverts hw' hm := by
    refine h.of_converts ?_ hm hconverts fun u hu => ?_
    · rw [hw']
      exact Web.Traced.unboxed h.traced hD hbox (.wire hends)
    · rw [hw'] at hu ⊢
      have hub : u ≠ b := fun he => by
        rw [he, IsColoured, kind_unbox, update_self] at hu
        cases hu
      rw [IsColoured, kind_unbox, update_of_ne hub] at hu
      refine ⟨hu, ?_⟩
      rw [Web.unbox]
      split_ifs <;> exact update_of_ne hub _ _
  reduce g g' h hconverts hw' hm := by
    refine h.of_converts ?_ hm hconverts fun u hu => ?_
    · rw [hw']
      exact Web.Traced.congr h.traced (fun _ => .rfl) (fun _ _ => rfl) rfl
    · rw [hw'] at hu ⊢
      exact ⟨hu, rfl⟩

/-- At first every coloured spider names itself. -/
theorem mirroring_start (hd : d.Coherent) (hown : d.web.carrier = d.web.ownNames)
    (hgrid : d.web.OnGrid D) (hok : start d = .ok g) : g.Mirroring D d := by
  obtain ⟨-, htraced⟩ := traced_start hd (fun v => congrFun hown v) (fun v _ => hgrid v) hok
  have hbooked := (Booked.start (bookkeeping_frame d) hd ⟨d.phases, d.carriers, rfl⟩).of_ok hok
  obtain ⟨g₁, hok₁, hg₁, -, hk, hc, hin, hout, hn, hphase, hm, hcarrier⟩ := exists_start hd
  obtain rfl : g₁ = g := Except.ok.inj (hok₁.symm.trans hok)
  have hnamed {v : Vertex} (hv : d.web.IsColoured v) : g₁.web.carrier v = some ⟨v, 1⟩ :=
    (hcarrier v).trans (if_pos hv)
  have hnames {r : Vertex} (hr : g₁.web.Names r) : d.web.IsColoured r := by
    obtain ⟨u, c, hu, rfl⟩ := hr
    rw [hcarrier] at hu
    split at hu
    · next hcol => exact (Option.some.inj hu) ▸ hcol
    · cases hu
  refine ⟨htraced, hbooked, fun τ hτ => ?_, fun v hv => ?_⟩
  · have htwist : g₁.web.twist τ = τ := funext fun v => by
      by_cases hv : d.web.IsColoured v
      · rw [twist_of_some (hnamed hv), zpow_one]
      · rw [twist_of_none ((hcarrier v).trans (if_neg hv)), hτ.eq_one v fun hr => hv (hnames hr)]
    have hconverts : Converts d.web g₁.web :=
      .of_phase hn hk hc hin hout fun v hv => (hphase v).trans (if_pos hv)
    rw [hm, htwist]
    refine hconverts.amplitude τ fun v hv => hτ.eq_one v fun hr => hv ?_
    rw [Has, hk]
    exact (hnames hr).has
  · have hcol : d.web.IsColoured v := by rwa [IsColoured, hk] at hv
    rw [hnamed hcol]
    exact Option.some_ne_none _

/-- The graph-like form of a diagram that is drawn from a circuit is mirrored by its master. -/
theorem exists_mirrored (hD : Phase.IsGrid D) (hd : d.Coherent) (hw : d.web.Drawn)
    (hgrid : d.web.OnGrid D) (hown : d.web.carrier = d.web.ownNames) :
    ∃ g, ofDiagram d = .ok g ∧ g.Mirrored D d ∧ Converts d.web g.web := by
  obtain ⟨g, hok, hg, hform, hgrid', hconverts, h⟩ := (drawing_mirroring hD hd).exists_ofDiagram hd hw
    hD hgrid fun g hstart => mirroring_start hd hown hgrid hstart
  exact ⟨g, hok, ⟨hg, hform, hgrid', h.traced, h.booked.holds, h.mirrors,
    .of_named fun v hv => h.named v hv.isColoured⟩, hconverts⟩

end GraphLike

end ZXRewriting

import ZXRewriting.Proofs.Diagram.NonClifford
import ZXRewriting.Proofs.GraphLike.Ending
import ZXRewriting.Proofs.GraphLike.Unboxing
import ZXRewriting.Proofs.Rewriting.Rule

/-!
# The T-count of graph-like diagrams

A bound on the T-count of a diagram without larger boxes is one on that of its graph-like form
(`GraphLike.tCountLe_ofDiagram`), and the rules that remove Clifford spiders keep it
(`GraphLike.keeps_bounded`), as all that they add to phases are multiples of a quarter turn. A pivot
at the frontier keeps it too (`GraphLike.Bounded.frontierPivot`): a phase that is in the way there is
moved onto a new leaf.
-/

namespace ZXRewriting

open Function (update update_self update_of_ne)

namespace Web

variable {w w' : Web} {n : ℕ} {p : Phase} {h u v x : Vertex} {links : List Link}

namespace TCountLe

section

variable (hw : w.TCountLe n)
include hw

theorem flip (hv : w.kind v = some .x) : (w.flip v).TCountLe n :=
  hw.of_imp fun u hu => by
    refine ⟨?_, hu.2⟩
    have hcol := hu.1
    rw [IsColoured, kind_flip, kindAt_eq hv, Function.update_apply] at hcol
    split at hcol
    · next he =>
      rw [IsColoured, he, hv]
      rfl
    · exact hcol

/-- Taking out a box leaves a phase of pi at most. -/
theorem unboxed (hu : Unboxed w h w') : w'.TCountLe n := by
  cases hu with
  | alone => exact hw.remove h
  | leaf =>
    refine hw.of_imp fun u hu => ?_
    have hphase := hu.2
    dsimp only at hphase
    rw [phase_setPhase, Function.update_apply] at hphase
    split at hphase
    · exact absurd rfl hphase
    · next hne =>
      refine ⟨?_, hphase⟩
      have hcol := hu.1
      rw [IsColoured] at hcol
      dsimp only at hcol
      rwa [update_of_ne hne] at hcol
  | wire _ =>
    rw [unbox]
    split
    · split
      · exact (hw.remove h).addToPhase rfl
      · exact hw.remove h
    · exact (hw.remove h).congr rfl rfl

omit hw in
/-- The links that are moved turn into half turns at most. -/
theorem isClifford_moveLinks (hx : (w.phase x).isClifford) :
    ((links.foldl (moveLink v) w).phase x).isClifford := by
  induction links generalizing w with
  | nil => exact hx
  | cons l rest ih =>
    refine ih ?_
    rw [moveLink]
    split
    · exact hx
    · split
      · rw [phase_addToPhase, Function.update_apply]
        split
        · next he => exact Phase.isClifford_add (he ▸ hx) rfl
        · exact hx
      · exact hx

theorem takeIn (hu : w.IsColoured u) (hne : u ≠ v) : (w.takeIn v u links).TCountLe n := by
  obtain ⟨-, hkind, -⟩ := moveLinks_fields v (w.addToPhase v (w.phase u)) links
  obtain ⟨c, hc⟩ := exists_mergeCarriers (w.gather v u links) v u
  have hgone : ¬(w.takeIn v u links).IsNonClifford u := fun h => h.2 (by
    rw [Web.takeIn, phase_remove, update_self]
    rfl)
  have hphase (x : Vertex) (hxu : x ≠ u) (hx : ((w.addToPhase v (w.phase u)).phase x).isClifford) :
      ((w.takeIn v u links).phase x).isClifford := by
    rw [Web.takeIn, hc, phase_remove, update_of_ne hxu]
    exact isClifford_moveLinks hx
  refine hw.fuse hu (fun x hx => ?_) (fun hv hu => hphase v hne.symm ?_)
    (fun x hxu hxv hx => hphase x hxu ?_) hgone
  · rw [IsColoured, Web.takeIn, hc, kind_remove, Function.update_apply] at hx
    split at hx
    · cases hx
    · rwa [show ({ w.gather v u links with carrier := c } : Web).kind = w.kind from hkind] at hx
  · rw [phase_addToPhase, update_self]
    exact Phase.isClifford_add hv hu
  · rwa [phase_addToPhase, update_of_ne hxv]

/-- A phase is moved onto a new leaf. -/
theorem shift (hu : w.IsZ u) :
    (((w.addSpider .zero).addSpider (w.phase u)).setPhase u .zero).TCountLe n := by
  refine hw.move (s := u) (t := w.next + 1) (fun hc => hc.2 ?_) (fun ht => .inl ⟨hu.isColoured, ?_⟩)
    fun v hv hvn => ?_
  · rw [phase_setPhase, update_self]
    rfl
  · have hne : w.next + 1 ≠ u := fun he => ht.2 (by rw [he, phase_setPhase, update_self]; rfl)
    have hphase := ht.2
    rw [phase_setPhase, update_of_ne hne, phase_addSpider] at hphase
    rwa [show w.next + 1 = (w.addSpider .zero).next from rfl, update_self] at hphase
  · obtain ⟨hcol, hphase⟩ := hvn
    rw [phase_setPhase, Function.update_apply] at hphase
    split at hphase
    · exact absurd rfl hphase
    rw [phase_addSpider, update_of_ne (show v ≠ (w.addSpider .zero).next from hv), phase_addSpider,
      Function.update_apply] at hphase
    split at hphase
    · exact absurd rfl hphase
    next hvn =>
    refine ⟨?_, hphase⟩
    rwa [IsColoured, kind_setPhase, kind_addSpider,
      update_of_ne (show v ≠ (w.addSpider .zero).next from hv), kind_addSpider, update_of_ne hvn] at hcol

end

end TCountLe

theorem Uniform.addSpider (hw : w.Uniform) (p : Phase) : (w.addSpider p).Uniform := fun v hv => by
  rw [Has, kind_addSpider, Function.update_apply] at hv
  rw [IsZ, IsEnd, kind_addSpider, Function.update_apply]
  split
  · exact .inl rfl
  · next hne => exact hw v (by rwa [if_neg hne] at hv)

end Web

namespace GraphLike

open Web

variable {g g' : GraphLike} {d : Diagram} {n : ℕ} {p : Phase} {u v : Vertex}

/-! ### Conversion -/

/-- The conversion keeps a bound. -/
theorem converting_tCountLe (n : ℕ) : Converting fun g => g.Coherent ∧ g.web.TCountLe n where
  coherent _ h := h.1
  recolour _ _ _ h hx _ hg' hw' := ⟨hg', hw' ▸ h.2.flip hx⟩
  fuseInto _ _ _ _ _ h _ hu hne _ _ _ hg' hw' := ⟨hg', hw' ▸ h.2.takeIn hu.isColoured hne.symm⟩
  unbox _ _ _ h _ hu hg' _ := ⟨hg', h.2.unboxed hu⟩
  reduce _ _ h hg' hw _ := ⟨hg', hw ▸ h.2.congr rfl rfl⟩

/-- The graph-like form of a diagram without larger boxes has no more phases that are no multiples of a
    quarter turn. -/
theorem tCountLe_ofDiagram (hd : d.Coherent) (hs : d.web.ShortBoxes) (hn : d.web.TCountLe n)
    (hok : ofDiagram d = .ok g) : g.web.TCountLe n := by
  refine ((converting_tCountLe n).of_ofDiagram hd hs (fun g hstart => ?_) hok).2
  obtain ⟨g₁, hok₁, hg, -, hk, -, -, -, -, hphase, -⟩ := exists_start hd
  obtain rfl : g₁ = g := Except.ok.inj (hok₁.symm.trans hstart)
  refine ⟨hg, hn.of_imp fun v hv => ?_⟩
  have hcol : d.web.IsColoured v := by
    rw [IsColoured, ← hk]
    exact hv.1
  refine ⟨hcol, ?_⟩
  rw [show d.web.phase v = g₁.web.phase v from (hphase v ▸ (if_pos hcol.has).symm)]
  exact hv.2

/-! ### Rules -/

/-- All spiders but the ends are Z spiders, and at most `n` of them have a phase that is no multiple
    of a quarter turn. -/
structure Bounded (n : ℕ) (g : GraphLike) : Prop where
  uniform : g.web.Uniform
  tCountLe : g.web.TCountLe n

theorem Bounded.congr (h : Bounded n g) (hk : g'.web.kind = g.web.kind)
    (hp : g'.web.phase = g.web.phase) : Bounded n g' := by
  refine ⟨fun v hv => ?_, h.tCountLe.congr hk hp⟩
  rw [Has, hk] at hv
  rw [IsZ, IsEnd, hk]
  exact h.uniform v hv

theorem stable_bounded : Stable (fun _ p => p.isClifford) (Bounded n) where
  rewire _ _ _ h := h.congr rfl rfl
  addToPhase _ _ _ hp h := by
    refine ⟨h.uniform, ?_⟩
    rw [web_addToPhase]
    exact h.tCountLe.addToPhase hp
  addSpider g qubit column h := by
    have hweb := web_addSpider (q := qubit) (c := column) g .zero
    exact ⟨hweb ▸ h.uniform.addSpider .zero, hweb ▸ h.tCountLe.addSpider rfl⟩

theorem Bounded.removeSpider (h : Bounded n g) : Leaves (g.removeSpider v) (Bounded n) := by
  refine leaves_removeSpider.imp fun _ hremoved => ?_
  obtain ⟨hk, hp, -⟩ := hremoved
  refine ⟨fun u hu => ?_, ?_⟩
  · rw [Has, hk, Function.update_apply] at hu
    rw [IsZ, IsEnd, hk, Function.update_apply]
    split
    · next he => simp [he] at hu
    · next hne => exact h.uniform u (by rwa [if_neg hne] at hu)
  · exact (h.tCountLe.remove v).congr hk hp

theorem Bounded.localComplement (h : Bounded n g) (hp : (g.phase v).isClifford) :
    Leaves (g.localComplement v) (Bounded n) :=
  stable_bounded.leaves_localComplement h (fun _ _ h => h.removeSpider)
    fun _ _ _ _ => ⟨Phase.isClifford_neg hp, rfl⟩

theorem Bounded.pivot (h : Bounded n g) (hv : (g.phase v).isPauli) (hu : (g.phase u).isPauli) :
    Leaves (g.pivot v u) (Bounded n) :=
  stable_bounded.leaves_pivot h (fun _ _ h => h.removeSpider) (fun _ _ h => h.removeSpider)
    (fun _ _ _ _ => ⟨Phase.isClifford_of_isPauli hu, rfl⟩)
    fun _ _ _ _ => Phase.isClifford_of_isPauli hv

/-- Moving the boundary away leaves a phase of 0 or pi such. -/
theorem stable_isPauli (v : Vertex) : Stable (fun _ p => p.isPauli) fun g => (g.phase v).isPauli where
  rewire _ _ _ h := h
  addToPhase g u p hp h := by
    change ((g.toDiagram.addToPhase u p).phase v).isPauli
    rw [Diagram.phase_addToPhase]
    split
    · next he => exact Phase.isPauli_add (he ▸ h) hp
    · exact h
  addSpider g qubit column h := by
    change ((g.addSpider .zero qubit column).2.web.phase v).isPauli
    rw [web_addSpider, phase_addSpider, Function.update_apply]
    split
    · rfl
    · exact h

/-- The rules that remove spiders with Clifford phases, without moving a phase off. -/
def cliffordRules : List GraphRule := [.localComplement, .pivot, .pivotBoundary]

/-- They keep a bound. -/
theorem keeps_bounded (rule : GraphRule) (hrule : rule ∈ cliffordRules) :
    Rule.Keeps rule (Bounded n) := by
  intro g m hg hcheck
  change rule.check g m = .ok true at hcheck
  change Leaves (rule.apply g m) (Bounded n)
  rw [GraphRule.check] at hcheck
  split at hcheck
  swap
  · cases hcheck
  clear * - hg hrule hcheck
  rw [GraphRule.checkPresent.eq_def] at hcheck
  split at hcheck
  case h_1 v =>
    simp only [checkLocalComplement, and_eq_true_iff] at hcheck
    exact hg.localComplement (Phase.isClifford_of_isProperClifford (Except.ok.inj hcheck.1))
  case h_2 v u =>
    simp only [checkPivot, isInnerPauli, and_eq_true_iff] at hcheck
    exact hg.pivot (Except.ok.inj hcheck.2.1.1) (Except.ok.inj hcheck.2.2.1)
  case h_3 v u _ =>
    simp only [checkPivotBoundary, isInnerPauli, and_eq_true_iff] at hcheck
    have hphases := And.intro (Except.ok.inj hcheck.1.2.1.1) (Except.ok.inj hcheck.1.2.2.1)
    have hstable := stable_bounded (n := n).and ((stable_isPauli v).and (stable_isPauli u))
    exact (hstable.leaves_shiftBoundaries ⟨hg, hphases⟩).bind fun g₁ h₁ => h₁.1.pivot h₁.2.1 h₁.2.2
  case h_8 => cases hcheck
  all_goals exact absurd hrule (by decide)

/-- A diagram without larger boxes has no greater T-count once its Clifford spiders are removed. -/
theorem bounded_cliffordForm (hd : d.Coherent) (hends : ∀ v, d.web.IsEnd v → d.web.degree v = 1)
    (hs : d.web.ShortBoxes) (hn : d.web.TCountLe n) : Leaves (cliffordForm d) (Bounded n) := by
  obtain ⟨g, hok, -, -, hw, -⟩ := exists_ofDiagram_formed hd (hd.valid.hung hends)
  have hg : Bounded n g := ⟨hw.simple.colour, tCountLe_ofDiagram hd hs hn hok⟩
  have hrules : ∀ rule ∈ [GraphRule.localComplement, .pivot], rule ∈ cliffordRules := by decide
  rw [cliffordForm, hok]
  refine (leaves_simplifyAll (fun rule hrule => keeps_bounded rule (hrules rule hrule)) hg).bind fun g₁ h₁ => ?_
  exact ((keeps_bounded .pivotBoundary (by decide)).replace h₁).bind fun r hr => hr

/-! ### Pivoting at the frontier -/

/-- A spider that was there is not a new one. -/
theorem stable_lt (v : Vertex) : Stable (fun _ _ => True) fun g => v < g.graph.nextVertex where
  rewire _ _ hn h := hn.symm ▸ h
  addToPhase _ _ _ _ h := h
  addSpider g _ _ h := by
    refine Nat.lt_of_lt_of_eq (Nat.lt_succ_of_lt h) ?_
    exact (Multigraph.nextVertex_addVertex g.graph).symm

theorem stable_isZ (v : Vertex) : Stable (fun _ _ => True) fun g => g.web.IsZ v where
  rewire _ _ _ h := h
  addToPhase _ _ _ _ h := h
  addSpider g qubit column h := by
    rw [web_addSpider, IsZ, kind_addSpider, Function.update_apply]
    split
    · rfl
    · exact h

theorem exists_moveCarrier (g : GraphLike) (u v : Vertex) :
    ∃ carriers, g.moveCarrier u v = { g with carriers } := by
  rw [moveCarrier]
  split
  · exact ⟨g.carriers, rfl⟩
  · exact ⟨_, rfl⟩

/-- Moving a phase off leaves another spider that was there with a phase of 0 or pi. -/
theorem Bounded.shiftPhase (h : Bounded n g) (hu : g.web.IsZ u) (hv : v < g.graph.nextVertex)
    (hp : (g.phase v).isPauli) : Leaves (g.shiftPhase u) fun g' =>
      Bounded n g' ∧ (g'.phase v).isPauli ∧ (g'.phase u).isPauli := by
  rw [GraphLike.shiftPhase]
  split
  · next hpu => exact ⟨h, hp, hpu⟩
  set column := g.column? u
  set g₁ := ((g.addSpider .zero none column).2.addSpider (g.phase u) none column).2.setPhase u .zero
    with hg₁
  have hweb : g₁.web = ((g.web.addSpider .zero).addSpider (g.web.phase u)).setPhase u .zero := by
    rw [hg₁, web_setPhase, web_addSpider, web_addSpider]
    rfl
  have hphase : g₁.web.phase = update (update (update g.web.phase g.web.next .zero) (g.web.next + 1)
      (g.web.phase u)) u .zero := by
    rw [hweb]
    rfl
  have h₁ : Bounded n g₁ := by
    refine ⟨?_, hweb ▸ h.tCountLe.shift hu⟩
    rw [hweb]
    exact (h.uniform.addSpider .zero).addSpider (g.web.phase u)
  have hpv : (g₁.phase v).isPauli := by
    have hne : v ≠ g.web.next + 1 := Nat.ne_of_lt (Nat.lt_succ_of_lt hv)
    change (g₁.web.phase v).isPauli
    rw [hphase, Function.update_apply]
    split
    · rfl
    rw [update_of_ne hne, update_of_ne (show v ≠ g.web.next from Nat.ne_of_lt hv)]
    exact hp
  have hpu : (g₁.phase u).isPauli := by
    change (g₁.web.phase u).isPauli
    rw [hphase, update_self]
    rfl
  have hstable := stable_bounded (n := n).and ((stable_isPauli v).and (stable_isPauli u))
  refine (hstable.leaves_addEdge ⟨h₁, hpv, hpu⟩).bind fun g₂ h₂ =>
    (hstable.leaves_addEdge h₂).bind fun g₃ hinv => ?_
  obtain ⟨h₃, hv₃, hu₃⟩ := hinv
  suffices hmoved : ∀ leaf, Bounded n (g₃.moveCarrier u leaf) ∧
      ((g₃.moveCarrier u leaf).phase v).isPauli ∧ ((g₃.moveCarrier u leaf).phase u).isPauli from
    hmoved _
  intro leaf
  obtain ⟨carriers, hmove⟩ := exists_moveCarrier g₃ u leaf
  rw [hmove]
  exact ⟨h₃.congr rfl rfl, hv₃, hu₃⟩

/-- A pivot at the frontier keeps a bound. -/
theorem Bounded.frontierPivot (h : Bounded n g) (hcheck : g.checkFrontierPivot v u = .ok true) :
    Leaves (g.frontierPivot v u) (Bounded n) := by
  simp only [checkFrontierPivot, isPivotable, isZ, and_eq_true_iff] at hcheck
  obtain ⟨hjoined, -, ⟨hu, -⟩, hpv, -⟩ := hcheck
  have hpv := Except.ok.inj hpv
  have hu : g.web.IsZ u := by
    obtain ⟨k, hk, heq⟩ := of_bind_eq_ok hu
    rw [IsZ, Diagram.kind_of_eq_ok hk, eq_of_beq (Except.ok.inj heq)]
  have hv := Multigraph.lt_nextVertex (contains_of_hadamardJoined hjoined)
  -- the first spider has no phase in the way
  have hclear : g.clear v = g.shiftBoundaries v := by
    rw [GraphLike.clear, GraphLike.shiftPhase, if_pos hpv]
    rfl
  rw [GraphLike.frontierPivot, hclear]
  have hstable := stable_bounded (n := n).and ((stable_isPauli v).and ((stable_lt v).and (stable_isZ u)))
  refine (hstable.leaves_shiftBoundaries ⟨h, hpv, hv, hu⟩).bind fun g₁ hinv => ?_
  obtain ⟨h₁, hpv₁, hv₁, hu₁⟩ := hinv
  refine Meets.bind (P := fun g => Bounded n g ∧ (g.phase v).isPauli ∧ (g.phase u).isPauli) ?_
    fun g₂ h₂ => h₂.1.pivot h₂.2.1 h₂.2.2
  have hstable' := stable_bounded (n := n).and ((stable_isPauli v).and (stable_isPauli u))
  exact (h₁.shiftPhase hu₁ hv₁ hpv₁).bind fun g₂ h₂ => hstable'.leaves_shiftBoundaries h₂

end GraphLike

end ZXRewriting

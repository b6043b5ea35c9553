import Mathlib
import ZXRewriting.Proofs.GraphLike.Ending
import ZXRewriting.Proofs.GraphLike.Pruned
import ZXRewriting.Proofs.GraphLike.Rules
import ZXRewriting.Proofs.GraphLike.Sites
import ZXRewriting.Proofs.Rewriting.Rule

/-!
# Joint normal forms

Four rules are applied one after the other in a *pass*, each until it has no match (`passRules`): first
inner spiders with a phase of a quarter turn go, then pairs of inner spiders with phases 0 or pi, and
then pairs of one of these and another spider. With the phases on a grid, a later rule never brings a
match of an earlier one back. So after the pass none of them has a match, and neither has one of the rules
that fuse when the rounds of phase teleportation end (`GraphLike.pass_settles`).

Off the grid the sum of a phase and a half turn may be rounded to a quarter turn, which is then left
over (`GraphLike.nearQuarter_unsettled`).
-/

namespace ZXRewriting

namespace GraphLike

open Web

variable {g g' : GraphLike} {u v : Vertex} {D : ℕ}

/-! ### One rewrite -/

/-- The rules that pivot at two spiders, neither of which is an end of a wire. -/
def pivotRules : List GraphRule := [.pivot, .pivotGadget, .pivotBoundaryGadget]

section

variable (hD : Phase.IsGrid D)
include hD

/-- What a pivot at an accepted match leaves of the inner spiders. -/
theorem gives_prunes (hg : g.Coherent) (hw : g.web.InForm) (hgrid : g.web.OnGrid D)
    {rule : GraphRule} (hrule : rule ∈ pivotRules) {s : Match} (h : rule.check g s = .ok true) :
    ∃ v w m, Gives (rule.apply g s) w m ∧ g.web.IsInner v ∧ (g.web.phase v).isPauli ∧
      Prunes v g.web w := by
  rw [check_iff hg, GraphRule.checkPresent.eq_def] at h
  obtain ⟨hhas, h⟩ := h
  split at h
  case h_2 v u =>
    obtain ⟨hv, hu, hj, hpv, hpu⟩ := of_checkPivot hg hw (hhas v (by simp)) (hhas u (by simp)) h
    exact ⟨v, _, _, Gives.pivot hg hw.simple
      ((hw.readied hu hpu).pivotable hv hj (hg.valid.ne_of_mem_nearby hj)), hv, hpv,
      hw.prunes_pivot hD hgrid hv hj hpv hu hpu⟩
  case h_4 v u =>
    obtain ⟨hv, hu, hj, hpv⟩ := of_checkPivotGadget hg hw (hhas v (by simp)) (hhas u (by simp)) h
    exact ⟨v, _, _, gives_pivotGadget hg hw hv hu hj, hv, hpv,
      hw.prunes_pivotGadget hD hgrid hv hj hpv hu⟩
  case h_5 v u _ =>
    obtain ⟨hv, hu, hj, hpv⟩ := of_checkPivotBoundaryGadget hg hw (hhas v (by simp))
      (hhas u (by simp)) (and_eq_true_iff.1 h).1
    exact ⟨v, _, _, gives_pivotBoundaryGadget hg hw hv hu hj, hv, hpv,
      hw.prunes_pivotBoundaryGadget hD hgrid hv hj hpv hu⟩
  case h_8 => cases h
  all_goals exact absurd hrule (by decide)

/-- The diagrams in graph-like form with their phases on a grid. -/
def InGrid (D : ℕ) (g : GraphLike) : Prop := g.InShape ∧ g.web.OnGrid D

/-- Rewriting with phases on a grid. -/
theorem InGrid.exists_apply (hg : g.InGrid D) {rule : GraphRule} {s : Match}
    (h : rule.check g s = .ok true) : ∃ g', rule.apply g s = .ok g' ∧ g'.InGrid D ∧
      (rule ∈ pivotRules → ∃ v, g.web.IsInner v ∧ (g.web.phase v).isPauli ∧
        Prunes v g.web g'.web) := by
  obtain ⟨⟨hcoh, hform⟩, hgrid⟩ := hg
  obtain ⟨i, o, hin⟩ := exists_listed hform
  have hcoh' := coherent_relist (i := i) (o := o).2 hcoh
  have hcheck := (rule.check_relist g s i o).trans h
  obtain ⟨w, m, hgives, hstep⟩ := gives_of_check hcoh' hin hcheck
  obtain ⟨g', hok, hg', hw', -, hweb⟩ := exists_of_relisted
    (f := fun g => rule.apply g s) (rule.apply_relist g s i o) hgives hin (hstep.keeps hin)
  have hgrid' : (g'.relist i o).web.OnGrid D := hweb ▸ (hstep.rewrites hin hD hgrid).grid
  refine ⟨g', hok, ⟨⟨hg', hw'⟩, hgrid'⟩, fun hrule => ?_⟩
  obtain ⟨v, w₁, m₁, hgives₁, hv, hpv, hprunes⟩ := gives_prunes hD hcoh' hin hgrid hrule hcheck
  -- both say what the rule gives
  obtain ⟨g₁, hok₁, -, rfl, -⟩ := hgives₁
  rw [rule.apply_relist, hok] at hok₁
  rw [← Except.ok.inj hok₁] at hprunes
  exact ⟨v, hv, hpv, hprunes.inner, hprunes.den, hprunes.near⟩

/-- Every rule keeps the phases on the grid. -/
theorem keeps_inGrid (rule : GraphRule) : Rule.Keeps rule (InGrid D) := fun g s hg h => by
  obtain ⟨g', hok, hg', -⟩ := hg.exists_apply hD h
  exact Meets.of_exists ⟨g', hok, hg'⟩

/-- A pivot keeps what it keeps where it only prunes. -/
theorem keeps_of_prunes {Q : Web → Prop} (rule : GraphRule) (hrule : rule ∈ pivotRules)
    (hQ : ∀ v w w', w.IsInner v → (w.phase v).isPauli → Prunes v w w' → Q w → Q w') :
    Rule.Keeps rule fun g : GraphLike => g.InGrid D ∧ Q g.web := fun g s hinv h => by
  obtain ⟨hg, hq⟩ := hinv
  obtain ⟨g', hok, hg', hprunes⟩ := hg.exists_apply hD h
  obtain ⟨v, hv, hpv, hprunes⟩ := hprunes hrule
  exact Meets.of_exists ⟨g', hok, hg', hQ v _ _ hv hpv hprunes hq⟩

end

/-! ### No match -/

section

variable (hg : g.Coherent) (hw : g.web.Simple)
include hg hw

theorem settled_localComplement_iff :
    Rule.Settled GraphRule.localComplement g ↔ g.web.Unturned := by
  rw [(exact_of_coherent .localComplement).settled_iff hg]
  constructor
  · intro hno x hx hp
    refine hno [x] ((check_iff hg).2 ⟨by simpa using hx.1.1.has, ?_⟩)
    refine (checkLocalComplement_eq hg hw hx.1.1.has).trans (congrArg Except.ok ?_)
    exact Bool.and_eq_true_iff.2 ⟨hp, decide_eq_true hx⟩
  · intro hno m hm
    obtain ⟨hhas, hm⟩ := (check_iff hg).1 hm
    rw [GraphRule.checkPresent.eq_def] at hm
    split at hm <;> try contradiction
    next v _ _ =>
    rw [checkLocalComplement_eq hg hw (hhas v (by simp))] at hm
    obtain ⟨hp, hinner⟩ := Bool.and_eq_true_iff.1 (Except.ok.inj hm)
    exact hno v (of_decide_eq_true hinner) hp

/-- A rule the matches of which are pairs of joined inner spiders, the first one with a phase of 0
    or pi. -/
theorem settled_iff_apart {rule : GraphRule} {P : ℕ → Prop}
    (hpair : ∀ m, rule.checkPresent g m = .ok true → ∃ v u, m = [v, u])
    (hcheck : ∀ v u, g.web.Has v → g.web.Has u → (rule.checkPresent g [v, u] = .ok true ↔
      (v ≠ u ∧ g.web.link v u = some .hadamard) ∧ ((g.phase v).isPauli ∧ g.web.IsInner v) ∧
        P (g.phase u).den ∧ g.web.IsInner u)) :
    Rule.Settled rule g ↔ g.web.Apart P := by
  rw [(exact_of_coherent rule).settled_iff hg]
  constructor
  · intro hno x y hx hy hpx hpy hj
    refine hno [x, y] ((check_iff hg).2 ⟨by simp [hx.1.1.has, hy.1.1.has], ?_⟩)
    refine (hcheck x y hx.1.1.has hy.1.1.has).2
      ⟨⟨hw.valid.ne_of_mem_nearby hj, ?_⟩, ⟨hpx, hx⟩, hpy, hy⟩
    rw [hw.link_eq hx.1.1 hy.1.1, if_pos (hw.valid.mem_nearby.1 hj)]
  · intro hno m hm
    obtain ⟨hhas, hm⟩ := (check_iff hg).1 hm
    obtain ⟨v, u, rfl⟩ := hpair m hm
    obtain ⟨⟨-, hlink⟩, ⟨hpv, hv⟩, hpu, hu⟩ :=
      (hcheck v u (hhas v (by simp)) (hhas u (by simp))).1 hm
    exact hno v u hv hu hpv hpu (hw.valid.mem_nearby_of_link hlink)

theorem settled_pivot_iff : Rule.Settled GraphRule.pivot g ↔ g.web.Apart (· = 1) := by
  refine settled_iff_apart hg hw (fun m hm => ?_) fun v u hv hu => ?_
  · rw [GraphRule.checkPresent.eq_def] at hm
    split at hm <;> try contradiction
    exact ⟨_, _, rfl⟩
  · rw [show GraphRule.pivot.checkPresent g [v, u] = g.checkPivot v u from rfl,
      checkPivot_eq hg hw hv hu]
    simp only [Except.ok.injEq, Bool.and_eq_true, decide_eq_true_iff]
    rw [show (g.phase u).isPauli = true ↔ (g.phase u).den = 1 from beq_iff_eq]

theorem settled_pivotGadget_iff : Rule.Settled GraphRule.pivotGadget g ↔ g.web.Apart (2 < ·) := by
  refine settled_iff_apart hg hw (fun m hm => ?_) fun v u hv hu => ?_
  · rw [GraphRule.checkPresent.eq_def] at hm
    split at hm <;> try contradiction
    exact ⟨_, _, rfl⟩
  · rw [show GraphRule.pivotGadget.checkPresent g [v, u] = g.checkPivotGadget v u from rfl,
      checkPivotGadget_eq hg hw hv hu]
    simp only [Except.ok.injEq, Bool.and_eq_true, Bool.not_eq_true', decide_eq_true_iff]
    rw [show (g.phase u).isClifford = false ↔ 2 < (g.phase u).den from
      decide_eq_false_iff_not.trans Nat.not_le]

end

/-! ### A pass -/

/-- The rules of a pass, in this order. -/
def passRules : List GraphRule := [.localComplement, .pivot, .pivotGadget, .pivotBoundaryGadget]

/-- The first of several rules. -/
theorem of_simplifyAll_cons {rule : GraphRule} {rules : List GraphRule}
    (h : g.simplifyAll (rule :: rules) = .ok g') :
    ∃ n g₁, g.simplify rule = .ok (n, g₁) ∧ g₁.simplifyAll rules = .ok g' := by
  rw [simplifyAll, List.foldlM_cons] at h
  obtain ⟨g₁, h₁, h⟩ := of_bind_eq_ok h
  obtain ⟨⟨n, g₂⟩, h₂, heq⟩ := of_bind_eq_ok h₁
  obtain rfl : g₂ = g₁ := Except.ok.inj heq
  exact ⟨n, g₂, h₂, h⟩

theorem settled_of_simplify (hg : g.Coherent) {rule : GraphRule} {n : ℕ}
    (h : g.simplify rule = .ok (n, g')) : Rule.Settled rule g' := by
  obtain ⟨hg', hnone⟩ := (exact_of_coherent rule).sites_of_simplifyWithin hg h
  exact (exact_of_coherent rule).settled hg' hnone

theorem InShape.of_simplify (hg : g.InShape) {rule : GraphRule} {n : ℕ}
    (h : g.simplify rule = .ok (n, g')) : g'.InShape := by
  obtain ⟨r, hok, hr, -⟩ := exists_simplify hg rule
  rw [h] at hok
  rwa [← Except.ok.inj hok] at hr

/-- The first three rules of a pass leave no quarter turns, then no pairs of the one kind, then none of the
    other, as none of them brings back what an earlier one has removed. -/
theorem sparse_of_simplify {D n₁ n₂ n₃ : ℕ} {g₁ g₂ g₃ : GraphLike} (hD : Phase.IsGrid D)
    (hg : g.InGrid D) (h₁ : g.simplify .localComplement = .ok (n₁, g₁))
    (h₂ : g₁.simplify .pivot = .ok (n₂, g₂)) (h₃ : g₂.simplify .pivotGadget = .ok (n₃, g₃)) :
    g₃.InGrid D ∧ g₃.web.Sparse := by
  have hg₁ := hg.1.of_simplify h₁
  have hg₂ := hg₁.of_simplify h₂
  have hg₃ := hg₂.of_simplify h₃
  have hgrid₁ := (keeps_inGrid hD .localComplement).of_simplifyWithin hg h₁
  have hturned := (settled_localComplement_iff hg₁.1 hg₁.2.simple).1 (settled_of_simplify hg.1.1 h₁)
  obtain ⟨hgrid₂, hturned⟩ := (keeps_of_prunes hD .pivot (Q := Unturned) (by decide)
    fun v w w' _ _ hp hw => hw.keeps hp).of_simplifyWithin ⟨hgrid₁, hturned⟩ h₂
  have hpauli := (settled_pivot_iff hg₂.1 hg₂.2.simple).1 (settled_of_simplify hg₁.1 h₂)
  obtain ⟨hgrid₃, hturned, hpauli⟩ := (keeps_of_prunes hD .pivotGadget
    (Q := fun w => w.Unturned ∧ w.Apart (· = 1)) (by decide) fun v w w' hv hpv hp hw =>
      ⟨hw.1.keeps hp, hw.2.keeps hw.2 hp hv hpv⟩).of_simplifyWithin ⟨hgrid₂, hturned, hpauli⟩ h₃
  have hother := (settled_pivotGadget_iff hg₃.1 hg₃.2.simple).1 (settled_of_simplify hg₂.1 h₃)
  exact ⟨hgrid₃, hturned, hpauli, hother⟩

/-- Nor does the last one. -/
theorem keeps_sparse {D : ℕ} (hD : Phase.IsGrid D) : Rule.Keeps GraphRule.pivotBoundaryGadget
    fun g : GraphLike => g.InGrid D ∧ g.web.Sparse :=
  keeps_of_prunes hD .pivotBoundaryGadget (by decide) fun _ _ _ hv hpv hp hw => hw.keeps hp hv hpv

/-- After a pass the last rule is settled, and with phases on a grid each of the four is: a rule
    that came before has no match again. -/
theorem settled_of_pass (hg : g.InShape) (h : g.simplifyAll passRules = .ok g') :
    Rule.Settled GraphRule.pivotBoundaryGadget g' ∧ ∀ D, Phase.IsGrid D → g.web.OnGrid D →
      ∀ rule ∈ passRules, Rule.Settled rule g' := by
  obtain ⟨n₁, g₁, h₁, h⟩ := of_simplifyAll_cons h
  obtain ⟨n₂, g₂, h₂, h⟩ := of_simplifyAll_cons h
  obtain ⟨n₃, g₃, h₃, h⟩ := of_simplifyAll_cons h
  obtain ⟨n₄, g₄, h₄, h⟩ := of_simplifyAll_cons h
  obtain rfl : g₄ = g' := Except.ok.inj h
  have hg₃ := ((hg.of_simplify h₁).of_simplify h₂).of_simplify h₃
  have hg₄ := hg₃.of_simplify h₄
  have hlast := settled_of_simplify hg₃.1 h₄
  refine ⟨hlast, fun D hD hgrid => ?_⟩
  have hsparse₃ := sparse_of_simplify hD ⟨hg, hgrid⟩ h₁ h₂ h₃
  obtain ⟨-, hsparse⟩ := (keeps_sparse hD).of_simplifyWithin hsparse₃ h₄
  simp only [passRules, List.forall_mem_cons, List.not_mem_nil, IsEmpty.forall_iff, implies_true,
    and_true]
  exact ⟨(settled_localComplement_iff hg₄.1 hg₄.2.simple).2 hsparse.unturned,
    (settled_pivot_iff hg₄.1 hg₄.2.simple).2 hsparse.pauli,
    (settled_pivotGadget_iff hg₄.1 hg₄.2.simple).2 hsparse.other, hlast⟩

theorem InShape.of_pass (hg : g.InShape) {rules : List GraphRule}
    (h : g.simplifyAll rules = .ok g') : g'.InShape := by
  obtain ⟨g₁, hok, hg₁, -⟩ := exists_simplifyAll hg rules
  rw [h] at hok
  rwa [← Except.ok.inj hok] at hg₁

/-! ### Rounds of phase teleportation -/

/-- What a round does one after the other. -/
theorem of_teleportRound {fused : ℕ} (h : teleportRound g = .ok (fused, g')) :
    ∃ g₁ n₂ g₂ n₃, g.simplifyAll passRules = .ok g₁ ∧
      Rule.replace GraphRule.identity g₁ = .ok (n₂, g₂) ∧
      Rule.replace GraphRule.gadgetFusion g₂ = .ok (n₃, g') ∧ fused = n₂ + n₃ := by
  rw [teleportRound] at h
  obtain ⟨g₁, h₁, h⟩ := of_bind_eq_ok h
  obtain ⟨⟨n₂, g₂⟩, h₂, h⟩ := of_bind_eq_ok h
  obtain ⟨⟨n₃, g₃⟩, h₃, h⟩ := of_bind_eq_ok h
  obtain ⟨rfl, rfl⟩ := Prod.mk.inj (Except.ok.inj h)
  exact ⟨g₁, n₂, g₂, n₃, h₁, h₂, h₃, rfl⟩

/-- A round that fuses nothing only passes, and leaves nothing to fuse. -/
theorem settled_of_teleportRound (hg : g.InShape) (h : teleportRound g = .ok (0, g')) :
    g.simplifyAll passRules = .ok g' ∧ Rule.Settled GraphRule.identity g' ∧
      Rule.Settled GraphRule.gadgetFusion g' := by
  obtain ⟨g₁, n₂, g₂, n₃, h₁, h₂, h₃, hsum⟩ := of_teleportRound h
  obtain ⟨rfl, rfl⟩ : n₂ = 0 ∧ n₃ = 0 := by omega
  have hg₁ := hg.of_pass h₁
  obtain ⟨rfl, hidentity⟩ := (exact_of_coherent .identity).settled_of_replace hg₁.1 h₂
  obtain ⟨rfl, hgadget⟩ := (exact_of_coherent .gadgetFusion).settled_of_replace hg₁.1 h₃
  exact ⟨h₁, hidentity, hgadget⟩

theorem InGrid.of_teleportRound (hD : Phase.IsGrid D) (hg : g.InGrid D) {fused : ℕ}
    (h : teleportRound g = .ok (fused, g')) : g'.InGrid D :=
  (leaves_teleportRound (keeps_inGrid hD) hg).of_ok h

/-- The rounds end with one that only passes. -/
theorem of_teleportWithin (hg : g.InShape) {rounds : ℕ} (h : teleportWithin rounds g = .ok g') :
    ∃ g₀ : GraphLike, g₀.InShape ∧ (∀ D, Phase.IsGrid D → g.web.OnGrid D → g₀.web.OnGrid D) ∧
      g₀.simplifyAll passRules = .ok g' ∧ Rule.Settled GraphRule.identity g' ∧
        Rule.Settled GraphRule.gadgetFusion g' := by
  induction rounds generalizing g with
  | zero => cases h
  | succ rounds ih =>
    obtain ⟨⟨fused, g₁⟩, hok, hg₁, -⟩ := exists_teleportRound hg
    rw [teleportWithin, hok] at h
    change (if fused = 0 then .ok g₁ else teleportWithin rounds g₁) = _ at h
    split at h
    · next hzero =>
      obtain rfl := Except.ok.inj h
      rw [hzero] at hok
      exact ⟨g, hg, fun _ _ hgrid => hgrid, settled_of_teleportRound hg hok⟩
    · obtain ⟨g₀, hg₀, hgrid₀, hend⟩ := ih hg₁ h
      refine ⟨g₀, hg₀, fun D hD hgrid => hgrid₀ D hD ?_, hend⟩
      exact (InGrid.of_teleportRound hD ⟨hg, hgrid⟩ hok).2

/-- After a pass over a graph-like diagram the last rule has no match, and after the rounds of phase
    teleportation neither that one nor one of the rules that fuse has. With phases on a grid, so
    that none is rounded, no rule of the pass has a match after it, and none of all has after the
    rounds. -/
theorem pass_settles (hg : g.Coherent) (hw : g.web.Formed) : ∃ g₁ g₂,
    g.simplifyAll passRules = .ok g₁ ∧ teleportWithin g.roundLimit g = .ok g₂ ∧
    Rule.Settled GraphRule.pivotBoundaryGadget g₁ ∧
    (∀ rule ∈ [GraphRule.pivotBoundaryGadget, .identity, .gadgetFusion], Rule.Settled rule g₂) ∧
    ∀ D, Phase.IsGrid D → g.web.OnGrid D → (∀ rule ∈ passRules, Rule.Settled rule g₁) ∧
      ∀ rule ∈ passRules ++ [.identity, .gadgetFusion], Rule.Settled rule g₂ := by
  have hshape : g.InShape := ⟨hg, hw⟩
  obtain ⟨g₁, hok₁, -⟩ := exists_simplifyAll hshape passRules
  obtain ⟨g₂, -, hrounds⟩ := exists_teleportWithin hshape
  have hok₂ := hrounds _ g.weight_lt_roundLimit
  obtain ⟨hlast₁, hpass₁⟩ := settled_of_pass hshape hok₁
  obtain ⟨g₀, hg₀, hgrid₀, hok₀, hidentity, hgadget⟩ := of_teleportWithin hshape hok₂
  obtain ⟨hlast₂, hpass₂⟩ := settled_of_pass hg₀ hok₀
  refine ⟨g₁, g₂, hok₁, hok₂, hlast₁, by simp [hlast₂, hidentity, hgadget], fun D hD hgrid =>
    ⟨hpass₁ D hD hgrid, fun rule hrule => ?_⟩⟩
  rcases List.mem_append.1 hrule with hrule | hrule
  · exact hpass₂ D hD (hgrid₀ D hD hgrid) rule hrule
  · rcases List.mem_pair.1 hrule with rfl | rfl
    · exact hidentity
    · exact hgadget

theorem quarterTurn_settles : quarterTurn.Coherent ∧ quarterTurn.web.Formed ∧
    Phase.IsGrid 2 ∧ quarterTurn.web.OnGrid 2 ∧ ∃ g₁ g₂,
      quarterTurn.simplifyAll passRules = .ok g₁ ∧
      teleportWithin quarterTurn.roundLimit quarterTurn = .ok g₂ ∧
      (∀ rule ∈ passRules, Rule.Settled rule g₁) ∧
      ∀ rule ∈ passRules ++ [.identity, .gadgetFusion], Rule.Settled rule g₂ := by
  obtain ⟨hg, hw⟩ := quarterTurn_inForm
  have hD : Phase.IsGrid 2 := ⟨by decide, by decide⟩
  obtain ⟨g₁, g₂, hok₁, hok₂, -, -, hall⟩ := pass_settles hg hw.formed
  exact ⟨hg, hw.formed, hD, quarterTurn_onGrid, g₁, g₂, hok₁, hok₂, hall 2 hD quarterTurn_onGrid⟩

/-- Five spiders on a wire. The sum of the phase of the second one and of pi, which the fourth one
    has, is rounded to three quarters of a turn. -/
def nearQuarter : GraphLike where
  graph := ⟨#[some [⟨2, .plain, 1⟩], some [⟨6, .plain, 1⟩], some [⟨0, .plain, 1⟩, ⟨3, .hadamard, 1⟩],
    some [⟨2, .hadamard, 1⟩, ⟨4, .hadamard, 1⟩], some [⟨3, .hadamard, 1⟩, ⟨5, .hadamard, 1⟩],
    some [⟨4, .hadamard, 1⟩, ⟨6, .hadamard, 1⟩], some [⟨5, .hadamard, 1⟩, ⟨1, .plain, 1⟩]], 7, 6⟩
  kinds := .ofList [(0, .input), (1, .output), (2, .z), (3, .z), (4, .z), (5, .z), (6, .z)] compare
  phases := .ofList [(3, .reduce 3500000000000000001 7000000000000000001), (5, .pi)] compare
  layout := .new 1
  inputs := [0]
  outputs := [1]
  carriers := ∅
  master := .blank 1

/-- Where a phase is rounded a pivot may leave a quarter turn behind, both after a pass and after
    the rounds. -/
theorem nearQuarter_unsettled : nearQuarter.Coherent ∧ nearQuarter.web.InForm ∧
    (∃ g₁, nearQuarter.simplifyAll passRules = .ok g₁ ∧
      GraphRule.localComplement.check g₁ [3] = .ok true) ∧
    ∃ g₂, teleportWithin nearQuarter.roundLimit nearQuarter = .ok g₂ ∧
      GraphRule.localComplement.check g₂ [3] = .ok true := by
  have hform : nearQuarter.Coherent ∧ nearQuarter.web.InForm := by decide +kernel
  have hpass : (nearQuarter.simplifyAll passRules >>= fun g =>
      GraphRule.localComplement.check g [3]) = .ok true := by decide +kernel
  have hrounds : (teleportWithin nearQuarter.roundLimit nearQuarter >>= fun g =>
      GraphRule.localComplement.check g [3]) = .ok true := by cbv
  exact ⟨hform.1, hform.2, of_bind_eq_ok hpass, of_bind_eq_ok hrounds⟩

end GraphLike

end ZXRewriting

import ZXRewriting.Pipelines
import ZXRewriting.Proofs.GraphLike.Runs
import ZXRewriting.Proofs.Rewriting.Termination

/-!
# Simplifying graph-like diagrams comes to an end

Every rule makes a graph-like diagram lighter (`Web.weight`), so that no rule can be applied more often
than the weight says, and neither can the rules of phase teleportation, one after the other and over
again (`GraphLike.simplify_ends`). The rounds that the programs are given are more than that.
-/

namespace ZXRewriting

namespace GraphLike

variable {g : GraphLike} {d : Diagram}

/-- The diagrams in graph-like form. -/
def InShape (g : GraphLike) : Prop := g.Coherent ∧ g.web.Formed

/-- A rule leaves a lighter diagram. -/
theorem decreasing (rule : GraphRule) :
    Rule.Decreasing rule InShape fun g : GraphLike => g.web.weight where
  sites g hg := exists_sites hg.1 hg.2.simple rule
  check g s hg := exists_check hg.1 hg.2.simple rule s
  apply g s hg h := by
    obtain ⟨g', hok, hg', hw', -, hlt⟩ := exists_apply hg.1 hg.2 h
    exact ⟨g', hok, ⟨hg', hw'⟩, hlt⟩

/-- There are more rounds than a diagram is heavy. -/
theorem weight_lt_roundLimit (g : GraphLike) : g.web.weight < g.roundLimit := by
  have hle := g.web.weight_le
  have hpow := (g.graph.nextVertex).lt_two_pow_self
  have hmono : 2 ^ (64 + g.graph.nextVertex) ≤ 2 ^ (64 + g.graph.nextVertex + g.graph.edgeCount) :=
    Nat.pow_le_pow_right (by decide) (Nat.le_add_right _ _)
  rw [Nat.pow_add] at hmono
  have hnext : g.web.next = g.graph.nextVertex := rfl
  rw [Diagram.roundLimit, Nat.one_shiftLeft]
  omega

/-- A rule until it applies nowhere. -/
theorem exists_simplify (hg : g.InShape) (rule : GraphRule) :
    ∃ r, g.simplify rule = .ok r ∧ r.2.InShape ∧ r.2.web.weight + r.1 ≤ g.web.weight := by
  obtain ⟨r, ⟨hr, hle⟩, hrounds⟩ := (decreasing rule).exists_simplifyWithin hg
  exact ⟨r, hrounds _ g.weight_lt_roundLimit, hr, hle⟩

/-- Several rules, each until it applies nowhere. -/
theorem exists_simplifyAll (hg : g.InShape) (rules : List GraphRule) :
    ∃ g', g.simplifyAll rules = .ok g' ∧ g'.InShape ∧ g'.web.weight ≤ g.web.weight := by
  obtain ⟨g', hok, hg', hle⟩ := exists_foldlM
    (f := fun (g : GraphLike) rule => do return (← g.simplify rule).2)
    (fun _ (g' : GraphLike) => g'.InShape ∧ g'.web.weight ≤ g.web.weight) rules
    ⟨hg, Nat.le_refl _⟩ fun _ rule _ g₁ _ hinv => by
      obtain ⟨hg₁, hle₁⟩ := hinv
      obtain ⟨r, hok, hr, hle⟩ := exists_simplify hg₁ rule
      rw [hok]
      exact ⟨r.2, rfl, hr, by omega⟩
  exact ⟨g', hok, hg', hle⟩

/-- What is fused in a round of phase teleportation is paid for by the weight. -/
theorem exists_teleportRound (hg : g.InShape) : ∃ r, teleportRound g = .ok r ∧ r.2.InShape ∧
    r.2.web.weight + r.1 ≤ g.web.weight := by
  obtain ⟨g₁, hok₁, hg₁, hle₁⟩ :=
    exists_simplifyAll hg [.localComplement, .pivot, .pivotGadget, .pivotBoundaryGadget]
  obtain ⟨⟨identities, g₂⟩, hok₂, hg₂, hle₂⟩ := (decreasing .identity).exists_replace hg₁
  obtain ⟨⟨gadgets, g₃⟩, hok₃, hg₃, hle₃⟩ := (decreasing .gadgetFusion).exists_replace hg₂
  refine ⟨(identities + gadgets, g₃), ?_, hg₃, ?_⟩
  · rw [teleportRound, hok₁]
    change (Rule.replace GraphRule.identity g₁ >>= fun r => _) = _
    rw [hok₂]
    change (Rule.replace GraphRule.gadgetFusion g₂ >>= fun r => _) = _
    rw [hok₃]
    rfl
  · dsimp only at hle₂ hle₃ ⊢
    omega

/-- Rounds of phase teleportation until nothing is fused. -/
theorem exists_teleportWithin (hg : g.InShape) :
    ∃ g', g'.InShape ∧ ∀ rounds, g.web.weight < rounds → teleportWithin rounds g = .ok g' := by
  -- a round that fuses something leaves a lighter diagram
  induction hn : g.web.weight using Nat.strongRecOn generalizing g with
  | ind n ih =>
  obtain ⟨⟨fused, g₁⟩, hok, hg₁, hle⟩ := exists_teleportRound hg
  have hround (rounds : ℕ) : teleportWithin (rounds + 1) g =
      if fused = 0 then .ok g₁ else teleportWithin rounds g₁ := by
    rw [teleportWithin, hok]
    rfl
  by_cases hzero : fused = 0
  · refine ⟨g₁, hg₁, fun rounds hlt => ?_⟩
    obtain ⟨rounds, rfl⟩ := Nat.exists_eq_succ_of_ne_zero (Nat.ne_zero_of_lt hlt)
    rw [hround, if_pos hzero]
  · dsimp only at hle
    obtain ⟨g', hg', hrounds⟩ := ih g₁.web.weight (by omega) hg₁ rfl
    refine ⟨g', hg', fun rounds hlt => ?_⟩
    obtain ⟨rounds, rfl⟩ := Nat.exists_eq_succ_of_ne_zero (Nat.ne_zero_of_lt hlt)
    rw [hround, if_neg hzero, hrounds rounds (by omega)]

/-- Simplifying a graph-like diagram by a rule comes to an end after no more rounds than the diagram is
    heavy, and so do the rounds of phase teleportation on the graph-like form of a diagram, each end
    of which has a single edge: beyond that, the number of rounds makes no difference. -/
theorem simplify_ends :
    (∀ (rule : GraphRule) (g : GraphLike), g.Coherent → g.web.Formed →
      ∃ r, g.simplify rule = .ok r ∧
        ∀ rounds, g.web.weight < rounds → Rule.simplifyWithin rule rounds g = .ok r) ∧
    ∀ d : Diagram, d.Coherent → (∀ v, d.web.IsEnd v → d.web.degree v = 1) →
      ∃ g g', ofDiagram d = .ok g ∧ teleportWithin g.roundLimit g = .ok g' ∧
        ∀ rounds, g.web.weight < rounds → teleportWithin rounds g = .ok g' := by
  refine ⟨fun rule g hg hw => ?_, fun d hd hends => ?_⟩
  · obtain ⟨r, -, hrounds⟩ := (decreasing rule).exists_simplifyWithin (d := g) ⟨hg, hw⟩
    exact ⟨r, hrounds _ g.weight_lt_roundLimit, hrounds⟩
  · obtain ⟨g, hok, hg, -, hw, -⟩ := exists_ofDiagram_formed hd (hd.valid.hung hends)
    obtain ⟨g', -, hrounds⟩ := exists_teleportWithin (g := g) ⟨hg, hw⟩
    exact ⟨g, g', hok, hrounds _ g.weight_lt_roundLimit, hrounds⟩

theorem tripleBox_ends :
    (∃ r, quarterTurn.simplify .localComplement = .ok r ∧ ∀ rounds, quarterTurn.web.weight < rounds →
      Rule.simplifyWithin GraphRule.localComplement rounds quarterTurn = .ok r) ∧
    ∃ g g', ofDiagram tripleBox = .ok g ∧ teleportWithin g.roundLimit g = .ok g' ∧
      ∀ rounds, g.web.weight < rounds → teleportWithin rounds g = .ok g' :=
  ⟨simplify_ends.1 .localComplement quarterTurn quarterTurn_inForm.1 quarterTurn_inForm.2.formed,
    simplify_ends.2 tripleBox tripleBox_coherent tripleBox_degree_end⟩

end GraphLike

end ZXRewriting

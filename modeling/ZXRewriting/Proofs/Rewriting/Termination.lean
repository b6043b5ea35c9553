import ZXRewriting.Proofs.Outcome
import ZXRewriting.Rewriting.Rule

/-!
# Rewriting comes to an end

A rule is *decreasing* for a measure if, on the diagrams that satisfy an invariant, it lists and
checks matches without a fault, and rewriting at a match that is accepted gives such a diagram with
a smaller measure (`Rule.Decreasing`). Then a batch of matches gives a result, and each rewrite of
it is paid for by the measure (`Decreasing.exists_rewrite`), so that the rounds come to an end
before there are more of them than the measure at the start (`Decreasing.exists_simplifyWithin`).
-/

namespace ZXRewriting.Rule

variable {ρ δ : Type} [Rule ρ δ] {rule : ρ} {I : δ → Prop} {μ : δ → ℕ} {d : δ}

/-- On the diagrams that satisfy `I`, nothing about a rule is a fault, and rewriting makes the
    measure smaller. -/
structure Decreasing (rule : ρ) (I : δ → Prop) (μ : δ → ℕ) : Prop where
  sites : ∀ d, I d → ∃ ms, Rule.sites rule d = .ok ms
  check : ∀ d m, I d → ∃ b, Rule.check rule d m = .ok b
  apply : ∀ d m, I d → Rule.check rule d m = .ok true →
    ∃ d', Rule.apply rule d m = .ok d' ∧ I d' ∧ μ d' < μ d

namespace Decreasing

variable (h : Decreasing rule I μ)
include h

/-- One match of a batch. The measure and the number of rewrites so far do not grow together. -/
theorem exists_step {p : Progress δ} (hp : I p.diagram) (m : Match) :
    ∃ p', step rule p m = .ok p' ∧ I p'.diagram ∧
      μ p'.diagram + p'.count ≤ μ p.diagram + p.count := by
  rw [Rule.step]
  split
  · exact ⟨p, rfl, hp, Nat.le_refl _⟩
  · obtain ⟨b, hb⟩ := h.check p.diagram m hp
    rw [hb]
    cases b with
    | false => exact ⟨p, rfl, hp, Nat.le_refl _⟩
    | true =>
      obtain ⟨d', hok, hd', hlt⟩ := h.apply p.diagram m hp hb
      refine ⟨⟨d', m ++ p.touched, p.count + 1⟩, ?_, hd', ?_⟩
      · change (Rule.apply rule p.diagram m >>= fun d => _) = _
        rw [hok]
        rfl
      · dsimp only
        omega

/-- A batch of matches. -/
theorem exists_rewrite (hd : I d) (ms : List Match) :
    ∃ r, rewrite rule d ms = .ok r ∧ I r.2 ∧ μ r.2 + r.1 ≤ μ d := by
  obtain ⟨p, hok, hp, hle⟩ := exists_foldlM (f := step rule)
    (fun _ (p : Progress δ) => I p.diagram ∧ μ p.diagram + p.count ≤ μ d) ms
    (s := ⟨d, [], 0⟩) ⟨hd, Nat.le_refl _⟩ fun _ m _ p _ hinv => by
      obtain ⟨hp, hle⟩ := hinv
      obtain ⟨p', hok, hp', hle'⟩ := h.exists_step hp m
      exact ⟨p', hok, hp', Nat.le_trans hle' hle⟩
  refine ⟨(p.count, p.diagram), ?_, hp, hle⟩
  rw [rewrite, hok]
  rfl

/-- A round. -/
theorem exists_replace (hd : I d) :
    ∃ r, replace rule d = .ok r ∧ I r.2 ∧ μ r.2 + r.1 ≤ μ d := by
  obtain ⟨ms, hms⟩ := h.sites d hd
  rw [replace, hms]
  exact h.exists_rewrite hd ms

/-- Rounds until there is no match left. More rounds than needed make no difference. -/
theorem exists_simplifyWithin (hd : I d) : ∃ r, (I r.2 ∧ μ r.2 + r.1 ≤ μ d) ∧
    ∀ rounds, μ d < rounds → simplifyWithin rule rounds d = .ok r := by
  -- a round that rewrites leaves less to do, so the induction is on the measure
  induction hn : μ d using Nat.strongRecOn generalizing d with
  | ind n ih =>
  obtain ⟨ms, hms⟩ := h.sites d hd
  have hround (rounds : ℕ) : simplifyWithin rule (rounds + 1) d =
      if ms.isEmpty then .ok (0, d) else rewrite rule d ms >>= fun r =>
        if r.1 = 0 then .ok (0, r.2) else simplifyWithin rule rounds r.2 >>= fun r' =>
          .ok (r.1 + r'.1, r'.2) := by
    rw [simplifyWithin, hms]
    rfl
  by_cases hempty : ms.isEmpty
  · refine ⟨(0, d), ⟨hd, Nat.le_of_eq hn⟩, fun rounds hlt => ?_⟩
    cases rounds with
    | zero => omega
    | succ rounds => rw [hround, if_pos hempty]
  obtain ⟨r, hr, hI, hle⟩ := h.exists_rewrite hd ms
  by_cases hzero : r.1 = 0
  · refine ⟨(0, r.2), ⟨hI, by dsimp only; omega⟩, fun rounds hlt => ?_⟩
    cases rounds with
    | zero => omega
    | succ rounds =>
      rw [hround, if_neg hempty, hr]
      exact if_pos hzero
  · obtain ⟨r', ⟨hI', hle'⟩, hr'⟩ := ih (μ r.2) (by omega) hI rfl
    refine ⟨(r.1 + r'.1, r'.2), ⟨hI', by dsimp only; omega⟩, fun rounds hlt => ?_⟩
    cases rounds with
    | zero => omega
    | succ rounds =>
      rw [hround, if_neg hempty, hr]
      refine (if_neg hzero).trans ?_
      rw [hr' rounds (by omega)]
      rfl

end Decreasing

end ZXRewriting.Rule

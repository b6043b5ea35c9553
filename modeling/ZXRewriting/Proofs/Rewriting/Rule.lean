import ZXRewriting.Pipelines
import ZXRewriting.Proofs.Outcome

/-!
# What rewriting keeps

A property of diagrams that a rule keeps at every match its check accepts (`Rule.Keeps`) is kept by
a batch of matches, by a round, and by rounds until there is no match left, whichever matches the
listing comes up with. So it is kept by several rules one after the other, and by the rounds of phase
teleportation.
-/

namespace ZXRewriting

namespace Rule

variable {ρ δ : Type} [Rule ρ δ] {rule : ρ} {I : δ → Prop} {d : δ}

/-- Rewriting at a match that applies keeps a property. -/
def Keeps (rule : ρ) (I : δ → Prop) : Prop := ∀ d m, I d → check rule d m = .ok true →
  Leaves (apply rule d m) I

/-- One match of a batch. -/
theorem Keeps.step (h : Keeps rule I) {p : Progress δ} (hp : I p.diagram) (m : Match) :
    Leaves (step rule p m) fun p' => I p'.diagram := by
  rw [Rule.step]
  split
  · exact hp
  · refine Meets.bind (P := fun b => check rule p.diagram m = .ok b) ?_ fun b hb => ?_
    · cases hc : check rule p.diagram m with
      | ok b => rfl
      | error f => trivial
    · cases b with
      | false => exact hp
      | true => exact (h p.diagram m hp hb).bind fun d' hd' => hd'

/-- A batch of matches. -/
theorem Keeps.rewrite (h : Keeps rule I) (hd : I d) (ms : List Match) :
    Leaves (rewrite rule d ms) fun r => I r.2 := by
  rw [Rule.rewrite]
  have hloop : Leaves (ms.foldlM (Rule.step rule) ⟨d, [], 0⟩) fun p => I p.diagram :=
    .foldlM (P := fun p : Progress δ => I p.diagram) hd fun m _ _ hp => h.step hp m
  exact hloop.bind fun _ hp => hp

/-- A round. -/
theorem Keeps.replace (h : Keeps rule I) (hd : I d) :
    Leaves (replace rule d) fun r => I r.2 := by
  rw [Rule.replace]
  refine Meets.bind (P := fun _ => True) ?_ fun ms _ => h.rewrite hd ms
  cases sites rule d <;> trivial

/-- Rounds until there is no match left. -/
theorem Keeps.simplifyWithin (h : Keeps rule I) (hd : I d) (rounds : ℕ) :
    Leaves (simplifyWithin rule rounds d) fun r => I r.2 := by
  induction rounds generalizing d with
  | zero => trivial
  | succ rounds ih =>
    rw [Rule.simplifyWithin]
    refine Meets.bind (P := fun _ => True) (by cases sites rule d <;> trivial) fun ms _ => ?_
    split
    · exact hd
    · refine (h.rewrite hd ms).bind fun r hr => ?_
      dsimp only
      split
      · exact hr
      · exact (ih hr).bind fun r' hr' => hr'

/-- What rounds that come to an end leave. -/
theorem Keeps.of_simplifyWithin (h : Keeps rule I) (hd : I d) {rounds n : ℕ} {d' : δ}
    (hok : Rule.simplifyWithin rule rounds d = .ok (n, d')) : I d' := by
  have hkept := h.simplifyWithin hd rounds
  rwa [hok] at hkept

end Rule

namespace GraphLike

variable {P : GraphLike → Prop} {g : GraphLike} {rules : List GraphRule}

/-- Several rules, one after the other. -/
theorem leaves_simplifyAll (h : ∀ rule ∈ rules, Rule.Keeps rule P) (hg : P g) :
    Leaves (g.simplifyAll rules) P :=
  .foldlM hg fun rule hrule _ hg' => ((h rule hrule).simplifyWithin hg' _).bind fun _ hr => hr

section

variable (h : ∀ rule : GraphRule, Rule.Keeps rule P)
include h

theorem leaves_teleportRound (hg : P g) : Leaves (teleportRound g) fun r => P r.2 :=
  (leaves_simplifyAll (fun rule _ => h rule) hg).bind fun _ h₁ =>
    ((h .identity).replace h₁).bind fun _ h₂ => ((h .gadgetFusion).replace h₂).bind fun _ h₃ => h₃

/-- Rounds of phase teleportation. -/
theorem leaves_teleportWithin (hg : P g) (rounds : ℕ) : Leaves (teleportWithin rounds g) P := by
  induction rounds generalizing g with
  | zero => trivial
  | succ rounds ih =>
    refine (leaves_teleportRound h hg).bind fun r hr => ?_
    dsimp only
    split
    · exact hr
    · exact ih hr

end

end GraphLike

end ZXRewriting

import Mathlib
import ZXRewriting.Proofs.Diagram.Tidying
import ZXRewriting.Proofs.Extraction.TCount
import ZXRewriting.Proofs.GraphLike.Master
import ZXRewriting.Proofs.GraphLike.Tracing

/-!
# Optimising never makes the T-count greater

Phase teleportation leaves a diagram that is coherent and has the bounds on its T-count that the
given one has (`exists_phaseTeleportation`): the master has them while phases are moved, and so do
the diagrams that tidying goes through. Clifford simplification takes a bound from the diagram to its
graph-like form, through the rewriting, and from there to the circuit
(`tCount_le_of_cliffordSimplification`). No hypothesis is made about phases, so that their sums may be
rounded (`optimised_tCount_le`).
-/

namespace ZXRewriting

variable {d : Diagram} {c : Circuit} {n : ℕ}

/-- Phase teleportation moves phases of the diagram, and then tidies it by the two rules. What telling the
    master keeps, and then tidying, holds of the diagram that it leads to. -/
theorem exists_tidied_master {I : (Vertex → Option Carrier) → Diagram → Prop} {J : Web → Prop}
    (hI : GraphLike.Bookkeeping I) (hJ : Web.Durable J) (hIJ : ∀ cs m, I cs m → J m.web)
    (hd : d.Coherent) (hhung : d.web.Hung) (hstart : I d.web.ownNames d) :
    ∃ (m : Diagram) (r r' : ℕ × Diagram), (∃ phases carriers, m = { d with phases, carriers }) ∧
      m.simplify .identity = .ok r ∧ r.2.simplify .cancel = .ok r' ∧
      phaseTeleportation d = .ok r'.2 ∧ r'.2.Coherent ∧ J r'.2.web := by
  obtain ⟨g, hok, hg, -, hw, -⟩ := GraphLike.exists_ofDiagram_formed hd hhung
  obtain ⟨g', -, hrounds⟩ := GraphLike.exists_teleportWithin (g := g) ⟨hg, hw⟩
  have hrun := hrounds _ g.weight_lt_roundLimit
  obtain ⟨hframe, hinv⟩ := ((GraphLike.bookkeeping_frame d).and hI).teleported hd
    ⟨⟨d.phases, d.carriers, rfl⟩, hstart⟩ hok hrun
  have hmaster := hd.of_frame hframe
  -- the spiders of the master are those of the given diagram, whatever became of the copy
  obtain ⟨r, hok₁, hr, hj⟩ := Diagram.exists_tidied hJ hmaster (hIJ _ _ hinv) .identity (by decide)
  obtain ⟨r', hok₂, hr', hj'⟩ := Diagram.exists_tidied hJ hr hj .cancel (by decide)
  refine ⟨g'.master, r, r', hframe, hok₁, hok₂, ?_, hr', hj'⟩
  rw [phaseTeleportation, hok]
  change (teleportWithin g.roundLimit g >>= fun g => _) = _
  rw [hrun]
  change (g'.master.simplify .identity >>= fun r => _) = _
  rw [hok₁]
  change (r.2.simplify .cancel >>= fun r => _) = _
  rw [hok₂]
  rfl

/-- Phase teleportation gives a diagram, with no greater T-count. -/
theorem exists_phaseTeleportation (hd : d.Coherent)
    (hends : ∀ v, d.web.IsEnd v → d.web.degree v = 1) (hn : d.web.TCountLe n) :
    ∃ d', phaseTeleportation d = .ok d' ∧ d'.Coherent ∧ d'.web.TCountLe n := by
  obtain ⟨_, _, r', -, -, -, hok, hr'⟩ := exists_tidied_master (GraphLike.bookkeeping_held n)
    (Web.durable_tCountLe n) (fun _ _ h => h.tCountLe) hd (hd.valid.hung hends) (.start hn)
  exact ⟨r'.2, hok, hr'⟩

/-- A circuit that Clifford simplification gives has no greater T-count. -/
theorem tCount_le_of_cliffordSimplification (hd : d.Coherent)
    (hends : ∀ v, d.web.IsEnd v → d.web.degree v = 1) (hs : d.web.ShortBoxes)
    (hn : d.web.TCountLe n) (hok : cliffordSimplification d = .ok c) : c.tCount ≤ n := by
  obtain ⟨g, hg, hcircuit⟩ := of_bind_eq_ok hok
  have hbounded := (GraphLike.bounded_cliffordForm hd hends hs hn).of_ok (of_lift_eq_ok hg)
  exact Extraction.tCount_le_of_circuitOf hbounded hcircuit

/-- Phase teleportation of a diagram, each end of which has a single edge, gives a diagram with no
    greater T-count. If boxes have two edges at most, then neither has a circuit that Clifford
    simplification gives. -/
theorem optimised_tCount_le (hd : d.Coherent)
    (hends : ∀ v, d.web.IsEnd v → d.web.degree v = 1) :
    (∃ d' n n', phaseTeleportation d = .ok d' ∧ d.tCount = .ok n ∧ d'.tCount = .ok n' ∧ n' ≤ n) ∧
    (d.web.ShortBoxes → ∀ c, cliffordSimplification d = .ok c →
      ∃ n, d.tCount = .ok n ∧ c.tCount ≤ n) := by
  obtain ⟨n, hn, hleast⟩ := Diagram.exists_tCount hd
  have hbound := (hleast n).2 (Nat.le_refl n)
  refine ⟨?_, fun hs c hok => ⟨n, hn, ?_⟩⟩
  · obtain ⟨d', hok, hd', hbound'⟩ := exists_phaseTeleportation hd hends hbound
    obtain ⟨n', hn', hleast'⟩ := Diagram.exists_tCount hd'
    exact ⟨d', n, n', hok, hn, hn', (hleast' n).1 hbound'⟩
  · exact tCount_le_of_cliffordSimplification hd hends hs hbound hok

/-- The two eighth turns on the wire, with a box in between, come together. -/
theorem optimised_threeTurns :
    (Diagram.threeTurns.Coherent ∧ (∀ v, Diagram.threeTurns.web.IsEnd v →
      Diagram.threeTurns.web.degree v = 1) ∧ Diagram.threeTurns.web.ShortBoxes) ∧
    (∃ d' n n', phaseTeleportation Diagram.threeTurns = .ok d' ∧
      Diagram.threeTurns.tCount = .ok n ∧ d'.tCount = .ok n' ∧ n' ≤ n) ∧
    ∃ c, cliffordSimplification Diagram.threeTurns = .ok c ∧
      ∃ n, Diagram.threeTurns.tCount = .ok n ∧ c.tCount ≤ n := by
  have hco : Diagram.threeTurns.Coherent := by decide +kernel
  have hall : ∀ v < 6, (Diagram.threeTurns.web.IsEnd v → Diagram.threeTurns.web.degree v = 1) ∧
      (Diagram.threeTurns.web.kind v = some .box → Diagram.threeTurns.web.degree v ≤ 2) := by
    decide +kernel
  have hlt {v : Vertex} (hv : Diagram.threeTurns.web.Has v) : v < 6 := hco.valid.lt v hv
  have hends (v : Vertex) (hv : Diagram.threeTurns.web.IsEnd v) := (hall v (hlt hv.has)).1 hv
  have hshort : Diagram.threeTurns.web.ShortBoxes := fun v hv =>
    (hall v (hlt (Web.has_of_kind hv))).2 hv
  have hok : (cliffordSimplification Diagram.threeTurns).toOption.isSome = true := by cbv
  obtain ⟨hteleported, hsimplified⟩ := optimised_tCount_le hco hends
  refine ⟨⟨hco, hends, hshort⟩, hteleported, ?_⟩
  cases h : cliffordSimplification Diagram.threeTurns with
  | ok c => exact ⟨c, rfl, hsimplified hshort c h⟩
  | error f => simp [h, Except.toOption] at hok

end ZXRewriting

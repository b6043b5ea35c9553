import ZXRewriting.Proofs.Clifford
import ZXRewriting.Proofs.Diagram.Tidied
import ZXRewriting.Proofs.Diagram.Unitary
import ZXRewriting.Proofs.GraphLike.Mirroring
import ZXRewriting.Proofs.Teleportation

/-!
# Phase teleportation is sound

Phase teleportation replays on the untouched diagram the merges of phases that were found on its
graph-like form. The diagram of a circuit denotes an invertible map for any phases and twists
(`Diagram.Written.firm`), so that the master mirrors the graph-like form to the end, and denotes what
the diagram does (`GraphLike.teleported_proportional`). Tidying keeps that and leaves a diagram of
cells (`Diagram.Written.exists_teleported`). From it a circuit is read back that has the unitary of the
one that was given (`phaseTeleportation_unitary`).
-/

namespace ZXRewriting

open Equiv (Perm)
open Web

variable {c : Circuit} {d d' : Diagram} {g g' : GraphLike} {D n : ℕ} {gs : List Gate}
  {lines : Diagram.Side → Perm ℕ} {beside : Vertex → List Vertex} {cells : List (ℤ × Cell)}
  {first last : ℤ}

namespace Diagram

/-- A diagram of cells denotes an invertible map, whatever its phases are. -/
theorem Written.firm (h : d.Written n lines beside cells first last) : d.Firm n :=
  fun m τ hframe hne hτ => by
    have hm := (h.rephase hframe).woven
    obtain ⟨phases, carriers, rfl⟩ := hframe
    exact hm.reversible hne hτ

/-- The wires past the last one stay where they are. -/
theorem Recorded.lines_apply (h : d.Recorded n gs lines beside cells first last) {q : ℕ}
    (hq : n ≤ q) : ((lines .front).symm * lines .back : Perm ℕ) q = q := by
  rw [h.follow_eq.2]
  exact follow_apply h.valid_taken hq

end Diagram

/-- The master that phase teleportation ends with denotes what the diagram does. -/
theorem GraphLike.teleported_proportional (hD : Phase.IsGrid D) (hd : d.Coherent) (hw : d.web.Drawn)
    (hgrid : d.web.OnGrid D) (hown : d.web.carrier = d.web.ownNames) (hf : d.Firm n) {rounds : ℕ}
    (hok : ofDiagram d = .ok g) (hrounds : teleportWithin rounds g = .ok g') :
    Proportional (d.web.tensors 1).amplitude (g'.master.web.tensors 1).amplitude := by
  obtain ⟨g₁, hok₁, h, hconverts⟩ := exists_mirrored hD hd hw hgrid hown
  obtain rfl : g₁ = g := Except.ok.inj (hok₁.symm.trans hok)
  have h' := h.of_teleportWithin hD hd hf hrounds
  have hrewrites := (leaves_teleportWithin (GraphRule.keeps_rewrites hD g₁.web)
    ⟨h.coherent, .refl h.form h.grid⟩ rounds).of_ok hrounds
  have hamp := hrewrites.2.amplitude
  rw [amplitude, amplitude, ← h.form.simple.tensors_eq, ← h'.form.simple.tensors_eq] at hamp
  exact (hconverts.amplitude 1 fun _ _ => rfl).trans (hamp.trans h'.mirrors.proportional.symm)

/-- Phase teleportation of a diagram of cells leads to one that has the same inputs and outputs, and
    denotes the same up to a scalar. -/
theorem Diagram.Written.exists_teleported (h : d.Written n lines beside cells first last)
    (hD : Phase.IsGrid D) (hdrawn : d.web.Drawn) (hgrid : d.web.OnGrid D)
    (hown : d.web.carrier = d.web.ownNames) : ∃ d' cells', phaseTeleportation d = .ok d' ∧
      d'.Written n lines beside cells' first last ∧ d'.inputs = d.inputs ∧ d'.outputs = d.outputs ∧
      Proportional (d.web.tensors 1).amplitude (d'.web.tensors 1).amplitude := by
  have hd := h.coherent
  obtain ⟨_, r, r', -, -, -, hok, -⟩ := exists_tidied_master (J := fun _ => True)
    (GraphLike.bookkeeping_frame d) ⟨fun _ _ => trivial, fun _ _ _ _ => trivial⟩
    (fun _ _ _ => trivial) hd hdrawn.framed.toHung ⟨d.phases, d.carriers, rfl⟩
  -- the master is told, and then tidied in two passes
  obtain ⟨g, hg, hrest⟩ := of_bind_eq_ok hok
  obtain ⟨g', hg', hrest⟩ := of_bind_eq_ok hrest
  obtain ⟨⟨n₁, d₁⟩, hok₁, hrest⟩ := of_bind_eq_ok hrest
  obtain ⟨⟨n₂, d₂⟩, hok₂, hrest⟩ := of_bind_eq_ok hrest
  obtain rfl : d₂ = r'.2 := Except.ok.inj hrest
  have hmaster := GraphLike.teleported_proportional hD hd hdrawn hgrid hown h.firm hg hg'
  have hframe := (GraphLike.bookkeeping_frame d).teleported hd ⟨d.phases, d.carriers, rfl⟩ hg hg'
  have hm := h.rephase hframe
  have hden₁ := (Diagram.keeps_denotes (by decide) g'.master.web).of_simplifyWithin
    ⟨⟨_, hm⟩, .refl hm.threaded.plain⟩ hok₁
  obtain ⟨⟨cells₂, h₂⟩, hden₂⟩ := (Diagram.keeps_denotes (by decide)
    g'.master.web).of_simplifyWithin hden₁ hok₂
  have hin : r'.2.inputs = g'.master.inputs := hden₂.inputs
  have hout : r'.2.outputs = g'.master.outputs := hden₂.outputs
  refine ⟨r'.2, cells₂, hok, h₂, ?_, ?_, hmaster.trans hden₂.amplitude⟩
  · obtain ⟨phases, carriers, hm⟩ := hframe
    rw [hin, hm]
  · obtain ⟨phases, carriers, hm⟩ := hframe
    rw [hout, hm]

/-- A circuit is read back from the diagram that phase teleportation of a circuit leads to, and has the
    same unitary up to a scalar. -/
theorem phaseTeleportation_unitary (hD : Phase.IsGrid D) (hc : c.Valid D)
    (hsize : c.gates.length < 2 ^ 53) : ∃ d d' c', Diagram.ofCircuit c = .ok d ∧
      phaseTeleportation d = .ok d' ∧ d'.toCircuit = .ok c' ∧ c'.qubits = c.qubits ∧
      (∀ g ∈ c'.gates, g.Valid c.qubits) ∧
      ∃ k : ℂ, k ≠ 0 ∧ c'.unitary c.qubits = k • c.unitary c.qubits := by
  obtain ⟨d, bare, hokd, hd, hbare, hputs⟩ := Diagram.exists_ofCircuit hc.gates
  have hgrid : d.web.OnGrid D := hputs.onGrid (fun v => by
    rw [hbare.phase]
    exact Phase.onGrid_zero) hc.phases
  have hown : d.web.carrier = d.web.ownNames := hputs.ownNames hbare.drawn hbare.own
  obtain ⟨-, -, k, hk, hmatrix⟩ := hbare.unitary hc.gates hputs
  obtain ⟨lines, beside, cells, first, last, h⟩ := Diagram.recorded_of_ofRequests
    (by rwa [List.length_map]) ((Diagram.ofCircuit_eq c).symm.trans hokd)
  rw [Diagram.stream_back] at h
  obtain ⟨d', cells', hok, h', hin, hout, l, hl, hamp⟩ :=
    h.toWritten.exists_teleported hD (hputs.drawn hbare.drawn) hgrid hown
  obtain ⟨c', hread, hqubits, hvalid, k', hk', hmatrix'⟩ := h'.toCircuit_unitary
    (Int.lt_of_le_of_lt h.width (by exact_mod_cast hsize)) fun q => h.lines_apply
  have hmap : k • c.unitary c.qubits = (l * k') • c'.unitary c.qubits := by
    rw [← hmatrix, mul_smul, ← hmatrix', hin, hout]
    ext y x
    exact hamp _
  have hne := mul_ne_zero hl hk'
  refine ⟨d, d', c', hokd, hok, hread, hqubits, hvalid, (l * k')⁻¹ * k,
    mul_ne_zero (inv_ne_zero hne) hk, ?_⟩
  rw [mul_smul, hmap, smul_smul, inv_mul_cancel₀ hne, one_smul]

/-- An eighth turn on either side of a half turn about the other axis, which turns one of them around when
    the two are merged. -/
def turnedAround : Circuit :=
  ⟨1, [⟨.zPhase, [0], .reduce 1 4⟩, ⟨.xPhase, [0], .pi⟩, ⟨.zPhase, [0], .reduce 1 4⟩]⟩

theorem turnedAround_unitary : Phase.IsGrid 4 ∧ turnedAround.Valid 4 ∧
    turnedAround.gates.length < 2 ^ 53 ∧ ∃ d d' c', Diagram.ofCircuit turnedAround = .ok d ∧
      phaseTeleportation d = .ok d' ∧ d'.toCircuit = .ok c' ∧ c'.qubits = 1 ∧
      (∀ g ∈ c'.gates, g.Valid 1) ∧
      ∃ k : ℂ, k ≠ 0 ∧ c'.unitary 1 = k • turnedAround.unitary 1 := by
  have hD : Phase.IsGrid 4 := ⟨by decide, by decide⟩
  have heighth : (Phase.reduce 1 4).OnGrid 4 := by
    change (Phase.reduce 1 4).den ∣ 4
    decide
  have hc : turnedAround.Valid 4 := by
    refine ⟨fun g hg => ?_, fun g hg _ => ?_⟩ <;>
      simp only [turnedAround, List.mem_cons, List.not_mem_nil, or_false] at hg
    · rcases hg with rfl | rfl | rfl <;> exact ⟨rfl, by decide, by decide⟩
    · rcases hg with rfl | rfl | rfl
      · exact heighth
      · exact Phase.onGrid_pi
      · exact heighth
  have hsize : turnedAround.gates.length < 2 ^ 53 := by decide
  exact ⟨hD, hc, hsize, phaseTeleportation_unitary hD hc hsize⟩

end ZXRewriting

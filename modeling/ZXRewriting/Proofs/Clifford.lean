import ZXRewriting.Pipelines
import ZXRewriting.Proofs.Diagram.Circuits
import ZXRewriting.Proofs.Extraction.Extract
import ZXRewriting.Proofs.GraphLike.OfDiagram
import ZXRewriting.Proofs.GraphLike.Rules
import ZXRewriting.Proofs.Rewriting.Rule

/-!
# Clifford simplification is sound

The diagram of a circuit denotes its unitary (`Diagram.Bare.unitary`), the graph-like form denotes
the same (`GraphLike.exists_ofDiagram`), each rewrite keeps that (`GraphLike.rewritesTo_apply`), and
so does extraction (`Extraction.extract_denotes`), all up to scalars that are not zero. Here these
are put together: a circuit that Clifford simplification gives has the unitary of the one it was
given (`cliffordSimplification_unitary`).
-/

namespace ZXRewriting

open Web

variable {g : GraphLike} {d : Diagram} {w : Web} {c : Circuit} {D : ℕ}

/-- Every rule keeps what a graph-like diagram denotes. -/
theorem GraphRule.keeps_rewrites (hD : Phase.IsGrid D) (w : Web) (rule : GraphRule) :
    Rule.Keeps rule fun g : GraphLike => g.Coherent ∧ Rewrites D w g.web := by
  rintro g m ⟨hg, hr⟩ hcheck
  obtain ⟨g', hok, hg', hr'⟩ := GraphLike.rewritesTo_apply hD hg hr.form hr.grid hcheck
  exact Meets.of_exists ⟨g', hok, hg', hr.trans hr'⟩

/-- The simplified diagram denotes what the diagram of the circuit does. -/
theorem cliffordForm_meets (hD : Phase.IsGrid D) (hd : d.Coherent) (hw : d.web.Drawn)
    (hgrid : d.web.OnGrid D) : Meets (cliffordForm d) (fun g => g.Coherent ∧ g.web.InForm ∧
      g.web.OnGrid D ∧ g.inputs = d.inputs ∧ g.outputs = d.outputs ∧
      Proportional (d.web.tensors 1).amplitude g.web.amplitude) fun _ => True := by
  obtain ⟨g₀, hok, hg₀, hform, hgrid₀, hconv⟩ := GraphLike.exists_ofDiagram hd hw hD hgrid
  have hamp₀ : Proportional (d.web.tensors 1).amplitude g₀.web.amplitude := by
    have := hconv.amplitude 1 fun _ _ => rfl
    rwa [tensors_eq_network hform.simple.colour] at this
  rw [cliffordForm, hok]
  change Meets (g₀.simplifyAll _ >>= fun g => _) _ _
  refine (GraphLike.leaves_simplifyAll (fun rule _ => GraphRule.keeps_rewrites hD g₀.web rule)
    ⟨hg₀, .refl hform hgrid₀⟩).bind fun g₁ hg₁ => ?_
  refine ((GraphRule.keeps_rewrites hD g₀.web .pivotBoundary).replace hg₁).bind fun r hkept => ?_
  obtain ⟨hg, hr⟩ := hkept
  exact ⟨hg, hr.form, hr.grid, hr.inputs.trans hconv.inputs, hr.outputs.trans hconv.outputs,
    hamp₀.trans hr.amplitude⟩

/-- A circuit that Clifford simplification gives has the same unitary up to a scalar. -/
theorem cliffordSimplification_unitary (hD : Phase.IsGrid D) (hc : c.Valid D) :
    ∃ d, Diagram.ofCircuit c = .ok d ∧ ∀ c', cliffordSimplification d = .ok c' →
      c'.qubits = c.qubits ∧ c'.Valid D ∧
        ∃ k : ℂ, k ≠ 0 ∧ c'.unitary c.qubits = k • c.unitary c.qubits := by
  obtain ⟨d, bare, hok, hd, hbare, hputs⟩ := Diagram.exists_ofCircuit hc.gates
  have hdrawn : d.web.Drawn := hputs.drawn hbare.drawn
  have hgrid : d.web.OnGrid D := hputs.onGrid (fun v => by
    rw [hbare.phase]
    exact Phase.onGrid_zero) hc.phases
  obtain ⟨hin, hout, k, hk, hmatrix⟩ := hbare.unitary hc.gates hputs
  refine ⟨d, hok, fun c' hc' => ?_⟩
  obtain ⟨g, hg, hcircuit⟩ := of_bind_eq_ok hc'
  have hmeets := cliffordForm_meets hD hd hdrawn hgrid
  have hform : cliffordForm d = .ok g := by
    cases h : cliffordForm d with
    | ok g' =>
      rw [h] at hg
      rw [Except.ok.inj hg]
    | error f =>
      rw [h] at hg
      cases hg
  rw [hform] at hmeets
  obtain ⟨hco, hinForm, hgrid', hinputs, houtputs, l, hl, hamp⟩ := hmeets
  obtain ⟨r, hr, hr₂⟩ := of_bind_eq_ok hcircuit
  obtain rfl : r.2 = c' := Except.ok.inj hr₂
  -- the map of the diagram that is extracted
  have hmap : k • c.unitary c.qubits = l • g.linearMap c.qubits c.qubits := by
    rw [← hmatrix, GraphLike.linearMap, hinputs, houtputs]
    ext y x
    exact hamp _
  have hunit : c.unitary c.qubits ≠ 0 := (isUnit_gatesMatrix hc.gates).ne_zero
  have hne : g.linearMap c.qubits c.qubits ≠ 0 := fun h => by
    rw [h, smul_zero] at hmap
    exact (smul_ne_zero hk hunit) hmap
  obtain ⟨hqubits, hvalid, m, hm, hextracted⟩ := (Extraction.extract_denotes hD hco hinForm hgrid'
    true c.qubits c.qubits (houtputs ▸ hout) (hinputs ▸ hin)).2 r hr rfl hne
  refine ⟨hqubits, hvalid, (l * m)⁻¹ * k, mul_ne_zero (inv_ne_zero (mul_ne_zero hl hm)) hk, ?_⟩
  rw [mul_smul, hmap, hextracted, smul_smul l m, smul_smul, inv_mul_cancel₀ (mul_ne_zero hl hm),
    one_smul]

/-- Two swaps on three qubits come out as a circuit with the same unitary. -/
theorem cliffordSimplification_cycle :
    Circuit.Valid 1 ⟨3, [.plain .swap [0, 1], .plain .swap [1, 2]]⟩ ∧
      ∃ d c', Diagram.ofCircuit ⟨3, [.plain .swap [0, 1], .plain .swap [1, 2]]⟩ = .ok d ∧
        cliffordSimplification d = .ok c' ∧ c'.qubits = 3 ∧ c'.Valid 1 ∧
          ∃ k : ℂ, k ≠ 0 ∧ c'.unitary 3 =
            k • Circuit.unitary 3 ⟨3, [.plain .swap [0, 1], .plain .swap [1, 2]]⟩ := by
  have hc : Circuit.Valid 1 ⟨3, [.plain .swap [0, 1], .plain .swap [1, 2]]⟩ :=
    ⟨by simpa using ⟨⟨rfl, by decide, by decide⟩, ⟨rfl, by decide, by decide⟩⟩,
      by simp [Gate.plain, GateKind.hasPhase]⟩
  obtain ⟨d, hd, hunitary⟩ := cliffordSimplification_unitary ⟨by decide, by decide⟩ hc
  have hok : ((Diagram.ofCircuit ⟨3, [.plain .swap [0, 1], .plain .swap [1, 2]]⟩).toOption.bind
      fun d => (cliffordSimplification d).toOption).isSome := by decide +kernel
  rw [hd] at hok
  obtain ⟨c', hc'⟩ := Option.isSome_iff_exists.1 hok
  have hc' : cliffordSimplification d = .ok c' := by
    cases h : cliffordSimplification d with
    | ok c => simpa [h, Except.toOption] using hc'
    | error f => simp [h, Except.toOption] at hc'
  exact ⟨hc, d, c', hd, hc', hunitary c' hc'⟩

end ZXRewriting

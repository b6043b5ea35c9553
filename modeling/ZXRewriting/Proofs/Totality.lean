import ZXRewriting.Proofs.Extraction.Completeness
import ZXRewriting.Proofs.GraphLike.Ending
import ZXRewriting.Proofs.Rewriting.Rule

/-!
# Clifford simplification always gives a circuit

The graph-like form of the diagram of a circuit has a causal flow, so that it is steady
(`Extraction.steady_of_flow`), and the rules of Clifford simplification keep it steady
(`GraphLike.keeps_isSteady`): none of them gives a phase a spider of its own. From a steady diagram a
circuit is extracted (`Extraction.exists_extract_of_steady`). So no circuit is refused
(`cliffordSimplification_ok`).
-/

namespace ZXRewriting

open Web

namespace GraphLike

variable {g : GraphLike}

/-- A graph-like diagram that denotes an invertible map whatever phases its spiders are given. -/
structure IsSteady (g : GraphLike) : Prop where
  coherent : g.Coherent
  form : g.web.InForm
  steady : g.web.Steady

/-- The rewrites that Clifford simplification makes keep a diagram steady. -/
theorem Accepted.leaves_isSteady {rule : GraphRule} {x : Except Fault GraphLike}
    (h : Accepted g rule x) (hg : g.IsSteady)
    (hrule : rule ∈ [.localComplement, .pivot, .pivotBoundary]) : Leaves x IsSteady := by
  obtain ⟨hco, hw, hs⟩ := hg
  have hleaves {x : Except Fault GraphLike} {w : Web} {m : Diagram} (hx : Gives x w m)
      (hstep : Step g.web w) (hs' : w.Steady) : Leaves x IsSteady := by
    obtain ⟨g', rfl, hg', rfl, -⟩ := hx
    exact ⟨hg', (hstep.keeps hw).form, hs'⟩
  cases h with
  | localComplement hv hp =>
    have hns := fun u hu => (hv.2 u hu).1
    exact hleaves (Gives.localComplement hco hw.simple hv.1.1.has hns) (.localComplement hv hp)
      (hs.localComplement hw hv.1.1 hns)
  | pivot hv hu hj hpv hpu =>
    have hpivotable := (hw.readied hu hpu).pivotable hv hj (hco.valid.ne_of_mem_nearby hj)
    exact hleaves (Gives.pivot hco hw.simple hpivotable) (.pivot hv hu hj hpv hpu)
      (hs.pivot hw hpivotable)
  | pivotBoundary hv hu hj hpv hpu =>
    have hready := hw.readied_shiftBoundaries hu.1 hpu
    exact hleaves (gives_pivotBoundary hco hw hv hu hj hpu) (.pivotBoundary hv hu hj hpv hpu)
      ((hs.shiftBoundaries hw hu.1).pivot hready.form
        (hready.pivotable hv hj (hco.valid.ne_of_mem_nearby hj)))
  | pivotGadget => simp at hrule
  | pivotBoundaryGadget => simp at hrule
  | fuseNeighbors => simp at hrule
  | fuseGadgets => simp at hrule

theorem keeps_isSteady {rule : GraphRule}
    (hrule : rule ∈ [.localComplement, .pivot, .pivotBoundary]) : Rule.Keeps rule IsSteady :=
  fun _ _ hg h => (accepted_of_check hg.coherent hg.form h).leaves_isSteady hg hrule

/-- What the rules of Clifford simplification make of a steady diagram. -/
theorem IsSteady.exists_cliffordForm {d : Diagram} (hok : ofDiagram d = .ok g) (hg : g.IsSteady) :
    ∃ g', cliffordForm d = .ok g' ∧ g'.IsSteady := by
  obtain ⟨g₁, hok₁, hshape₁, -⟩ :=
    exists_simplifyAll ⟨hg.coherent, hg.form.formed⟩ [.localComplement, .pivot]
  obtain ⟨r, hok₂, -⟩ := (decreasing .pivotBoundary).exists_replace hshape₁
  have hg₁ : Leaves (g.simplifyAll [.localComplement, .pivot]) IsSteady := leaves_simplifyAll
    (fun _ hrule => keeps_isSteady (List.mem_append_left [GraphRule.pivotBoundary] hrule)) hg
  rw [hok₁] at hg₁
  have hg₂ : Leaves (Rule.replace GraphRule.pivotBoundary g₁) fun r => r.2.IsSteady :=
    (keeps_isSteady (by simp)).replace hg₁
  rw [hok₂] at hg₂
  refine ⟨r.2, ?_, hg₂⟩
  rw [cliffordForm, hok]
  change (g.simplifyAll [.localComplement, .pivot] >>= _) = _
  rw [hok₁]
  change (Rule.replace GraphRule.pivotBoundary g₁ >>= _) = _
  rw [hok₂]
  rfl

end GraphLike

/-- Clifford simplification gives a circuit for every circuit. -/
theorem cliffordSimplification_ok {c : Circuit} (hc : ∀ g ∈ c.gates, g.Valid c.qubits) :
    ∃ d c', Diagram.ofCircuit c = .ok d ∧ cliffordSimplification d = .ok c' := by
  obtain ⟨d, bare, hokd, hd, hbare, hputs⟩ := Diagram.exists_ofCircuit hc
  obtain ⟨course, hl⟩ := hputs.exists_laid hbare.drawn hbare.laid
  obtain ⟨g, hokg, hg, hw, course', hf⟩ :=
    GraphLike.exists_ofDiagram_flow hd (hputs.drawn hbare.drawn) hl
  have hsteady : g.IsSteady := ⟨hg, hw, Extraction.steady_of_flow hg hw hf⟩
  obtain ⟨g', hok', hg'⟩ := hsteady.exists_cliffordForm hokg
  obtain ⟨r, hr⟩ := Extraction.exists_extract_of_steady hg'.coherent hg'.form hg'.steady true
  refine ⟨d, r.2, hokd, ?_⟩
  rw [cliffordSimplification, hok']
  change (Extraction.extract ⟨true, true⟩ g' >>= fun r => Except.ok r.2) = _
  rw [hr]
  rfl

/-- Two CNOT gates with a rotation between them. -/
theorem cliffordSimplification_parityRotation :
    (∀ g ∈ Extraction.parityRotation.gates, g.Valid Extraction.parityRotation.qubits) ∧
      ∃ d c', Diagram.ofCircuit Extraction.parityRotation = .ok d ∧
        cliffordSimplification d = .ok c' :=
  ⟨Extraction.parityRotation_valid, cliffordSimplification_ok Extraction.parityRotation_valid⟩

end ZXRewriting

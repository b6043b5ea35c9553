import Mathlib.Algebra.Group.Pi.Units
import Mathlib.Analysis.Complex.Polynomial.Basic
import Mathlib.FieldTheory.IsAlgClosed.Spectrum
import Mathlib.LinearAlgebra.Matrix.NonsingularInverse
import ZXRewriting.Proofs.Semantics.Unitary

/-!
# Invertible maps between the bits of two lists of ends

A function of bits is *reversible* between as many outputs as inputs if its matrix is invertible
(`Reversible`). Reading the map backwards keeps that, and so does what acts at the ends only: a factor
for a bit (`Ends.reversible_factor`), a Hadamard gate (`Ends.reversible_hadamardAt`), and every
other gate (`Ends.reversible_act`). No column of an invertible matrix is zero, and none is a
multiple of another one (`Reversible.exists_ne`). Of two invertible maps, some multiple of the one
added to the other one is not invertible (`Reversible.exists_add_mul`).
-/

namespace ZXRewriting

open Function (update update_self update_of_ne)

/-- As many outputs as inputs, all distinct. -/
structure Ends (n : ℕ) (outputs inputs : List Vertex) : Prop where
  outputs_nodup : outputs.Nodup
  inputs_nodup : inputs.Nodup
  disjoint : ∀ v ∈ outputs, v ∉ inputs
  outputs_length : outputs.length = n
  inputs_length : inputs.length = n

/-- Whether a function of bits is an invertible map from `n` inputs to `n` outputs. -/
def Reversible (n : ℕ) (outputs inputs : List Vertex) (f : Bits → ℂ) : Prop :=
  IsUnit (toMatrix n n outputs inputs f)

variable {n q : ℕ} {outputs inputs : List Vertex} {f f' : Bits → ℂ} {t : Vertex} {c : ℂ}
  {x y : Fin n → Bool}

theorem getElem?_getD {l : List Vertex} (hq : q < l.length) : l[q]? = some (l.getD q 0) := by
  rw [List.getD_eq_getElem?_getD, List.getElem?_eq_getElem hq, Option.getD_some]

theorem getBit_of_le (h : n ≤ q) : getBit x q = false := dif_neg (Nat.not_lt.2 h)

theorem isUnit_smul_matrix (hc : c ≠ 0) {m : Type} [Fintype m] [DecidableEq m] (M : Matrix m m ℂ) :
    IsUnit (c • M) ↔ IsUnit M := isUnit_smul_iff (Units.mk0 c hc) M

/-- A scalar that is not zero does not matter. -/
theorem Proportional.reversible_iff (h : Proportional f f') :
    Reversible n outputs inputs f ↔ Reversible n outputs inputs f' := by
  obtain ⟨c, hc, hf⟩ := h
  rw [Reversible, show toMatrix n n outputs inputs f = c • toMatrix n n outputs inputs f' by
    ext y x
    exact hf _, isUnit_smul_matrix hc]
  rfl

namespace Reversible

theorem congr (h : Reversible n outputs inputs f) (hf : Proportional f f') :
    Reversible n outputs inputs f' := hf.reversible_iff.1 h

/-- An invertible map takes no list of coefficients to zero. -/
theorem exists_ne_of_ne_zero (h : Reversible n outputs inputs f) {z : (Fin n → Bool) → ℂ}
    (hz : z ≠ 0) : ∃ y : Fin n → Bool, ∑ x, f (endBits outputs inputs y x) * z x ≠ 0 := by
  by_contra hall
  push Not at hall
  refine hz (Matrix.mulVec_injective_of_isUnit h ?_)
  rw [Matrix.mulVec_zero]
  exact funext hall

/-- No column is zero. -/
theorem exists_ne_zero (h : Reversible n outputs inputs f) (x : Fin n → Bool) :
    ∃ y : Fin n → Bool, f (endBits outputs inputs y x) ≠ 0 := by
  obtain ⟨y, hy⟩ := h.exists_ne_of_ne_zero (z := Pi.single x 1) (by simp)
  exact ⟨y, by simpa [Pi.single_apply] using hy⟩

/-- No column is a multiple of another one. -/
theorem exists_ne (h : Reversible n outputs inputs f) {x x' : Fin n → Bool} (hx : x ≠ x') (c : ℂ) :
    ∃ y : Fin n → Bool, f (endBits outputs inputs y x) ≠ c * f (endBits outputs inputs y x') := by
  have hz : (Pi.single x 1 - Pi.single x' c : (Fin n → Bool) → ℂ) ≠ 0 := fun h0 => by
    have := congrFun h0 x
    simp [hx] at this
  obtain ⟨y, hy⟩ := h.exists_ne_of_ne_zero hz
  refine ⟨y, fun heq => hy ?_⟩
  simp [mul_sub, Finset.sum_sub_distrib, Pi.single_apply, heq, mul_comm c]

/-- Of two invertible maps, some multiple of the one added to the other one is not invertible. -/
theorem exists_add_mul (h : Reversible n outputs inputs f) (h' : Reversible n outputs inputs f') :
    ∃ z : ℂ, z ≠ 0 ∧ ¬Reversible n outputs inputs fun b => f b + z * f' b := by
  obtain ⟨u, hu⟩ := h
  set M := u⁻¹.val * toMatrix n n outputs inputs f' with hM
  -- the matrix of the one after the other one backwards has an eigenvalue
  obtain ⟨μ, hμ⟩ := spectrum.nonempty_of_isAlgClosed_of_finiteDimensional ℂ M
  have hμ0 : μ ≠ 0 := fun h0 => (spectrum.zero_mem_iff ℂ).1 (h0 ▸ hμ) (u⁻¹.isUnit.mul h')
  refine ⟨-μ⁻¹, neg_ne_zero.2 (inv_ne_zero hμ0), fun hsum => hμ ?_⟩
  have hfactor : toMatrix n n outputs inputs (fun b => f b + -μ⁻¹ * f' b) =
      u.val * (μ⁻¹ • (algebraMap ℂ _ μ - M)) := by
    rw [Algebra.algebraMap_eq_smul_one, smul_sub, smul_smul, inv_mul_cancel₀ hμ0, one_smul, mul_sub,
      mul_one, mul_smul_comm, hM, Units.mul_inv_cancel_left, hu, sub_eq_add_neg, ← neg_smul]
    rfl
  rw [Reversible, hfactor, u.isUnit.mul_left_iff, isUnit_smul_matrix (inv_ne_zero hμ0)] at hsum
  exact hsum

end Reversible

namespace Ends

theorem symm (h : Ends n outputs inputs) : Ends n inputs outputs :=
  ⟨h.inputs_nodup, h.outputs_nodup, fun v hv hv' => h.disjoint v hv' hv, h.inputs_length,
    h.outputs_length⟩

/-- The bits do not depend on which of the ends are called outputs. -/
theorem endBits_comm (h : Ends n outputs inputs) (y x : Fin n → Bool) :
    endBits outputs inputs y x = endBits inputs outputs x y := by
  funext v
  rw [endBits, endBits]
  by_cases ho : v ∈ outputs
  · rw [if_pos ho, if_neg (h.disjoint v ho)]
  · rw [if_neg ho, List.idxOf_eq_length ho, h.outputs_length, getBit_of_le le_rfl]
    split
    · rfl
    · next hi => rw [List.idxOf_eq_length hi, h.inputs_length, getBit_of_le le_rfl]

/-- A map read backwards. -/
theorem toMatrix_comm (h : Ends n outputs inputs) (f : Bits → ℂ) :
    toMatrix n n inputs outputs f = (toMatrix n n outputs inputs f).transpose := by
  ext x y
  exact congrArg f (h.endBits_comm y x).symm

theorem reversible_comm (h : Ends n outputs inputs) :
    Reversible n outputs inputs f ↔ Reversible n inputs outputs f := by
  rw [Reversible, Reversible, h.toMatrix_comm, Matrix.isUnit_transpose]

/-- The bit at an output. -/
theorem endBits_output (h : Ends n outputs inputs) (hq : q < n) :
    endBits outputs inputs y x (outputs.getD q 0) = getBit y q :=
  endBits_apply (o := fun q => outputs.getD q 0) h.outputs_nodup
    (fun _ hq => getElem?_getD hq) (h.outputs_length ▸ hq)

theorem exists_output (h : Ends n outputs inputs) (ht : t ∈ outputs) :
    ∃ q < n, outputs.getD q 0 = t := by
  obtain ⟨q, hq, hget⟩ := List.getElem_of_mem ht
  refine ⟨q, h.outputs_length ▸ hq, ?_⟩
  rw [List.getD_eq_getElem?_getD, List.getElem?_eq_getElem hq, hget, Option.getD_some]

/-- Gates at the outputs. -/
theorem reversible_act (h : Ends n outputs inputs) {g : Gate} (hg : g.Valid n) (f : Bits → ℂ) :
    Reversible n outputs inputs (g.act (fun q => outputs.getD q 0) f) ↔
      Reversible n outputs inputs f := by
  obtain ⟨c, hc, hmul⟩ := Gate.matrix_mul_toMatrix n inputs h.outputs_nodup h.outputs_length
    (fun _ hq => getElem?_getD hq) hg f
  rw [Reversible, hmul, isUnit_smul_matrix hc, hg.isUnit_matrix.mul_left_iff, Reversible]

private theorem reversible_factor_output (h : Ends n outputs inputs) (ht : t ∈ outputs) (hc : c ≠ 0)
    (f : Bits → ℂ) : Reversible n outputs inputs (fun b => (if b t then c else 1) * f b) ↔
      Reversible n outputs inputs f := by
  obtain ⟨q, hq, rfl⟩ := h.exists_output ht
  have hdiag : IsUnit (Matrix.diagonal fun y : Fin n → Bool => if getBit y q then c else 1) := by
    rw [Matrix.isUnit_diagonal, Pi.isUnit_iff]
    intro y
    split
    · exact hc.isUnit
    · exact isUnit_one
  rw [Reversible, Reversible, ← hdiag.mul_left_iff (b := toMatrix n n outputs inputs f)]
  refine iff_of_eq (congrArg IsUnit ?_)
  ext y x
  rw [Matrix.diagonal_mul, toMatrix, toMatrix, Matrix.of_apply, Matrix.of_apply,
    h.endBits_output hq]

private theorem reversible_hadamardAt_output (h : Ends n outputs inputs) (ht : t ∈ outputs)
    (f : Bits → ℂ) : Reversible n outputs inputs (hadamardAt t f) ↔
      Reversible n outputs inputs f := by
  obtain ⟨q, hq, rfl⟩ := h.exists_output ht
  refine h.reversible_act (g := ⟨.hadamard, [q], .zero⟩) ⟨rfl, List.nodup_singleton q, ?_⟩ f
  simpa using hq

/-- A factor for the bit at an end. -/
theorem reversible_factor (h : Ends n outputs inputs) (ht : t ∈ outputs ∨ t ∈ inputs) (hc : c ≠ 0)
    (f : Bits → ℂ) : Reversible n outputs inputs (fun b => (if b t then c else 1) * f b) ↔
      Reversible n outputs inputs f := by
  rcases ht with ht | ht
  · exact reversible_factor_output h ht hc f
  · rw [h.reversible_comm, h.reversible_comm]
    exact reversible_factor_output h.symm ht hc f

/-- A Hadamard gate at an end. -/
theorem reversible_hadamardAt (h : Ends n outputs inputs) (ht : t ∈ outputs ∨ t ∈ inputs)
    (f : Bits → ℂ) : Reversible n outputs inputs (hadamardAt t f) ↔
      Reversible n outputs inputs f := by
  rcases ht with ht | ht
  · exact reversible_hadamardAt_output h ht f
  · rw [h.reversible_comm, h.reversible_comm]
    exact reversible_hadamardAt_output h.symm ht f

end Ends

end ZXRewriting

import Mathlib.Algebra.Group.End
import Mathlib.Logic.Equiv.Basic
import ZXRewriting.Proofs.Semantics.Unitary

/-!
# Following the wires of a circuit

A swap lets two wires change places, and the gates after it lie on other wires than they name. Following
the wires (`follow`) puts every gate onto the wire it lies on, wires being named by the place they
start from, and leaves the swaps out; what they come to in the end is a permutation of the wires.
A list of swaps that comes to the same puts the wires back (`gatesMatrix_follow_append`).
-/

namespace ZXRewriting

open Equiv (Perm)

namespace Gate

/-- Whether the gate is a rotation by nothing. -/
def isIdle (g : Gate) : Bool := g.kind.hasPhase && g.phase.isZero

/-- The gate on other qubits. -/
def relabel (σ : Perm ℕ) (g : Gate) : Gate := { g with qubits := g.qubits.map σ }

/-- The exchange of places by a gate, which only a swap makes. -/
def crossing (g : Gate) : Perm ℕ :=
  match g.kind, g.qubits with
  | .swap, [q, r] => Equiv.swap q r
  | _, _ => 1

@[simp] theorem kind_relabel (σ : Perm ℕ) (g : Gate) : (g.relabel σ).kind = g.kind := rfl

@[simp] theorem isIdle_relabel (σ : Perm ℕ) (g : Gate) : (g.relabel σ).isIdle = g.isIdle := rfl

@[simp] theorem relabel_one (g : Gate) : g.relabel 1 = g := by
  rw [relabel, Equiv.Perm.coe_one, List.map_id]

theorem relabel_relabel (σ τ : Perm ℕ) (g : Gate) :
    (g.relabel τ).relabel σ = g.relabel (σ * τ) := by
  rw [relabel, relabel, List.map_map]
  rfl

theorem crossing_of_ne {g : Gate} (h : g.kind ≠ .swap) : g.crossing = 1 := by
  unfold crossing
  split
  · next heq _ => exact absurd heq h
  · rfl

end Gate

/-- The gates other than swaps, each on the wire it lies on, and the wires as they lie in the end. To
    begin with, the wire `lines q` lies at `q`. -/
def follow (lines : Perm ℕ) : List Gate → List Gate × Perm ℕ
  | [] => ([], lines)
  | g :: rest =>
    let (gates, after) := follow (lines * g.crossing) rest
    (if g.kind = .swap then gates else g.relabel lines :: gates, after)

section Follow

variable {σ τ : Perm ℕ} {g : Gate} {gs hs : List Gate} {n : ℕ}

@[simp] theorem follow_nil : follow σ [] = ([], σ) := rfl

theorem follow_swap (h : g.kind = .swap) : follow σ (g :: gs) = follow (σ * g.crossing) gs := by
  rw [follow]
  simp only [h, if_true]

theorem follow_other (h : g.kind ≠ .swap) :
    follow σ (g :: gs) = (g.relabel σ :: (follow σ gs).1, (follow σ gs).2) := by
  rw [follow, Gate.crossing_of_ne h, mul_one]
  simp only [h, if_false]

theorem follow_append : follow σ (gs ++ hs) =
    ((follow σ gs).1 ++ (follow (follow σ gs).2 hs).1, (follow (follow σ gs).2 hs).2) := by
  induction gs generalizing σ with
  | nil => rfl
  | cons g gs ih =>
    rw [List.cons_append]
    by_cases h : g.kind = .swap
    · rw [follow_swap h, follow_swap h, ih]
    · rw [follow_other h, follow_other h, ih]
      rfl

/-- The names of the wires do not matter. -/
theorem follow_mul :
    follow (τ * σ) gs = ((follow σ gs).1.map (·.relabel τ), τ * (follow σ gs).2) := by
  induction gs generalizing σ with
  | nil => rfl
  | cons g gs ih =>
    by_cases h : g.kind = .swap
    · rw [follow_swap h, follow_swap h, mul_assoc, ih]
    · rw [follow_other h, follow_other h, ih, List.map_cons, Gate.relabel_relabel]

/-- Without swaps there is nothing to follow. -/
theorem follow_of_ne (h : ∀ g ∈ gs, g.kind ≠ .swap) : follow 1 gs = (gs, 1) := by
  induction gs with
  | nil => rfl
  | cons g gs ih =>
    rw [follow_other (h g List.mem_cons_self), ih fun g hg => h g (List.mem_cons_of_mem _ hg),
      Gate.relabel_one]

/-! ### Places that are there -/

/-- Whether a permutation leaves `n` places among themselves. -/
def KeepsPlaces (n : ℕ) (σ : Perm ℕ) : Prop := ∀ q, σ q < n ↔ q < n

theorem KeepsPlaces.one : KeepsPlaces n 1 := fun _ => Iff.rfl

theorem KeepsPlaces.mul (hσ : KeepsPlaces n σ) (hτ : KeepsPlaces n τ) : KeepsPlaces n (σ * τ) :=
  fun q => (hσ (τ q)).trans (hτ q)

theorem KeepsPlaces.swap {q r : ℕ} (hq : q < n) (hr : r < n) : KeepsPlaces n (Equiv.swap q r) := by
  intro s
  rw [Equiv.swap_apply_def]
  split_ifs with h h'
  · simp [h, hq, hr]
  · simp [h', hq, hr]
  · rfl

theorem KeepsPlaces.symm (hσ : KeepsPlaces n σ) : KeepsPlaces n σ.symm := fun q => by
  rw [← hσ (σ.symm q), σ.apply_symm_apply]

theorem Gate.Valid.crossing (hg : g.Valid n) : KeepsPlaces n g.crossing := by
  unfold Gate.crossing
  split
  · next heq =>
    exact .swap (hg.lt _ (by simp [heq])) (hg.lt _ (by simp [heq]))
  · exact .one

theorem Gate.Valid.relabel (hg : g.Valid n) (hσ : KeepsPlaces n σ) : (g.relabel σ).Valid n where
  arity := (List.length_map _).trans hg.arity
  nodup := hg.nodup.map σ.injective
  lt q hq := by
    obtain ⟨r, hr, rfl⟩ := List.mem_map.1 hq
    exact (hσ r).2 (hg.lt r hr)

theorem KeepsPlaces.follow (hσ : KeepsPlaces n σ) (hg : ∀ g ∈ gs, g.Valid n) :
    KeepsPlaces n (follow σ gs).2 ∧ ∀ g ∈ (ZXRewriting.follow σ gs).1, g.Valid n := by
  induction gs generalizing σ with
  | nil => exact ⟨hσ, fun _ h => absurd h List.not_mem_nil⟩
  | cons g gs ih =>
    have hrest : ∀ g ∈ gs, g.Valid n := fun g h => hg g (List.mem_cons_of_mem _ h)
    by_cases h : g.kind = .swap
    · rw [follow_swap h]
      exact ih (hσ.mul (hg g List.mem_cons_self).crossing) hrest
    · rw [follow_other h]
      obtain ⟨hkeeps, hvalid⟩ := ih hσ hrest
      refine ⟨hkeeps, fun g' h' => ?_⟩
      rcases List.mem_cons.1 h' with rfl | h'
      · exact (hg g List.mem_cons_self).relabel hσ
      · exact hvalid g' h'

theorem Gate.Valid.crossing_apply (hg : g.Valid n) {q : ℕ} (hq : n ≤ q) : g.crossing q = q := by
  unfold Gate.crossing
  split
  · next a b _ heq =>
    have ha : a < n := hg.lt a (by simp [heq])
    have hb : b < n := hg.lt b (by simp [heq])
    exact Equiv.swap_apply_of_ne_of_ne (by omega) (by omega)
  · rfl

/-- Places that are not there stay as they are. -/
theorem follow_apply (hg : ∀ g ∈ gs, g.Valid n) {q : ℕ} (hq : n ≤ q) :
    (follow σ gs).2 q = σ q := by
  induction gs generalizing σ with
  | nil => rfl
  | cons g gs ih =>
    have hrest := fun g' h' => hg g' (List.mem_cons_of_mem g h')
    change (follow (σ * g.crossing) gs).2 q = σ q
    rw [ih hrest, Equiv.Perm.mul_apply, (hg g List.mem_cons_self).crossing_apply hq]

/-! ### The unitary -/

/-- The bits of the wires as they lie. -/
def carry (σ : Perm ℕ) (x : Fin n → Bool) : Fin n → Bool := fun i => getBit x (σ i)

variable {x y : Fin n → Bool} {q r : ℕ} {b : Bool}

theorem getBit_eq (h : q < n) : getBit x q = x ⟨q, h⟩ := dif_pos h

@[simp] theorem carry_one : carry 1 x = x := by
  funext i
  simp [carry, getBit]

theorem getBit_carry (hσ : KeepsPlaces n σ) : getBit (carry σ x) q = getBit x (σ q) := by
  by_cases h : q < n
  · simp [getBit, carry, h]
  · simp [getBit, h, (hσ q).not.2 h]

theorem carry_mul (hτ : KeepsPlaces n τ) : carry (σ * τ) x = carry τ (carry σ x) := by
  funext i
  rw [carry, carry, getBit_eq ((hτ i).2 i.2)]
  rfl

theorem carry_bijective (hσ : KeepsPlaces n σ) :
    Function.Bijective (carry σ : (Fin n → Bool) → Fin n → Bool) := by
  refine Function.bijective_iff_has_inverse.2 ⟨carry σ.symm, fun x => ?_, fun x => ?_⟩
  · rw [← carry_mul hσ.symm, show σ * σ.symm = 1 from Equiv.ext σ.apply_symm_apply, carry_one]
  · rw [← carry_mul hσ, show σ.symm * σ = 1 from Equiv.ext σ.symm_apply_apply, carry_one]

theorem carry_setBit (hσ : KeepsPlaces n σ) (hq : q < n) :
    carry σ (setBit x (σ q) b) = setBit (carry σ x) q b := by
  funext i
  rw [carry, getBit_setBit ((hσ q).2 hq), setBit, carry]
  exact if_congr σ.injective.eq_iff rfl rfl

theorem swapBits_eq (hq : q < n) (hr : r < n) :
    Gate.swapBits q r x = carry (Equiv.swap q r) x := by
  funext i
  have hi := i.2
  rw [Gate.swapBits, carry, Equiv.swap_apply_def]
  simp only [setBit]
  split_ifs <;> simp_all [getBit]

/-- Diagonal matrices of the bits as they lie. -/
theorem diagonal_submatrix_carry (hσ : KeepsPlaces n σ) (f : (Fin n → Bool) → ℂ) :
    (Matrix.diagonal f).submatrix (carry σ) (carry σ) =
      Matrix.diagonal fun x : Fin n → Bool => f (carry σ x) :=
  Matrix.submatrix_diagonal f _ (carry_bijective hσ).injective

namespace Gate

variable (hσ : KeepsPlaces n σ)
include hσ

theorem rz_relabel (q : ℕ) (p : Phase) :
    rz n (σ q) p = (rz n q p).submatrix (carry σ) (carry σ) := by
  rw [rz, rz, diagonal_submatrix_carry hσ]
  simp only [getBit_carry hσ]

theorem had_relabel (hq : q < n) : had n (σ q) = (had n q).submatrix (carry σ) (carry σ) := by
  ext y x
  have hinj := (carry_bijective hσ).injective
  simp only [had, Matrix.of_apply, Matrix.submatrix_apply, getBit_carry hσ, ← carry_setBit hσ hq,
    hinj.eq_iff]

/-- A gate on other qubits is the gate between the bits as they lie there. -/
theorem Valid.matrix_relabel (hg : g.Valid n) :
    (g.relabel σ).matrix n = (g.matrix n).submatrix (carry σ) (carry σ) := by
  have hbij := carry_bijective hσ
  have one := hg.exists_one
  have two := hg.exists_two
  obtain ⟨kind, qubits, p⟩ := g
  cases kind with
  | zPhase =>
    obtain ⟨q, rfl, -⟩ := one rfl
    exact rz_relabel hσ q p
  | xPhase =>
    obtain ⟨q, rfl, hq⟩ := one rfl
    change had n (σ q) * rz n (σ q) p * had n (σ q) = (had n q * rz n q p * had n q).submatrix _ _
    rw [had_relabel hσ hq, rz_relabel hσ, Matrix.submatrix_mul _ _ _ _ _ hbij,
      Matrix.submatrix_mul _ _ _ _ _ hbij]
  | hadamard =>
    obtain ⟨q, rfl, hq⟩ := one rfl
    exact had_relabel hσ hq
  | cnot =>
    obtain ⟨q, r, rfl, hq, hr, -⟩ := two rfl
    ext y x
    change (if y = flipBits (σ q) (σ r) x then (1 : ℂ) else 0) =
      if carry σ y = flipBits q r (carry σ x) then 1 else 0
    rw [flipBits, flipBits, getBit_carry hσ, getBit_carry hσ, ← carry_setBit hσ hr]
    exact if_congr hbij.injective.eq_iff.symm rfl rfl
  | cz =>
    obtain ⟨q, r, rfl, -, -, -⟩ := two rfl
    change Matrix.diagonal _ = (Matrix.diagonal _).submatrix _ _
    rw [diagonal_submatrix_carry hσ]
    simp only [getBit_carry hσ]
  | swap =>
    obtain ⟨q, r, rfl, hq, hr, -⟩ := two rfl
    ext y x
    change (if y = swapBits (σ q) (σ r) x then (1 : ℂ) else 0) =
      if carry σ y = swapBits q r (carry σ x) then 1 else 0
    rw [swapBits, swapBits, getBit_carry hσ, getBit_carry hσ, ← carry_setBit hσ hq,
      ← carry_setBit hσ hr]
    exact if_congr hbij.injective.eq_iff.symm rfl rfl

omit hσ in
/-- A swap exchanges the bits. -/
theorem Valid.matrix_swap (hg : g.Valid n) (h : g.kind = .swap) (y x : Fin n → Bool) :
    g.matrix n y x = if y = carry g.crossing x then 1 else 0 := by
  obtain ⟨kind, qubits, p⟩ := g
  obtain rfl : kind = .swap := h
  obtain ⟨q, r, rfl, hq, hr, -⟩ := hg.exists_two rfl
  change (if y = swapBits q r x then (1 : ℂ) else 0) = if y = carry (Equiv.swap q r) x then 1 else 0
  rw [swapBits_eq hq hr]

omit hσ in
/-- A rotation by nothing does nothing. -/
theorem Valid.matrix_idle (hg : g.Valid n) (h : g.isIdle = true) : g.matrix n = 1 := by
  have one := hg.exists_one
  obtain ⟨kind, qubits, p⟩ := g
  obtain ⟨hkind, hzero⟩ := Bool.and_eq_true_iff.1 h
  have hrz (q : ℕ) : rz n q p = 1 := by
    rw [rz]
    simp only [Phase.unit_of_isZero hzero, ite_self, Matrix.diagonal_one]
  cases kind with
  | zPhase =>
    obtain ⟨q, rfl, -⟩ := one rfl
    exact hrz q
  | xPhase =>
    obtain ⟨q, rfl, hq⟩ := one rfl
    change had n q * rz n q p * had n q = 1
    rw [hrz, Matrix.mul_one, had_mul_had hq]
  | hadamard | cnot | cz | swap => cases hkind

end Gate

theorem gatesMatrix_cons (n : ℕ) (g : Gate) (gs : List Gate) :
    gatesMatrix n (g :: gs) = gatesMatrix n gs * g.matrix n := by
  rw [show g :: gs = [g] ++ gs from rfl, gatesMatrix_append]
  simp only [gatesMatrix, List.foldl_cons, List.foldl_nil, Matrix.mul_one]

/-- The gates along the wires have the unitary of the circuit, between the bits as the wires lie. -/
theorem gatesMatrix_follow (hσ : KeepsPlaces n σ) (hg : ∀ g ∈ gs, g.Valid n) :
    gatesMatrix n (follow σ gs).1 =
      (gatesMatrix n gs).submatrix (carry (follow σ gs).2) (carry σ) := by
  induction gs generalizing σ with
  | nil =>
    ext y x
    simp only [follow_nil, gatesMatrix, List.foldl_nil, Matrix.submatrix_apply, Matrix.one_apply]
    exact if_congr (carry_bijective hσ).injective.eq_iff.symm rfl rfl
  | cons g gs ih =>
    have hvalid := hg g List.mem_cons_self
    have hrest : ∀ g ∈ gs, g.Valid n := fun g h => hg g (List.mem_cons_of_mem _ h)
    rw [gatesMatrix_cons]
    by_cases h : g.kind = .swap
    · rw [follow_swap h, ih (hσ.mul hvalid.crossing) hrest]
      ext y x
      simp only [Matrix.submatrix_apply, Matrix.mul_apply, hvalid.matrix_swap h,
        carry_mul hvalid.crossing, mul_ite, mul_one, mul_zero, Finset.sum_ite_eq', Finset.mem_univ,
        if_true]
    · rw [follow_other h, gatesMatrix_cons, ih hσ hrest, hvalid.matrix_relabel hσ,
        Matrix.submatrix_mul _ _ _ _ _ (carry_bijective hσ)]

/-- Rotations by nothing can be left out. -/
theorem gatesMatrix_filter (hg : ∀ g ∈ gs, g.Valid n) :
    gatesMatrix n (gs.filter (!·.isIdle)) = gatesMatrix n gs := by
  induction gs with
  | nil => rfl
  | cons g gs ih =>
    have hrest := ih fun g h => hg g (List.mem_cons_of_mem _ h)
    rw [List.filter_cons, gatesMatrix_cons]
    split
    · rw [gatesMatrix_cons, hrest]
    · next h =>
      rw [hrest, (hg g List.mem_cons_self).matrix_idle (by simpa using h), Matrix.mul_one]

/-- The gates along the wires, and then swaps that let the wires lie as they do. -/
theorem gatesMatrix_follow_append (hg : ∀ g ∈ gs, g.Valid n) (hh : ∀ h ∈ hs, h.Valid n)
    (hswaps : follow 1 hs = ([], (follow 1 gs).2)) :
    gatesMatrix n ((follow 1 gs).1.filter (!·.isIdle) ++ hs) = gatesMatrix n gs := by
  obtain ⟨hkeeps, hvalid⟩ := KeepsPlaces.one.follow hg
  have hbij := carry_bijective hkeeps
  have hone := gatesMatrix_follow KeepsPlaces.one hh
  rw [hswaps] at hone
  rw [gatesMatrix_append, gatesMatrix_filter hvalid]
  ext y x
  obtain ⟨y, rfl⟩ := hbij.surjective y
  have hmul : (gatesMatrix n hs * gatesMatrix n (follow 1 gs).1).submatrix
      (carry (follow 1 gs).2) (carry 1) = gatesMatrix n (follow 1 gs).1 := by
    rw [Matrix.submatrix_mul _ _ _ _ _ (carry_bijective KeepsPlaces.one), ← hone]
    ext y x
    simp [gatesMatrix]
  have hentry := congrFun (congrFun hmul y) x
  rw [Matrix.submatrix_apply, carry_one, gatesMatrix_follow KeepsPlaces.one hg,
    Matrix.submatrix_apply, carry_one] at hentry
  rwa [gatesMatrix_follow KeepsPlaces.one hg]

end Follow

end ZXRewriting

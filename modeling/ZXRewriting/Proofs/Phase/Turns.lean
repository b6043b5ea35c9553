import Mathlib.Topology.Instances.AddCircle.Defs
import ZXRewriting.Proofs.Phase.Classes

/-!
# Phases modulo a full turn

A phase is told by its value modulo 2 (`Phase.turns_injective`), and making the phase of a fraction
keeps that value whenever some phase that fits in words has it (`Phase.turns_ofQuotient`). So sums,
differences, opposites and multiples are those of the values modulo 2 as long as the result can be
written (`Phase.turns_add` and its companions). On a grid it always can, and so the phases of a grid
are an abelian group (`Phase.gridGroup`), in which `Phase.scale` gives the multiples.
-/

namespace ZXRewriting.Phase

variable {p q : Phase} {x y : ℚ} {num : ℤ} {den D : ℕ}

/-- The value of a phase modulo a full turn. -/
def turns (p : Phase) : AddCircle (2 : ℚ) := p.value

/-- Whether some phase that fits in words has the value `x` modulo a full turn. -/
def Representable (x : ℚ) : Prop := ∃ q : Phase, q.Fits ∧ q.turns = x

/-! ### Values -/

theorem value_mem_Ico (p : Phase) : p.value ∈ Set.Ico (0 : ℚ) (0 + 2) := by
  have hden : (0 : ℚ) < p.den := by exact_mod_cast p.den_pos
  refine ⟨by rw [value]; positivity, ?_⟩
  rw [value, zero_add, div_lt_iff₀ hden]
  exact_mod_cast p.num_lt

/-- The numerator of the value, which is in lowest terms. -/
theorem num_value (p : Phase) : p.value.num = p.num := by
  have h := Rat.num_div_eq_of_coprime (a := p.num) (Int.natCast_pos.2 p.den_pos) p.coprime
  rwa [Int.cast_natCast, Int.cast_natCast] at h

theorem value_injective : Function.Injective value := fun p q h => by
  have hnum : (p.num : ℤ) = q.num := by rw [← num_value, ← num_value, h]
  have hden : p.den = q.den := by rw [← den_value, ← den_value, h]
  exact Phase.ext (Int.natCast_inj.1 hnum) hden

/-- A phase is told by its value modulo a full turn. -/
theorem turns_injective : Function.Injective turns := fun p q h => by
  have : Fact ((0 : ℚ) < 2) := ⟨two_pos⟩
  exact value_injective
    ((AddCircle.coe_eq_coe_iff_of_mem_Ico p.value_mem_Ico q.value_mem_Ico).1 h)

/-- Values with a whole number of full turns between them. -/
theorem coe_eq_of_eq_add (k : ℤ) (h : x = y + 2 * k) : (x : AddCircle (2 : ℚ)) = y := by
  have hfull : ((2 * k : ℚ) : AddCircle (2 : ℚ)) = 0 :=
    (AddCircle.coe_eq_zero_iff 2).2 ⟨k, by rw [zsmul_eq_mul, mul_comm]⟩
  rw [h, AddCircle.coe_add, hfull, add_zero]

theorem turn_eq_of_coe_eq (h : (x : AddCircle (2 : ℚ)) = y) : turn x = turn y := by
  have hsub : ((x - y : ℚ) : AddCircle (2 : ℚ)) = 0 := by rw [AddCircle.coe_sub, h, sub_self]
  obtain ⟨k, hk⟩ := (AddCircle.coe_eq_zero_iff 2).1 hsub
  have hxy : x = y + 2 * k := by
    rw [zsmul_eq_mul] at hk
    linarith
  rw [hxy, turn_add, turn_two_mul, mul_one]

/-- A phase is told by the number it stands for. -/
theorem unit_injective : Function.Injective unit := fun p q h => by
  obtain ⟨k, hk⟩ := exists_of_turn_eq h
  exact turns_injective (coe_eq_of_eq_add k hk)

theorem representable_congr (h : (x : AddCircle (2 : ℚ)) = y) :
    Representable x ↔ Representable y := by rw [Representable, Representable, h]

/-! ### Reduction -/

theorem turns_reduce {num : ℕ} (hd : 0 < den) : (reduce num den).turns = ((num / den : ℚ) :) := by
  have hunit : (reduce num den).unit = turn (num / den) := unit_reduce hd
  obtain ⟨k, hk⟩ := exists_of_turn_eq hunit
  exact coe_eq_of_eq_add k hk

/-- A fraction in lowest terms is not changed by reducing it. -/
theorem reduce_self (p : Phase) : reduce p.num p.den = p :=
  turns_injective (turns_reduce p.den_pos)

/-- The fraction that a phase is made of, with whole turns taken off, is the phase of that value. -/
theorem reduce_emod_eq (hd : 0 < den) (h : p.turns = ((num / den : ℚ) :)) :
    reduce (num % (2 * den : ℕ)).toNat den = p := by
  set r : ℕ := (num % (2 * den : ℕ)).toNat with hr
  have hcast : (r : ℤ) = num % (2 * den : ℕ) :=
    Int.toNat_of_nonneg (Int.emod_nonneg num (by positivity))
  have hsplit : (num : ℚ) / den = (r : ℚ) / den + 2 * (num / (2 * den : ℕ) : ℤ) := by
    have hden : (den : ℚ) ≠ 0 := by positivity
    have hnum : (num : ℚ) = r + 2 * den * (num / (2 * den : ℕ) : ℤ) := by
      have := (Int.emod_add_mul_ediv num (2 * den : ℕ)).symm
      rw [← hcast] at this
      exact_mod_cast this
    rw [hnum]
    field_simp
  exact turns_injective ((turns_reduce hd).trans ((coe_eq_of_eq_add _ hsplit).symm.trans h.symm))

/-- The phase that fits in words is not rounded. -/
theorem ofQuotient_eq (hd : 0 < den) (hp : p.Fits) (h : p.turns = ((num / den : ℚ) :)) :
    ofQuotient num den = p := by
  rw [ofQuotient, reduce_emod_eq hd h, fit, if_pos hp]

theorem turns_ofQuotient (hd : 0 < den) (h : Representable (num / den)) :
    (ofQuotient num den).turns = ((num / den : ℚ) :) := by
  obtain ⟨p, hp, hpx⟩ := h
  rw [ofQuotient_eq hd hp hpx, hpx]

/-! ### Arithmetic -/

/-- The fraction of a sum, which has a full turn less. -/
theorem coe_add_quotient (p q : Phase) :
    (((p.num - 2 * p.den : ℤ) * q.den + q.num * p.den : ℤ) / (p.den * q.den : ℕ) : ℚ) =
      (p.turns + q.turns : AddCircle (2 : ℚ)) := by
  have hp : (p.den : ℚ) ≠ 0 := by exact_mod_cast p.den_pos.ne'
  have hq : (q.den : ℚ) ≠ 0 := by exact_mod_cast q.den_pos.ne'
  refine coe_eq_of_eq_add (y := p.value + q.value) (-1) ?_
  rw [value, value]
  push_cast
  field_simp
  ring

theorem coe_sub_quotient (p q : Phase) :
    ((p.num * q.den - q.num * p.den : ℤ) / (p.den * q.den : ℕ) : ℚ) =
      (p.turns - q.turns : AddCircle (2 : ℚ)) := by
  have hp : (p.den : ℚ) ≠ 0 := by exact_mod_cast p.den_pos.ne'
  have hq : (q.den : ℚ) ≠ 0 := by exact_mod_cast q.den_pos.ne'
  refine coe_eq_of_eq_add (y := p.value - q.value) 0 ?_
  rw [value, value]
  push_cast
  field_simp
  ring

theorem coe_neg_quotient (p : Phase) :
    ((-p.num : ℤ) / (p.den : ℕ) : ℚ) = (-p.turns : AddCircle (2 : ℚ)) := by
  refine coe_eq_of_eq_add (y := -p.value) 0 ?_
  rw [value]
  push_cast
  ring

theorem coe_scale_quotient (p : Phase) (k : ℤ) :
    ((p.num * k : ℤ) / (p.den : ℕ) : ℚ) = (k • p.turns : AddCircle (2 : ℚ)) := by
  rw [turns, ← AddCircle.coe_zsmul, zsmul_eq_mul]
  refine coe_eq_of_eq_add 0 ?_
  rw [value]
  push_cast
  ring

theorem turns_ofQuotient_of_eq (hd : 0 < den) (h : ((num / den : ℚ) : AddCircle (2 : ℚ)) = x)
    (hx : Representable x) : (ofQuotient num den).turns = x := by
  rw [turns_ofQuotient hd ((representable_congr h).2 hx), h]

theorem turns_add (h : Representable (p.value + q.value)) : (p + q).turns = p.turns + q.turns :=
  turns_ofQuotient_of_eq (Nat.mul_pos p.den_pos q.den_pos) (coe_add_quotient p q) h

/-- A sum that can be written stands for the product. -/
theorem unit_add (h : Representable (p.value + q.value)) : (p + q).unit = p.unit * q.unit :=
  (turn_eq_of_coe_eq (turns_add h)).trans (turn_add _ _)

theorem unit_add_pi (h : Representable (p.value + 1)) : (p + .pi).unit = -p.unit := by
  have hpi : pi.value = 1 := by norm_num [value, pi]
  rw [unit_add (hpi ▸ h), unit_pi, mul_neg_one]

theorem turns_sub (h : Representable (p.value - q.value)) : (p - q).turns = p.turns - q.turns :=
  turns_ofQuotient_of_eq (Nat.mul_pos p.den_pos q.den_pos) (coe_sub_quotient p q) h

theorem turns_neg (h : Representable (-p.value)) : (-p).turns = -p.turns :=
  turns_ofQuotient_of_eq p.den_pos (coe_neg_quotient p) h

theorem turns_scale (k : ℤ) (h : Representable (k * p.value)) :
    (p.scale k).turns = k • p.turns := by
  have hcoe : ((k * p.value : ℚ) : AddCircle (2 : ℚ)) = k • p.turns := by
    rw [turns, ← AddCircle.coe_zsmul, zsmul_eq_mul]
  rw [← hcoe]
  exact turns_ofQuotient_of_eq p.den_pos ((coe_scale_quotient p k).trans hcoe.symm) h

/-! ### Grids -/

theorem turns_zero : zero.turns = 0 := by
  rw [turns, value, zero]
  norm_num

section

variable (hD : IsGrid D)
include hD

theorem OnGrid.turns_add (hp : p.OnGrid D) (hq : q.OnGrid D) :
    (p + q).turns = p.turns + q.turns := by
  obtain ⟨k, hk⟩ := hp.value_add hD hq
  exact coe_eq_of_eq_add k hk

theorem OnGrid.turns_neg (hp : p.OnGrid D) : (-p).turns = -p.turns := by
  obtain ⟨k, hk⟩ := hp.value_neg hD
  exact coe_eq_of_eq_add k hk

theorem OnGrid.turns_scale (hp : p.OnGrid D) (n : ℤ) : (p.scale n).turns = n • p.turns := by
  obtain ⟨k, hk⟩ := hp.value_scale hD n
  rw [turns, turns, ← AddCircle.coe_zsmul, zsmul_eq_mul]
  exact coe_eq_of_eq_add k hk

theorem OnGrid.sub_eq (hp : p.OnGrid D) (hq : q.OnGrid D) : p - q = p + -q := by
  have hneg := (hq.neg hD).1
  have hsum : (p + -q).turns = ((p.value - q.value : ℚ) :) := by
    rw [hp.turns_add hD hneg, hq.turns_neg hD, ← sub_eq_add_neg]
    rfl
  refine turns_injective ((Phase.turns_sub ⟨p + -q, (hp.add hD hneg).1.fits hD, hsum⟩).trans ?_)
  exact hsum.symm

end

/-- The phases on a grid, with their sums and opposites, are an abelian group. -/
@[reducible] def gridGroup (hD : IsGrid D) : AddCommGroup {p : Phase // p.OnGrid D} :=
  letI : Zero {p : Phase // p.OnGrid D} := ⟨zero, onGrid_zero⟩
  letI : Add {p : Phase // p.OnGrid D} := ⟨fun p q => ⟨p.1 + q.1, (p.2.add hD q.2).1⟩⟩
  letI : Neg {p : Phase // p.OnGrid D} := ⟨fun p => ⟨-p.1, (p.2.neg hD).1⟩⟩
  letI : Sub {p : Phase // p.OnGrid D} := ⟨fun p q =>
    ⟨p.1 - q.1, p.2.sub_eq hD q.2 ▸ (p.2.add hD (q.2.neg hD).1).1⟩⟩
  letI : SMul ℕ {p : Phase // p.OnGrid D} := ⟨fun n p => ⟨p.1.scale n, (p.2.scale hD n).1⟩⟩
  letI : SMul ℤ {p : Phase // p.OnGrid D} := ⟨fun n p => ⟨p.1.scale n, (p.2.scale hD n).1⟩⟩
  Function.Injective.addCommGroup (fun p => p.1.turns)
    (turns_injective.comp Subtype.val_injective) turns_zero
    (fun p q => p.2.turns_add hD q.2) (fun p => p.2.turns_neg hD)
    (fun p q => (congrArg turns (p.2.sub_eq hD q.2)).trans (by
      rw [p.2.turns_add hD (q.2.neg hD).1, q.2.turns_neg hD, sub_eq_add_neg]))
    (fun p n => (p.2.turns_scale hD n).trans (natCast_zsmul _ _))
    (fun p n => p.2.turns_scale hD n)

/-! ### Classes of phases -/

/-- Which multiple of a phase is a whole number of full turns shows in the denominator. -/
theorem two_mul_nsmul_turns_iff (p : Phase) (m : ℕ) : (2 * m) • p.turns = 0 ↔ p.den ∣ m := by
  have hden : (p.den : ℚ) ≠ 0 := by exact_mod_cast p.den_pos.ne'
  rw [turns, ← AddCircle.coe_nsmul, AddCircle.coe_eq_zero_iff]
  have hiff (n : ℤ) : n • (2 : ℚ) = (2 * m) • p.value ↔ n * p.den = m * p.num := by
    rw [zsmul_eq_mul, nsmul_eq_mul, value, ← mul_div_assoc, eq_div_iff hden, ← Int.cast_inj (α := ℚ)]
    push_cast
    constructor <;> intro h <;> linarith
  simp only [hiff]
  constructor
  · rintro ⟨n, hn⟩
    have hdvd : (p.den : ℤ) ∣ m * p.num := ⟨n, by rw [← hn, mul_comm]⟩
    exact p.coprime.symm.dvd_of_dvd_mul_right (by exact_mod_cast hdvd)
  · rintro ⟨k, rfl⟩
    exact ⟨k * p.num, by push_cast; ring⟩

theorem isPauli_iff_turns (p : Phase) : p.isPauli ↔ 2 • p.turns = 0 := by
  rw [isPauli_iff, OnGrid, ← two_mul_nsmul_turns_iff]

theorem isClifford_iff_turns (p : Phase) : p.isClifford ↔ 4 • p.turns = 0 := by
  rw [isClifford_iff, OnGrid, ← two_mul_nsmul_turns_iff]

theorem isProperClifford_iff_turns (p : Phase) :
    p.isProperClifford ↔ 4 • p.turns = 0 ∧ 2 • p.turns ≠ 0 := by
  have hpos := p.den_pos
  rw [← isClifford_iff_turns, ne_eq, ← isPauli_iff_turns, isProperClifford, isClifford, isPauli,
    beq_iff_eq, beq_iff_eq, decide_eq_true_iff]
  omega

end ZXRewriting.Phase

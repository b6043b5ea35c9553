import Mathlib.Analysis.SpecialFunctions.Complex.Circle
import Mathlib.Tactic.IntervalCases
import ZXRewriting.Phase.Basic

/-!
# Phases as complex numbers

The number of absolute value one that a phase stands for (`Phase.unit`), and when arithmetic on
phases is that of these numbers. Sums are exact for phases on a *grid*, the multiples of `1 / D`
for a `D` that is at most half of the largest word: sums, opposites and multiples stay on the
grid, and so nothing is ever rounded.
-/

namespace ZXRewriting.Phase

open Complex

/-- The number `exp (i pi x)`. -/
noncomputable def turn (x : ℚ) : ℂ := exp (x * Real.pi * I)

/-- The phase as a number. -/
def value (p : Phase) : ℚ := p.num / p.den

/-- The number that a spider of the phase `p` multiplies by when its bit is one. -/
noncomputable def unit (p : Phase) : ℂ := turn p.value

theorem turn_add (x y : ℚ) : turn (x + y) = turn x * turn y := by
  rw [turn, turn, turn, ← exp_add]
  push_cast
  ring_nf

@[simp] theorem turn_zero : turn 0 = 1 := by simp [turn]

@[simp] theorem turn_one : turn 1 = -1 := by simp [turn, exp_pi_mul_I]

theorem turn_ne_zero (x : ℚ) : turn x ≠ 0 := exp_ne_zero _

theorem turn_neg (x : ℚ) : turn (-x) = (turn x)⁻¹ := by
  rw [turn, turn, ← exp_neg]
  push_cast
  ring_nf

/-- A whole number of full turns is nothing. -/
theorem turn_two_mul (k : ℤ) : turn (2 * k) = 1 := by
  rw [turn, show ((2 * k : ℚ) : ℂ) * Real.pi * I = k * (2 * Real.pi * I) by push_cast; ring]
  exact exp_int_mul_two_pi_mul_I k

theorem unit_ne_zero (p : Phase) : p.unit ≠ 0 := turn_ne_zero _

@[simp] theorem unit_zero : zero.unit = 1 := by simp [unit, value, zero]

@[simp] theorem unit_pi : pi.unit = -1 := by simp [unit, value, pi]

theorem unit_of_isZero {p : Phase} (h : p.isZero) : p.unit = 1 := by
  have h0 : p.num = 0 := by simpa [isZero] using h
  simp [unit, value, h0]

theorem unit_of_isPi {p : Phase} (h : p.isPi) : p.unit = -1 := by
  have h1 : p.num = 1 ∧ p.den = 1 := by simpa [isPi] using h
  simp [unit, value, h1]

/-- A phase of 0 or pi stands for one of the two signs. -/
theorem unit_of_isPauli {p : Phase} (h : p.isPauli) :
    p.isZero ∧ p.unit = 1 ∨ p.isPi ∧ p.unit = -1 := by
  have hd : p.den = 1 := by simpa [isPauli] using h
  have hn : p.num < 2 := by have := p.num_lt; omega
  interval_cases hnum : p.num
  · have hz : p.isZero := by simp [isZero, hnum]
    exact .inl ⟨hz, unit_of_isZero hz⟩
  · have hpi : p.isPi := by simp [isPi, hnum, hd]
    exact .inr ⟨hpi, unit_of_isPi hpi⟩

/-- A quarter turn, either way, is a square root of -1. -/
theorem unit_mul_self_of_isProperClifford {p : Phase} (h : p.isProperClifford) :
    p.unit * p.unit = -1 := by
  have hd : p.den = 2 := by simpa [isProperClifford] using h
  have hn : p.num < 4 := by have := p.num_lt; omega
  have hc := p.coprime
  rw [hd] at hc
  rw [unit, ← turn_add, value, hd]
  interval_cases hnum : p.num <;> try (exact absurd hc (by decide))
  · norm_num
  · rw [show ((3 : ℕ) : ℚ) / (2 : ℕ) + (3 : ℕ) / (2 : ℕ) = 2 * (1 : ℤ) + 1 by norm_num, turn_add,
      turn_two_mul]
    simp

/-! ### Reduction -/

/-- Reducing a fraction to lowest terms modulo 2 does not change its number. -/
theorem unit_reduce {num den : ℕ} (hd : 0 < den) : (reduce num den).unit = turn (num / den) := by
  obtain ⟨k, hn⟩ : ∃ k, num = num % (2 * den) + 2 * den * k := ⟨_, (Nat.mod_add_div _ _).symm⟩
  have hq : ((reduce num den).num : ℚ) / (reduce num den).den = (num % (2 * den) : ℕ) / den := by
    rw [reduce, dif_pos hd]
    have hg : 0 < (num % (2 * den)).gcd den := Nat.gcd_pos_of_pos_right _ hd
    dsimp only
    rw [Nat.cast_div (Nat.gcd_dvd_left _ _) (by positivity),
      Nat.cast_div (Nat.gcd_dvd_right _ _) (by positivity)]
    field_simp
  have hden : (den : ℚ) ≠ 0 := by positivity
  have hsplit : (num : ℚ) / den = (num % (2 * den) : ℕ) / den + 2 * (k : ℤ) := by
    conv_lhs => rw [hn]
    push_cast
    field_simp
  rw [unit, value, hq, hsplit, turn_add, turn_two_mul, mul_one]

theorem den_reduce_dvd {num den D : ℕ} (hd : 0 < den) (h : den ∣ D * num) :
    (reduce num den).den ∣ D := by
  rw [reduce, dif_pos hd]
  have hmod : den ∣ D * (num % (2 * den)) := by
    rw [← Nat.mod_add_div num (2 * den), Nat.mul_add] at h
    refine (Nat.dvd_add_left ?_).1 h
    exact Dvd.dvd.mul_left (Dvd.dvd.mul_right (Nat.dvd_mul_left den 2) _) D
  have hg : 0 < (num % (2 * den)).gcd den := Nat.gcd_pos_of_pos_right _ hd
  refine Nat.dvd_of_mul_dvd_mul_right hg ?_
  rw [Nat.div_mul_cancel (Nat.gcd_dvd_right _ _), ← Nat.gcd_mul_left]
  exact Nat.dvd_gcd hmod (Dvd.intro_left D rfl)

/-! ### Grids -/

/-- A number the multiples of the inverse of which are phases that are added exactly. -/
structure IsGrid (D : ℕ) : Prop where
  pos : 0 < D
  le : 2 * D ≤ maxWord

/-- Whether a phase is a multiple of `1 / D`. -/
def OnGrid (D : ℕ) (p : Phase) : Prop := p.den ∣ D

variable {D : ℕ} {p q : Phase}

theorem onGrid_zero : zero.OnGrid D := one_dvd D

theorem onGrid_pi : pi.OnGrid D := one_dvd D

/-- A phase on the grid fits in words. -/
theorem OnGrid.fits (hD : IsGrid D) (h : p.OnGrid D) : p.Fits := by
  have hle : p.den ≤ D := Nat.le_of_dvd hD.pos h
  have hlt := p.num_lt
  have := hD.le
  exact ⟨by omega, by omega⟩

/-- A fraction on the grid is not rounded. -/
theorem ofQuotient_of_dvd (hD : IsGrid D) {num : ℤ} {den : ℕ} (hd : 0 < den)
    (h : (den : ℤ) ∣ D * num) :
    (ofQuotient num den).OnGrid D ∧ (ofQuotient num den).unit = turn (num / den) := by
  set r : ℕ := (num % (2 * den : ℕ)).toNat with hr
  have hpos : 0 ≤ num % (2 * den : ℕ) := Int.emod_nonneg _ (by positivity)
  have hcast : (r : ℤ) = num % (2 * den : ℕ) := Int.toNat_of_nonneg hpos
  have hsplit : num = r + 2 * den * (num / (2 * den : ℕ)) := by
    rw [hcast]
    exact_mod_cast (Int.emod_add_mul_ediv num (2 * den : ℕ)).symm
  have hdvd : den ∣ D * r := by
    rw [hsplit, mul_add] at h
    refine Int.natCast_dvd_natCast.1 ?_
    push_cast
    refine (dvd_add_left ?_).1 h
    exact Dvd.dvd.mul_left (Dvd.dvd.mul_right (Dvd.intro_left 2 rfl) _) _
  have hgrid : (reduce r den).OnGrid D := den_reduce_dvd hd hdvd
  rw [ofQuotient, ← hr, fit, if_pos (hgrid.fits hD)]
  refine ⟨hgrid, ?_⟩
  have hden : (den : ℚ) ≠ 0 := by positivity
  have hq : (num : ℚ) / den = (r : ℚ) / den + 2 * (num / (2 * den : ℕ) : ℤ) := by
    conv_lhs => rw [hsplit]
    push_cast
    field_simp
  rw [unit_reduce hd, hq, turn_add, turn_two_mul, mul_one]

private theorem natCast_den_dvd (h : p.OnGrid D) : (p.den : ℤ) ∣ D := Int.natCast_dvd_natCast.2 h

/-- Sums are exact on the grid. -/
theorem OnGrid.add (hD : IsGrid D) (hp : p.OnGrid D) (hq : q.OnGrid D) :
    (p + q).OnGrid D ∧ (p + q).unit = p.unit * q.unit := by
  have hpd := p.den_pos
  have hqd := q.den_pos
  obtain ⟨a, ha⟩ := natCast_den_dvd hp
  obtain ⟨b, hb⟩ := natCast_den_dvd hq
  have hdvd : ((p.den * q.den : ℕ) : ℤ) ∣
      D * ((p.num - 2 * p.den : ℤ) * q.den + q.num * p.den) := by
    refine ⟨a * (p.num - 2 * p.den) + b * q.num, ?_⟩
    push_cast
    calc (D : ℤ) * ((p.num - 2 * p.den) * q.den + q.num * p.den)
        = D * ((p.num - 2 * p.den) * q.den) + D * (q.num * p.den) := by ring
      _ = (p.den * a) * ((p.num - 2 * p.den) * q.den) + (q.den * b) * (q.num * p.den) := by
        rw [← ha, ← hb]
      _ = _ := by ring
  obtain ⟨hgrid, hunit⟩ := ofQuotient_of_dvd hD (Nat.mul_pos hpd hqd) hdvd
  refine ⟨hgrid, hunit.trans ?_⟩
  have hsum : (((p.num - 2 * p.den : ℤ) * q.den + q.num * p.den : ℤ) : ℚ) /
      (p.den * q.den : ℕ) = p.value + q.value + 2 * (-1 : ℤ) := by
    have hp0 : (p.den : ℚ) ≠ 0 := by positivity
    have hq0 : (q.den : ℚ) ≠ 0 := by positivity
    rw [value, value]
    push_cast
    field_simp
    ring
  rw [hsum, turn_add, turn_two_mul, mul_one, turn_add]
  rfl

/-- Opposites are exact on the grid. -/
theorem OnGrid.neg (hD : IsGrid D) (hp : p.OnGrid D) :
    (-p).OnGrid D ∧ (-p).unit = p.unit⁻¹ := by
  have hdvd : (p.den : ℤ) ∣ D * -(p.num : ℤ) := Dvd.dvd.mul_right (natCast_den_dvd hp) _
  obtain ⟨hgrid, hunit⟩ := ofQuotient_of_dvd hD p.den_pos hdvd
  refine ⟨hgrid, hunit.trans ?_⟩
  rw [unit, ← turn_neg, value]
  push_cast
  rw [neg_div]

/-- Multiples are exact on the grid. -/
theorem OnGrid.scale (hD : IsGrid D) (hp : p.OnGrid D) (k : ℤ) :
    (p.scale k).OnGrid D ∧ (p.scale k).unit = turn (k * p.value) := by
  have hdvd : (p.den : ℤ) ∣ D * (p.num * k : ℤ) := Dvd.dvd.mul_right (natCast_den_dvd hp) _
  obtain ⟨hgrid, hunit⟩ := ofQuotient_of_dvd hD p.den_pos hdvd
  refine ⟨hgrid, hunit.trans ?_⟩
  rw [value]
  push_cast
  rw [mul_comm (p.num : ℚ), mul_div_assoc]

end ZXRewriting.Phase

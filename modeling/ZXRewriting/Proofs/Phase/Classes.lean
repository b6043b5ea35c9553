import ZXRewriting.Proofs.Phase.Unit

/-!
# Classes of phases

Whether a phase is a multiple of a half turn or of a quarter turn shows in its denominator, which
is that of its value (`Phase.den_value`). On a grid the values add up to full turns
(`Phase.OnGrid.value_add`), and so adding a multiple of a half turn leaves the denominator as it is
(`Phase.OnGrid.den_add`).

The multiples of a quarter turn are a grid of their own, so that sums of them are never rounded
(`Phase.isClifford_add`), whatever other phases there are.
-/

namespace ZXRewriting.Phase

variable {D : ℕ} {p q : Phase}

/-- Numbers with the same unit differ by full turns. -/
theorem exists_of_turn_eq {x y : ℚ} (h : turn x = turn y) : ∃ k : ℤ, x = y + 2 * k := by
  obtain ⟨k, hk⟩ := Complex.exp_eq_exp_iff_exists_int.1 h
  refine ⟨k, ?_⟩
  have hpi : (Real.pi : ℂ) * Complex.I ≠ 0 :=
    mul_ne_zero (Complex.ofReal_ne_zero.2 Real.pi_ne_zero) Complex.I_ne_zero
  have hxy : (x : ℂ) = y + 2 * k := mul_right_cancel₀ hpi (by linear_combination hk)
  exact_mod_cast hxy

/-- The value of a phase is in lowest terms. -/
theorem den_value (p : Phase) : p.value.den = p.den := by
  have h := Rat.den_div_eq_of_coprime (a := p.num) (Int.natCast_pos.2 p.den_pos) p.coprime
  rw [Int.cast_natCast, Int.cast_natCast] at h
  exact Int.natCast_inj.1 h

/-- The value of a multiple of a half turn is whole. -/
theorem exists_value_of_isPauli (h : p.isPauli) : ∃ n : ℤ, p.value = n := by
  refine ⟨p.num, ?_⟩
  rw [value, show p.den = 1 from beq_iff_eq.1 h]
  simp

theorem onGrid_of_isPauli (h : p.isPauli) : p.OnGrid D := by
  rw [OnGrid, show p.den = 1 from beq_iff_eq.1 h]
  exact one_dvd D

/-- The values of a sum on the grid add up to full turns. -/
theorem OnGrid.value_add (hD : IsGrid D) (hp : p.OnGrid D) (hq : q.OnGrid D) :
    ∃ k : ℤ, (p + q).value = p.value + q.value + 2 * k :=
  exists_of_turn_eq ((hp.add hD hq).2.trans (turn_add _ _).symm)

theorem OnGrid.value_neg (hD : IsGrid D) (hp : p.OnGrid D) :
    ∃ k : ℤ, (-p).value = -p.value + 2 * k :=
  exists_of_turn_eq ((hp.neg hD).2.trans (turn_neg _).symm)

theorem OnGrid.value_scale (hD : IsGrid D) (hp : p.OnGrid D) (n : ℤ) :
    ∃ k : ℤ, (p.scale n).value = n * p.value + 2 * k :=
  exists_of_turn_eq (hp.scale hD n).2

/-- Adding a multiple of a half turn keeps the denominator. -/
theorem OnGrid.den_add (hD : IsGrid D) (hp : p.OnGrid D) (hq : q.isPauli) :
    (p + q).den = p.den := by
  obtain ⟨k, hk⟩ := hp.value_add hD (onGrid_of_isPauli hq)
  obtain ⟨n, hn⟩ := exists_value_of_isPauli hq
  rw [← den_value, ← den_value, hk, hn, add_assoc,
    show (n : ℚ) + 2 * k = ((n + 2 * k : ℤ) : ℚ) by push_cast; rfl, Rat.add_intCast_den]

/-! ### Multiples of a half turn and of a quarter turn -/

theorem isGrid_one : IsGrid 1 := ⟨by decide, by decide⟩

theorem isPauli_iff : p.isPauli ↔ p.OnGrid 1 := by
  rw [isPauli, beq_iff_eq, OnGrid, Nat.dvd_one]

theorem isPauli_add (hp : p.isPauli) (hq : q.isPauli) : (p + q).isPauli :=
  isPauli_iff.2 ((isPauli_iff.1 hp).add isGrid_one (isPauli_iff.1 hq)).1

theorem isGrid_two : IsGrid 2 := ⟨by decide, by decide⟩

theorem isClifford_iff : p.isClifford ↔ p.OnGrid 2 := by
  rw [isClifford, decide_eq_true_iff, OnGrid]
  refine ⟨fun h => ?_, Nat.le_of_dvd (by decide)⟩
  have hpos := p.den_pos
  interval_cases p.den <;> decide

theorem isClifford_of_isPauli (h : p.isPauli) : p.isClifford :=
  isClifford_iff.2 (onGrid_of_isPauli h)

theorem isClifford_of_isZero (h : p.isZero) : p.isClifford := by
  have hden := p.coprime
  rw [eq_of_beq h, Nat.coprime_zero_left] at hden
  rw [isClifford, hden]
  decide

theorem isClifford_of_isProperClifford (h : p.isProperClifford) : p.isClifford := by
  rw [isClifford, decide_eq_true_iff]
  exact Nat.le_of_eq (beq_iff_eq.1 h)

theorem isClifford_add (hp : p.isClifford) (hq : q.isClifford) : (p + q).isClifford :=
  isClifford_iff.2 ((isClifford_iff.1 hp).add isGrid_two (isClifford_iff.1 hq)).1

theorem isClifford_neg (h : p.isClifford) : (-p).isClifford :=
  isClifford_iff.2 ((isClifford_iff.1 h).neg isGrid_two).1

theorem isClifford_scale (h : p.isClifford) (n : ℤ) : (p.scale n).isClifford :=
  isClifford_iff.2 ((isClifford_iff.1 h).scale isGrid_two n).1

end ZXRewriting.Phase

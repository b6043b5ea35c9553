import Mathlib.Tactic.Linarith
import Mathlib.Tactic.Ring
import ZXRewriting.Floating.Arithmetic

/-!
# Whole numbers in floating point

The whole numbers with fewer binary digits than a format has are numbers of the format
(`Number.ofInteger`). On them counting up and down is exact, and both orders are the order of the
whole numbers.
-/

namespace ZXRewriting.Floating

namespace Format

variable {f : Format} {k : ℕ}

/-- Whether the whole numbers with no more binary digits than the precision are numbers of the format
    other than the subnormal ones. -/
structure HasIntegers (f : Format) : Prop where
  precision_pos : 0 < f.precision
  precision_le : f.precision ≤ f.unitBits
  unitBits_le : f.unitBits ≤ f.topShift

theorem double_hasIntegers : double.HasIntegers := ⟨by decide, by decide, by decide⟩

theorem one_eq (f : Format) : f.one = 2 ^ f.unitBits := Nat.one_shiftLeft _

theorem one_pos (f : Format) : 0 < f.one := by rw [one_eq]; positivity

theorem log2_mul_one (hk : k ≠ 0) : (k * f.one).log2 = k.log2 + f.unitBits := by
  have hpos := f.one_pos
  rw [Nat.log2_eq_iff (Nat.mul_ne_zero hk hpos.ne'), Nat.pow_add, ← one_eq, Nat.add_right_comm,
    Nat.pow_add, ← one_eq]
  exact ⟨Nat.mul_le_mul_right _ (Nat.log2_self_le hk),
    Nat.mul_lt_mul_of_pos_right Nat.lt_log2_self hpos⟩

theorem log2_lt_precision (hf : f.HasIntegers) (hk : k < 2 ^ f.precision) :
    k.log2 < f.precision := by
  by_cases hzero : k = 0
  · rw [hzero]
    exact hf.precision_pos
  · exact (Nat.log2_lt hzero).2 hk

/-- The binary digits of a whole number beyond the precision are zeros. -/
theorem two_pow_excess_dvd (hf : f.HasIntegers) (hk : k < 2 ^ f.precision) :
    2 ^ f.excess (k * f.one) ∣ k * f.one := by
  by_cases hzero : k = 0
  · rw [hzero, Nat.zero_mul]
    exact dvd_zero _
  · have hlog := log2_lt_precision hf hk
    rw [excess, log2_mul_one hzero]
    refine Dvd.dvd.mul_left ?_ k
    rw [one_eq]
    exact Nat.pow_dvd_pow 2 (by omega)

/-- A whole number is not rounded. -/
theorem round_mul_one (hf : f.HasIntegers) (hk : k < 2 ^ f.precision) (s : Bool) :
    f.round s (k * f.one) 1 = .finite s (k * f.one) := by
  obtain ⟨m, hm⟩ := two_pow_excess_dvd hf hk
  have hpos : 0 < 2 ^ f.excess (k * f.one) := by positivity
  have hnearest : nearestEven (k * f.one) (2 ^ f.excess (k * f.one)) = m := by
    rw [nearestEven]
    have hdiv : k * f.one / 2 ^ f.excess (k * f.one) = m :=
      Nat.div_eq_of_eq_mul_right hpos hm
    have hmod : k * f.one % 2 ^ f.excess (k * f.one) = 0 := Nat.mod_eq_zero_of_dvd ⟨m, hm⟩
    rw [hdiv, hmod]
    exact if_neg (by omega)
  have hbound : k * f.one < f.bound := by
    rw [bound, Nat.one_shiftLeft, one_eq, Nat.pow_add]
    exact Nat.mul_lt_mul_of_lt_of_le hk (Nat.pow_le_pow_right (by decide) hf.unitBits_le)
      (by positivity)
  rw [round, Nat.div_one, Nat.one_shiftLeft, Nat.one_mul, hnearest, Nat.mul_comm m, ← hm]
  exact if_pos hbound

end Format

namespace Number

variable {f : Format} {a b : ℤ} {k l : ℕ}

/-- A whole number as a number of the format, where it is one. -/
def ofInteger (k : ℤ) : Number f := .finite (k < 0) (k.natAbs * f.one)

theorem signedUnits_natAbs (a : ℤ) (u : ℕ) :
    signedUnits (a < 0) (a.natAbs * u) = a * u := by
  rw [signedUnits, Nat.cast_mul, Int.natCast_natAbs]
  by_cases h : a < 0
  · rw [if_pos (by simpa using h), abs_of_neg h]
    ring
  · rw [if_neg (by simpa using h), abs_of_nonneg (not_lt.1 h)]

theorem ofNat_eq (hf : f.HasIntegers) (hk : k < 2 ^ f.precision) :
    (ofNat k : Number f) = ofInteger k := by
  rw [ofNat, ofFraction, Format.round_mul_one hf hk, ofInteger, Int.natAbs_natCast]
  simp

/-- Adding whole numbers is exact. -/
theorem ofInteger_add (hf : f.HasIntegers) (h : (a + b).natAbs < 2 ^ f.precision) :
    (ofInteger a + ofInteger b : Number f) = ofInteger (a + b) := by
  have hpos : (0 : ℤ) < f.one := by exact_mod_cast f.one_pos
  change add (ofInteger a) (ofInteger b) = _
  simp only [ofInteger, add, signedUnits_natAbs, ← add_mul]
  by_cases hzero : a + b = 0
  · have hneg : ¬(a < 0 ∧ b < 0) := by omega
    simp only [hzero, zero_mul, Int.natAbs_zero, if_true]
    simpa using hneg
  · have hsign : (a + b) * f.one < 0 ↔ a + b < 0 :=
      ⟨fun h => neg_of_mul_neg_left h hpos.le, fun h => mul_neg_of_neg_of_pos h hpos⟩
    rw [if_neg (mul_ne_zero hzero hpos.ne'), Int.natAbs_mul, Int.natAbs_natCast,
      Format.round_mul_one hf h, decide_eq_decide.2 hsign]

/-- Counting down is exact. -/
theorem ofInteger_sub_one (hf : f.HasIntegers) (h : (a - 1).natAbs < 2 ^ f.precision) :
    (ofInteger a - ofInteger 1 : Number f) = ofInteger (a - 1) := by
  have hneg : negate (ofInteger 1 : Number f) = ofInteger (-1) := rfl
  change add (ofInteger a) (negate (ofInteger 1)) = _
  rw [hneg]
  exact ofInteger_add hf h

theorem less_ofInteger : less (ofInteger a : Number f) (ofInteger b) = decide (a < b) := by
  have hpos : (0 : ℤ) < f.one := by exact_mod_cast f.one_pos
  simp only [ofInteger, less, signedUnits_natAbs]
  exact decide_eq_decide.2 (mul_lt_mul_iff_left₀ hpos)

theorem equal_ofInteger : equal (ofInteger a : Number f) (ofInteger b) = decide (a = b) := by
  have hne : (f.one : ℤ) ≠ 0 := by exact_mod_cast f.one_pos.ne'
  rw [Bool.eq_iff_iff]
  simp only [ofInteger, equal, signedUnits_natAbs, beq_iff_eq, decide_eq_true_iff]
  exact mul_left_inj' hne

theorem least_ofInteger : least (ofInteger a : Number f) (ofInteger b) = ofInteger (min a b) := by
  rw [least, less_ofInteger, min_def]
  by_cases h : b < a
  · simp [h, not_le.2 h]
  · simp [h, not_lt.1 h]

theorem greatest_ofInteger :
    greatest (ofInteger a : Number f) (ofInteger b) = ofInteger (max a b) := by
  rw [greatest, less_ofInteger, max_def]
  by_cases h : a < b
  · simp [h, h.le]
  · by_cases heq : a = b
    · simp [heq]
    · simp [h, show ¬a ≤ b by omega]

/-! ### The total order -/

/-- The encoding of a positive whole number: the exponent, then the digits from the first one on. -/
theorem toBits_finite (hf : f.HasIntegers) (hk : k < 2 ^ f.precision) (hpos : 0 < k) :
    toBits (.finite false (k * f.one) : Number f) =
      (k.log2 + f.unitBits + 1 - f.precision) * 2 ^ (f.precision - 1) +
        k * 2 ^ (f.precision - 1 - k.log2) := by
  have hlog := Format.log2_lt_precision hf hk
  have hle := hf.precision_le
  have hone := f.one_pos
  have hleading : f.leadingBit = 2 ^ (f.precision - 1) := Nat.one_shiftLeft _
  have hnormal : ¬k * f.one < f.leadingBit := by
    rw [hleading, Format.one_eq, not_lt]
    exact (Nat.pow_le_pow_right (by decide) (by omega)).trans (Nat.le_mul_of_pos_left _ hpos)
  have hexcess : f.excess (k * f.one) = k.log2 + f.unitBits + 1 - f.precision := by
    rw [Format.excess, Format.log2_mul_one hpos.ne']
  have hdigits : (k * f.one) >>> (k.log2 + f.unitBits + 1 - f.precision) =
      k * 2 ^ (f.precision - 1 - k.log2) := by
    rw [Nat.shiftRight_eq_div_pow]
    refine Nat.div_eq_of_eq_mul_left (by positivity) ?_
    rw [Nat.mul_assoc, ← Nat.pow_add, Format.one_eq]
    congr 2
    omega
  have hfirst : 2 ^ (f.precision - 1) ≤ k * 2 ^ (f.precision - 1 - k.log2) := by
    calc 2 ^ (f.precision - 1) = 2 ^ k.log2 * 2 ^ (f.precision - 1 - k.log2) := by
          rw [← Nat.pow_add]
          congr 1
          omega
      _ ≤ _ := Nat.mul_le_mul_right _ (Nat.log2_self_le hpos.ne')
  rw [toBits, if_neg hnormal]
  simp only [hexcess, hdigits, hleading, pack, Format.fractionBits, Bool.toNat_false,
    Nat.shiftLeft_eq, Nat.zero_mul, Nat.zero_add, Nat.succ_mul]
  omega

/-- The encodings of whole numbers are in their order. -/
theorem toBits_lt (hf : f.HasIntegers) (hl : l < 2 ^ f.precision) (hkl : k < l) :
    toBits (.finite false (k * f.one) : Number f) < toBits (.finite false (l * f.one) : Number f) := by
  have hlog := Format.log2_lt_precision hf hl
  have hle := hf.precision_le
  rw [toBits_finite hf hl (by omega)]
  rcases Nat.eq_zero_or_pos k with rfl | hpos
  · have hzero : toBits (.finite false (0 * f.one) : Number f) = 0 := by
      rw [toBits, Nat.zero_mul, if_pos (by rw [Format.leadingBit, Nat.one_shiftLeft]; positivity)]
      simp [pack]
    rw [hzero]
    exact Nat.add_pos_right _ (Nat.mul_pos (by omega) (by positivity))
  · rw [toBits_finite hf (hkl.trans hl) hpos]
    have hmono : k.log2 ≤ l.log2 := by
      rw [Nat.le_log2 (by omega)]
      exact (Nat.log2_self_le hpos.ne').trans hkl.le
    rcases hmono.eq_or_lt with heq | hlt
    · rw [heq]
      exact Nat.add_lt_add_left (Nat.mul_lt_mul_of_pos_right hkl (by positivity)) _
    · -- the exponents differ, and the digits from the first one on are less than twice as many
      have hdigits : k * 2 ^ (f.precision - 1 - k.log2) < 2 * 2 ^ (f.precision - 1) := by
        calc k * 2 ^ (f.precision - 1 - k.log2)
            < 2 ^ (k.log2 + 1) * 2 ^ (f.precision - 1 - k.log2) :=
              Nat.mul_lt_mul_of_pos_right Nat.lt_log2_self (by positivity)
          _ = 2 * 2 ^ (f.precision - 1) := by
              rw [← Nat.pow_add, ← Nat.pow_succ']
              congr 1
              omega
      have hfirst : 2 ^ (f.precision - 1) ≤ l * 2 ^ (f.precision - 1 - l.log2) := by
        calc 2 ^ (f.precision - 1) = 2 ^ l.log2 * 2 ^ (f.precision - 1 - l.log2) := by
              rw [← Nat.pow_add]
              congr 1
              omega
          _ ≤ _ := Nat.mul_le_mul_right _ (Nat.log2_self_le (by omega))
      have hexp : (k.log2 + f.unitBits + 1 - f.precision + 1) * 2 ^ (f.precision - 1) ≤
          (l.log2 + f.unitBits + 1 - f.precision) * 2 ^ (f.precision - 1) :=
        Nat.mul_le_mul_right _ (by omega)
      rw [Nat.succ_mul] at hexp
      omega

/-- Whole numbers are in their order in the total order. -/
theorem totalKey_lt (hf : f.HasIntegers) (ha : a.natAbs < 2 ^ f.precision)
    (hb : b.natAbs < 2 ^ f.precision) (hab : a < b) :
    totalKey (ofInteger a : Number f) < totalKey (ofInteger b : Number f) := by
  have key (c : ℤ) : totalKey (ofInteger c : Number f) =
      if c < 0 then -(toBits (.finite false (c.natAbs * f.one) : Number f) : ℤ) - 1
      else toBits (.finite false (c.natAbs * f.one) : Number f) := by
    simp [totalKey, ofInteger, magnitude, isNegative]
  rw [key, key]
  by_cases hneg : b < 0
  · have := toBits_lt (f := f) hf ha (show b.natAbs < a.natAbs by omega)
    rw [if_pos (hab.trans hneg), if_pos hneg]
    omega
  · by_cases hneg' : a < 0
    · rw [if_pos hneg', if_neg hneg]
      omega
    · have := toBits_lt (f := f) hf hb (show a.natAbs < b.natAbs by omega)
      rw [if_neg hneg', if_neg hneg]
      exact_mod_cast this

end Number

end ZXRewriting.Floating

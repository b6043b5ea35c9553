import Mathlib.Algebra.ContinuedFractions.Computation.Approximations
import ZXRewriting.Proofs.Phase.Words

/-!
# Rounding to a convergent

A phase that does not fit in words is replaced by a convergent of its continued fraction. The loop
that expands the fraction keeps two consecutive convergents and the rest that is left to expand
(`Convergents.Expansion`): they are those of the continued fraction, their determinant is a sign, and
together with the rest they give the fraction. So no convergent is larger than the fraction in lowest
terms, and the loop stops at the limit and not because a number leaves its words
(`Convergents.expandChecked`).

A result that does not fit has a denominator past the limit, so that the expansion never comes to its
end, and the convergent it stops at is as near as the next one's denominator is large
(`Phase.Approximates`).
-/

namespace ZXRewriting

open GenContFract (IntFractPair)

namespace Convergents

variable {limit N D m n d : ℕ} {c : Convergents}

/-! ### The loop with every number checked -/

/-- The next convergent, none if a number on the way leaves its double word. -/
def nextChecked (c : Convergents) (quotient : ℕ) : Option Convergents := do
  let num ← combine quotient c.num c.numPrev
  let den ← combine quotient c.den c.denPrev
  return ⟨c.num, c.den, num.toNat, den.toNat⟩

/-- `Convergents.expand` with every number checked, also those of the convergent that is past the
    limit. -/
def expandChecked (limit : ℕ) (c : Convergents) (n d : ℕ) : Option Convergents :=
  if _h : d = 0 then some c
  else
    match c.nextChecked (n / d) with
    | none => none
    | some next =>
      if next.den ≤ limit then
        (checked maxDoubleWord (n / d * d : ℕ)).bind fun product =>
          (checked maxDoubleWord (n - product)).bind fun _ => next.expandChecked limit d (n % d)
      else some c
termination_by d
decreasing_by exact Nat.mod_lt n (Nat.pos_of_ne_zero _h)

theorem nextChecked_eq {quotient : ℕ} (hnum : (c.next quotient).num ≤ maxDoubleWord)
    (hden : (c.next quotient).den ≤ maxDoubleWord) :
    c.nextChecked quotient = some (c.next quotient) := by
  rw [next] at hnum hden
  rw [nextChecked, combine_eq, combine_eq, if_pos hnum, if_pos hden]
  rfl

/-- One more convergent within the limit. -/
theorem expandChecked_step (hd : d ≠ 0) (hn : n ≤ maxDoubleWord)
    (hnum : (c.next (n / d)).num ≤ maxDoubleWord) (hden : (c.next (n / d)).den ≤ maxDoubleWord)
    (hle : (c.next (n / d)).den ≤ limit) :
    c.expandChecked limit n d = (c.next (n / d)).expandChecked limit d (n % d) := by
  have hdiff : (n : ℤ) - (n / d * d : ℕ) = (n - n / d * d : ℕ) :=
    (Nat.cast_sub (Nat.div_mul_le_self n d)).symm
  rw [expandChecked, dif_neg hd, nextChecked_eq hnum hden]
  simp only [checked_of_le ((Nat.div_mul_le_self n d).trans hn), Option.bind_some, hdiff,
    checked_of_le ((Nat.sub_le n (n / d * d)).trans hn)]
  exact if_pos hle

/-- The next convergent is past the limit. -/
theorem expandChecked_stop (hd : d ≠ 0) (hnum : (c.next (n / d)).num ≤ maxDoubleWord)
    (hden : (c.next (n / d)).den ≤ maxDoubleWord) (hlt : limit < (c.next (n / d)).den) :
    c.expandChecked limit n d = some c := by
  rw [expandChecked, dif_neg hd, nextChecked_eq hnum hden]
  exact if_neg (Nat.not_le_of_lt hlt)

/-! ### What the loop keeps -/

/-- After the convergents `m` and before, `n / d` is left to expand of the fraction `N / D`. -/
structure Expansion (N D m : ℕ) (c : Convergents) (n d : ℕ) : Prop where
  num_eq : n * c.num + d * c.numPrev = N
  den_eq : n * c.den + d * c.denPrev = D
  det_sq : ((c.num : ℤ) * c.denPrev - c.numPrev * c.den) ^ 2 = 1
  contsAux_eq : (GenContFract.of (N / D : ℚ)).contsAux m = ⟨c.numPrev, c.denPrev⟩
  conts_eq : (GenContFract.of (N / D : ℚ)).conts m = ⟨c.num, c.den⟩
  stream_eq : d ≠ 0 → IntFractPair.stream (N / D : ℚ) (m + 1) = some (IntFractPair.of (n / d : ℚ))

/-- The whole part of a quotient. -/
theorem of_b (n d : ℕ) : (IntFractPair.of (n / d : ℚ)).b = ((n / d : ℕ) : ℤ) :=
  Rat.floor_natCast_div_natCast n d

/-- The fractional part of a quotient. -/
theorem of_fr (n : ℕ) (hd : d ≠ 0) : (IntFractPair.of (n / d : ℚ)).fr = (n % d : ℕ) / (d : ℚ) := by
  have hb : ⌊(n / d : ℚ)⌋ = ((n / d : ℕ) : ℤ) := of_b n d
  have hd' : (d : ℚ) ≠ 0 := by exact_mod_cast hd
  have hsplit : (d : ℚ) * (n / d : ℕ) + (n % d : ℕ) = n := by exact_mod_cast Nat.div_add_mod n d
  rw [IntFractPair.of, Int.fract, hb, Int.cast_natCast, eq_div_iff hd', sub_mul,
    div_mul_cancel₀ _ hd']
  linear_combination -hsplit

/-- What comes after a quotient in the expansion, if anything does. -/
theorem stream_succ {x : ℚ} {i : ℕ} (hd : d ≠ 0) (hr : n % d ≠ 0)
    (h : IntFractPair.stream x i = some (IntFractPair.of (n / d : ℚ))) :
    IntFractPair.stream x (i + 1) = some (IntFractPair.of (d / (n % d : ℕ) : ℚ)) := by
  have hfr := of_fr n hd
  have hne : (IntFractPair.of (n / d : ℚ)).fr ≠ 0 := by
    rw [hfr]
    positivity
  rw [IntFractPair.stream_succ_of_some h hne, hfr, inv_div]

namespace Expansion

/-- The first convergent is the whole part. -/
theorem first (N : ℕ) (hD : D ≠ 0) : Expansion N D 0 (start.next (N / D)) D (N % D) where
  num_eq := by
    have := Nat.div_add_mod N D
    simpa [start, next] using this
  den_eq := by simp [start, next]
  det_sq := by simp [start, next]
  contsAux_eq := by simp [GenContFract.contsAux, start, next]
  conts_eq := by
    have hb : ⌊(N / D : ℚ)⌋ = ((N / D : ℕ) : ℤ) := of_b N D
    rw [GenContFract.zeroth_cont_eq_h_one, GenContFract.of_h_eq_floor, hb, Int.cast_natCast]
    simp [start, next]
  stream_eq := fun hr => stream_succ hD hr (IntFractPair.stream_zero _)

theorem step (h : Expansion N D m c n d) (hd : d ≠ 0) :
    Expansion N D (m + 1) (c.next (n / d)) d (n % d) where
  num_eq := calc
    d * (n / d * c.num + c.numPrev) + n % d * c.num =
        (d * (n / d) + n % d) * c.num + d * c.numPrev := by ring
    _ = N := by rw [Nat.div_add_mod, h.num_eq]
  den_eq := calc
    d * (n / d * c.den + c.denPrev) + n % d * c.den =
        (d * (n / d) + n % d) * c.den + d * c.denPrev := by ring
    _ = D := by rw [Nat.div_add_mod, h.den_eq]
  det_sq := by
    rw [← h.det_sq, next]
    push_cast
    ring
  contsAux_eq := h.conts_eq
  conts_eq := by
    have hs := GenContFract.get?_of_eq_some_of_succ_get?_intFractPair_stream (h.stream_eq hd)
    rw [GenContFract.conts_recurrenceAux hs h.contsAux_eq h.conts_eq, of_b, next, Int.cast_natCast,
      one_mul, one_mul, Nat.cast_add, Nat.cast_add, Nat.cast_mul, Nat.cast_mul]
  stream_eq := fun hr => stream_succ hd hr (h.stream_eq hd)

theorem nums_eq (h : Expansion N D m c n d) :
    (GenContFract.of (N / D : ℚ)).nums m = c.num := by
  rw [GenContFract.num_eq_conts_a, h.conts_eq]

theorem dens_eq (h : Expansion N D m c n d) :
    (GenContFract.of (N / D : ℚ)).dens m = c.den := by
  rw [GenContFract.den_eq_conts_b, h.conts_eq]

/-- The next convergent has at most the numerator and the denominator of the fraction. -/
theorem next_le (h : Expansion N D m c n d) :
    d * (c.next (n / d)).num ≤ N ∧ d * (c.next (n / d)).den ≤ D := by
  have hle (x y : ℕ) : d * (n / d * x + y) ≤ n * x + d * y := calc
    d * (n / d * x + y) = n / d * d * x + d * y := by ring
    _ ≤ n * x + d * y := Nat.add_le_add_right (Nat.mul_le_mul_right x (Nat.div_mul_le_self n d)) _
  exact ⟨h.num_eq ▸ hle _ _, h.den_eq ▸ hle _ _⟩

theorem coprime (h : Expansion N D m c n d) : c.num.Coprime c.den := by
  have hdet : IsCoprime (c.num : ℤ) c.den := by
    rcases sq_eq_one_iff.1 h.det_sq with h1 | h1
    · exact ⟨c.denPrev, -c.numPrev, by linear_combination h1⟩
    · exact ⟨-c.denPrev, c.numPrev, by linear_combination -h1⟩
  exact Nat.isCoprime_iff_coprime.1 hdet

/-- Where nothing is left to expand, the convergent is the fraction. -/
theorem den_eq_of_end (h : Expansion N D m c n 0) (hND : N.Coprime D) : c.den = D := by
  have hN : n ∣ N := ⟨c.num, by rw [← h.num_eq, Nat.zero_mul, Nat.add_zero]⟩
  have hD : n ∣ D := ⟨c.den, by rw [← h.den_eq, Nat.zero_mul, Nat.add_zero]⟩
  have hn : n = 1 := Nat.dvd_one.1 (hND ▸ Nat.dvd_gcd hN hD)
  rw [← h.den_eq, hn, Nat.one_mul, Nat.zero_mul, Nat.add_zero]

/-- How far a convergent is from the fraction. -/
theorem abs_sub_lt (h : Expansion N D m c n d) (hd : d ≠ 0) (hlimit : 0 < limit) (hc : 0 < c.den)
    (hnext : limit < (c.next (n / d)).den) :
    |(N / D : ℚ) - c.num / c.den| < 1 / (c.den * limit) := by
  have hle : d * (limit + 1) ≤ D := (Nat.mul_le_mul_left d hnext).trans h.next_le.2
  have hD : 0 < D := lt_of_lt_of_le (Nat.mul_pos (Nat.pos_of_ne_zero hd) (Nat.succ_pos _)) hle
  have hD' : (0 : ℚ) < D := by exact_mod_cast hD
  have hc' : (0 : ℚ) < c.den := by exact_mod_cast hc
  have hlimit' : (0 : ℚ) < limit := by exact_mod_cast hlimit
  have hlt : (d * limit : ℚ) < D := by exact_mod_cast (by
    rw [Nat.mul_succ] at hle
    omega : d * limit < D)
  have hnum : (N : ℚ) * c.den - D * c.num =
      -d * (c.num * c.denPrev - c.numPrev * c.den) := by
    rw [← h.num_eq, ← h.den_eq]
    push_cast
    ring
  have habs : |(c.num * c.denPrev - c.numPrev * c.den : ℚ)| = 1 := by
    have hsq : (c.num * c.denPrev - c.numPrev * c.den : ℚ) ^ 2 = 1 := by exact_mod_cast h.det_sq
    rcases sq_eq_one_iff.1 hsq with h1 | h1 <;> rw [h1] <;> norm_num
  rw [div_sub_div _ _ hD'.ne' hc'.ne', hnum, abs_div, abs_mul, abs_neg, habs, mul_one, Nat.abs_cast,
    abs_of_pos (mul_pos hD' hc'), div_lt_div_iff₀ (mul_pos hD' hc') (mul_pos hc' hlimit')]
  nlinarith

/-- The loop stops before a fraction is expanded the denominator of which is past the limit, and
    does so because the next convergent's is. -/
theorem exists_expand (h : ∃ m, Expansion N D m c n d) (hND : N.Coprime D)
    (hN : N ≤ maxDoubleWord) (hD : D ≤ maxDoubleWord) (hlimit : limit < D)
    (hn : n ≤ maxDoubleWord) (hd : d ≤ maxDoubleWord) (hc : c.den ≤ limit) :
    c.expandChecked limit n d = some (c.expand limit n d) ∧
      ∃ m n' d', Expansion N D m (c.expand limit n d) n' d' ∧ d' ≠ 0 ∧
        limit < ((c.expand limit n d).next (n' / d')).den := by
  fun_induction Convergents.expand limit c n d with
  | case1 c n =>
    obtain ⟨m, h⟩ := h
    exact absurd (h.den_eq_of_end hND) (by omega)
  | case2 c n d hd0 next hnext ih =>
    obtain ⟨m, h⟩ := h
    rw [expandChecked_step hd0 hn hnext.1 hnext.2.1 hnext.2.2]
    exact ih ⟨m + 1, h.step hd0⟩ hd ((Nat.mod_le n d).trans hn) hnext.2.2
  | case3 c n d hd0 next hnext =>
    -- the numbers fit, so that it is the limit that is passed
    obtain ⟨m, h⟩ := h
    have hpos : 0 < d := Nat.pos_of_ne_zero hd0
    have hnum : next.num ≤ maxDoubleWord := (Nat.le_mul_of_pos_left _ hpos).trans (h.next_le.1.trans hN)
    have hden : next.den ≤ maxDoubleWord := (Nat.le_mul_of_pos_left _ hpos).trans (h.next_le.2.trans hD)
    have hpast : limit < next.den := Nat.lt_of_not_le fun hle => hnext ⟨hnum, hden, hle⟩
    exact ⟨expandChecked_stop hd0 hnum hden hpast, m, n, d, h, hd0, hpast⟩

end Expansion

/-- The expansion of a fraction in lowest terms the denominator of which is past the limit. -/
theorem exists_expansion_lastConvergent (hND : N.Coprime D) (hN : N ≤ maxDoubleWord)
    (hD : D ≤ maxDoubleWord) (hpos : 0 < limit) (hlimit : limit < D) :
    start.expandChecked limit N D = some (lastConvergent limit N D) ∧
      ∃ m n d, Expansion N D m (lastConvergent limit N D) n d ∧ d ≠ 0 ∧
        limit < ((lastConvergent limit N D).next (n / d)).den := by
  have hD0 : D ≠ 0 := by omega
  have hden : (start.next (N / D)).den = 1 := by simp [start, next]
  have hnum : (start.next (N / D)).num ≤ maxDoubleWord := by
    simpa [start, next] using (Nat.div_le_self N D).trans hN
  have hword : 1 ≤ maxDoubleWord := by decide
  rw [lastConvergent, expand, dif_neg hD0, if_pos ⟨hnum, by omega, by omega⟩,
    expandChecked_step hD0 hN hnum (by omega) (by omega)]
  exact Expansion.exists_expand ⟨0, .first N hD0⟩ hND hN hD hlimit hD
    ((Nat.mod_le N D).trans hN) (by omega)

end Convergents

namespace Phase

variable {x p q : Phase} {num : ℤ} {den : ℕ}

/-- The phase `p` stands for the fraction `x`: it is, modulo a full turn, the last convergent of `x`
    with a denominator of at most half of the largest word, which the expansion comes to without a
    number that leaves its words. -/
structure Approximates (x p : Phase) : Prop where
  fits : p.Fits
  exists_convergent : ∃ c m,
    Convergents.start.expandChecked (maxWord / 2) x.num x.den = some c ∧
    (GenContFract.of x.value).nums m = c.num ∧ (GenContFract.of x.value).dens m = c.den ∧
    (∀ i, (GenContFract.of x.value).dens i ≤ (maxWord / 2 : ℕ) ↔ i ≤ m) ∧
    c.num.Coprime c.den ∧ 1 ≤ c.den ∧ p.num = c.num % (2 * c.den) ∧ p.den = c.den
  near : ∃ k : ℤ, |x.value - p.value - 2 * k| < 1 / (p.den * (maxWord / 2 : ℕ))

/-- A fraction with a denominator of at most half of the largest word fits in words. -/
theorem lt_den_of_not_fits (hx : ¬ x.Fits) : maxWord / 2 < x.den := by
  have hnum := x.num_lt
  rw [Fits] at hx
  omega

/-- A fraction in lowest terms is the same modulo a full turn. -/
theorem reduce_of_coprime {n d : ℕ} (hd : 0 < d) (h : n.Coprime d) :
    (reduce n d).num = n % (2 * d) ∧ (reduce n d).den = d := by
  have hgcd : (n % (2 * d)).gcd d = 1 :=
    ((Nat.mod_modEq n (2 * d)).of_mul_left 2).gcd_eq.trans h
  rw [reduce, dif_pos hd]
  simp only [hgcd, Nat.div_one, and_self]

/-- The convergents with a denominator within a limit are those up to the last one. -/
theorem dens_le_iff {v : ℚ} {limit : ℕ} {m : ℕ} (hm : (GenContFract.of v).dens m ≤ limit)
    (hnext : limit < (GenContFract.of v).dens (m + 1)) (i : ℕ) :
    (GenContFract.of v).dens i ≤ limit ↔ i ≤ m := by
  have hmono : Monotone (GenContFract.of v).dens :=
    monotone_nat_of_le_succ fun _ => GenContFract.of_den_mono
  constructor
  · intro hi
    by_contra hlt
    exact absurd (hnext.trans_le (hmono (Nat.lt_of_not_le hlt))) (not_lt_of_ge hi)
  · exact fun hi => (hmono hi).trans hm

/-- The value of a fraction in lowest terms, less whole turns. -/
theorem value_reduce_of_coprime {n d : ℕ} (hd : 0 < d) (h : n.Coprime d) :
    (reduce n d).value = n / d - 2 * (n / (2 * d) : ℕ) := by
  obtain ⟨hnum, hden⟩ := reduce_of_coprime hd h
  have hd' : (d : ℚ) ≠ 0 := by exact_mod_cast hd.ne'
  have hsplit : ((2 * d : ℕ) : ℚ) * (n / (2 * d) : ℕ) + (n % (2 * d) : ℕ) = n := by
    exact_mod_cast Nat.div_add_mod n (2 * d)
  rw [value, hnum, hden, div_eq_iff hd', sub_mul, div_mul_cancel₀ _ hd', ← hsplit, Nat.cast_mul]
  ring

/-- What a fraction that does not fit is replaced by. -/
theorem approximates_fit (hx : ¬ x.Fits) (hnum : x.num ≤ maxDoubleWord)
    (hden : x.den ≤ maxDoubleWord) : Approximates x x.fit := by
  obtain ⟨hchecked, m, n, d, h, hd, hnext⟩ := Convergents.exists_expansion_lastConvergent
    x.coprime hnum hden (by decide) (lt_den_of_not_fits hx)
  have hpos : 0 < (lastConvergent (maxWord / 2) x.num x.den).den :=
    den_lastConvergent_pos (by decide) x.den_pos x.num_lt
  have hle : (lastConvergent (maxWord / 2) x.num x.den).den ≤ maxWord / 2 :=
    Convergents.den_expand_le (Nat.zero_le _)
  have hfit : x.fit = reduce (lastConvergent (maxWord / 2) x.num x.den).num
      (lastConvergent (maxWord / 2) x.num x.den).den := if_neg hx
  set c := lastConvergent (maxWord / 2) x.num x.den
  obtain ⟨hpnum, hpden⟩ := reduce_of_coprime hpos h.coprime
  have hvalue := value_reduce_of_coprime hpos h.coprime
  rw [← hfit] at hpnum hpden hvalue
  have hlast : ∀ i, (GenContFract.of x.value).dens i ≤ (maxWord / 2 : ℕ) ↔ i ≤ m :=
    dens_le_iff (h.dens_eq.trans_le (Nat.cast_le.2 hle))
      ((Nat.cast_lt.2 hnext).trans_eq (h.step hd).dens_eq.symm)
  have hnear := h.abs_sub_lt hd (by decide) hpos hnext
  refine ⟨fits_fit x, ⟨c, m, hchecked, h.nums_eq, h.dens_eq, hlast, h.coprime, hpos, hpnum, hpden⟩,
    (c.num / (2 * c.den) : ℕ), ?_⟩
  rw [hvalue, hpden, Int.cast_natCast, sub_sub, sub_add_cancel]
  exact hnear

/-- Making the phase of a fraction the exact value of which does not fit. -/
theorem approximates_ofQuotient (hd : 0 < den) (hden : 2 * den ≤ maxDoubleWord)
    (h : x.turns = ((num / den : ℚ) :)) (hx : ¬ x.Fits) : Approximates x (ofQuotient num den) := by
  have hreduce : reduce (num % (2 * den : ℕ)).toNat den = x := reduce_emod_eq hd h
  obtain ⟨-, hnum, hden'⟩ := reduceInWords_eq hd hden hreduce
  rw [ofQuotient, hreduce]
  exact approximates_fit hx hnum hden'

/-- Where the exact result of making a phase, or of adding, subtracting, inverting or multiplying
    phases, is a fraction that does not fit in words, the result is the last convergent of that fraction
    with a denominator of at most half of the largest word, modulo a full turn. -/
theorem arithmetic_rounds_to_convergents :
    (∀ num den : ℤ, Within maxWord num → Within maxWord den → 0 < den → ∀ x : Phase, ¬ x.Fits →
      x.turns = ((num / den : ℚ) :) → ∃ p, ofFraction num den = .ok p ∧ Approximates x p) ∧
    (∀ p q : Phase, p.Fits → q.Fits → ∀ x : Phase, ¬ x.Fits →
      (x.turns = p.turns + q.turns → Approximates x (p + q)) ∧
      (x.turns = p.turns - q.turns → Approximates x (p - q))) ∧
    ∀ p : Phase, p.Fits → ∀ x : Phase, ¬ x.Fits →
      (x.turns = -p.turns → Approximates x (-p)) ∧
      ∀ k : ℤ, Within maxWord k → x.turns = k • p.turns → Approximates x (p.scale k) := by
  refine ⟨fun num den _ hden hpos x hx h => ?_, fun p q hp hq x hx => ⟨fun h => ?_, fun h => ?_⟩,
    fun p hp x hx => ⟨fun h => ?_, fun k _ h => ?_⟩⟩
  · obtain ⟨d, rfl⟩ := Int.eq_ofNat_of_zero_le hpos.le
    have hword : 2 * maxWord ≤ maxDoubleWord := by decide
    have hle : d ≤ maxWord := Int.ofNat_le.1 hden.2
    refine ⟨ofQuotient num d, ?_, approximates_ofQuotient (Int.natCast_pos.1 hpos) (by omega) h hx⟩
    rw [ofFraction, if_neg hpos.ne', if_neg hpos.not_gt]
    rfl
  · exact approximates_ofQuotient (Nat.mul_pos p.den_pos q.den_pos) (mul_den_le hp hq)
      (h.trans (coe_add_quotient p q).symm) hx
  · exact approximates_ofQuotient (Nat.mul_pos p.den_pos q.den_pos) (mul_den_le hp hq)
      (h.trans (coe_sub_quotient p q).symm) hx
  · exact approximates_ofQuotient p.den_pos (two_mul_den_le hp) (h.trans (coe_neg_quotient p).symm) hx
  · exact approximates_ofQuotient p.den_pos (two_mul_den_le hp)
      (h.trans (coe_scale_quotient p k).symm) hx

/-- The least phase with the largest denominator. -/
def leastTurn : Phase := reduce 1 maxWord

/-- A fraction that does not fit: the opposite of `leastTurn`. -/
def lastTurn : Phase := reduce (2 * maxWord - 1) maxWord

/-- The same fraction comes up in each way. -/
theorem lastTurn_approximated :
    (∃ p, ofFraction (-1) maxWord = .ok p ∧ Approximates lastTurn p) ∧
    Approximates lastTurn (reduce (maxWord - 1) maxWord + pi) ∧
    Approximates lastTurn (zero - leastTurn) ∧ Approximates lastTurn (-leastTurn) ∧
    Approximates lastTurn (leastTurn.scale (-1)) := by
  obtain ⟨hnew, hadd, hneg⟩ := arithmetic_rounds_to_convergents
  have hnot : ¬ lastTurn.Fits := by decide +kernel
  have hleast : leastTurn.Fits := by decide +kernel
  have hturns : lastTurn.turns = -leastTurn.turns := by
    rw [lastTurn, leastTurn, turns_reduce (by decide), turns_reduce (by decide), ← AddCircle.coe_neg]
    refine coe_eq_of_eq_add 1 ?_
    norm_num [maxWord]
  have hsum : lastTurn.turns = (reduce (maxWord - 1) maxWord).turns + pi.turns := by
    rw [lastTurn, turns_reduce (by decide), turns_reduce (by decide), turns, ← AddCircle.coe_add]
    refine coe_eq_of_eq_add 0 ?_
    norm_num [maxWord, pi, value]
  have hfraction : lastTurn.turns = (((-1 : ℤ) / (maxWord : ℤ) : ℚ) :) := by
    rw [lastTurn, turns_reduce (by decide)]
    refine coe_eq_of_eq_add 1 ?_
    norm_num [maxWord]
  refine ⟨hnew _ _ (by decide) (by decide) (by decide) _ hnot hfraction,
    (hadd _ _ (by decide +kernel) (by decide) _ hnot).1 hsum,
    (hadd _ _ (by decide) hleast _ hnot).2 ?_, (hneg _ hleast _ hnot).1 hturns,
    (hneg _ hleast _ hnot).2 _ (by decide) ?_⟩
  · rw [turns_zero, zero_sub, hturns]
  · rw [neg_one_zsmul, hturns]

end Phase

end ZXRewriting

import ZXRewriting.Proofs.Phase.Turns

/-!
# Phase arithmetic in words

Arithmetic on phases is made on whole numbers of 128 bits with a sign, and gives numbers of 64 bits.
`Phase.addInWords` and its companions are the same computations with a check of every number on the
way (`checked`), and a computation that leaves its words has no result. None does: phases that fit in
words come to a phase that fits again, which is the exact one whenever that can be written
(`Phase.Computes`).
-/

namespace ZXRewriting

/-! ### Words -/

/-- Whether a whole number is one with a sign of which the largest is `max`. -/
def Within (max : ℕ) (x : ℤ) : Prop := -(max : ℤ) - 1 ≤ x ∧ x ≤ max

instance (max : ℕ) (x : ℤ) : Decidable (Within max x) := inferInstanceAs (Decidable (_ ∧ _))

/-- A number on the way, which has to stay within its words. -/
def checked (max : ℕ) (x : ℤ) : Option ℤ := if Within max x then some x else none

variable {max : ℕ} {x y : ℤ}

theorem checked_eq (h : Within max x) : checked max x = some x := if_pos h

theorem checked_natCast (n : ℕ) : checked max n = if n ≤ max then some (n : ℤ) else none := by
  have hiff : Within max n ↔ n ≤ max := by
    rw [Within]
    omega
  rw [checked]
  simp only [hiff]

theorem checked_of_le {n : ℕ} (h : n ≤ max) : checked max n = some (n : ℤ) := by
  rw [checked_natCast, if_pos h]

/-- A product of two numbers that are bounded. -/
theorem within_mul {a b : ℕ} (hx : |x| ≤ a) (hy : |y| ≤ b) (h : a * b ≤ max) :
    Within max (x * y) := by
  have habs : |x * y| ≤ (max : ℤ) := calc
    |x * y| = |x| * |y| := abs_mul x y
    _ ≤ a * b := mul_le_mul hx hy (abs_nonneg y) (Int.natCast_nonneg a)
    _ ≤ max := by exact_mod_cast h
  have := abs_le.1 habs
  exact ⟨by omega, by omega⟩

/-! ### Convergents -/

namespace Convergents

variable {limit n d : ℕ} {c : Convergents}

/-- The part `quotient * x + y` of the next convergent. -/
def combine (quotient x y : ℕ) : Option ℤ := do
  let product ← checked maxDoubleWord (quotient * x : ℕ)
  checked maxDoubleWord (product + y)

/-- The next convergent, none if it leaves its double word or the limit. -/
def nextInWords (limit : ℕ) (c : Convergents) (quotient : ℕ) : Option Convergents := do
  let num ← combine quotient c.num c.numPrev
  let den ← combine quotient c.den c.denPrev
  if den ≤ limit then some ⟨c.num, c.den, num.toNat, den.toNat⟩ else none

/-- `Convergents.expand` with every number checked. The rest of the division is made of a product
    and a difference. -/
def expandInWords (limit : ℕ) (c : Convergents) (n d : ℕ) : Option Convergents :=
  if _h : d = 0 then some c
  else
    match c.nextInWords limit (n / d) with
    | none => some c
    | some next =>
      (checked maxDoubleWord (n / d * d : ℕ)).bind fun product =>
        (checked maxDoubleWord (n - product)).bind fun _ => next.expandInWords limit d (n % d)
termination_by d
decreasing_by exact Nat.mod_lt n (Nat.pos_of_ne_zero _h)

theorem combine_eq (quotient x y : ℕ) : combine quotient x y =
    if quotient * x + y ≤ maxDoubleWord then some ((quotient * x + y : ℕ) : ℤ) else none := by
  rw [combine, checked_natCast]
  split
  · exact (congrArg (checked maxDoubleWord) (Nat.cast_add _ _).symm).trans (checked_natCast _)
  · rw [if_neg (by omega)]
    rfl

theorem nextInWords_eq (quotient : ℕ) : c.nextInWords limit quotient =
    if (c.next quotient).num ≤ maxDoubleWord ∧ (c.next quotient).den ≤ maxDoubleWord ∧
        (c.next quotient).den ≤ limit then some (c.next quotient) else none := by
  rw [nextInWords, combine_eq, combine_eq]
  by_cases hnum : quotient * c.num + c.numPrev ≤ maxDoubleWord
  · by_cases hden : quotient * c.den + c.denPrev ≤ maxDoubleWord
    · simp only [next, hnum, hden, true_and, if_true, Option.bind_eq_bind, Option.bind_some,
        Int.ofNat_le, Int.toNat_natCast]
    · simp [hnum, hden, next]
  · simp [hnum, next]

/-- Expanding leaves no double word, and comes to the same convergent. -/
theorem expandInWords_eq (hn : n ≤ maxDoubleWord) (hd : d ≤ maxDoubleWord) :
    expandInWords limit c n d = some (c.expand limit n d) := by
  fun_induction Convergents.expand limit c n d with
  | case1 c n => rw [expandInWords, dif_pos rfl]
  | case2 c n d h next hnext ih =>
    have hrest : (n : ℤ) - (n / d * d : ℕ) = (n - n / d * d : ℕ) :=
      (Nat.cast_sub (Nat.div_mul_le_self n d)).symm
    rw [expandInWords, dif_neg h, nextInWords_eq, if_pos hnext]
    simp only [checked_of_le ((Nat.div_mul_le_self n d).trans hn), Option.bind_some, hrest,
      checked_of_le ((Nat.sub_le n (n / d * d)).trans hn)]
    exact ih hd ((Nat.mod_le n d).trans hn)
  | case3 c n d h next hnext => rw [expandInWords, dif_neg h, nextInWords_eq, if_neg hnext]

/-- Denominators stay within the limit. -/
theorem den_expand_le (h : c.den ≤ limit) : (c.expand limit n d).den ≤ limit := by
  fun_induction Convergents.expand limit c n d with
  | case1 => exact h
  | case2 c n d _ next hnext ih => exact ih hnext.2.2
  | case3 => exact h

/-- After the first convergent denominators are positive, as partial quotients are. -/
theorem den_expand_pos (h : 0 < c.den) (hdn : d ≤ n) : 0 < (c.expand limit n d).den := by
  fun_induction Convergents.expand limit c n d with
  | case1 => exact h
  | case2 c n d hd next _ ih =>
    refine ih ?_ (Nat.mod_lt n (Nat.pos_of_ne_zero hd)).le
    exact Nat.add_pos_left (Nat.mul_pos (Nat.div_pos hdn (Nat.pos_of_ne_zero hd)) h) _
  | case3 => exact h

end Convergents

/-- The last convergent of a phase is a fraction. -/
theorem den_lastConvergent_pos {limit n d : ℕ} (hlimit : 0 < limit) (hd : 0 < d) (hn : n < 2 * d) :
    0 < (lastConvergent limit n d).den := by
  have hquotient : n / d < 2 := Nat.div_lt_of_lt_mul (by omega)
  rw [lastConvergent, Convergents.expand, dif_neg hd.ne']
  simp only [Convergents.next, Convergents.start, Nat.mul_one, Nat.mul_zero, Nat.zero_add,
    Nat.add_zero]
  rw [if_pos ⟨by rw [maxDoubleWord]; omega, by decide, hlimit⟩]
  exact Convergents.den_expand_pos Nat.one_pos (Nat.mod_lt n hd).le

namespace Phase

variable {p q : Phase} {num : ℤ} {den : ℕ}

/-! ### Making a phase -/

/-- The fraction `num / den` modulo 2 in lowest terms, with every number checked. -/
def reduceInWords (num den : ℤ) : Option (ℤ × ℤ) := do
  let full ← checked maxDoubleWord (2 * den)
  let rest ← checked maxDoubleWord (num % full)
  let common ← checked maxDoubleWord (rest.gcd den)
  let n ← checked maxDoubleWord (rest / common)
  let d ← checked maxDoubleWord (den / common)
  return (n, d)

/-- The phase of a fraction in words. -/
def ofWords (num den : ℤ) : Phase := reduce num.toNat den.toNat

/-- The last convergent that stands in for a fraction that does not fit, with every number
    checked. -/
def standInWords (num den : ℤ) : Option Phase := do
  let c ← Convergents.start.expandInWords (maxWord / 2) num.toNat den.toNat
  let full ← checked maxDoubleWord (2 * c.den)
  let n ← checked maxWord (c.num % full)
  let d ← checked maxWord c.den
  return ofWords n d

/-- `Phase.ofQuotient` with every number checked. -/
def ofQuotientInWords (num den : ℤ) : Option Phase := do
  let (n, d) ← reduceInWords num den
  if Within maxWord n ∧ Within maxWord d then return ofWords n d else standInWords n d

/-- What a phase is taken to fits in words. -/
theorem fits_fit (p : Phase) : p.fit.Fits := by
  rw [fit]
  split
  · assumption
  · set c := lastConvergent (maxWord / 2) p.num p.den
    have hpos : 0 < c.den := den_lastConvergent_pos (by decide) p.den_pos p.num_lt
    have hle : c.den ≤ maxWord / 2 := Convergents.den_expand_le (Nat.zero_le _)
    have hden : (reduce c.num c.den).den ≤ c.den := by
      rw [reduce, dif_pos hpos]
      exact Nat.div_le_self _ _
    have hnum := (reduce c.num c.den).num_lt
    change (reduce c.num c.den).num ≤ maxWord ∧ (reduce c.num c.den).den ≤ maxWord
    omega

theorem fits_ofQuotient (num : ℤ) (den : ℕ) : (ofQuotient num den).Fits := fits_fit _

theorem reduce_mod (n d : ℕ) : reduce (n % (2 * d)) d = reduce n d := by
  simp only [reduce, Nat.mod_mod]

theorem reduceInWords_eq (hd : 0 < den) (hden : 2 * den ≤ maxDoubleWord) {p : Phase}
    (hp : reduce (num % (2 * den : ℕ)).toNat den = p) :
    reduceInWords num den = some ((p.num : ℤ), (p.den : ℤ)) ∧
      p.num ≤ maxDoubleWord ∧ p.den ≤ maxDoubleWord := by
  obtain ⟨r, hr⟩ := Int.eq_ofNat_of_zero_le (Int.emod_nonneg num (b := (2 * den : ℕ)) (by positivity))
  have hlt : r < 2 * den := by
    have := Int.emod_lt_of_pos num (b := (2 * den : ℕ)) (by positivity)
    omega
  have hfull : (2 * den : ℤ) = (2 * den : ℕ) := by push_cast; rfl
  have hgcd : (r : ℤ).gcd den = r.gcd den := rfl
  have hcommon : r.gcd den ≤ maxDoubleWord := (Nat.gcd_le_right r hd).trans (by omega)
  rw [hr, Int.toNat_natCast, reduce, dif_pos hd] at hp
  simp only [Nat.mod_eq_of_lt hlt] at hp
  subst hp
  have hn : r / r.gcd den ≤ maxDoubleWord := (Nat.div_le_self _ _).trans (by omega)
  have hd' : den / r.gcd den ≤ maxDoubleWord := (Nat.div_le_self _ _).trans (by omega)
  refine ⟨?_, hn, hd'⟩
  simp only [reduceInWords, hfull, checked_of_le hden, Option.bind_eq_bind, Option.bind_some, hr,
    checked_of_le (show r ≤ maxDoubleWord by omega), hgcd, checked_of_le hcommon, ← Int.natCast_div,
    checked_of_le hn, checked_of_le hd']
  rfl

/-- Making the phase of a fraction leaves no words. -/
theorem ofQuotientInWords_eq (hd : 0 < den) (hden : 2 * den ≤ maxDoubleWord) :
    ofQuotientInWords num den = some (ofQuotient num den) := by
  set p := reduce (num % (2 * den : ℕ)).toNat den with hp
  obtain ⟨hreduce, hnum, hden'⟩ := reduceInWords_eq hd hden hp.symm
  have hfits : Within maxWord p.num ∧ Within maxWord p.den ↔ p.Fits := by
    rw [Within, Within, Fits]
    omega
  rw [ofQuotientInWords, hreduce, ofQuotient, ← hp, fit]
  simp only [Option.bind_eq_bind, Option.bind_some, hfits]
  split
  · exact congrArg some p.reduce_self
  · -- the last convergent stands in for the fraction
    set c := lastConvergent (maxWord / 2) p.num p.den with hc
    have hexpand : Convergents.start.expandInWords (maxWord / 2) p.num p.den = some c :=
      Convergents.expandInWords_eq hnum hden'
    have hpos : 0 < c.den := den_lastConvergent_pos (by decide) p.den_pos p.num_lt
    have hle : c.den ≤ maxWord / 2 := Convergents.den_expand_le (Nat.zero_le _)
    have hwords : maxWord ≤ maxDoubleWord := by decide
    have hfull : (2 * c.den : ℤ) = (2 * c.den : ℕ) := by push_cast; rfl
    have hmod : c.num % (2 * c.den) < 2 * c.den := Nat.mod_lt _ (by omega)
    simp only [standInWords, Int.toNat_natCast, hexpand, Option.bind_eq_bind, Option.bind_some,
      hfull, checked_of_le (show 2 * c.den ≤ maxDoubleWord by omega), ← Int.natCast_mod,
      checked_of_le (show c.num % (2 * c.den) ≤ maxWord by omega),
      checked_of_le (show c.den ≤ maxWord by omega)]
    exact congrArg some (reduce_mod c.num c.den)

/-! ### Arithmetic -/

/-- `Phase.add` with every number checked. -/
def addInWords (p q : Phase) : Option Phase := do
  let full ← checked maxDoubleWord (2 * p.den)
  let below ← checked maxDoubleWord (p.num - full)
  let left ← checked maxDoubleWord (below * q.den)
  let right ← checked maxDoubleWord (q.num * p.den)
  let num ← checked maxDoubleWord (left + right)
  let den ← checked maxDoubleWord (p.den * q.den)
  ofQuotientInWords num den

/-- `Phase.sub` with every number checked. -/
def subInWords (p q : Phase) : Option Phase := do
  let left ← checked maxDoubleWord (p.num * q.den)
  let right ← checked maxDoubleWord (q.num * p.den)
  let num ← checked maxDoubleWord (left - right)
  let den ← checked maxDoubleWord (p.den * q.den)
  ofQuotientInWords num den

/-- `Phase.neg` with every number checked. -/
def negInWords (p : Phase) : Option Phase := do
  let num ← checked maxDoubleWord (-p.num)
  ofQuotientInWords num p.den

/-- `Phase.scale` with every number checked. -/
def scaleInWords (p : Phase) (k : ℤ) : Option Phase := do
  let num ← checked maxDoubleWord (p.num * k)
  ofQuotientInWords num p.den

/-- Products of two words leave room for a sign and one more bit. -/
theorem two_mul_words_le : 2 * (maxWord * maxWord) ≤ maxDoubleWord := by decide

section

variable (hp : p.Fits) (hq : q.Fits)
include hp hq

theorem mul_den_le : 2 * (p.den * q.den) ≤ maxDoubleWord :=
  (Nat.mul_le_mul_left 2 (Nat.mul_le_mul hp.2 hq.2)).trans two_mul_words_le

/-- Taking a full turn off one summand keeps the sum in its double word. -/
theorem addInWords_eq : addInWords p q = some (p + q) := by
  have hwords := two_mul_words_le
  have hlt := p.num_lt
  have hden := mul_den_le hp hq
  have hright : q.num * p.den ≤ maxWord * maxWord := Nat.mul_le_mul hq.1 hp.2
  have hleft : (2 * p.den - p.num) * q.den ≤ 2 * (maxWord * maxWord) := calc
    (2 * p.den - p.num) * q.den ≤ 2 * p.den * q.den := Nat.mul_le_mul_right _ (Nat.sub_le _ _)
    _ = 2 * (p.den * q.den) := Nat.mul_assoc _ _ _
    _ ≤ 2 * (maxWord * maxWord) := Nat.mul_le_mul_left 2 (Nat.mul_le_mul hp.2 hq.2)
  have hbelow : (p.num - 2 * p.den : ℤ) = -((2 * p.den - p.num : ℕ) : ℤ) := by omega
  have hprod : (p.num - 2 * p.den : ℤ) * q.den = -(((2 * p.den - p.num) * q.den : ℕ) : ℤ) := by
    rw [hbelow]
    push_cast
    ring
  have hsmall : p.den ≤ maxWord := hp.2
  have hword : 4 * maxWord ≤ maxDoubleWord := by decide
  have h₁ : checked maxDoubleWord (2 * p.den) = some (2 * p.den : ℤ) :=
    checked_eq ⟨by omega, by omega⟩
  have h₂ : checked maxDoubleWord (p.num - 2 * p.den) = some (p.num - 2 * p.den : ℤ) :=
    checked_eq ⟨by omega, by omega⟩
  have h₃ : checked maxDoubleWord ((p.num - 2 * p.den) * q.den) =
      some ((p.num - 2 * p.den) * q.den : ℤ) := checked_eq ⟨by rw [hprod]; omega, by rw [hprod]; omega⟩
  have h₄ : checked maxDoubleWord (q.num * p.den) = some (q.num * p.den : ℤ) :=
    checked_of_le (hright.trans (by omega))
  have h₅ : checked maxDoubleWord ((p.num - 2 * p.den) * q.den + q.num * p.den) =
      some ((p.num - 2 * p.den) * q.den + q.num * p.den : ℤ) := by
    refine checked_eq ?_
    rw [hprod, ← Nat.cast_mul]
    exact ⟨by omega, by omega⟩
  have h₆ : checked maxDoubleWord (p.den * q.den) = some ((p.den * q.den : ℕ) : ℤ) :=
    checked_of_le (by omega)
  simp only [addInWords, Option.bind_eq_bind, Option.bind_some, h₁, h₂, h₃, h₄, h₅, h₆]
  exact ofQuotientInWords_eq (Nat.mul_pos p.den_pos q.den_pos) hden

theorem subInWords_eq : subInWords p q = some (p - q) := by
  have hwords := two_mul_words_le
  have hden := mul_den_le hp hq
  have hleft : p.num * q.den ≤ maxWord * maxWord := Nat.mul_le_mul hp.1 hq.2
  have hright : q.num * p.den ≤ maxWord * maxWord := Nat.mul_le_mul hq.1 hp.2
  have h₁ : checked maxDoubleWord (p.num * q.den) = some (p.num * q.den : ℤ) :=
    checked_of_le (hleft.trans (by omega))
  have h₂ : checked maxDoubleWord (q.num * p.den) = some (q.num * p.den : ℤ) :=
    checked_of_le (hright.trans (by omega))
  have h₃ : checked maxDoubleWord (p.num * q.den - q.num * p.den) =
      some (p.num * q.den - q.num * p.den : ℤ) := by
    refine checked_eq ?_
    rw [← Nat.cast_mul, ← Nat.cast_mul]
    exact ⟨by omega, by omega⟩
  have h₄ : checked maxDoubleWord (p.den * q.den) = some ((p.den * q.den : ℕ) : ℤ) :=
    checked_of_le (by omega)
  simp only [subInWords, Option.bind_eq_bind, Option.bind_some, h₁, h₂, h₃, h₄]
  exact ofQuotientInWords_eq (Nat.mul_pos p.den_pos q.den_pos) hden

end

theorem two_mul_den_le (hp : p.Fits) : 2 * p.den ≤ maxDoubleWord :=
  (Nat.mul_le_mul_left 2 hp.2).trans (by decide)

theorem negInWords_eq (hp : p.Fits) : negInWords p = some (-p) := by
  have hnum : p.num ≤ maxWord := hp.1
  have hword : maxWord ≤ maxDoubleWord := by decide
  have h₁ : checked maxDoubleWord (-p.num) = some (-p.num : ℤ) := checked_eq ⟨by omega, by omega⟩
  simp only [negInWords, Option.bind_eq_bind, Option.bind_some, h₁]
  exact ofQuotientInWords_eq p.den_pos (two_mul_den_le hp)

theorem scaleInWords_eq (hp : p.Fits) {k : ℤ} (hk : Within maxWord k) :
    scaleInWords p k = some (p.scale k) := by
  have habs : |k| ≤ (maxWord + 1 : ℕ) := by
    rw [abs_le]
    exact ⟨by have := hk.1; omega, by have := hk.2; omega⟩
  have hnum : |(p.num : ℤ)| ≤ maxWord := by
    rw [Nat.abs_cast]
    exact_mod_cast hp.1
  have h₁ := checked_eq (within_mul hnum habs (by decide : _ ≤ maxDoubleWord))
  simp only [scaleInWords, Option.bind_eq_bind, Option.bind_some, h₁]
  exact ofQuotientInWords_eq p.den_pos (two_mul_den_le hp)

/-! ### What an operation promises -/

/-- The result `p` of an operation of which the exact value is `x`: the steps, each checked, come to
    it, it is a reduced fraction in `[0, 2)` that fits in words, and it has the value `x` modulo 2
    if any phase that fits does. -/
structure Computes (x : ℚ) (steps : Option Phase) (p : Phase) : Prop where
  steps_eq : steps = some p
  fits : p.Fits
  reduced : p.value.num = p.num ∧ p.value.den = p.den
  range : 0 ≤ p.value ∧ p.value < 2
  exact_of_representable : Representable x → p.turns = (x :)

theorem computes {x : ℚ} {steps : Option Phase} (hsteps : steps = some p) (hfits : p.Fits)
    (hexact : Representable x → p.turns = (x :)) : Computes x steps p where
  steps_eq := hsteps
  fits := hfits
  reduced := ⟨num_value p, den_value p⟩
  range := by simpa using p.value_mem_Ico
  exact_of_representable := hexact

/-- A fraction of words with a positive denominator. -/
theorem exists_computes_ofFraction {den : ℤ} (hden : Within maxWord den) (hpos : 0 < den) :
    ∃ p, ofFraction num den = .ok p ∧ Computes (num / den) (ofQuotientInWords num den) p := by
  obtain ⟨d, rfl⟩ := Int.eq_ofNat_of_zero_le hpos.le
  have hd : 0 < d := Int.natCast_pos.1 hpos
  have hword : 2 * maxWord ≤ maxDoubleWord := by decide
  have hle : d ≤ maxWord := Int.ofNat_le.1 hden.2
  refine ⟨ofQuotient num d, ?_, computes (ofQuotientInWords_eq hd (by omega)) (fits_ofQuotient _ _)
    (turns_ofQuotient hd)⟩
  rw [ofFraction, if_neg hpos.ne', if_neg hpos.not_gt]
  rfl

/-- Making a phase of a fraction of words, and adding, subtracting, inverting and multiplying phases
    that fit in words, never leave double words on the way, and come to a phase that fits in words
    and that is the exact one modulo a full turn whenever that can be written. On a grid it can, and
    so its phases are an abelian group, the multiples of which `Phase.scale` gives; and the classes of
    phases are told by their value modulo a full turn. -/
theorem arithmetic_modulo_turns :
    (∀ num den : ℤ, Within maxWord num → Within maxWord den → 0 < den →
      ∃ p, ofFraction num den = .ok p ∧ Computes (num / den) (ofQuotientInWords num den) p) ∧
    (∀ p q : Phase, p.Fits → q.Fits →
      Computes (p.value + q.value) (addInWords p q) (p + q) ∧
      Computes (p.value - q.value) (subInWords p q) (p - q)) ∧
    (∀ p : Phase, p.Fits → Computes (-p.value) (negInWords p) (-p) ∧
      ∀ k : ℤ, Within maxWord k → Computes (k * p.value) (scaleInWords p k) (p.scale k)) ∧
    (∀ D, IsGrid D → ∃ G : AddCommGroup {p : Phase // p.OnGrid D},
      G.zero.1 = zero ∧ (∀ p q, (G.add p q).1 = p.1 + q.1) ∧ (∀ p, (G.neg p).1 = -p.1) ∧
      (∀ p q, (G.sub p q).1 = p.1 - q.1) ∧ ∀ (k : ℤ) p, (G.zsmul k p).1 = p.1.scale k) ∧
    ∀ p : Phase, (p.isPauli ↔ 2 • p.turns = 0) ∧ (p.isClifford ↔ 4 • p.turns = 0) ∧
      (p.isProperClifford ↔ 4 • p.turns = 0 ∧ 2 • p.turns ≠ 0) := by
  refine ⟨fun num den _ hden hpos => exists_computes_ofFraction hden hpos,
    fun p q hp hq => ⟨?_, ?_⟩, fun p hp => ⟨?_, fun k hk => ?_⟩, fun D hD => ?_, fun p => ?_⟩
  · exact computes (addInWords_eq hp hq) (fits_ofQuotient _ _) turns_add
  · exact computes (subInWords_eq hp hq) (fits_ofQuotient _ _) turns_sub
  · exact computes (negInWords_eq hp) (fits_ofQuotient _ _) turns_neg
  · refine computes (scaleInWords_eq hp hk) (fits_ofQuotient _ _) fun h => (turns_scale k h).trans ?_
    rw [turns, ← AddCircle.coe_zsmul, zsmul_eq_mul]
  · exact ⟨gridGroup hD, rfl, fun _ _ => rfl, fun _ => rfl, fun _ _ => rfl, fun _ _ => rfl⟩
  · exact ⟨p.isPauli_iff_turns, p.isClifford_iff_turns, p.isProperClifford_iff_turns⟩

/-- The phase next to a full turn of those with the denominator `2 ^ 62`. -/
def nearTurn : Phase := reduce maxWord (2 ^ 62)

/-- At the largest words. -/
theorem nearTurn_modulo_turns :
    (∃ p, ofFraction (-maxWord - 1) maxWord = .ok p ∧
      Computes ((-maxWord - 1 : ℤ) / (maxWord : ℤ)) (ofQuotientInWords (-maxWord - 1) maxWord) p) ∧
    Computes (nearTurn.value + nearTurn.value) (addInWords nearTurn nearTurn)
      (nearTurn + nearTurn) ∧
    Computes ((-maxWord - 1 : ℤ) * nearTurn.value) (scaleInWords nearTurn (-maxWord - 1))
      (nearTurn.scale (-maxWord - 1)) ∧
    IsGrid (maxWord / 2) ∧ ∃ G : AddCommGroup {p : Phase // p.OnGrid (maxWord / 2)},
      G.zero.1 = zero ∧ (∀ p q, (G.add p q).1 = p.1 + q.1) ∧ (∀ p, (G.neg p).1 = -p.1) ∧
      (∀ p q, (G.sub p q).1 = p.1 - q.1) ∧ ∀ (k : ℤ) p, (G.zsmul k p).1 = p.1.scale k := by
  obtain ⟨hnew, hadd, hscale, hgroup, -⟩ := arithmetic_modulo_turns
  have hfits : nearTurn.Fits := by decide +kernel
  have hD : IsGrid (maxWord / 2) := ⟨by decide, by decide⟩
  exact ⟨hnew _ _ (by decide) (by decide) (by decide), (hadd _ _ hfits hfits).1,
    (hscale _ hfits).2 _ (by decide), hD, hgroup _ hD⟩

end Phase

end ZXRewriting

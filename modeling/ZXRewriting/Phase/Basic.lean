import ZXRewriting.Fault
import ZXRewriting.Phase.Convergent

/-!
# Phases

Angles of rotation as exact rational multiples of a half turn, modulo a full turn: a fraction
in lowest terms in `[0, 2)`.

The numerator and the denominator of a phase are kept within 64-bit words. Arithmetic works on
the exact fraction (`Phase.ofQuotient`) and is exact whenever the result, in lowest terms, has
numerator and denominator of at most `maxWord`; a result that does not is replaced by its last
convergent with a denominator of at most half of that.
-/

namespace ZXRewriting

/-- A fraction of a half turn in lowest terms, in `[0, 2)`. -/
@[ext] structure Phase where
  num : Nat
  den : Nat
  den_pos : 0 < den
  num_lt : num < 2 * den
  coprime : num.Coprime den
  deriving DecidableEq

namespace Phase

/-- No rotation. -/
def zero : Phase := ⟨0, 1, by decide, by decide, by decide⟩

/-- Half a turn. -/
def pi : Phase := ⟨1, 1, by decide, by decide, by decide⟩

instance : Inhabited Phase := ⟨zero⟩

/-- The fraction `num / den` modulo 2, in lowest terms; zero when `den` is. -/
def reduce (num den : Nat) : Phase :=
  if h : 0 < den then
    let n := num % (2 * den)
    { num := n / n.gcd den
      den := den / n.gcd den
      den_pos := Nat.div_pos (Nat.gcd_le_right n h) (Nat.gcd_pos_of_pos_right n h)
      num_lt := by
        have hn : n < 2 * den := Nat.mod_lt _ (by omega)
        have hd : den / n.gcd den * n.gcd den = den := Nat.div_mul_cancel (Nat.gcd_dvd_right n den)
        refine Nat.div_lt_of_lt_mul ?_
        rw [Nat.mul_comm, Nat.mul_assoc, hd]
        exact hn
      coprime := Nat.coprime_div_gcd_div_gcd (Nat.gcd_pos_of_pos_right n h) }
  else zero

/-- Whether a phase fits in words. -/
def Fits (p : Phase) : Prop := p.num ≤ maxWord ∧ p.den ≤ maxWord

instance (p : Phase) : Decidable p.Fits := inferInstanceAs (Decidable (_ ∧ _))

/-- The phase itself if it fits in words, and else its last convergent with a denominator of at
    most half the largest word. The convergent can be 2, which is no rotation. -/
def fit (p : Phase) : Phase :=
  if p.Fits then p
  else
    let c := lastConvergent (maxWord / 2) p.num p.den
    reduce c.num c.den

/-- The phase of the fraction `num / den`, with `den` positive. -/
def ofQuotient (num : Int) (den : Nat) : Phase :=
  (reduce (num % (2 * den : Nat)).toNat den).fit

/-- The phase of a fraction, the sign of which may be on either side. -/
def ofFraction (num den : Int) : Except Fault Phase :=
  if den = 0 then .error .zeroDenominator
  else .ok (ofQuotient (if den < 0 then -num else num) den.natAbs)

/-- The phase of a whole number of half turns. -/
def ofInt (n : Int) : Phase := ofQuotient n 1

/-! ### Arithmetic -/

/-- The sum modulo 2. Two is taken off one summand, which keeps the fraction small. -/
def add (p q : Phase) : Phase :=
  ofQuotient ((p.num - 2 * p.den : Int) * q.den + q.num * p.den) (p.den * q.den)

/-- The difference modulo 2. -/
def sub (p q : Phase) : Phase :=
  ofQuotient ((p.num : Int) * q.den - q.num * p.den) (p.den * q.den)

/-- The opposite modulo 2. -/
def neg (p : Phase) : Phase := ofQuotient (-p.num) p.den

/-- A whole multiple modulo 2. -/
def scale (p : Phase) (k : Int) : Phase := ofQuotient (p.num * k) p.den

instance : Add Phase := ⟨add⟩
instance : Sub Phase := ⟨sub⟩
instance : Neg Phase := ⟨neg⟩

/-! ### Kinds of phases -/

/-- Whether there is no rotation. -/
def isZero (p : Phase) : Bool := p.num == 0

/-- Whether the rotation is half a turn. -/
def isPi (p : Phase) : Bool := p.num == 1 && p.den == 1

/-- Whether the phase is a multiple of a quarter turn. -/
def isClifford (p : Phase) : Bool := p.den ≤ 2

/-- Whether the phase is a quarter turn, either way. -/
def isProperClifford (p : Phase) : Bool := p.den == 2

/-- Whether the phase is a multiple of half a turn. -/
def isPauli (p : Phase) : Bool := p.den == 1

/-- A phase as text: the fraction, or the numerator alone if the denominator is one. -/
def toText (p : Phase) : String :=
  if p.den = 1 then toString p.num else toString p.num ++ "/" ++ toString p.den

end Phase

end ZXRewriting

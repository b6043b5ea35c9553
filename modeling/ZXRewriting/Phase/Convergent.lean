/-!
# Convergents of a continued fraction

The convergents `h / k` of a fraction, computed from its continued fraction expansion: each one
is made of the next partial quotient and of the two convergents before it. `lastConvergent`
gives the last one whose denominator stays within a limit.
-/

namespace ZXRewriting

/-- Two consecutive convergents, the earlier one first. -/
structure Convergents where
  numPrev : Nat
  denPrev : Nat
  num : Nat
  den : Nat
  deriving DecidableEq, Repr

/-- The two formal convergents before the first one. -/
def Convergents.start : Convergents := ⟨0, 1, 1, 0⟩

/-- The convergents after one more partial quotient. -/
def Convergents.next (c : Convergents) (quotient : Nat) : Convergents :=
  ⟨c.num, c.den, quotient * c.num + c.numPrev, quotient * c.den + c.denPrev⟩

/-- The largest whole number with a sign in 64 bits. -/
def maxWord : Nat := 0x7fffffffffffffff

/-- The largest whole number with a sign in 128 bits. -/
def maxDoubleWord : Nat := 0x7fffffffffffffffffffffffffffffff

/-- Expands `n / d` from the convergents `c` on, for as long as denominators stay within
    `limit` and everything within 128 bits. -/
def Convergents.expand (limit : Nat) (c : Convergents) (n d : Nat) : Convergents :=
  if _h : d = 0 then c
  else
    let next := c.next (n / d)
    if next.num ≤ maxDoubleWord ∧ next.den ≤ maxDoubleWord ∧ next.den ≤ limit then
      next.expand limit d (n % d)
    else c
termination_by d
decreasing_by exact Nat.mod_lt n (Nat.pos_of_ne_zero _h)

/-- The last convergent of `n / d` with a denominator within `limit`. -/
def lastConvergent (limit n d : Nat) : Convergents :=
  Convergents.start.expand limit n d

end ZXRewriting

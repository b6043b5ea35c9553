import ZXRewriting.Floating.Decimal
import ZXRewriting.Phase.Basic

/-!
# Angles as given by callers

A caller may give a phase exactly or as a floating-point number of half turns. The latter is
taken to a fraction (`Phase.ofDouble?`): the first convergent of its continued fraction, as
computed in floating point, that comes within `tolerance` of it, or else the last one with a
denominator of at most `maxDenominator`.
-/

namespace ZXRewriting

open Floating

/-- The number nearest to a phase. -/
def Phase.toDouble (p : Phase) : Double := Number.ofFraction false p.num p.den

/-- The largest denominator a floating-point angle is taken to. -/
def maxDenominator : Nat := 1000000

/-- How near a convergent has to come to a floating-point angle. -/
def tolerance : Double := Number.ofFraction false 1 1000000000000

/-- From here on a partial quotient is too large to go on with. -/
def quotientLimit : Double := Number.ofNat (1 <<< 61)

/-- The remainder of a finite number by two, in `[0, 2]`: a negative number too close to zero
    gives two itself, by rounding. -/
def remainderByTwo : Double → Double
  | .finite negative units =>
    let r := units % (2 * Format.double.one)
    if negative && r != 0 then .finite true r + 2 else .finite negative r
  | x => x

/-- Expands the rest `y` of the continued fraction of `x` from the convergents `c` on. The
    denominators at least double with every second step, so there are fewer than `fuel` steps. -/
def rationalizeFrom (x : Double) : (fuel : Nat) → Convergents → Double → Option Convergents
  | 0, c, _ => some c
  | fuel + 1, c, y =>
    if !(y.magnitude.less quotientLimit) then none
    else
      let quotient := y.floorMagnitude
      let next := c.next quotient
      if maxWord < next.num ∨ maxWord < next.den then none
      else if maxDenominator < next.den then some c
      else
        let rest := y - Number.ofNat quotient
        let value : Double := Number.ofNat next.num / Number.ofNat next.den
        if rest.magnitude.less tolerance || (value - x).magnitude.less tolerance then some next
        else rationalizeFrom x fuel next (1 / rest)

/-- The fraction a number in `[0, 2]` is taken to. -/
def rationalize (x : Double) : Option Convergents :=
  (rationalizeFrom x 64 .start x).filter (0 < ·.den)

/-- The phase of a floating-point number of half turns, if it is finite. -/
def Phase.ofDouble? (x : Double) : Option Phase :=
  if x.isFinite then
    (rationalize (remainderByTwo x)).map fun c => .ofQuotient c.num c.den
  else none

/-- A phase as given by a caller. -/
inductive Angle
  | exact (phase : Phase)
  | float (halfTurns : Double)
  deriving DecidableEq

/-- The phase of an angle. A floating-point one has a phase only if it may be converted. -/
def Angle.toPhase? (convert : Bool) : Angle → Option Phase
  | .exact phase => some phase
  | .float halfTurns => if convert then Phase.ofDouble? halfTurns else none

end ZXRewriting

/-!
# Binary floating-point formats

The numbers of a binary interchange format, as exact data.

The finite numbers of a format are the whole multiples of its least positive one, the *unit*,
whose binary expansion has at most `precision` digits, up to a largest one. So a finite number
is a sign and a natural number of units: no exponent is stored, two numbers of the same sign
and size are the same datum, and the order of magnitudes is the order of `Nat`. Beside them
there are two infinities and the undefined numbers, which keep their sign and fraction field.

`Format.round` takes a fraction, in units, to the nearest finite number, ties to the one whose
last binary digit is even, and to an infinity past the largest. `ofBits` and `toBits` read and
write the interchange encoding.
-/

namespace ZXRewriting.Floating

/-- A binary format: how many binary digits a number has, and the width of its exponent field. -/
structure Format where
  /-- The number of binary digits, the leading one included. -/
  precision : Nat
  /-- The width of the exponent field. -/
  exponentBits : Nat
  deriving DecidableEq, Repr

namespace Format

/-- The 32-bit format. -/
def single : Format := ⟨24, 8⟩

/-- The 64-bit format. -/
def double : Format := ⟨53, 11⟩

/-- The unit of the format is `2 ^ (-unitBits)`. -/
def unitBits (f : Format) : Nat := (1 <<< (f.exponentBits - 1)) + f.precision - 3

/-- The number of units in one. -/
def one (f : Format) : Nat := 1 <<< f.unitBits

/-- The largest power of two by which a full significand is scaled. -/
def topShift (f : Format) : Nat := (1 <<< f.exponentBits) - 3

/-- The least number of units past every finite number. -/
def bound (f : Format) : Nat := 1 <<< (f.precision + f.topShift)

/-- The exponent field of what is not finite. -/
def topExponent (f : Format) : Nat := (1 <<< f.exponentBits) - 1

/-- The width of the fraction field, which leaves out the leading digit. -/
def fractionBits (f : Format) : Nat := f.precision - 1

/-- The leading digit of a full significand. -/
def leadingBit (f : Format) : Nat := 1 <<< f.fractionBits

/-- The fraction bit that marks an undefined number as quiet. -/
def quietBit (f : Format) : Nat := 1 <<< (f.precision - 2)

/-- The binary digits that a magnitude of `n` units has beyond the precision. -/
def excess (f : Format) (n : Nat) : Nat := n.log2 + 1 - f.precision

end Format

/-- The whole number nearest to `num / den`, a tie going to the even one. -/
def nearestEven (num den : Nat) : Nat :=
  let q := num / den
  let r := num % den
  if den < 2 * r ∨ (2 * r = den ∧ q % 2 = 1) then q + 1 else q

/-- A number of the format `f`. -/
inductive Number (f : Format)
  /-- A whole number of units, with a sign. -/
  | finite (negative : Bool) (units : Nat)
  | infinite (negative : Bool)
  /-- An undefined number, with its fraction field. -/
  | undefined (negative : Bool) (fraction : Nat)
  deriving DecidableEq, Repr

/-- A number of the 64-bit format. -/
abbrev Double := Number .double

/-- A number of the 32-bit format. -/
abbrev Single := Number .single

/-- The number of the format nearest to `num / den` units, a tie going to the even one. -/
def Format.round (f : Format) (negative : Bool) (num den : Nat) : Number f :=
  let step := 1 <<< f.excess (num / den)
  let units := nearestEven num (den * step) * step
  if units < f.bound then .finite negative units else .infinite negative

namespace Number

variable {f : Format}

/-- The number nearest to the fraction `num / den`. -/
def ofFraction (negative : Bool) (num den : Nat) : Number f :=
  f.round negative (num * f.one) den

/-- The number nearest to a natural number. -/
def ofNat (n : Nat) : Number f := ofFraction false n 1

instance : Inhabited (Number f) := ⟨.finite false 0⟩

instance (n : Nat) : OfNat (Number f) n := ⟨ofNat n⟩

/-- Reads the interchange encoding. -/
def ofBits (bits : Nat) : Number f :=
  let fraction := bits % f.leadingBit
  let exponent := (bits >>> f.fractionBits) % (1 <<< f.exponentBits)
  let negative := bits.testBit (f.fractionBits + f.exponentBits)
  if exponent = f.topExponent then
    if fraction = 0 then .infinite negative else .undefined negative fraction
  else if exponent = 0 then
    .finite negative fraction
  else
    .finite negative ((f.leadingBit + fraction) <<< (exponent - 1))

/-- Puts the three fields of the interchange encoding together. -/
def pack (f : Format) (negative : Bool) (exponent fraction : Nat) : Nat :=
  (((negative.toNat <<< f.exponentBits) + exponent) <<< f.fractionBits) + fraction

/-- Writes the interchange encoding. -/
def toBits : Number f → Nat
  | .finite negative units =>
    if units < f.leadingBit then
      pack f negative 0 units
    else
      let shift := f.excess units
      pack f negative (shift + 1) ((units >>> shift) - f.leadingBit)
  | .infinite negative => pack f negative f.topExponent 0
  | .undefined negative fraction => pack f negative f.topExponent fraction

end Number

end ZXRewriting.Floating

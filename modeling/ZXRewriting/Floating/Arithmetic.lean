import ZXRewriting.Floating.Format

/-!
# Arithmetic and order of floating-point numbers

The operations give the exact result of the operation on the exact operands, rounded once.
An operation with an undefined operand gives the first such operand, made quiet; one without
a result (a difference of infinities, zero by zero) gives the undefined number with a minus
sign.

Two orders are in use. The *numeric* one (`less`, `equal`) has the two zeros equal and places
no undefined number, not even beside itself. The *total* one (`totalKey`) places every datum:
the undefined numbers outside the infinities, the negative zero under the positive one.
-/

namespace ZXRewriting.Floating.Number

variable {f : Format}

/-- Whether the sign is a minus. -/
def isNegative : Number f → Bool
  | .finite negative _ => negative
  | .infinite negative => negative
  | .undefined negative _ => negative

/-- Whether the number is finite. -/
def isFinite : Number f → Bool
  | .finite _ _ => true
  | _ => false

/-- Whether the number is undefined. -/
def isUndefined : Number f → Bool
  | .undefined _ _ => true
  | _ => false

/-- The number with the other sign. -/
def negate : Number f → Number f
  | .finite negative units => .finite (!negative) units
  | .infinite negative => .infinite (!negative)
  | .undefined negative fraction => .undefined (!negative) fraction

/-- The number with a plus sign. -/
def magnitude : Number f → Number f
  | .finite _ units => .finite false units
  | .infinite _ => .infinite false
  | .undefined _ fraction => .undefined false fraction

/-- The result of an operation that has none. -/
def invalid : Number f := .undefined true f.quietBit

/-- The undefined number of the given fraction, made quiet. -/
def quiet (negative : Bool) (fraction : Nat) : Number f :=
  .undefined negative (if fraction < f.quietBit then fraction + f.quietBit else fraction)

/-- The whole number of units of a finite number, with its sign. -/
def signedUnits (negative : Bool) (units : Nat) : Int :=
  if negative then -units else units

/-- The sum, rounded once. A sum of zero is negative only when both summands are. -/
def add : Number f → Number f → Number f
  | .undefined n x, _ => quiet n x
  | _, .undefined n y => quiet n y
  | .infinite n, .infinite m => if n = m then .infinite n else invalid
  | .infinite n, .finite _ _ => .infinite n
  | .finite _ _, .infinite m => .infinite m
  | .finite n x, .finite m y =>
    let sum := signedUnits n x + signedUnits m y
    if sum = 0 then .finite (n && m) 0 else f.round (sum < 0) sum.natAbs 1

/-- The difference, rounded once. -/
def sub (x y : Number f) : Number f :=
  match x, y with
  | .undefined n a, _ => quiet n a
  | _, .undefined n b => quiet n b
  | _, _ => add x (negate y)

/-- The quotient, rounded once. -/
def div : Number f → Number f → Number f
  | .undefined n x, _ => quiet n x
  | _, .undefined n y => quiet n y
  | .infinite _, .infinite _ => invalid
  | .infinite n, .finite m _ => .infinite (n != m)
  | .finite n _, .infinite m => .finite (n != m) 0
  | .finite n x, .finite m y =>
    if y = 0 then
      if x = 0 then invalid else .infinite (n != m)
    else
      ofFraction (n != m) x y

instance : Add (Number f) := ⟨add⟩
instance : Sub (Number f) := ⟨sub⟩
instance : Div (Number f) := ⟨div⟩

/-- The numeric order, which no undefined number has a place in. -/
def less : Number f → Number f → Bool
  | .undefined _ _, _ => false
  | _, .undefined _ _ => false
  | .infinite n, .infinite m => n && !m
  | .infinite n, .finite _ _ => n
  | .finite _ _, .infinite m => !m
  | .finite n x, .finite m y => signedUnits n x < signedUnits m y

/-- Numeric equality: the zeros are equal, and an undefined number equals nothing. -/
def equal : Number f → Number f → Bool
  | .infinite n, .infinite m => n == m
  | .finite n x, .finite m y => signedUnits n x == signedUnits m y
  | _, _ => false

/-- The lesser of two numbers, an undefined second one being passed over. -/
def least (x y : Number f) : Number f := if less y x then y else x

/-- The greater of two numbers, an undefined second one being passed over. -/
def greatest (x y : Number f) : Number f := if less x y then y else x

/-- The place of a datum in the total order. -/
def totalKey (x : Number f) : Int :=
  let m := toBits (magnitude x)
  if isNegative x then -(m : Int) - 1 else m

/-- The whole part of the magnitude, zero unless the number is finite. -/
def floorMagnitude : Number f → Nat
  | .finite _ units => units / f.one
  | _ => 0

end ZXRewriting.Floating.Number

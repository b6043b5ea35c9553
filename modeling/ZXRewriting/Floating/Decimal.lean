import ZXRewriting.Floating.Arithmetic

/-!
# Decimal text of floating-point numbers

Writing (`toText`) gives the fewest decimal digits that read back as the same number, in
positional notation whatever the size, and of two such texts with as many digits the nearer
one, the greater in a tie. Reading (`ofText?`) takes the usual notation with an optional point
and exponent, rounded once, and the names of the infinities and the undefined number.
-/

namespace ZXRewriting.Floating

/-- The reals that round to a magnitude, as natural numbers over the common scale `4 * one`. -/
structure RoundingInterval where
  low : Nat
  high : Nat
  /-- Whether the ends round to the magnitude too. -/
  closed : Bool

/-- The interval around a magnitude of `units`: half a step on each side, a quarter below a
    power of two, where the numbers below lie twice as close. -/
def Format.interval (f : Format) (units : Nat) : RoundingInterval :=
  let shift := f.excess units
  let step := 1 <<< shift
  let below := if 0 < shift ∧ units = f.leadingBit * step then step else 2 * step
  ⟨4 * units - below, 4 * units + 2 * step, units / step % 2 = 0⟩

/-- Whether `num / den`, over the common scale, lies in the interval. -/
def RoundingInterval.contains (i : RoundingInterval) (num den : Nat) : Bool :=
  if i.closed then i.low * den ≤ num && num ≤ i.high * den
  else i.low * den < num && num < i.high * den

/-- A positive decimal number `digits * 10 ^ exponent`. -/
structure Decimal where
  digits : Nat
  exponent : Int
  deriving DecidableEq, Repr

/-- The point of the grid `10 ^ exponent` that reads back as the magnitude, if there is one: one
    of the two neighbours of the magnitude on the grid, the nearer if both do. -/
def Format.gridPoint? (f : Format) (units : Nat) (exponent : Int) : Option Decimal :=
  let i := f.interval units
  -- in the common scale, the grid is that of the multiples of `grid / den`
  let grid := 4 * f.one * Nat.pow 10 exponent.toNat
  let den := Nat.pow 10 (-exponent).toNat
  let value := 4 * units * den
  let d := value / grid
  let below := i.contains (d * grid) den
  let above := i.contains ((d + 1) * grid) den
  if below && above then
    some ⟨if value - d * grid < (d + 1) * grid - value then d else d + 1, exponent⟩
  else if below then some ⟨d, exponent⟩
  else if above then some ⟨d + 1, exponent⟩
  else none

/-- The first grid with a point that reads back, from `10 ^ exponent` on to finer ones. -/
def Format.coarsest (f : Format) (units : Nat) : Nat → Int → Decimal
  | 0, exponent => ⟨0, exponent⟩
  | fuel + 1, exponent =>
    match f.gridPoint? units exponent with
    | some d => d
    | none => f.coarsest units fuel (exponent - 1)

/-- The shortest decimal that reads back as a positive magnitude. The search starts above the
    magnitude, and ends at the latest where the grid divides the unit. -/
def Format.shortest (f : Format) (units : Nat) : Decimal :=
  let top := (Nat.toDigits 10 (units / f.one)).length
  f.coarsest units (top + f.unitBits + 3) top

/-- A decimal in positional notation. -/
def Decimal.positional (d : Decimal) : String :=
  let digits := Nat.toDigits 10 d.digits
  if 0 ≤ d.exponent then
    String.ofList (digits ++ List.replicate d.exponent.toNat '0')
  else
    let places := (-d.exponent).toNat
    let padded := List.replicate (places + 1 - digits.length) '0' ++ digits
    String.ofList (padded.take (padded.length - places)) ++ "." ++
      String.ofList (padded.drop (padded.length - places))

/-- Writes a number: shortest digits, positional, without a point when it is whole. -/
def Number.toText {f : Format} : Number f → String
  | .undefined _ _ => "NaN"
  | .infinite negative => (if negative then "-" else "") ++ "inf"
  | .finite negative units =>
    (if negative then "-" else "") ++
      if units = 0 then "0" else (f.shortest units).positional

/-! ### Reading -/

/-- The value of a list of decimal digits. -/
def digitsValue (cs : List Char) : Nat :=
  cs.foldl (fun n c => 10 * n + (c.toNat - '0'.toNat)) 0

/-- A sign in front of a text, whether it is a minus, and the rest. -/
def splitSign : List Char → Bool × List Char
  | '-' :: rest => (true, rest)
  | '+' :: rest => (false, rest)
  | cs => (false, cs)

/-- Reads what follows the digits of a number: nothing, or an exponent. -/
def readExponent? : List Char → Option Int
  | [] => some 0
  | c :: rest =>
    if c = 'e' ∨ c = 'E' then
      let (negative, digits) := splitSign rest
      if digits.isEmpty ∨ !digits.all Char.isDigit then none
      else some (if negative then -(digitsValue digits : Int) else digitsValue digits)
    else none

/-- Past this many places on either side of the point every format has only infinities and
    zeros. -/
def decimalReach : Nat := 400

/-- The number nearest to `± digits * 10 ^ exponent`. -/
def Number.ofDecimal {f : Format} (negative : Bool) (digits : Nat) (exponent : Int) : Number f :=
  let top : Int := (Nat.toDigits 10 digits).length + exponent
  if digits = 0 ∨ top < -decimalReach then .finite negative 0
  else if decimalReach < top then .infinite negative
  else ofFraction negative (digits * Nat.pow 10 exponent.toNat) (Nat.pow 10 (-exponent).toNat)

/-- Reads a number: an optional sign, then a name, or digits with an optional point (at least
    one digit in all) and an optional exponent. -/
def Number.ofText? {f : Format} (text : String) : Option (Number f) :=
  let (negative, cs) := splitSign text.toList
  let name := String.ofList (cs.map Char.toLower)
  if name = "inf" ∨ name = "infinity" then some (.infinite negative)
  else if name = "nan" then some (.undefined negative f.quietBit)
  else
    let whole := cs.takeWhile Char.isDigit
    let rest := cs.dropWhile Char.isDigit
    let places := match rest with
      | '.' :: after => after.takeWhile Char.isDigit
      | _ => []
    let after := match rest with
      | '.' :: after => after.dropWhile Char.isDigit
      | _ => rest
    if whole.isEmpty && places.isEmpty then none
    else do
      let exponent ← readExponent? after
      pure (ofDecimal negative (digitsValue (whole ++ places)) (exponent - places.length))

end ZXRewriting.Floating

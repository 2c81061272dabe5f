/-!
# Numbers: the shortest decimal that reads back

A binary floating-point number is written with the fewest decimal digits that round back to it, and
among those with the digits nearest to its exact value. The search runs over decimal grids of one,
two, up to seventeen digits: on each grid the two neighbours of the value are tested against the
interval of reals that round to it, in exact arithmetic on natural numbers.
-/

namespace QueryCompiler.Number

/-- The number `± coefficient · 10 ^ exponent`. -/
structure Scientific where
  negative : Bool
  coefficient : Nat
  exponent : Int
  deriving DecidableEq, Repr

/-- A positive value `num / den` with the ends `low / den` and `high / den` of the reals that round
to it. The ends themselves round to it when `closed` holds. -/
structure Rounding where
  num : Nat
  den : Nat
  low : Nat
  high : Nat
  closed : Bool

namespace Rounding

/-- Whether `digits · 10 ^ exponent` rounds to the value. -/
def holds (r : Rounding) (digits : Nat) (exponent : Int) : Bool :=
  let scaled := digits * Nat.pow 10 exponent.toNat * r.den
  let unit := Nat.pow 10 (-exponent).toNat
  if r.closed then r.low * unit ≤ scaled && scaled ≤ r.high * unit
  else r.low * unit < scaled && scaled < r.high * unit

/-- The greatest `k` with `10 ^ k` at most the value. -/
def magnitude (r : Rounding) : Int :=
  if r.den ≤ r.num then
    ((Nat.toDigits 10 (r.num / r.den)).length - 1 : Nat)
  else
    let j := (Nat.toDigits 10 (r.den / r.num)).length
    if r.num * Nat.pow 10 (j - 1) = r.den then -((j - 1 : Nat) : Int) else -(j : Int)

/-- The neighbour of the value on the grid of multiples of `10 ^ exponent` that rounds back to it:
the nearer one if both do, and the upper one halfway between. -/
def onGrid? (r : Rounding) (exponent : Int) : Option Nat :=
  let num := r.num * Nat.pow 10 (-exponent).toNat
  let den := r.den * Nat.pow 10 exponent.toNat
  let below := num / den
  let above := below + 1
  match r.holds below exponent, r.holds above exponent with
  | true, true => some (if (2 * below + 1) * den ≤ 2 * num then above else below)
  | true, false => some below
  | false, true => some above
  | false, false => none

/-- The first grid, from `count` digits on, on which a neighbour rounds back. A neighbour that has
rounded up to the next power of ten is a single digit. -/
def search (r : Rounding) (magnitude : Int) : Nat → Nat → Option (Nat × Int)
  | 0, _ => none
  | left + 1, count =>
    let exponent := magnitude + 1 - count
    match r.onGrid? exponent with
    | some digits =>
      if digits == Nat.pow 10 count then some (1, exponent + count) else some (digits, exponent)
    | none => r.search magnitude left (count + 1)

/-- Seventeen digits always suffice. -/
def shortest (r : Rounding) : Nat × Int :=
  (r.search r.magnitude 17 1).getD (0, 0)

/-- The rounding interval of `mantissa · 2 ^ power`. The gap below a power of two is half the gap
above it, unless the exponent is the least one. -/
def ofBinary (mantissa : Nat) (power : Int) (atPowerOfTwo : Bool) : Rounding :=
  let up := Nat.pow 2 (power - 2).toNat
  let below := if atPowerOfTwo then 1 else 2
  { num := 4 * mantissa * up
    den := Nat.pow 2 (2 - power).toNat
    low := (4 * mantissa - below) * up
    high := (4 * mantissa + 2) * up
    closed := mantissa % 2 == 0 }

end Rounding

def shortestScientific (x : Float) : Scientific :=
  let bits : Nat := x.toBits.toNat
  let negative := bits / Nat.pow 2 63 == 1
  let exponent : Nat := bits / Nat.pow 2 52 % Nat.pow 2 11
  let fraction : Nat := bits % Nat.pow 2 52
  if exponent == 0 && fraction == 0 then ⟨negative, 0, 0⟩
  else
    let rounding :=
      if exponent == 0 then Rounding.ofBinary fraction (-1074) false
      else Rounding.ofBinary (fraction + Nat.pow 2 52) ((exponent : Int) - 1075)
        (fraction == 0 && 1 < exponent)
    let (digits, power) := rounding.shortest
    ⟨negative, digits, power⟩

/-- A number in positional notation, never with an exponent: `1500`, `0.0015`, `-0`. -/
def Scientific.positional (s : Scientific) : String :=
  let digits := Nat.toDigits 10 s.coefficient
  let body :=
    if 0 ≤ s.exponent then digits ++ List.replicate s.exponent.toNat '0'
    else
      let places := (-s.exponent).toNat
      let padded := List.replicate (places + 1 - digits.length) '0' ++ digits
      padded.take (padded.length - places) ++ '.' :: padded.drop (padded.length - places)
  String.ofList (if s.negative then '-' :: body else body)

/-- The text of a float: the shortest digits that read back, in positional notation. -/
def floatText (x : Float) : String :=
  if x.isNaN then "NaN"
  else if x.isInf then (if x < 0 then "-inf" else "inf")
  else (shortestScientific x).positional

/-- The least number that rounds past the greatest float: it lies halfway between
`(2 ^ 53 - 1) · 2 ^ 971` and `2 ^ 1024`. -/
def floatBound : Nat :=
  (Nat.pow 2 54 - 1) * Nat.pow 2 970

/-- Whether the float nearest to the number is finite. Far outside the exponents of floats the
answer comes without computing the power. -/
def Scientific.inFloatRange (s : Scientific) : Bool :=
  let digits := (Nat.toDigits 10 s.coefficient).length
  if s.coefficient == 0 || s.exponent + digits < 0 then true
  else if 400 < s.exponent + digits then false
  else s.coefficient * Nat.pow 10 s.exponent.toNat < floatBound * Nat.pow 10 (-s.exponent).toNat

/-- The float nearest to `± coefficient · 10 ^ exponent`. Outside the exponents of floats the
answer is infinity or zero without computing the power. -/
def Scientific.toFloat (s : Scientific) : Float :=
  let digits := (Nat.toDigits 10 s.coefficient).length
  let magnitude :=
    if s.coefficient == 0 then 0.0
    else if 400 < s.exponent + digits then 1.0 / 0.0
    else if s.exponent + digits < -400 then 0.0
    else Float.ofScientific s.coefficient (s.exponent < 0) s.exponent.natAbs
  if s.negative then -magnitude else magnitude

end QueryCompiler.Number

import QueryCompiler.Number.Shortest
/-!
# Numbers: exact decimals

An exact decimal is a whole magnitude below `2 ^ 96`, with a sign, divided by a power of ten of at
most 28. The scale belongs to the value as written, so `1.50` keeps its two places, while
comparison is by amount.

Reading goes digit by digit. An underscore may follow a digit. Once 28 places are read, or once a
further digit after the point no longer fits, the next digit rounds what is read, and after it only
digits and underscores may stand. A text that is not of this form is read once more in scientific
notation.
-/

namespace QueryCompiler.Number

/-- The amount `magnitude / 10 ^ scale`, below zero if it is negative. -/
structure Decimal where
  negative : Bool
  magnitude : Nat
  scale : Nat
  deriving DecidableEq, Repr

namespace Decimal

/-- The first magnitude that is too great. -/
def limit : Nat := Nat.pow 2 96

def maxScale : Nat := 28

/-- A magnitude with its sign. Zero has none. -/
def signed (negative : Bool) (magnitude scale : Nat) : Decimal :=
  ⟨negative && magnitude != 0, magnitude, scale⟩

def ofInt (n : Int) : Decimal :=
  signed (n < 0) n.natAbs 0

/-- The magnitude with its sign, as a whole number. -/
def coefficient (d : Decimal) : Int :=
  if d.negative then -(d.magnitude : Int) else d.magnitude

/-- Equality of amounts: `1.5` and `1.50` are the same. -/
def sameAmount (a b : Decimal) : Bool :=
  a.coefficient * Nat.pow 10 b.scale == b.coefficient * Nat.pow 10 a.scale

/-- The digits with the point at the scale: `1.50`, `-0.07`. -/
def text (d : Decimal) : String :=
  (Scientific.mk d.negative d.magnitude (-(d.scale : Int))).positional

/-! ## Plain notation -/

def digitValue? (c : Char) : Option Nat :=
  if c.isDigit then some (c.toNat - '0'.toNat) else none

/-- Closes a magnitude that cannot take another digit: the digit that follows rounds it, half up,
and `rest` may hold no more than digits and underscores. A magnitude that rounds past the limit
gives up one place. -/
def roundAt (negative : Bool) (magnitude scale digit : Nat) (rest : List Char) : Option Decimal :=
  if rest.any fun c => !(c.isDigit || c == '_') then none
  else if digit < 5 then some (signed negative magnitude scale)
  else if magnitude + 1 < limit then some (signed negative (magnitude + 1) scale)
  else if scale == 0 then none
  else some (signed negative ((magnitude + 5) / 10) (scale - 1))

/-- A magnitude is narrow while its digits before the last stay below this bound, a little less
than a tenth of `2 ^ 64`. -/
def narrowBound : Nat := UInt64.size / 10 - 255

/-- Where reading stands: whether a digit has been seen, whether the point has, and the digits so
far. -/
structure Progress where
  digitSeen : Bool := false
  pointSeen : Bool := false
  magnitude : Nat := 0
  scale : Nat := 0

namespace Progress

/-- All places are taken. -/
def isFull (p : Progress) : Bool :=
  p.pointSeen && maxScale ≤ p.scale

def isNarrow (p : Progress) : Bool :=
  p.magnitude / 10 < narrowBound

end Progress

/-- Reads digits, underscores and one point to the end of the text. Behind the last place an
underscore stands for the digit zero if the magnitude is narrow, and is passed over otherwise. -/
def readDigits (negative : Bool) : Progress → List Char → Option Decimal
  | p, [] => if p.digitSeen then some (signed negative p.magnitude p.scale) else none
  | p, c :: rest =>
    match digitValue? c with
    | some d =>
      let magnitude := p.magnitude * 10 + d
      if !p.isFull && magnitude < limit then
        readDigits negative
          { digitSeen := true
            pointSeen := p.pointSeen
            magnitude := magnitude
            scale := if p.pointSeen then p.scale + 1 else 0 } rest
      else if p.pointSeen then roundAt negative p.magnitude p.scale d rest
      else none
    | none =>
      if c == '.' && !p.pointSeen then readDigits negative { p with pointSeen := true } rest
      else if c == '_' && p.digitSeen then
        if p.isFull && p.isNarrow then roundAt negative p.magnitude p.scale 0 rest
        else readDigits negative p rest
      else none

/-- Reads an optional sign and the digits. -/
def readPlain? : List Char → Option Decimal
  | '-' :: rest => readDigits true {} rest
  | '+' :: rest => readDigits false {} rest
  | cs => readDigits false {} cs

/-! ## Scientific notation -/

/-- Reads a natural number below `2 ^ 32`, with an optional plus sign. -/
def readExponent? (cs : List Char) : Option Nat :=
  let digits := if cs.head? == some '+' then cs.tail else cs
  if digits.isEmpty || digits.any (!·.isDigit) then none
  else
    let n := digits.foldl (fun acc c => acc * 10 + (c.toNat - '0'.toNat)) 0
    if n < UInt32.size then some n else none

/-- A magnitude divided by `10 ^ places`, half up. -/
def roundedQuotient (magnitude places : Nat) : Nat :=
  (2 * magnitude + Nat.pow 10 places) / (2 * Nat.pow 10 places)

/-- Moves the point to the left by raising the scale. Digits past the last place are rounded
away, and the sign stays. -/
def shiftLeft (d : Decimal) (places : Nat) : Decimal :=
  if d.scale + places ≤ maxScale then { d with scale := d.scale + places }
  else
    { d with
      magnitude := roundedQuotient d.magnitude (d.scale + places - maxScale)
      scale := maxScale }

/-- Moves the point to the right by lowering the scale and, past zero, by multiplying the
magnitude. -/
def shiftRight? (d : Decimal) (places : Nat) : Option Decimal :=
  if places ≤ d.scale then some { d with scale := d.scale - places }
  else
    let magnitude := d.magnitude * Nat.pow 10 (places - d.scale)
    if magnitude < limit then some { d with magnitude, scale := 0 } else none

/-- Reads a base and an exponent of ten around the first `e` or `E`. The exponent moves the point
by no more than the greatest number of places. -/
def readScientific? (cs : List Char) : Option Decimal :=
  let isMark := fun c : Char => c == 'e' || c == 'E'
  match cs.dropWhile (fun c => !isMark c) with
  | [] => none
  | _ :: exponent => do
    let base ← readPlain? (cs.takeWhile (fun c => !isMark c))
    let (left, digits) :=
      match exponent with
      | '-' :: digits => (true, digits)
      | digits => (false, digits)
    let places ← readExponent? digits
    if maxScale < places then none
    else if left then some (base.shiftLeft places)
    else base.shiftRight? places

/-- Reads a decimal in plain notation, or else in scientific notation. -/
def ofText? (s : String) : Option Decimal :=
  (readPlain? s.toList).or (readScientific? s.toList)

end Decimal

end QueryCompiler.Number

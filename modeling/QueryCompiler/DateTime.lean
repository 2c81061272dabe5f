import QueryCompiler.Text.Blank
/-!
# Date and time without a zone

A moment of the proleptic Gregorian calendar, to the nanosecond. A minute may have a sixtieth
second, which is kept as written. Written with a `T` between date and time, and read in the same
form with numbers of one digit allowed, and blanks before numbers and before the characters that
divide them; none stand before the point of a fraction.
-/

namespace QueryCompiler

/-- A calendar date with a time of day. -/
structure DateTime where
  year : Int
  month : Nat
  day : Nat
  hour : Nat
  minute : Nat
  second : Nat
  nanosecond : Nat
  deriving DecidableEq, Repr

namespace DateTime

/-- A year with a twenty-ninth of February. -/
def isLeapYear (year : Int) : Bool :=
  year % 4 == 0 && (year % 100 != 0 || year % 400 == 0)

/-- The length of a month; zero for a number that is no month. -/
def daysInMonth (year : Int) (month : Nat) : Nat :=
  match month with
  | 1 | 3 | 5 | 7 | 8 | 10 | 12 => 31
  | 4 | 6 | 9 | 11 => 30
  | 2 => if isLeapYear year then 29 else 28
  | _ => 0

def yearInRange (year : Int) : Bool :=
  -262143 ≤ year && year ≤ 262142

/-- A day of the calendar and a time of day. -/
def isValid (t : DateTime) : Bool :=
  yearInRange t.year && 1 ≤ t.day && t.day ≤ daysInMonth t.year t.month &&
    t.hour < 24 && t.minute < 60 && t.second ≤ 60 && t.nanosecond < 1000000000

/-! ## Writing -/

/-- A number with leading zeros up to a width. -/
def padded (width n : Nat) : String :=
  let digits := Nat.toDigits 10 n
  String.ofList (List.replicate (width - digits.length) '0' ++ digits)

/-- Four digits at least, and a sign outside the years 0 to 9999. -/
def yearText (year : Int) : String :=
  if 0 ≤ year && year ≤ 9999 then padded 4 year.natAbs
  else (if year < 0 then "-" else "+") ++ padded 4 year.natAbs

def dateText (t : DateTime) : String :=
  yearText t.year ++ "-" ++ padded 2 t.month ++ "-" ++ padded 2 t.day

def clockText (t : DateTime) : String :=
  padded 2 t.hour ++ ":" ++ padded 2 t.minute ++ ":" ++ padded 2 t.second

/-- Nothing, or three, six or nine digits, the fewest that are exact. -/
def fractionText (nanosecond : Nat) : String :=
  if nanosecond == 0 then ""
  else if nanosecond % 1000000 == 0 then "." ++ padded 3 (nanosecond / 1000000)
  else if nanosecond % 1000 == 0 then "." ++ padded 6 (nanosecond / 1000)
  else "." ++ padded 9 nanosecond

/-- The moment with `separator` between date and time. -/
def textWith (separator : String) (t : DateTime) : String :=
  t.dateText ++ separator ++ t.clockText ++ fractionText t.nanosecond

/-- The moment to the millisecond, later digits dropped. -/
def millisecondText (t : DateTime) : String :=
  t.dateText ++ " " ++ t.clockText ++ "." ++ padded 3 (t.nanosecond / 1000000)

/-! ## Reading -/

def digitsValue (cs : List Char) : Nat :=
  cs.foldl (fun n c => n * 10 + (c.toNat - '0'.toNat)) 0

/-- One to `most` digits. -/
def number? (most : Nat) (cs : List Char) : Option (Nat × List Char) :=
  let digits := (cs.take most).takeWhile Char.isDigit
  if digits.isEmpty then none
  else some (digitsValue digits, cs.drop digits.length)

/-- A number of at most two digits, after blanks. -/
def field? (cs : List Char) : Option (Nat × List Char) :=
  number? 2 (Text.trimStart cs)

/-- A year after blanks: at most four digits, or a sign and any number of them. -/
def year? (cs : List Char) : Option (Int × List Char) :=
  match Text.trimStart cs with
  | '-' :: rest => (number? rest.length rest).map fun (n, rest) => (-(n : Int), rest)
  | '+' :: rest => (number? rest.length rest).map fun (n, rest) => ((n : Int), rest)
  | rest => (number? 4 rest).map fun (n, rest) => ((n : Int), rest)

/-- One fixed character, after blanks. -/
def mark? (c : Char) (cs : List Char) : Option (List Char) :=
  match Text.trimStart cs with
  | [] => none
  | d :: rest => if c == d then some rest else none

/-- A fraction of a second in nanoseconds, zero when there is none. Digits past the ninth are
passed over. -/
def fraction? : List Char → Option (Nat × List Char)
  | '.' :: rest =>
    let digits := rest.takeWhile Char.isDigit
    if digits.isEmpty then none
    else
      let kept := digits.take 9
      some (digitsValue kept * Nat.pow 10 (9 - kept.length), rest.drop digits.length)
  | rest => some (0, rest)

/-- Reads a moment that the calendar has. -/
def ofText? (s : String) : Option DateTime := do
  let (year, rest) ← year? s.toList
  let (month, rest) ← field? (← mark? '-' rest)
  let (day, rest) ← field? (← mark? '-' rest)
  let (hour, rest) ← field? (← mark? 'T' rest)
  let (minute, rest) ← field? (← mark? ':' rest)
  let (second, rest) ← field? (← mark? ':' rest)
  let (nanosecond, rest) ← fraction? rest
  let t : DateTime := { year, month, day, hour, minute, second, nanosecond }
  if (Text.trimStart rest).isEmpty && t.isValid then some t else none

end DateTime

end QueryCompiler

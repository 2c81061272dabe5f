import QueryCompiler.Guid
import QueryCompiler.Json.Basic
import QueryCompiler.Text.Blank
/-!
# Reading JSON

A reader for JSON text. Each function takes the characters not yet read and returns what it has
read with the rest. A text is read for its value, which must be sound and nested at most 127 deep,
or only for such parts of it as are asked for, and then it need only be well formed.
-/

namespace QueryCompiler.Json.Reader

/-- What is read, with the characters after it. -/
abbrev Step (α : Type) := Option (α × List Char)

/-- The rest after spaces, tabs and line ends. -/
def skipSpacing (cs : List Char) : List Char :=
  cs.dropWhile Text.isSpacing

/-! ## Strings -/

/-- The value of four hexadecimal digits. -/
def hex4? (a b c d : Char) : Option Nat := do
  let a ← Guid.hexValue? a
  let b ← Guid.hexValue? b
  let c ← Guid.hexValue? c
  let d ← Guid.hexValue? d
  some (((a * 16 + b) * 16 + c) * 16 + d)

/-- What a letter after a backslash stands for. -/
def simpleEscape? (c : Char) : Option Char :=
  if c == '"' || c == '\\' || c == '/' then some c
  else if c == 'b' then some '\x08'
  else if c == 'f' then some '\x0c'
  else if c == 'n' then some '\n'
  else if c == 'r' then some '\r'
  else if c == 't' then some '\t'
  else none

/-- The character of two surrogate halves. -/
def surrogatePair? (high low : Nat) : Option Char :=
  if 0xdc00 ≤ low && low ≤ 0xdfff then
    some (Char.ofNat (0x10000 + (high - 0xd800) * 0x400 + (low - 0xdc00)))
  else none

/-- The characters up to the closing quote. `acc` holds those already read, last first. -/
def stringChars (acc : List Char) : List Char → Step (List Char)
  | [] => none
  | c :: rest =>
    if c == '"' then some (acc.reverse, rest)
    else if c == '\\' then
      match rest with
      | 'u' :: a :: b :: c :: d :: rest =>
        match hex4? a b c d with
        | none => none
        | some n =>
          if 0xd800 ≤ n && n ≤ 0xdbff then
            match rest with
            | '\\' :: 'u' :: a :: b :: c :: d :: rest =>
              match (hex4? a b c d).bind (surrogatePair? n) with
              | none => none
              | some c => stringChars (c :: acc) rest
            | _ => none
          else if 0xdc00 ≤ n && n ≤ 0xdfff then none
          else stringChars (Char.ofNat n :: acc) rest
      | c :: rest =>
        match simpleEscape? c with
        | none => none
        | some c => stringChars (c :: acc) rest
      | [] => none
    else if c.toNat < 0x20 then none
    else stringChars (c :: acc) rest

/-- The rest after the closing quote, whatever the escapes stand for. -/
def skipString : List Char → Option (List Char)
  | [] => none
  | c :: rest =>
    if c == '"' then some rest
    else if c == '\\' then
      match rest with
      | 'u' :: a :: b :: c :: d :: rest => if (hex4? a b c d).isSome then skipString rest else none
      | c :: rest => if (simpleEscape? c).isSome then skipString rest else none
      | [] => none
    else if c.toNat < 0x20 then none
    else skipString rest

/-- The string after its opening quote. It has no characters if half a surrogate pair stands in
it. -/
def string (cs : List Char) : Step (Option String) :=
  match stringChars [] cs with
  | some (chars, rest) => some (some (String.ofList chars), rest)
  | none => (skipString cs).map fun rest => (none, rest)

/-! ## Numbers -/

def digitsValue (cs : List Char) : Nat :=
  cs.foldl (fun n c => n * 10 + (c.toNat - '0'.toNat)) 0

def digits (cs : List Char) : Step (List Char) :=
  match cs.takeWhile Char.isDigit with
  | [] => none
  | ds => some (ds, cs.dropWhile Char.isDigit)

/-- A run of digits that starts with a zero only if it is zero. -/
def wholeDigits : List Char → Step (List Char)
  | '0' :: rest => if (rest.head?.map Char.isDigit).getD false then none else some (['0'], rest)
  | cs => digits cs

def fractionDigits : List Char → Step (List Char)
  | '.' :: rest => digits rest
  | cs => some ([], cs)

def signedDigits : List Char → Step Int
  | '+' :: rest => (digits rest).map fun (ds, rest) => ((digitsValue ds : Int), rest)
  | '-' :: rest => (digits rest).map fun (ds, rest) => (-(digitsValue ds : Int), rest)
  | cs => (digits cs).map fun (ds, rest) => ((digitsValue ds : Int), rest)

def exponent : List Char → Step (Option Int)
  | 'e' :: rest | 'E' :: rest => (signedDigits rest).map fun (n, rest) => (some n, rest)
  | cs => some (none, cs)

/-- The number behind an optional minus sign. -/
def unsignedNumber (negative : Bool) (cs : List Char) : Option (Json × List Char) := do
  let (whole, rest) ← wholeDigits cs
  let (fraction, afterFraction) ← fractionDigits rest
  let (power, afterPower) ← exponent afterFraction
  let n := digitsValue (whole ++ fraction)
  if fraction.isEmpty && power.isNone && !(negative && n == 0) then
    let j := if n < Number.floatBound then .integer (if negative then -(n : Int) else n) else hollow
    some (j, afterPower)
  else
    let s : Number.Scientific := ⟨negative, n, power.getD 0 - fraction.length⟩
    some (if s.inFloatRange then .decimal s else hollow, afterPower)

def number : List Char → Step Json
  | '-' :: rest => unsignedNumber true rest
  | cs => unsignedNumber false cs

/-! ## Values -/

def ofFields (fields : List (Option String × Json)) : Json :=
  match fields.mapM fun (k, j) => k.map fun k => (k, j) with
  | some fields => .object fields
  | none => hollow

mutual

/-- A value, after spacing. The first number bounds the steps, the second the nesting. -/
def value : Nat → Nat → List Char → Step Json
  | 0, _, _ => none
  | steps + 1, levels, cs =>
    match skipSpacing cs with
    | 'n' :: 'u' :: 'l' :: 'l' :: rest => some (.null, rest)
    | 't' :: 'r' :: 'u' :: 'e' :: rest => some (.bool true, rest)
    | 'f' :: 'a' :: 'l' :: 's' :: 'e' :: rest => some (.bool false, rest)
    | '"' :: rest => (string rest).map fun (s, rest) => ((s.map .string).getD hollow, rest)
    | '[' :: rest =>
      if levels == 0 then none
      else
        match skipSpacing rest with
        | ']' :: rest => some (.array [], rest)
        | rest => (items steps (levels - 1) rest).map fun (js, rest) => (.array js, rest)
    | '\x7b' :: rest =>
      if levels == 0 then none
      else
        match skipSpacing rest with
        | '\x7d' :: rest => some (.object [], rest)
        | rest => (fields steps (levels - 1) rest).map fun (fs, rest) => (ofFields fs, rest)
    | rest => number rest

/-- The items of an array up to its closing bracket, at least one. -/
def items : Nat → Nat → List Char → Step (List Json)
  | 0, _, _ => none
  | steps + 1, levels, cs =>
    match value steps levels cs with
    | none => none
    | some (j, rest) =>
      match skipSpacing rest with
      | ',' :: rest => (items steps levels rest).map fun (js, rest) => (j :: js, rest)
      | ']' :: rest => some ([j], rest)
      | _ => none

/-- The fields of an object up to its closing brace, at least one. -/
def fields : Nat → Nat → List Char → Step (List (Option String × Json))
  | 0, _, _ => none
  | steps + 1, levels, cs =>
    match skipSpacing cs with
    | '"' :: rest =>
      match string rest with
      | none => none
      | some (k, rest) =>
        match skipSpacing rest with
        | ':' :: rest =>
          match value steps levels rest with
          | none => none
          | some (j, rest) =>
            match skipSpacing rest with
            | ',' :: rest => (fields steps levels rest).map fun (fs, rest) => ((k, j) :: fs, rest)
            | '\x7d' :: rest => some ([(k, j)], rest)
            | _ => none
        | _ => none
    | _ => none

end

end QueryCompiler.Json.Reader

namespace QueryCompiler.Json

/-- Reads one value, nested no deeper than `levels`, with nothing but spacing around it. -/
def readWhole? (levels : Nat) (cs : List Char) : Option Json :=
  match Reader.value (2 * cs.length + 2) levels cs with
  | some (j, rest) => if (Reader.skipSpacing rest).isEmpty then some j else none
  | none => none

/-- Reads a well-formed text of any nesting. Parts of it may be hollow. -/
def ofWellFormed? (s : String) : Option Json :=
  readWhole? s.toList.length s.toList

/-- The greatest nesting of a text that is read for its value. -/
def maxDepth : Nat := 127

def ofText? (s : String) : Option Json :=
  (readWhole? maxDepth s.toList).filter isSound

end QueryCompiler.Json

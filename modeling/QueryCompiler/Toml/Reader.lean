import QueryCompiler.DateTime
import QueryCompiler.Guid
import QueryCompiler.Number.Shortest
import QueryCompiler.Toml.Basic
/-!
# Reading TOML

A reader for TOML 1.0. Each function takes the characters not yet read and returns what it has read
with the rest. Arrays and inline tables may be nested at most 79 deep, a key has at most as many
parts, and a positive number past the greatest float is refused.
-/

namespace QueryCompiler.Toml.Reader

/-- The greatest nesting, and the greatest number of parts of a key. -/
def maxDepth : Nat := 79

/-! ## Blanks and comments -/

/-- The rest after spaces and tabs. -/
def spaces (cs : List Char) : List Char :=
  cs.dropWhile fun c => c == ' ' || c == '\t'

/-- A character that may stand in a comment or between the quotes of a string. -/
def isPlain (c : Char) : Bool :=
  c == '\t' || (0x20 ≤ c.toNat && c.toNat != 0x7f)

/-- The rest after a comment, if there is one. -/
def comment : List Char → List Char
  | '#' :: rest => rest.dropWhile isPlain
  | cs => cs

def newline : List Char → Option (List Char)
  | '\n' :: rest => some rest
  | '\r' :: '\n' :: rest => some rest
  | _ => none

/-- The rest of a line: spaces, a comment and the line end or the end of the text. -/
def lineEnd (cs : List Char) : Option (List Char) :=
  match comment (spaces cs) with
  | [] => some []
  | rest => newline rest

/-- The rest after blanks, comments and line ends. The number bounds the steps. -/
def blankLinesAt : Nat → List Char → List Char
  | 0, cs => cs
  | steps + 1, cs =>
    let rest := comment (spaces cs)
    match newline rest with
    | some rest => blankLinesAt steps rest
    | none => rest

/-- The rest after blanks, comments and line ends. -/
def blankLines (cs : List Char) : List Char :=
  blankLinesAt (cs.length + 1) cs

/-! ## Strings -/

/-- The character of a run of hexadecimal digits. -/
def scalar? (digits : List Char) : Option Char := do
  let n ← digits.foldlM (fun n c => (Guid.hexValue? c).map (n * 16 + ·)) 0
  if n < 0xd800 || (0xe000 ≤ n && n < 0x110000) then some (Char.ofNat n) else none

/-- What stands after a backslash. -/
def escape : List Char → Option (Char × List Char)
  | 'b' :: rest => some ('\x08', rest)
  | 't' :: rest => some ('\t', rest)
  | 'n' :: rest => some ('\n', rest)
  | 'f' :: rest => some ('\x0c', rest)
  | 'r' :: rest => some ('\r', rest)
  | '"' :: rest => some ('"', rest)
  | '\\' :: rest => some ('\\', rest)
  | 'u' :: rest => hex 4 rest
  | 'U' :: rest => hex 8 rest
  | _ => none
where
  /-- a character by its number -/
  hex (width : Nat) (cs : List Char) : Option (Char × List Char) :=
    if cs.length < width then none else (scalar? (cs.take width)).map (·, cs.drop width)

/-- A string on one line up to its closing quote, with escapes. The number bounds the steps. -/
def basicChars : Nat → List Char → List Char → Option (List Char × List Char)
  | 0, _, _ => none
  | steps + 1, acc, cs =>
    match cs with
    | '"' :: rest => some (acc.reverse, rest)
    | '\\' :: rest =>
      match escape rest with
      | some (c, rest) => basicChars steps (c :: acc) rest
      | none => none
    | c :: rest => if isPlain c then basicChars steps (c :: acc) rest else none
    | [] => none

/-- A string on one line up to its closing apostrophe, without escapes. -/
def literalChars (acc : List Char) : List Char → Option (List Char × List Char)
  | [] => none
  | c :: rest =>
    if c == '\x27' then some (acc.reverse, rest)
    else if isPlain c then literalChars (c :: acc) rest
    else none

/-- The quotes at the end of a string of several lines: up to two more than the three that close
it belong to the string. -/
def closing (quote : Char) (cs : List Char) : Option (List Char × List Char) :=
  let run := cs.takeWhile (· == quote)
  if run.length < 3 then none
  else
    let inside := min (run.length - 3) 2
    some (List.replicate inside quote, cs.drop (inside + 3))

/-- The rest after blanks and line ends. The number bounds the steps. -/
def lineBreaksAt : Nat → List Char → List Char
  | 0, cs => cs
  | steps + 1, cs =>
    match newline (spaces cs) with
    | some rest => lineBreaksAt steps rest
    | none => spaces cs

/-- The rest after a backslash at the end of a line: blanks and line ends up to the next
character. -/
def continuation (cs : List Char) : Option (List Char) :=
  (newline (spaces cs)).map fun rest => lineBreaksAt (rest.length + 1) rest

/-- A string of several lines up to its closing quotes. The number bounds the steps. -/
def multilineChars (quote : Char) : Nat → List Char → List Char → Option (List Char × List Char)
  | 0, _, _ => none
  | steps + 1, acc, cs =>
    match closing quote cs with
    | some (inside, rest) => some (acc.reverse ++ inside, rest)
    | none =>
      match cs with
      | [] => none
      | c :: rest =>
        if c == '\\' && quote == '"' then
          match escape rest with
          | some (c, rest) => multilineChars quote steps (c :: acc) rest
          | none =>
            match continuation rest with
            | some rest => multilineChars quote steps acc rest
            | none => none
        else if isPlain c then multilineChars quote steps (c :: acc) rest
        else
          match newline cs with
          | some rest => multilineChars quote steps ('\n' :: acc) rest
          | none => none

/-- The start of a string of several lines, without a line end that follows the quotes. -/
def multiline (quote : Char) (cs : List Char) : Option (List Char × List Char) :=
  multilineChars quote (cs.length + 1) [] ((newline cs).getD cs)

def singleLine : List Char → Option (List Char × List Char)
  | '"' :: rest => basicChars (rest.length + 1) [] rest
  | '\x27' :: rest => literalChars [] rest
  | _ => none

def string (cs : List Char) : Option (String × List Char) :=
  let chars :=
    match cs with
    | '"' :: '"' :: '"' :: rest => multiline '"' rest
    | '\x27' :: '\x27' :: '\x27' :: rest => multiline '\x27' rest
    | cs => singleLine cs
  chars.map fun (chars, rest) => (String.ofList chars, rest)

/-! ## Keys -/

/-- A character of a key without quotes. -/
def isBare (c : Char) : Bool :=
  c.isAlphanum || c == '_' || c == '-'

def simpleKey (cs : List Char) : Option (String × List Char) :=
  match cs.takeWhile isBare with
  | [] => (singleLine cs).map fun (chars, rest) => (String.ofList chars, rest)
  | bare => some (String.ofList bare, cs.dropWhile isBare)

/-- The parts of a key, with dots between them. The number bounds them. -/
def keyAt : Nat → List Char → Option (List String × List Char)
  | 0, _ => none
  | steps + 1, cs => do
    let (part, rest) ← simpleKey (spaces cs)
    match spaces rest with
    | '.' :: rest =>
      let (parts, rest) ← keyAt steps rest
      some (part :: parts, rest)
    | rest => some ([part], rest)

/-- A key: its parts before the last, and the last. -/
def key (cs : List Char) : Option ((List String × String) × List Char) := do
  let (parts, rest) ← keyAt (cs.length + 1) cs
  if maxDepth < parts.length then none
  else some ((parts.dropLast, ← parts.getLast?), rest)

/-! ## Numbers and times -/

/-- Digits with single underscores between them. -/
def digitRun (isDigit : Char → Bool) (cs : List Char) : Option (List Char × List Char) :=
  let run := cs.takeWhile fun c => isDigit c || c == '_'
  go run.length [] cs
where
  /-- one digit, and more after an optional underscore -/
  go : Nat → List Char → List Char → Option (List Char × List Char)
    | 0, acc, cs => if acc.isEmpty then none else some (acc.reverse, cs)
    | steps + 1, acc, cs =>
      match cs with
      | '_' :: c :: rest =>
        if isDigit c && !acc.isEmpty then go steps (c :: acc) rest
        else if acc.isEmpty then none else some (acc.reverse, cs)
      | c :: rest =>
        if isDigit c then go steps (c :: acc) rest
        else if acc.isEmpty then none else some (acc.reverse, cs)
      | [] => if acc.isEmpty then none else some (acc.reverse, cs)

def valueIn (base : Nat) (digits : List Char) : Nat :=
  digits.foldl (fun n c => n * base + (Guid.hexValue? c).getD 0) 0

/-- A whole number in base two, eight or sixteen. -/
def basedInteger : List Char → Option (Int × List Char)
  | '0' :: 'x' :: rest => based 16 (fun c => (Guid.hexValue? c).isSome) rest
  | '0' :: 'o' :: rest => based 8 (fun c => '0' ≤ c && c ≤ '7') rest
  | '0' :: 'b' :: rest => based 2 (fun c => c == '0' || c == '1') rest
  | _ => none
where
  /-- the digits after the mark of a base -/
  based (base : Nat) (isDigit : Char → Bool) (cs : List Char) : Option (Int × List Char) :=
    (digitRun isDigit cs).map fun (ds, rest) => ((valueIn base ds : Int), rest)

def sign : List Char → Bool × List Char
  | '-' :: rest => (true, rest)
  | '+' :: rest => (false, rest)
  | cs => (false, cs)

/-- Decimal digits without a leading zero, save for zero itself. -/
def wholeDigits : List Char → Option (List Char × List Char)
  | '0' :: rest => some (['0'], rest)
  | cs => digitRun Char.isDigit cs

/-- A whole number in base ten. -/
def decimalInteger (cs : List Char) : Option (Int × List Char) := do
  let (negative, rest) := sign cs
  let (ds, rest) ← wholeDigits rest
  let n : Int := valueIn 10 ds
  some (if negative then -n else n, rest)

def exponent : List Char → Option (Int × List Char)
  | 'e' :: rest | 'E' :: rest => do
    let (negative, rest) := sign rest
    let (ds, rest) ← digitRun Char.isDigit rest
    let n : Int := valueIn 10 ds
    some (if negative then -n else n, rest)
  | _ => none

/-- A number of the given sign with a fraction or an exponent. -/
def scientific (negative : Bool) (cs : List Char) :
    Option (Number.Scientific × List Char) := do
  let (whole, rest) ← wholeDigits cs
  match rest with
  | '.' :: rest =>
    let (fraction, rest) ← digitRun Char.isDigit rest
    let (power, rest) := (exponent rest).getD (0, rest)
    some (⟨negative, valueIn 10 (whole ++ fraction), power - fraction.length⟩, rest)
  | rest =>
    let (power, rest) ← exponent rest
    some (⟨negative, valueIn 10 whole, power⟩, rest)

/-- The rest after a number with a fraction or an exponent, an infinity or not a number. -/
def float (cs : List Char) : Option (List Char) :=
  let (negative, unsigned) := sign cs
  match unsigned with
  | 'i' :: 'n' :: 'f' :: rest => some rest
  | 'n' :: 'a' :: 'n' :: rest => some rest
  | unsigned => do
    let (s, rest) ← scientific negative unsigned
    if negative || s.inFloatRange then some rest else none

/-- Exactly so many digits, within a range. -/
def fixed (width least most : Nat) (cs : List Char) : Option (Nat × List Char) :=
  let ds := cs.take width
  if ds.length == width && ds.all Char.isDigit then
    let n := valueIn 10 ds
    if least ≤ n && n ≤ most then some (n, cs.drop width) else none
  else none

/-- The rest after one fixed character. -/
def mark (c : Char) : List Char → Option (List Char)
  | [] => none
  | d :: rest => if c == d then some rest else none

/-- The rest after a date of the calendar. -/
def date (cs : List Char) : Option (List Char) := do
  let (year, rest) ← fixed 4 0 9999 cs
  let (month, rest) ← fixed 2 1 12 (← mark '-' rest)
  let (_, rest) ← fixed 2 1 (DateTime.daysInMonth year month) (← mark '-' rest)
  some rest

/-- The rest after a time of day. -/
def time (cs : List Char) : Option (List Char) := do
  let (_, rest) ← fixed 2 0 23 cs
  let (_, rest) ← fixed 2 0 59 (← mark ':' rest)
  let (_, rest) ← fixed 2 0 60 (← mark ':' rest)
  match rest with
  | '.' :: c :: rest => if c.isDigit then some (rest.dropWhile Char.isDigit) else none
  | '.' :: _ => none
  | rest => some rest

/-- The rest after an offset from universal time, if there is one. -/
def zone (cs : List Char) : List Char :=
  match cs with
  | 'Z' :: rest | 'z' :: rest => rest
  | '+' :: rest | '-' :: rest =>
    (do
      let (_, rest) ← fixed 2 0 23 rest
      let (_, rest) ← fixed 2 0 59 (← mark ':' rest)
      some rest).getD cs
  | _ => cs

/-- The rest after a date, a time or both. -/
def dateTime (cs : List Char) : Option (List Char) :=
  match date cs with
  | some rest =>
    match rest with
    | 'T' :: after | 't' :: after | ' ' :: after =>
      match time after with
      | some rest => some (zone rest)
      | none => some rest
    | _ => some rest
  | none => time cs

/-- The text that was read before `rest`. -/
def readText (cs rest : List Char) : String :=
  String.ofList (cs.take (cs.length - rest.length))

/-- A whole number of 64 bits. -/
def integer (cs : List Char) : Option (Int × List Char) := do
  let (n, rest) ← (basedInteger cs).or (decimalInteger cs)
  if Int64.minValue.toInt ≤ n && n ≤ Int64.maxValue.toInt then some (n, rest) else none

/-- A time, a float or a whole number. -/
def number (cs : List Char) : Option (Toml × List Char) :=
  match dateTime cs with
  | some rest => some (.dateTime (readText cs rest), rest)
  | none =>
    match float cs with
    | some rest => some (.float (readText cs rest), rest)
    | none => (integer cs).map fun (n, rest) => (.integer n, rest)

/-! ## Values -/

mutual

/-- A value. The first number bounds the steps, the second the nesting. -/
def value : Nat → Nat → List Char → Option (Toml × List Char)
  | 0, _, _ => none
  | steps + 1, levels, cs =>
    match cs with
    | 't' :: 'r' :: 'u' :: 'e' :: rest => some (.bool true, rest)
    | 'f' :: 'a' :: 'l' :: 's' :: 'e' :: rest => some (.bool false, rest)
    | '[' :: rest =>
      if levels == 0 then none
      else (items steps (levels - 1) rest).map fun (ts, rest) => (.array ts, rest)
    | '\x7b' :: rest =>
      if levels == 0 then none
      else
        match spaces rest with
        | '\x7d' :: rest => some (.table ⟨false, false, true, []⟩, rest)
        | rest =>
          (pairs steps (levels - 1) ⟨false, false, true, []⟩ rest).map fun (t, rest) =>
            (.table t, rest)
    | '"' :: _ | '\x27' :: _ => (string cs).map fun (s, rest) => (.string s, rest)
    | _ => number cs

/-- The items of an array up to its closing bracket. -/
def items : Nat → Nat → List Char → Option (List Toml × List Char)
  | 0, _, _ => none
  | steps + 1, levels, cs =>
    match blankLines cs with
    | ']' :: rest => some ([], rest)
    | cs =>
      match value steps levels cs with
      | none => none
      | some (t, rest) =>
        match blankLines rest with
        | ',' :: rest => (items steps levels rest).map fun (ts, rest) => (t :: ts, rest)
        | ']' :: rest => some ([t], rest)
        | _ => none

/-- The pairs of an inline table up to its closing brace, at least one, added to `t`. -/
def pairs : Nat → Nat → Table → List Char → Option (Table × List Char)
  | 0, _, _, _ => none
  | steps + 1, levels, t, cs =>
    match key cs with
    | some ((path, last), '=' :: rest) =>
      match value steps levels (spaces rest) with
      | none => none
      | some (v, rest) =>
        match t.assign true path last v with
        | none => none
        | some t =>
          match spaces rest with
          | ',' :: rest => pairs steps levels t rest
          | '\x7d' :: rest => some (t, rest)
          | _ => none
    | _ => none

end

/-! ## Documents -/

/-- A document while it is read: the tables so far and the one that keys are added to. -/
structure Document where
  root : Table := .empty
  current : Table := .empty
  path : List String := []
  inArray : Bool := false

namespace Document

/-- Files the current table under its path. -/
def close (d : Document) : Option Table :=
  match d.path.getLast? with
  | none => some d.current
  | some name =>
    d.root.enter false false (fun parent =>
      if d.inArray then
        match parent.get? name with
        | some (.tables ts) => some (parent.put name (.tables (ts ++ [d.current])))
        | none => some (parent.put name (.tables [d.current]))
        | some _ => none
      else
        match parent.get? name with
        | none => some (parent.put name (.table d.current))
        | some (.table t) =>
          if t.implicit && !t.inline then some (parent.put name (.table d.current)) else none
        | some _ => none)
      d.path.dropLast

/-- Starts the table of a `[path]` header. It may continue a table that lies on the path of an
earlier header. -/
def openTable (root : Table) (path : List String) : Option Document := do
  let name ← path.getLast?
  let root ← root.enter false false some path.dropLast
  let existing ← lookup root path
  let current : Table ←
    match existing with
    | none => some .empty
    | some (.table t) => if t.implicit && !t.dotted && !t.inline then some t else none
    | some _ => none
  let root ← root.enter false false (fun parent => some (parent.erase name)) path.dropLast
  some {
    root
    current := { current with implicit := false, dotted := false }
    path }
where
  /-- the value at a path, an array of tables standing for its last table -/
  lookup (t : Table) : List String → Option (Option Toml)
    | [] => none
    | [name] => some (t.get? name)
    | name :: path =>
      match t.get? name with
      | some (.table t) => lookup t path
      | some (.tables ts) => ts.getLast?.bind fun t => lookup t path
      | _ => some none

/-- Starts a table of a `[[path]]` header. -/
def openArray (root : Table) (path : List String) : Option Document := do
  let name ← path.getLast?
  let root ← root.enter false false (fun parent =>
      match parent.get? name with
      | none | some (.tables _) => some parent
      | some _ => none)
    path.dropLast
  some { root, path, inArray := true }

end Document

/-- A header with its closing brackets, and the rest of its line. -/
def header (cs : List Char) : Option ((Bool × List String) × List Char) :=
  match cs with
  | '[' :: '[' :: rest => do
    let ((path, last), rest) ← key rest
    match rest with
    | ']' :: ']' :: rest => some ((true, path ++ [last]), ← lineEnd rest)
    | _ => none
  | '[' :: rest => do
    let ((path, last), rest) ← key rest
    match rest with
    | ']' :: rest => some ((false, path ++ [last]), ← lineEnd rest)
    | _ => none
  | _ => none

/-- A pair of key and value, and the rest of its line. -/
def pair (cs : List Char) : Option ((List String × String × Toml) × List Char) := do
  let ((path, last), rest) ← key cs
  let rest ← mark '=' rest
  let (v, rest) ← value (rest.length + 1) maxDepth (spaces rest)
  some ((path, last, v), ← lineEnd rest)

/-- The lines of a document. The number bounds them. -/
def lines : Nat → Document → List Char → Option Table
  | 0, _, _ => none
  | steps + 1, d, cs =>
    match blankLines cs with
    | [] => d.close
    | '[' :: rest => do
      let ((isArray, path), rest) ← header ('[' :: rest)
      let root ← d.close
      let d ← if isArray then Document.openArray root path else Document.openTable root path
      lines steps d rest
    | cs => do
      let ((path, last, v), rest) ← pair cs
      let current ← d.current.assign false path last v
      lines steps { d with current } rest

end QueryCompiler.Toml.Reader

namespace QueryCompiler.Toml

/-- Reads a document, whose first character may be a byte order mark. -/
def ofText? (text : String) : Option Table :=
  let cs := text.toList
  let cs := if cs.head? == some '﻿' then cs.tail else cs
  Reader.lines (cs.length + 1) {} cs

end QueryCompiler.Toml

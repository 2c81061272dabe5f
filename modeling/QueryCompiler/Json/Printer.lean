import QueryCompiler.Guid
import QueryCompiler.Json.Basic
/-!
# Printing JSON

Two layouts: `compact` without any blanks, and `pretty` with each item and field on a line of its
own, indented by two spaces a level. Characters below the space and the two characters with a
meaning in strings are escaped, all others stand for themselves.
-/

namespace QueryCompiler.Json

/-- A character inside a string. -/
def escapeChar (c : Char) : List Char :=
  if c == '"' then ['\\', '"']
  else if c == '\\' then ['\\', '\\']
  else if c == '\n' then ['\\', 'n']
  else if c == '\r' then ['\\', 'r']
  else if c == '\t' then ['\\', 't']
  else if c == '\x08' then ['\\', 'b']
  else if c == '\x0c' then ['\\', 'f']
  else if c.toNat < 0x20 then
    ['\\', 'u', '0', '0', Guid.hexDigit (c.toNat / 16), Guid.hexDigit (c.toNat % 16)]
  else [c]

def quote (s : String) : String :=
  String.ofList ('"' :: s.toList.flatMap escapeChar ++ ['"'])

/-- A value that holds no other value. -/
def scalarText : Json → String
  | null => "null"
  | bool b => if b then "true" else "false"
  | integer n => toString n
  | decimal s => s.positional
  | string s => quote s
  | array _ | object _ | hollow => ""

mutual

/-- A value on one line without blanks. -/
def compact : Json → String
  | array items => "[" ++ ",".intercalate (compactList items) ++ "]"
  | object fields => "\x7b" ++ ",".intercalate (compactFields fields) ++ "\x7d"
  | j => scalarText j

/-- The items of an array on one line. -/
def compactList : List Json → List String
  | [] => []
  | j :: js => j.compact :: compactList js

def compactFields : List (String × Json) → List String
  | [] => []
  | (k, j) :: fs => (quote k ++ ":" ++ j.compact) :: compactFields fs

end

/-- A line break and the indentation of a level. -/
def newline (level : Nat) : String :=
  String.ofList ('\n' :: List.replicate (2 * level) ' ')

/-- Brackets around items, each on a line of its own; nothing between them when there is none. -/
def bracketed (opening closing : String) (level : Nat) (items : List String) : String :=
  match items with
  | [] => opening ++ closing
  | _ => opening ++ newline (level + 1) ++ ("," ++ newline (level + 1)).intercalate items ++
      newline level ++ closing

mutual

/-- A value over several lines, its first line standing at indentation `level`. -/
def prettyAt (level : Nat) : Json → String
  | array items => bracketed "[" "]" level (prettyList (level + 1) items)
  | object fields => bracketed "\x7b" "\x7d" level (prettyFields (level + 1) fields)
  | j => scalarText j

def prettyList (level : Nat) : List Json → List String
  | [] => []
  | j :: js => j.prettyAt level :: prettyList level js

def prettyFields (level : Nat) : List (String × Json) → List String
  | [] => []
  | (k, j) :: fs => (quote k ++ ": " ++ j.prettyAt level) :: prettyFields level fs

end

/-- A value over several lines. -/
def pretty (j : Json) : String :=
  j.prettyAt 0

end QueryCompiler.Json

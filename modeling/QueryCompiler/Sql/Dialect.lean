import QueryCompiler.Value
/-!
# Dialects

The two SQL dialects: how each quotes names and strings, writes constants and escapes patterns.
-/

namespace QueryCompiler

/-- A dialect of SQL. -/
inductive Dialect where
  | sqlServer
  | mySql
  deriving DecidableEq, Repr, Inhabited

namespace Dialect

def all : List Dialect := [sqlServer, mySql]

def name : Dialect → String
  | sqlServer => "sqlserver"
  | mySql => "mysql"

def ofName? (s : String) : Option Dialect :=
  all.find? (·.name == s)

theorem ofName?_name (d : Dialect) : ofName? d.name = some d := by
  cases d <;> decide

def replaceChars (f : Char → List Char) (s : String) : String :=
  String.ofList (s.toList.flatMap f)

/-- A quoted name: in brackets with a closing bracket doubled, or in backticks with those
doubled. -/
def quote : Dialect → String → String
  | sqlServer, s => "[" ++ replaceChars (fun c => if c == ']' then [']', ']'] else [c]) s ++ "]"
  | mySql, s =>
    "\x60" ++ replaceChars (fun c => if c == '\x60' then ['\x60', '\x60'] else [c]) s ++ "\x60"

def placeholder : Dialect → Nat → String
  | sqlServer, n => "@p" ++ toString n
  | mySql, n => "?p" ++ toString n

/-- A string between apostrophes, which are doubled inside. Where the backslash escapes, it is
doubled too; where national strings are apart, these are marked. -/
def stringLiteral (d : Dialect) (unicode : Bool) (s : String) : String :=
  match d with
  | sqlServer =>
    (if unicode then "N'" else "'") ++
      replaceChars (fun c => if c == '\x27' then [c, c] else [c]) s ++ "'"
  | mySql =>
    "'" ++ replaceChars (fun c => if c == '\x27' || c == '\\' then [c, c] else [c]) s ++ "'"

/-- A string as a pattern of `LIKE` that matches just this string. -/
def likeEscape : Dialect → String → String
  | sqlServer =>
    replaceChars fun c => if c == '[' || c == '%' || c == '_' then ['[', c, ']'] else [c]
  | mySql =>
    replaceChars fun c => if c == '\\' || c == '%' || c == '_' then ['\\', c] else [c]

end Dialect

namespace Value

mutual

def literal (d : Dialect) (unicode : Bool) : Value → String
  | null => "NULL"
  | bool b => if b then "1" else "0"
  | int n => toString n.toInt
  | float x => Number.floatText x
  | decimal x => x.text
  | string s => d.stringLiteral unicode s
  | dateTime t => "'" ++ t.millisecondText ++ "'"
  | guid g => "'" ++ g.text ++ "'"
  | list items => "(" ++ ", ".intercalate (literals d unicode items) ++ ")"

def literals (d : Dialect) (unicode : Bool) : List Value → List String
  | [] => []
  | v :: vs => v.literal d unicode :: literals d unicode vs

end

end Value

end QueryCompiler

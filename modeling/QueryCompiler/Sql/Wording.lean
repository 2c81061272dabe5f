import QueryCompiler.Sql.Script
/-!
# Wordings

Where the dialects word the same thing differently: paging, functions, tests of existence and
statements.
-/

namespace QueryCompiler.Dialect

open Sql (Script)
open Sql.Script (say call joined parenthesized)

def concat (d : Dialect) (parts : List Script) : Script :=
  match d with
  | sqlServer => joined " + " parts
  | mySql => call "CONCAT" parts

/-- The words behind a query that bound its rows. -/
def limitOffset (d : Dialect) (limit offset : Option Nat) : String :=
  match d with
  | sqlServer =>
    match limit, offset with
    | none, none => ""
    | none, some n => " OFFSET " ++ toString n ++ " ROWS"
    | some m, offset =>
      " OFFSET " ++ toString (offset.getD 0) ++ " ROWS FETCH NEXT " ++ toString m ++ " ROWS ONLY"
  | mySql =>
    ((limit.map fun n => " LIMIT " ++ toString n).getD "") ++
      ((offset.map fun n => " OFFSET " ++ toString n).getD "")

/-- The words at the start of a query that bound its rows, where there are such. -/
def top (d : Dialect) (limit : Nat) : Option String :=
  match d with
  | sqlServer => some ("TOP(" ++ toString limit ++ ") ")
  | mySql => none

/-- Whether rows may be passed over without a bound on those that follow. -/
def offsetWithoutLimit : Dialect → Bool
  | sqlServer => true
  | mySql => false

def isnullFunction : Dialect → String
  | sqlServer => "ISNULL"
  | mySql => "IFNULL"

/-- A query for 1 or 0 according to whether `body`, from `FROM` on, has a row. -/
def anyQuery (d : Dialect) (body : Script) : Script :=
  match d with
  | sqlServer =>
    say "IF EXISTS(SELECT TOP(1) 1 " ++ body ++ say ") SELECT 1 ELSE SELECT 0"
  | mySql =>
    say "SELECT CASE WHEN COUNT(1) = 1 THEN 1 ELSE 0 END FROM (SELECT 1 " ++ body ++
      say " LIMIT 1) t0"

/-- The last identity that the database has given out. -/
def lastIdentity : Dialect → String
  | sqlServer => "SCOPE_IDENTITY()"
  | mySql => "LAST_INSERT_ID()"

/-- Whether an assigned column is named with its row. -/
def qualifiesAssignments : Dialect → Bool
  | sqlServer => false
  | mySql => true

/-- Whether the assignments of an update stand before its joins. -/
def assignmentsFirst : Dialect → Bool
  | sqlServer => true
  | mySql => false

/-- An update of the rows `row` of a table, with further rows joined. -/
def updateStatement (d : Dialect) (table row : String) (assignments joins clauses : Script) :
    Script :=
  match d with
  | sqlServer =>
    say ("UPDATE " ++ row ++ " SET ") ++ assignments ++ say (" FROM " ++ table ++ " " ++ row) ++
      joins ++ clauses
  | mySql =>
    say ("UPDATE " ++ table ++ " " ++ row) ++ joins ++ say " SET " ++ assignments ++ clauses

def lengthFunction : Dialect → String
  | sqlServer => "LEN"
  | mySql => "CHAR_LENGTH"

def stringCast (d : Dialect) (e : Script) : Script :=
  match d with
  | sqlServer => say "CAST(" ++ e ++ say " AS NVARCHAR(MAX))"
  | mySql => say "CAST(" ++ e ++ say " AS CHAR)"

/-- A part of a string, up to its end if no length is given. -/
def substring (d : Dialect) (e start : Script) (length : Option Script) : Script :=
  match d, length with
  | _, some length => call "SUBSTRING" [e, start, length]
  | sqlServer, none => call "SUBSTRING" [e, start, call "LEN" [e]]
  | mySql, none => call "SUBSTRING" [e, start]

/-- A string without blanks at its ends. -/
def trim (d : Dialect) (e : Script) : Script :=
  match d with
  | sqlServer => call "LTRIM" [call "RTRIM" [e]]
  | mySql => call "TRIM" [e]

def datePart (d : Dialect) (part : String) (e : Script) : Script :=
  match d with
  | sqlServer => call "DATEPART" [say part, e]
  | mySql => call part [e]

def dateOnly (d : Dialect) (e : Script) : Script :=
  match d with
  | sqlServer => say "CAST(" ++ e ++ say " AS DATE)"
  | mySql => call "DATE" [e]

def now (d : Dialect) (utc : Bool) : String :=
  match d, utc with
  | sqlServer, true => "GETUTCDATE()"
  | sqlServer, false => "GETDATE()"
  | mySql, true => "UTC_TIMESTAMP()"
  | mySql, false => "NOW()"

def round (d : Dialect) (e : Script) (digits : Option Script) : Script :=
  match d, digits with
  | _, some digits => call "ROUND" [e, digits]
  | sqlServer, none => call "ROUND" [e, say "0"]
  | mySql, none => call "ROUND" [e]

end QueryCompiler.Dialect

import QueryCompiler.Schema.DbType
import QueryCompiler.Sql.Dialect
/-!
# Scripts

SQL text in which the places of constants are left open. A constant is numbered when it is read,
and whether its place is filled with its text or with the placeholder of its number is decided at
the end. So both ways of writing constants share everything else.
-/

namespace QueryCompiler.Sql

/-- A numbered constant with the type it is to have. -/
structure Constant where
  /-- from 1 on -/
  index : Nat
  value : Value
  dbType : DbType
  size : Option Nat

/-- A part of a script. -/
inductive Piece where
  | text (s : String)
  | constant (c : Constant)

/-- SQL text with places for constants. -/
abbrev Script := List Piece

namespace Script

def say (s : String) : Script := [.text s]

/-- Scripts with a text between them. -/
def joined (separator : String) : List Script → Script
  | [] => []
  | [s] => s
  | s :: t :: rest => s ++ say separator ++ joined separator (t :: rest)

def parenthesized (s : Script) : Script :=
  say "(" ++ s ++ say ")"

def call (function : String) (args : List Script) : Script :=
  say function ++ parenthesized (joined ", " args)

/-- The text of a script, with each constant written by `write`. -/
def text (write : Constant → String) (s : Script) : String :=
  String.join (s.map fun
    | .text t => t
    | .constant c => write c)

end Script

end QueryCompiler.Sql

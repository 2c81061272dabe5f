import QueryCompiler.Expr.Symbol
import QueryCompiler.Sql.Wording
/-!
# Terms

SQL expressions as trees. Parentheses are part of the tree: `wrap` puts them where a term would
otherwise bind more loosely than the place it stands in. A term is a test if it can stand in a
`WHERE` clause as it is; the other terms are values.
-/

namespace QueryCompiler.Sql

/-- A column of the rows with a number. -/
structure ColumnRef where
  row : Nat
  name : String
  deriving DecidableEq, Repr

def rowName (n : Nat) : String := "t" ++ toString n

/-- How a statement is written. -/
structure Style where
  dialect : Dialect
  unicode : Bool

/-- An SQL expression. -/
inductive Term where
  | column (ref : ColumnRef)
  | null
  | constant (c : Constant)
  | number (n : Int)
  /-- a string that is no constant of the query -/
  | word (s : String)
  | tuple (items : List Term)
  | paren (t : Term)
  /-- the test that always or never holds -/
  | truth (holds : Bool)
  | binary (op : BinaryOp) (left right : Term)
  | isNull (t : Term)
  | isNotNull (t : Term)
  /-- negation, with parentheses of its own -/
  | not (t : Term)
  | negate (t : Term)
  | concat (parts : List Term)
  | coalesce (t replacement : Term)
  | caseWhen (test ifTrue ifFalse : Term)
  | call (function : String) (args : List Term)
  | length (t : Term)
  | datePart (part : String) (t : Term)
  | dateOnly (t : Term)
  | now (utc : Bool)
  | substring (t start : Term) (length : Option Term)
  | trim (t : Term)
  | stringCast (t : Term)
  | round (t : Term) (digits : Option Term)
  | like (t pattern : Term)
  | isIn (t list : Term)

namespace Term

instance : Inhabited Term := ⟨null⟩

/-- How tightly a term binds that needs no parentheses anywhere. -/
def atomic : Nat := 255

/-- How tightly a test binds. -/
def testing : Nat := 3

/-- How tightly a term binds. -/
def precedence : Term → Nat
  | binary op _ _ => op.precedence
  | truth _ | isNull _ | isNotNull _ | not _ | like _ _ | isIn _ _ => testing
  | concat _ => BinaryOp.precedence .add
  | negate _ => atomic - 1
  | _ => atomic

def isTest : Term → Bool
  | binary op _ _ => op.isLogical || op.isComparison
  | truth _ | isNull _ | isNotNull _ | not _ | like _ _ | isIn _ _ => true
  | paren t => t.isTest
  | _ => false

/-- A term for a place of a precedence, in parentheses if it binds more loosely, or in a strict
place just as tightly. -/
def wrap (t : Term) (place : Nat) (strict : Bool) : Term :=
  if t.precedence < place || (strict && t.precedence == place) then paren t else t

/-- The number 1 or 0 that stands for a truth value. -/
def bit (b : Bool) : Term := number (if b then 1 else 0)

/-- A comparison with the number of a truth value. -/
def equalsBit (t : Term) (b : Bool) : Term :=
  binary .eq (t.wrap testing true) (bit b)

def ofTest (t : Term) : Term := caseWhen t (number 1) (number 0)

end Term

def ColumnRef.text (d : Dialect) (c : ColumnRef) : String :=
  rowName c.row ++ "." ++ d.quote c.name

open Script (say joined parenthesized)

mutual

def Term.script (style : Style) : Term → Script
  | .column ref => say (ref.text style.dialect)
  | .null => say "NULL"
  | .constant c => [.constant c]
  | .number n => say (toString n)
  | .word s => say (style.dialect.stringLiteral style.unicode s)
  | .tuple items => parenthesized (joined ", " (Term.scripts style items))
  | .paren t => parenthesized (t.script style)
  | .truth holds => say (if holds then "1 = 1" else "1 = 0")
  | .binary op l r => l.script style ++ say (" " ++ op.symbol ++ " ") ++ r.script style
  | .isNull t => t.script style ++ say " IS NULL"
  | .isNotNull t => t.script style ++ say " IS NOT NULL"
  | .not t => say "NOT " ++ parenthesized (t.script style)
  | .negate t => say "-" ++ t.script style
  | .concat parts => style.dialect.concat (Term.scripts style parts)
  | .coalesce t replacement =>
    Script.call style.dialect.isnullFunction [t.script style, replacement.script style]
  | .caseWhen test a b =>
    say "CASE WHEN " ++ test.script style ++ say " THEN " ++ a.script style ++ say " ELSE " ++
      b.script style ++ say " END"
  | .call function args => Script.call function (Term.scripts style args)
  | .length t => Script.call style.dialect.lengthFunction [t.script style]
  | .datePart part t => style.dialect.datePart part (t.script style)
  | .dateOnly t => style.dialect.dateOnly (t.script style)
  | .now utc => say (style.dialect.now utc)
  | .substring t start len =>
    style.dialect.substring (t.script style) (start.script style) (Term.scriptOption style len)
  | .trim t => style.dialect.trim (t.script style)
  | .stringCast t => style.dialect.stringCast (t.script style)
  | .round t digits => style.dialect.round (t.script style) (Term.scriptOption style digits)
  | .like t pattern => t.script style ++ say " LIKE " ++ pattern.script style
  | .isIn t list => t.script style ++ say " IN " ++ list.script style

def Term.scripts (style : Style) : List Term → List Script
  | [] => []
  | t :: ts => t.script style :: Term.scripts style ts

def Term.scriptOption (style : Style) : Option Term → Option Script
  | none => none
  | some t => some (t.script style)

end

end QueryCompiler.Sql

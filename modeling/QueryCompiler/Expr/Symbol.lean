/-!
# Operators and functions inside expressions

The binary and unary operators of expressions and the aggregate functions, with the names under
which they are recorded and the signs under which they are written.
-/

namespace QueryCompiler

/-- An aggregate function. -/
inductive AggregateFunc where
  | count
  | sum
  | max
  | min
  | average
  deriving DecidableEq, Repr, Inhabited

namespace AggregateFunc

def all : List AggregateFunc := [count, sum, max, min, average]

def name : AggregateFunc → String
  | count => "Count"
  | sum => "Sum"
  | max => "Max"
  | min => "Min"
  | average => "Average"

def sqlName : AggregateFunc → String
  | count => "COUNT"
  | sum => "SUM"
  | max => "MAX"
  | min => "MIN"
  | average => "AVG"

/-- The function with exactly this recorded name. -/
def ofName? (s : String) : Option AggregateFunc :=
  all.find? (·.name == s)

/-- The function a method of a grouping calls. -/
def ofMethod? (s : String) : Option AggregateFunc :=
  if s == "LongCount" then some count else ofName? s

theorem ofName?_name (f : AggregateFunc) : ofName? f.name = some f := by
  cases f <;> decide

end AggregateFunc

/-- A binary operator of an expression. -/
inductive BinaryOp where
  | eq
  | ne
  | lt
  | le
  | gt
  | ge
  | and
  | or
  | add
  | sub
  | mul
  | div
  | rem
  | concat
  | coalesce
  deriving DecidableEq, Repr, Inhabited

namespace BinaryOp

def all : List BinaryOp :=
  [eq, ne, lt, le, gt, ge, and, or, add, sub, mul, div, rem, concat, coalesce]

def name : BinaryOp → String
  | eq => "Eq"
  | ne => "Ne"
  | lt => "Lt"
  | le => "Le"
  | gt => "Gt"
  | ge => "Ge"
  | and => "And"
  | or => "Or"
  | add => "Add"
  | sub => "Sub"
  | mul => "Mul"
  | div => "Div"
  | rem => "Rem"
  | concat => "Concat"
  | coalesce => "Coalesce"

/-- The operator with exactly this recorded name. -/
def ofName? (s : String) : Option BinaryOp :=
  all.find? (·.name == s)

def symbol : BinaryOp → String
  | eq => "="
  | ne => "<>"
  | lt => "<"
  | le => "<="
  | gt => ">"
  | ge => ">="
  | and => "AND"
  | or => "OR"
  | add => "+"
  | concat => "+"
  | sub => "-"
  | mul => "*"
  | div => "/"
  | rem => "%"
  | coalesce => "??"

/-- How tightly an operator binds. -/
def precedence : BinaryOp → Nat
  | or => 1
  | and => 2
  | eq | ne | lt | le | gt | ge => 3
  | add | sub | concat => 4
  | mul | div | rem => 5
  | coalesce => 6

def isComparison (op : BinaryOp) : Bool :=
  op.precedence == 3

/-- A connective of tests. -/
def isLogical : BinaryOp → Bool
  | and | or => true
  | _ => false

theorem ofName?_name (op : BinaryOp) : ofName? op.name = some op := by
  cases op <;> decide

end BinaryOp

/-- A unary operator of an expression. -/
inductive UnaryOp where
  | not
  | negate
  deriving DecidableEq, Repr, Inhabited

namespace UnaryOp

def name : UnaryOp → String
  | not => "Not"
  | negate => "Negate"

/-- The operator with exactly this recorded name. -/
def ofName? (s : String) : Option UnaryOp :=
  [not, negate].find? (·.name == s)

theorem ofName?_name (op : UnaryOp) : ofName? op.name = some op := by
  cases op <;> decide

end UnaryOp

end QueryCompiler

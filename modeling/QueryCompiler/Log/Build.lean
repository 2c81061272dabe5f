import QueryCompiler.Log.Basic
/-!
# Building queries

Functions that write operator entries and expressions as a caller would. They build exactly the
entry they name and check nothing.
-/

namespace QueryCompiler

namespace Operator

/-- An entry whose operands are lambdas. -/
def ofLambdas (kind : OpKind) (lambdas : List Lambda) : Operator :=
  ⟨kind, lambdas.map .lambda⟩

def getSource (ty : String) : Operator := ⟨.getSource, [.typeName ty]⟩
def filter (predicate : Lambda) : Operator := ofLambdas .filter [predicate]
def select (projector : Lambda) : Operator := ofLambdas .select [projector]
def orderBy (key : Lambda) : Operator := ofLambdas .orderBy [key]
def orderByDescending (key : Lambda) : Operator := ofLambdas .orderByDescending [key]
def thenBy (key : Lambda) : Operator := ofLambdas .thenBy [key]
def thenByDescending (key : Lambda) : Operator := ofLambdas .thenByDescending [key]
def includePath (path : Lambda) : Operator := ofLambdas .includePath [path]
def updateWith (assignments : Lambda) : Operator := ofLambdas .update [assignments]

def selectMany (collection : Lambda) (result : Option Lambda) : Operator :=
  ofLambdas .selectMany (collection :: result.toList)

/-- Groups rows, with an optional element selector. -/
def groupBy (key : Lambda) (element : Option Lambda) : Operator :=
  ofLambdas .groupBy (key :: element.toList)

def joinOf (kind : OpKind) (inner : Log) (outerKey innerKey result : Lambda) : Operator :=
  ⟨kind, [.query inner, .lambda outerKey, .lambda innerKey, .lambda result]⟩

/-- The constant of a row count, as a 64-bit word. -/
def countOperand (n : Nat) : Operand := .constant (.int (Int64.ofNat n))

def skip (n : Nat) : Operator := ⟨.skip, [countOperand n]⟩
def take (n : Nat) : Operator := ⟨.take, [countOperand n]⟩
def distinct : Operator := ⟨.distinct, []⟩
def asSubquery : Operator := ⟨.asSubquery, []⟩

/-- An operator that ends a query, with an optional lambda. -/
def terminal (kind : OpKind) (lambda : Option Lambda) : Operator :=
  ofLambdas kind lambda.toList

def union (other : Log) : Operator := ⟨.union, [.query other]⟩
def insert (entity : EntityValue) : Operator := ⟨.insert, [.entity entity]⟩
def insertMany (entities : List EntityValue) : Operator := ⟨.insert, [.entities entities]⟩
def insertFrom (target : String) : Operator := ⟨.insert, [.typeName target]⟩
def update (entity : EntityValue) : Operator := ⟨.update, [.entity entity]⟩
def delete (entity : Option EntityValue) : Operator := ⟨.delete, entity.toList.map .entity⟩

end Operator

namespace Expr

/-- The constant list of the given numbers, null where there is none. -/
def numbers (items : List (Option Int64)) : Expr :=
  constant (.list (items.map fun | some n => .int n | none => .null))

/-- An object construction from named values. -/
def construct (ty : Option String) (members : List (String × Expr)) : Expr :=
  object ty (members.map fun (m, v) => ⟨m, v⟩)

def callOn (target : Expr) (method : String) (args : List Expr) : Expr :=
  call method (some target) args

/-- A lambda of the given parameters as an expression. -/
def function (params : List String) (body : Expr) : Expr :=
  lambda ⟨params, body⟩

end Expr

end QueryCompiler

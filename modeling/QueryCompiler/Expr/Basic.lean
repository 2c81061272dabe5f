import QueryCompiler.Operator.Kind
import QueryCompiler.Value
/-!
# Expressions, lambdas and operator entries

A query is recorded as a list of operators, whose operands are lambdas, constants, type names,
nested queries and entity payloads. Expressions may in turn hold a nested query, so the types are
declared together.

The first forms of an expression are those a caller writes. `source`, `grouping`, `joinGroup` and
`aggregate` appear once a lambda is bound to the rows it ranges over.
-/

namespace QueryCompiler

/-- Values for the members of one entity, in the order given. -/
structure EntityValue where
  ty : String
  values : List (String × Value)
  deriving Inhabited

mutual

/-- One `member = value` of an object construction. -/
structure Binding where
  member : String
  value : Expr

/-- Parameter names and a body. -/
structure Lambda where
  params : List String
  body : Expr

/-- An expression over the rows of a query. -/
inductive Expr where
  /-- a lambda parameter -/
  | param (name : String)
  /-- `target.name` -/
  | member (target : Expr) (name : String)
  | constant (value : Value)
  | binary (op : BinaryOp) (left right : Expr)
  | unary (op : UnaryOp) (operand : Expr)
  /-- `target.method(args)`, or `method(args)` without a target -/
  | call (method : String) (target : Option Expr) (args : List Expr)
  /-- `new ty { bindings }` -/
  | object (ty : Option String) (bindings : List Binding)
  | lambda (lambda : Lambda)
  | conditional (test ifTrue ifFalse : Expr)
  /-- a nested query -/
  | query (log : List Operator)
  /-- the rows numbered `id` in the current layer: 0 is the root, joins follow -/
  | source (id : Nat)
  /-- a group of rows with its key -/
  | grouping (key element : Expr)
  /-- the rows that group join number `join` attaches to an outer row -/
  | joinGroup (join : Nat) (element : Expr)
  | aggregate (func : AggregateFunc) (arg : Option Expr)

/-- An operand of an operator entry. -/
inductive Operand where
  | lambda (lambda : Lambda)
  | constant (value : Value)
  | typeName (ty : String)
  | query (log : List Operator)
  | entity (value : EntityValue)
  | entities (values : List EntityValue)

/-- One entry of a query log. -/
structure Operator where
  kind : OpKind
  operands : List Operand

end

instance : Inhabited Expr := ⟨.source 0⟩

/-- A query as recorded: its operators in order. -/
abbrev Log := List Operator

/-! ## Lambdas -/

namespace Lambda

def arity (l : Lambda) : Nat := l.params.length

def isIdentity : Lambda → Bool
  | ⟨[p], .param name⟩ => p == name
  | _ => false

end Lambda

namespace Expr

def isNullConstant : Expr → Bool
  | constant .null => true
  | _ => false

/-- Whether an expression is the whole root row. -/
def isRoot : Expr → Bool
  | source 0 => true
  | _ => false

def bindings? : Expr → Option (List Binding)
  | object _ bindings => some bindings
  | _ => none

/-- A chain of members that starts at a source: the source and the members passed. -/
def memberPath? : Expr → Option (Nat × List String)
  | source id => some (id, [])
  | member target name => target.memberPath?.map fun (id, path) => (id, path ++ [name])
  | _ => none

/-- The members of `path`, one after the other, from `e` on. -/
def follow (e : Expr) (path : List String) : Expr :=
  path.foldl member e

/-- The name an expression has as an output column of its own. -/
def outputName : Expr → String
  | member _ name => name
  | _ => "Value"

/-! ## Substitution -/

mutual

/-- Replaces free parameters by name, the first entry of `env` for a name being the one that counts.
A lambda hides its own parameters, and nested queries are left alone. -/
def substitute (env : List (String × Expr)) : Expr → Expr
  | param name => (env.lookup name).getD (param name)
  | member target name => member (target.substitute env) name
  | constant v => constant v
  | binary op l r => binary op (l.substitute env) (r.substitute env)
  | unary op e => unary op (e.substitute env)
  | call method target args =>
    call method (substituteOption env target) (substituteList env args)
  | object ty bindings => object ty (substituteBindings env bindings)
  | lambda ⟨params, body⟩ =>
    lambda ⟨params, body.substitute (env.filter fun entry => !params.contains entry.1)⟩
  | conditional t a b => conditional (t.substitute env) (a.substitute env) (b.substitute env)
  | query log => query log
  | source id => source id
  | grouping k e => grouping (k.substitute env) (e.substitute env)
  | joinGroup j e => joinGroup j (e.substitute env)
  | aggregate f arg => aggregate f (substituteOption env arg)

def substituteOption (env : List (String × Expr)) : Option Expr → Option Expr
  | none => none
  | some e => some (e.substitute env)

def substituteList (env : List (String × Expr)) : List Expr → List Expr
  | [] => []
  | e :: es => e.substitute env :: substituteList env es

def substituteBindings (env : List (String × Expr)) : List Binding → List Binding
  | [] => []
  | ⟨m, v⟩ :: bs => ⟨m, v.substitute env⟩ :: substituteBindings env bs

end

/-! ## Search -/

mutual

/-- Whether `p` holds of the expression or of a part of it. Nested queries are not entered. -/
def any (p : Expr → Bool) : Expr → Bool
  | param name => p (param name)
  | member target name => p (member target name) || target.any p
  | constant v => p (constant v)
  | binary op l r => p (binary op l r) || l.any p || r.any p
  | unary op e => p (unary op e) || e.any p
  | call method target args => p (call method target args) || anyOption p target || anyList p args
  | object ty bindings => p (object ty bindings) || anyBinding p bindings
  | lambda ⟨params, body⟩ => p (lambda ⟨params, body⟩) || body.any p
  | conditional t a b => p (conditional t a b) || t.any p || a.any p || b.any p
  | query log => p (query log)
  | source id => p (source id)
  | grouping k e => p (grouping k e) || k.any p || e.any p
  | joinGroup j e => p (joinGroup j e) || e.any p
  | aggregate f arg => p (aggregate f arg) || anyOption p arg

def anyOption (p : Expr → Bool) : Option Expr → Bool
  | none => false
  | some e => e.any p

def anyList (p : Expr → Bool) : List Expr → Bool
  | [] => false
  | e :: es => e.any p || anyList p es

def anyBinding (p : Expr → Bool) : List Binding → Bool
  | [] => false
  | ⟨_, v⟩ :: bs => v.any p || anyBinding p bs

end

def isParam : Expr → Bool
  | param _ => true
  | _ => false

def isConstant : Expr → Bool
  | constant _ => true
  | _ => false

def isAggregate : Expr → Bool
  | aggregate _ _ => true
  | _ => false

/-! ## Size -/

mutual

/-- The number of nodes, nested queries counting as one. -/
def size : Expr → Nat
  | param _ | constant _ | query _ | source _ => 1
  | member target _ => target.size + 1
  | binary _ l r => l.size + r.size + 1
  | unary _ e => e.size + 1
  | call _ target args => sizeOption target + sizeList args + 1
  | object _ bindings => sizeBindings bindings + 1
  | lambda ⟨_, body⟩ => body.size + 1
  | conditional t a b => t.size + a.size + b.size + 1
  | grouping k e => k.size + e.size + 1
  | joinGroup _ e => e.size + 1
  | aggregate _ arg => sizeOption arg + 1

def sizeOption : Option Expr → Nat
  | none => 0
  | some e => e.size

def sizeList : List Expr → Nat
  | [] => 0
  | e :: es => e.size + sizeList es

def sizeBindings : List Binding → Nat
  | [] => 0
  | ⟨_, v⟩ :: bs => v.size + sizeBindings bs

end

end Expr

/-! ## Nesting of queries -/

mutual

/-- How deeply queries are nested in an expression. -/
def Expr.nesting : Expr → Nat
  | .param _ | .constant _ | .source _ => 0
  | .member target _ => target.nesting
  | .binary _ l r => max l.nesting r.nesting
  | .unary _ e => e.nesting
  | .call _ target args => max (Expr.nestingOption target) (Expr.nestingList args)
  | .object _ bindings => Expr.nestingBindings bindings
  | .lambda ⟨_, body⟩ => body.nesting
  | .conditional t a b => max t.nesting (max a.nesting b.nesting)
  | .query log => Expr.nestingLog log + 1
  | .grouping k e => max k.nesting e.nesting
  | .joinGroup _ e => e.nesting
  | .aggregate _ arg => Expr.nestingOption arg

def Expr.nestingOption : Option Expr → Nat
  | none => 0
  | some e => e.nesting

def Expr.nestingList : List Expr → Nat
  | [] => 0
  | e :: es => max e.nesting (Expr.nestingList es)

def Expr.nestingBindings : List Binding → Nat
  | [] => 0
  | ⟨_, v⟩ :: bs => max v.nesting (Expr.nestingBindings bs)

def Expr.nestingOperands : List Operand → Nat
  | [] => 0
  | .lambda ⟨_, body⟩ :: os => max body.nesting (Expr.nestingOperands os)
  | .query log :: os => max (Expr.nestingLog log + 1) (Expr.nestingOperands os)
  | .constant _ :: os | .typeName _ :: os | .entity _ :: os | .entities _ :: os =>
    Expr.nestingOperands os

def Expr.nestingLog : List Operator → Nat
  | [] => 0
  | ⟨_, operands⟩ :: ops => max (Expr.nestingOperands operands) (Expr.nestingLog ops)

end

/-- How deeply queries are nested in a log: 0 when it holds no other. -/
def Log.nesting (log : Log) : Nat :=
  Expr.nestingLog log

end QueryCompiler

import QueryCompiler.Error
import QueryCompiler.Expr.Basic
/-!
# Binding lambdas to rows

A lambda is bound by replacing its parameters with the rows they stand for and reducing the result:
a member of an object construction is the value bound to it, the key of a grouping is its key, and
a method of a grouping is an aggregate over its elements. After that no parameter is left outside
the bodies of lambdas.

Reducing an aggregate binds the lambda it is given, so binding calls itself. `reduceWith` is one
pass over an expression with the treatment of aggregates left open; `bindAt` ties the knot for a
number of aggregates inside one another, and `bind` allows as many as it takes. The expression
rarely has more of them than nodes, so that number is tried first; a lambda that is handed to itself
can need any number.
-/

namespace QueryCompiler

/-- The value bound to a member of an object construction. -/
def Binding.find? (bindings : List Binding) (member : String) : Option Expr :=
  (bindings.find? (·.member == member)).map (·.value)

namespace Expr

def foldMember (target : Expr) (name : String) : Compiled Expr :=
  match target with
  | object ty bindings =>
    match Binding.find? bindings name with
    | some value => .ok value
    | none => .error (.unknownMember (ty.getD "anonymous") name)
  | grouping key element =>
    if name == "Key" then .ok key else .ok (member (grouping key element) name)
  | target => .ok (member target name)

/-- A method of a group: what to do with its name, the elements of the group and the arguments. -/
abbrev GroupCall := String → Expr → List Expr → Compiled Expr

mutual

/-- Folds members through object constructions and groupings, and hands the methods of groupings to
`onGroup`. The bodies of lambdas and nested queries are left alone. -/
def reduceWith (onGroup : GroupCall) : Expr → Compiled Expr
  | param name => .error (.ambiguous (.unboundParameter name))
  | member target name => do foldMember (← target.reduceWith onGroup) name
  | call method target args => do
    match ← reduceOption onGroup target with
    | some (grouping _ element) => onGroup method element args
    | target => return call method target (← reduceList onGroup args)
  | binary op l r => do return binary op (← l.reduceWith onGroup) (← r.reduceWith onGroup)
  | unary op e => do return unary op (← e.reduceWith onGroup)
  | object ty bindings => do return object ty (← reduceBindings onGroup bindings)
  | conditional t a b => do
    return conditional (← t.reduceWith onGroup) (← a.reduceWith onGroup) (← b.reduceWith onGroup)
  | grouping k e => do return grouping (← k.reduceWith onGroup) (← e.reduceWith onGroup)
  | joinGroup j e => do return joinGroup j (← e.reduceWith onGroup)
  | aggregate f arg => do return aggregate f (← reduceOption onGroup arg)
  | lambda l => .ok (lambda l)
  | constant v => .ok (constant v)
  | query log => .ok (query log)
  | source id => .ok (source id)

def reduceOption (onGroup : GroupCall) : Option Expr → Compiled (Option Expr)
  | none => .ok none
  | some e => do return some (← e.reduceWith onGroup)

def reduceList (onGroup : GroupCall) : List Expr → Compiled (List Expr)
  | [] => .ok []
  | e :: es => do return (← e.reduceWith onGroup) :: (← reduceList onGroup es)

def reduceBindings (onGroup : GroupCall) : List Binding → Compiled (List Binding)
  | [] => .ok []
  | ⟨m, v⟩ :: bs => do return ⟨m, ← v.reduceWith onGroup⟩ :: (← reduceBindings onGroup bs)

end

/-- The aggregate of a function with an optional selector over the elements of a group. Counting
with a test adds one for each element that passes it. -/
def aggregateOf (func : AggregateFunc) (element : Expr) (selector : Option Expr) : Expr :=
  match func, selector with
  | .count, none => aggregate .count none
  | .count, some test =>
    aggregate .sum (some (conditional test (constant (.int 1)) (constant (.int 0))))
  | func, some selector => aggregate func (some selector)
  | func, none => aggregate func (some element)

/-- A method of a group with at most one lambda, which `bindElement` binds to the elements. -/
def groupAggregate (bindElement : Lambda → Expr → Compiled Expr) : GroupCall :=
  fun method element args =>
    match AggregateFunc.ofMethod? method with
    | none => .error (.unsupportedMethod ("IGrouping." ++ method))
    | some func =>
      match args with
      | [] => .ok (aggregateOf func element none)
      | [lambda l] => do return aggregateOf func element (some (← bindElement l element))
      | _ => .error (.invalidOperand method .groupingArguments)

end Expr

namespace Lambda

/-- The rows a lambda's parameters stand for, when there is one for each. -/
def environment (l : Lambda) (args : List Expr) : Compiled (List (String × Expr)) :=
  if l.arity == args.length then .ok (l.params.zip args)
  else .error (.invalidOperand "lambda" (.parameterCount args.length l.arity))

/-- Binds a lambda, with at most `depth` aggregates of groups inside one another. -/
def bindAt : Nat → Lambda → List Expr → Compiled Expr
  | depth, l, args => do
    let env ← l.environment args
    (l.body.substitute env).reduceWith
      (match depth with
        | 0 => fun _ _ _ => .error .endlessBinding
        | depth + 1 => Expr.groupAggregate fun l element => bindAt depth l [element])

/-- The first number of aggregates inside one another, from `depth` on, that suffices. -/
def sufficientDepth (l : Lambda) (args : List Expr) (depth : Nat) : Option Nat :=
  repeatM (fun n => match l.bindAt n args with
    | .error .endlessBinding => some (.inl (n + 1))
    | _ => some (.inr n)) depth

/-- The number of aggregates inside one another that is tried first. -/
def bindingDepth (l : Lambda) (args : List Expr) : Nat :=
  l.body.size + Expr.sizeList args

/-- Binds a lambda to one row for each parameter. -/
def bind (l : Lambda) (args : List Expr) : Compiled Expr :=
  match l.bindAt (l.bindingDepth args) args with
  | .error .endlessBinding =>
    match l.sufficientDepth args (l.bindingDepth args + 1) with
    | some depth => l.bindAt depth args
    | none => .error .endlessBinding
  | outcome => outcome

end Lambda

/-- The conjunction of tests in order; none for no test. -/
def Expr.conjoin : List Expr → Option Expr
  | [] => none
  | e :: es => some (es.foldl (.binary .and) e)

end QueryCompiler

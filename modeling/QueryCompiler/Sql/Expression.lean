import QueryCompiler.Expr.Display
import QueryCompiler.Sql.Scope
/-!
# Expressions as terms

An expression is read either as a value or as a test. A value where a test is wanted is compared
with 1, a comparison or connective where a value is wanted becomes a `CASE`. Both readings are one
function, `Context.read`, with the choice as an argument.

Methods are recognised by name, by having a target or not, and by the number of arguments. Each
argument comes with the way to read it, so that a method decides which arguments are read, and in
which order.
-/

namespace QueryCompiler.Sql

/-- A term with the type of its values, where a column fixes it. -/
structure Typed where
  term : Term
  dbType : Option DbType := none

/-- A part of a call, with the way to read it as a value. -/
structure Part where
  expr : Expr
  value : Reading Typed

namespace Typed

def string (t : Term) : Typed := ⟨t, some .nVarChar⟩

def asTest (t : Typed) : Typed :=
  if t.term.isTest then t else { term := t.term.equalsBit true }

/-- A test, or the number that stands for it. -/
def ofTest (wantTest : Bool) (test : Term) : Typed :=
  { term := if wantTest then test else .ofTest test }

def ofValue (wantTest : Bool) (t : Typed) : Typed :=
  if wantTest then t.asTest else t

/-- Whether an expression yields a string, so that adding to it joins strings. -/
def isString (t : Typed) : Expr → Bool
  | .constant (.string _) => true
  | _ => t.dbType.any DbType.isString

def compareNull (op : BinaryOp) (t : Typed) : Term :=
  let subject := t.term.wrap Term.testing true
  match op with
  | .eq => .isNull subject
  | .ne => .isNotNull subject
  | op => .binary op subject .null

def compare (op : BinaryOp) (l r : Typed) : Term :=
  .binary op (l.term.wrap Term.testing true) (r.term.wrap Term.testing true)

def concat (l r : Typed) : Typed :=
  let place := BinaryOp.precedence .add
  string (.concat [l.term.wrap place false, r.term.wrap place true])

def arithmetic (op : BinaryOp) (l r : Typed) : Typed :=
  let place := op.precedence
  ⟨.binary op (l.term.wrap place false) (r.term.wrap place true), l.dbType.or r.dbType⟩

def connect (op : BinaryOp) (l r : Typed) : Term :=
  let place := op.precedence
  .binary op (l.term.wrap place false) (r.term.wrap place false)

/-- An aggregate of a selector, or of the rows themselves if they are counted. -/
def aggregate (func : AggregateFunc) : Option Typed → Compiled Typed
  | some t => .ok ⟨.call func.sqlName [t.term], t.dbType⟩
  | none =>
    if func == .count then .ok { term := .call func.sqlName [.number 1] }
    else .error (.ambiguous (.missingSelector func.sqlName))

end Typed

/-! ## Methods and properties -/

/-- The members that are functions of a scalar. -/
def isProperty (name : String) : Bool :=
  ["Length", "Year", "Month", "Day", "Hour", "Minute", "Second", "Date"].contains name

/-- A function of a scalar by the name of the member. -/
def property (t : Term) (name : String) : Compiled Typed :=
  match name with
  | "Length" => .ok ⟨.length t, some .int⟩
  | "Year" => .ok ⟨.call "YEAR" [t], some .int⟩
  | "Month" => .ok ⟨.call "MONTH" [t], some .int⟩
  | "Day" => .ok ⟨.call "DAY" [t], some .int⟩
  | "Hour" => .ok ⟨.datePart "HOUR" t, some .int⟩
  | "Minute" => .ok ⟨.datePart "MINUTE" t, some .int⟩
  | "Second" => .ok ⟨.datePart "SECOND" t, some .int⟩
  | "Date" => .ok ⟨.dateOnly t, some .date⟩
  | other => .error (.unsupportedMethod other)

namespace Part

/-- Whether an item is in a list. Nothing is in an empty one. -/
def inList (items : List Value) (item : Part) : Reading Typed := do
  if items.isEmpty then return { term := .truth false }
  let v ← item.value
  let list ← Reading.plainConstant (.list items)
  return { term := .isIn v.term list }

/-- The pattern of a `LIKE`: the escaped string, or the value of an expression as it is, with any
text before it or behind it. -/
def pattern (d : Dialect) (arg : Part) (before behind : Bool) : Reading Term := do
  match arg.expr with
  | .constant .null => throw (.invalidOperand "LIKE" .nullPattern)
  | .constant (.string s) =>
    let mark := fun (wanted : Bool) => if wanted then "%" else ""
    Reading.plainConstant (.string (mark before ++ d.likeEscape s ++ mark behind))
  | _ =>
    let v ← arg.value
    let mark := fun (wanted : Bool) => if wanted then [Term.word "%"] else []
    return .concat (mark before ++ [v.term.wrap (BinaryOp.precedence .add) true] ++ mark behind)

/-- Whether a string matches a pattern. -/
def like (d : Dialect) (t arg : Part) (before behind : Bool) : Reading Typed := do
  let v ← t.value
  let pattern ← pattern d arg before behind
  return { term := .like (v.term.wrap (BinaryOp.precedence .add) false) pattern }

def equals (t arg : Part) : Reading Typed := do
  let v ← t.value
  if arg.expr.isNullConstant then return { term := .isNull v.term }
  let w ← arg.value
  return { term := .binary .eq v.term w.term }

def position (start : Part) : Reading Term := do
  match start.expr with
  | .constant (.int n) => return .number (n + 1).toInt
  | _ =>
    let v ← start.value
    return .binary .add (v.term.wrap (BinaryOp.precedence .add) false) (.number 1)

def substring (t start : Part) (length : Option Part) : Reading Typed := do
  let v ← t.value
  let start ← position start
  let length ← length.mapM (·.value)
  return .string (.substring v.term start (length.map (·.term)))

def stringCall (function : String) (args : List Part) : Reading Typed := do
  let args ← args.mapM (·.value)
  return .string (.call function (args.map (·.term)))

def call (d : Dialect) (method : String) (target : Option Part) (args : List Part) :
    Reading Typed := do
  match method, target, args with
  | "Contains", some t, [arg] =>
    match t.expr with
    | .constant (.list items) => inList items arg
    | _ => like d t arg true true
  | "Contains", none, [list, item] =>
    match list.expr with
    | .constant (.list items) => inList items item
    | _ => throw (.unsupportedMethod "Contains/2")
  | "StartsWith", some t, [arg] => like d t arg false true
  | "EndsWith", some t, [arg] => like d t arg true false
  | "Equals", some t, [arg] => equals t arg
  | "Substring", some t, [start] => substring t start none
  | "Substring", some t, [start, length] => substring t start (some length)
  | "Trim", some t, [] => return .string (.trim (← t.value).term)
  | "TrimStart", some t, [] => stringCall "LTRIM" [t]
  | "TrimEnd", some t, [] => stringCall "RTRIM" [t]
  | "ToUpper", some t, [] => stringCall "UPPER" [t]
  | "ToLower", some t, [] => stringCall "LOWER" [t]
  | "Length", some t, [] => property (← t.value).term "Length"
  | "Replace", some t, [before, behind] => stringCall "REPLACE" [t, before, behind]
  | "ToString", some t, [] => return .string (.stringCast (← t.value).term)
  | "IsNullOrEmpty", none, [arg] =>
    let v ← arg.value
    return { term := .paren (.binary .or (.isNull v.term) (.binary .eq v.term (.word ""))) }
  | "Concat", none, part :: parts =>
    let vs ← (part :: parts).mapM (·.value)
    return .string (.concat (vs.map fun v => v.term.wrap (BinaryOp.precedence .add) true))
  | "Now", none, [] => return ⟨.now false, some .dateTime⟩
  | "UtcNow", none, [] => return ⟨.now true, some .dateTime⟩
  | "Abs", none, [arg] =>
    let v ← arg.value
    return ⟨.call "ABS" [v.term], v.dbType⟩
  | "Round", none, [arg] =>
    let v ← arg.value
    return ⟨.round v.term none, v.dbType⟩
  | "Round", none, [arg, digits] =>
    let v ← arg.value
    let digits ← digits.value
    return ⟨.round v.term (some digits.term), v.dbType⟩
  | _, _, _ => throw (.unsupportedMethod (method ++ "/" ++ toString args.length))

end Part

/-! ## Expressions -/

namespace Context

def memberValue (ctx : Context) (target : Expr) (name : String) : Reading Typed := do
  match (Expr.member target name).memberPath? with
  | none => throw (.ambiguous (.memberWithoutColumn name target.display))
  | some (id, path) =>
    match ← ctx.resolve id path with
    | .column ref dbType => return ⟨.column ref, dbType⟩
    | .row row _ => throw (.ambiguous (.entityAsValue (row.ty.getD row.key)))

def isPropertyOf (ctx : Context) (target : Expr) (name : String) : Compiled Bool := do
  if isProperty name then return (← ctx.layer.shape ctx.schema target) == .scalar
  else return false

mutual

def read (ctx : Context) (wantTest : Bool) : Expr → Reading Typed
  | .member target name => do
    if ← ctx.isPropertyOf target name then
      return .ofValue wantTest (← property (← ctx.read false target).term name)
    else return .ofValue wantTest (← ctx.memberValue target name)
  | .constant v =>
    match wantTest, v with
    | true, .bool b => return { term := .truth b }
    | _, _ => do return .ofValue wantTest { term := ← Reading.plainConstant v }
  | .binary op l r => do
    if op.isLogical then
      let l ← ctx.read true l
      let r ← ctx.read true r
      return .ofTest wantTest (l.connect op r)
    else if op.isComparison then
      let subject ← if l.isNullConstant then ctx.read false r else ctx.read false l
      if l.isNullConstant || r.isNullConstant then
        return .ofTest wantTest (subject.compareNull op)
      else
        let other ← match r, subject.dbType with
          | .constant v, some dbType => do pure { term := ← Reading.constant dbType none v }
          | _, _ => ctx.read false r
        return .ofTest wantTest (subject.compare op other)
    else
      let left ← ctx.read false l
      let right ← ctx.read false r
      let typed :=
        if op == .coalesce then ⟨.coalesce left.term right.term, left.dbType⟩
        else if op == .concat || (op == .add && (left.isString l || right.isString r)) then
          left.concat right
        else left.arithmetic op right
      return .ofValue wantTest typed
  | .unary .not e => do
    match e with
    | .member _ _ | .constant _ =>
      return .ofTest wantTest ((← ctx.read false e).term.equalsBit false)
    | _ => return .ofTest wantTest (.not (← ctx.read true e).term)
  | .unary .negate e => do
    let v ← ctx.read false e
    return .ofValue wantTest ⟨.negate (v.term.wrap Term.atomic false), v.dbType⟩
  | .conditional t a b => do
    let t ← ctx.read true t
    let a ← ctx.read false a
    let b ← ctx.read false b
    return .ofValue wantTest ⟨.caseWhen t.term a.term b.term, a.dbType.or b.dbType⟩
  | .aggregate f arg => do
    return .ofValue wantTest (← Typed.aggregate f (← ctx.readOption arg))
  | .call method target args => do
    return .ofValue wantTest
      (← Part.call ctx.dialect method (ctx.partOption target) (ctx.parts args))
  | .source id => throw (.ambiguous (.rowAsValue id))
  | .object _ _ => throw (.ambiguous .objectAsValue)
  | .param name => throw (.ambiguous (.unboundParameter name))
  | .lambda l => throw (.ambiguous (.notAValue (Expr.lambda l).display))
  | .query log => throw (.ambiguous (.notAValue (Expr.query log).display))
  | .grouping k e => throw (.ambiguous (.notAValue (Expr.grouping k e).display))
  | .joinGroup j e => throw (.ambiguous (.notAValue (Expr.joinGroup j e).display))

def readOption (ctx : Context) : Option Expr → Reading (Option Typed)
  | none => return none
  | some e => do return some (← ctx.read false e)

def parts (ctx : Context) : List Expr → List Part
  | [] => []
  | e :: es => ⟨e, ctx.read false e⟩ :: ctx.parts es

def partOption (ctx : Context) : Option Expr → Option Part
  | none => none
  | some e => some ⟨e, ctx.read false e⟩

end

def value (ctx : Context) (e : Expr) : Reading Term := do
  return (← ctx.read false e).term

def test (ctx : Context) (e : Expr) : Reading Term := do
  return (← ctx.read true e).term

end Context

end QueryCompiler.Sql

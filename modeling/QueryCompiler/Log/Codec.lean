import QueryCompiler.Expr.Basic
import QueryCompiler.Json.Decode
/-!
# Queries in JSON

Constants, expressions and operator logs as JSON values, and back. An alternative is written as an
object with its name for the only field, or as the bare name when it has no content; an absent
option is written as null.
-/

namespace QueryCompiler

open Json (tagged ofOption)

/-! ## Constants -/

namespace Value

mutual

def toJson : Value → Json
  | null => .string "Null"
  | bool b => tagged "Bool" (.bool b)
  | int n => tagged "Int" (.integer n.toInt)
  | float x => tagged "Float" (Json.ofFloat x)
  | decimal d => tagged "Decimal" (.string d.text)
  | string s => tagged "String" (.string s)
  | dateTime t => tagged "DateTime" (.string (t.textWith "T"))
  | guid g => tagged "Guid" (.string g.text)
  | list items => tagged "List" (.array (toJsonList items))

def toJsonList : List Value → List Json
  | [] => []
  | v :: vs => v.toJson :: toJsonList vs

end

/-- A 64-bit whole number. -/
def int64? (j : Json) : Option Int64 :=
  (j.intWithin? Int64.minValue.toInt Int64.maxValue.toInt).map Int64.ofInt

/-- A decimal, written as a text or as a number. A number that is not a 64-bit whole number is
taken for the float it denotes. -/
def decimal? : Json → Option Number.Decimal
  | .string s => Number.Decimal.ofText? s
  | .integer n =>
    if Int64.minValue.toInt ≤ n && n < UInt64.size then some (.ofInt n)
    else ofFloatText (Number.Scientific.mk (n < 0) n.natAbs 0).toFloat
  | .decimal s => ofFloatText s.toFloat
  | _ => none
where
  /-- the decimal of a float's digits -/
  ofFloatText (x : Float) : Option Number.Decimal :=
    Number.Decimal.readPlain? (Number.floatText x).toList

/-- Reads a constant. The number bounds the nesting of lists. -/
def decode : Nat → Json → Option Value
  | 0, _ => none
  | levels + 1, j => do
    let (name, content) ← j.alternative?
    if name == "Null" then
      let _ ← Json.bare? name content
      some null
    else
      let content ← content
      match name with
      | "Bool" => content.bool?.map bool
      | "Int" => (int64? content).map int
      | "Float" => content.float?.map float
      | "Decimal" => (decimal? content).map decimal
      | "String" => content.string?.map string
      | "DateTime" => (content.string?.bind DateTime.ofText?).map dateTime
      | "Guid" => (content.string?.bind Guid.ofText?).map guid
      | "List" => (content.list? (decode levels)).map list
      | _ => none

def ofJson? (j : Json) : Option Value :=
  decode (j.depth + 1) j

end Value

/-! ## Payloads -/

namespace EntityValue

/-- A payload in JSON: its type and its values as pairs. -/
def toJson (e : EntityValue) : Json :=
  .object [
    ("ty", .string e.ty),
    ("values", .array (e.values.map fun (m, v) => .array [.string m, v.toJson]))]

def ofJson? (j : Json) : Option EntityValue := do
  let r ← j.record? ["ty", "values"]
  let ty ← r.required "ty" Json.string?
  let values ← r.required "values" (Json.list? (Json.pair? Json.string? Value.ofJson?))
  some ⟨ty, values⟩

end EntityValue

/-! ## Writing expressions and logs -/

mutual

def Expr.toJson : Expr → Json
  | .param name => tagged "Param" (.string name)
  | .member target name =>
    tagged "Member" (.object [("target", target.toJson), ("member", .string name)])
  | .constant v => tagged "Constant" v.toJson
  | .binary op l r =>
    tagged "Binary" (.object [
      ("op", .string op.name), ("left", l.toJson), ("right", r.toJson)])
  | .unary op e => tagged "Unary" (.object [("op", .string op.name), ("operand", e.toJson)])
  | .call method target args =>
    tagged "Call" (.object [
      ("method", .string method), ("target", Expr.toJsonOption target),
      ("args", .array (Expr.toJsonList args))])
  | .object ty bindings =>
    tagged "New" (.object [
      ("ty", ofOption .string ty), ("bindings", .array (Expr.toJsonBindings bindings))])
  | .lambda ⟨params, body⟩ =>
    tagged "Lambda" (.object [("params", Json.strings params), ("body", body.toJson)])
  | .conditional t a b =>
    tagged "Conditional" (.object [
      ("test", t.toJson), ("if_true", a.toJson), ("if_false", b.toJson)])
  | .query log => tagged "Query" (.array (Expr.toJsonLog log))
  | .source id => tagged "Source" (Json.ofNat id)
  | .grouping k e => tagged "Grouping" (.object [("key", k.toJson), ("element", e.toJson)])
  | .joinGroup j e =>
    tagged "JoinGroup" (.object [("join", Json.ofNat j), ("element", e.toJson)])
  | .aggregate f arg =>
    tagged "Aggregate" (.object [("func", .string f.name), ("arg", Expr.toJsonOption arg)])

def Expr.toJsonOption : Option Expr → Json
  | none => .null
  | some e => e.toJson

def Expr.toJsonList : List Expr → List Json
  | [] => []
  | e :: es => e.toJson :: Expr.toJsonList es

def Expr.toJsonBindings : List Binding → List Json
  | [] => []
  | ⟨m, v⟩ :: bs =>
    .object [("member", .string m), ("value", v.toJson)] :: Expr.toJsonBindings bs

def Expr.toJsonOperands : List Operand → List Json
  | [] => []
  | .lambda ⟨params, body⟩ :: os =>
    tagged "Lambda" (.object [("params", Json.strings params), ("body", body.toJson)]) ::
      Expr.toJsonOperands os
  | .constant v :: os => tagged "Constant" v.toJson :: Expr.toJsonOperands os
  | .typeName ty :: os => tagged "Type" (.string ty) :: Expr.toJsonOperands os
  | .query log :: os => tagged "Query" (.array (Expr.toJsonLog log)) :: Expr.toJsonOperands os
  | .entity e :: os => tagged "Entity" e.toJson :: Expr.toJsonOperands os
  | .entities es :: os =>
    tagged "Entities" (.array (es.map EntityValue.toJson)) :: Expr.toJsonOperands os

def Expr.toJsonLog : List Operator → List Json
  | [] => []
  | ⟨kind, operands⟩ :: ops =>
    .object [("kind", .string kind.name), ("operands", .array (Expr.toJsonOperands operands))] ::
      Expr.toJsonLog ops

end

def Lambda.toJson (l : Lambda) : Json :=
  .object [("params", Json.strings l.params), ("body", l.body.toJson)]

def Operator.toJson (op : Operator) : Json :=
  .object [
    ("kind", .string op.kind.name), ("operands", .array (Expr.toJsonOperands op.operands))]

/-- A log in JSON: the array of its entries. -/
def Log.toJson (log : Log) : Json :=
  .array (Expr.toJsonLog log)

/-! ## Reading expressions and logs

Each form is read by a function that takes the readers for the parts, and the readers for whole
expressions and logs are tied together with a bound on the nesting. -/

section Parts

variable (expr : Json → Option Expr) (log : Json → Option Log)

def Lambda.decodeWith (j : Json) : Option Lambda := do
  let r ← j.record? ["params", "body"]
  let params ← r.required "params" (Json.list? Json.string?)
  let body ← r.required "body" expr
  some ⟨params, body⟩

def Binding.decodeWith (j : Json) : Option Binding := do
  let r ← j.record? ["member", "value"]
  let member ← r.required "member" Json.string?
  let value ← r.required "value" expr
  some ⟨member, value⟩

def Operand.decodeWith (j : Json) : Option Operand := do
  let (name, content) ← j.alternative?
  let content ← content
  match name with
  | "Lambda" => (Lambda.decodeWith expr content).map .lambda
  | "Constant" => (Value.ofJson? content).map .constant
  | "Type" => content.string?.map .typeName
  | "Query" => (log content).map .query
  | "Entity" => (EntityValue.ofJson? content).map .entity
  | "Entities" => (content.list? EntityValue.ofJson?).map .entities
  | _ => none

def Operator.decodeWith (j : Json) : Option Operator := do
  let r ← j.record? ["kind", "operands"]
  let kind ← r.required "kind" (Json.named? OpKind.ofName?)
  let operands ← r.defaulted "operands" (Json.list? (Operand.decodeWith expr log)) []
  some ⟨kind, operands⟩

def Expr.decodeWith (j : Json) : Option Expr := do
  let (name, content) ← j.alternative?
  let fields := fun names => Json.contentRecord? names content
  match name with
  | "Param" => (content.bind Json.string?).map .param
  | "Member" => do
    let r ← fields ["target", "member"]
    some (.member (← r.required "target" expr) (← r.required "member" Json.string?))
  | "Constant" => (content.bind Value.ofJson?).map .constant
  | "Binary" => do
    let r ← fields ["op", "left", "right"]
    let op ← r.required "op" (Json.named? BinaryOp.ofName?)
    some (.binary op (← r.required "left" expr) (← r.required "right" expr))
  | "Unary" => do
    let r ← fields ["op", "operand"]
    let op ← r.required "op" (Json.named? UnaryOp.ofName?)
    some (.unary op (← r.required "operand" expr))
  | "Call" => do
    let r ← fields ["method", "target", "args"]
    let method ← r.required "method" Json.string?
    some (.call method (← r.optional "target" expr) (← r.required "args" (Json.list? expr)))
  | "New" => do
    let r ← fields ["ty", "bindings"]
    let ty ← r.optional "ty" Json.string?
    some (.object ty (← r.required "bindings" (Json.list? (Binding.decodeWith expr))))
  | "Lambda" => (content.bind (Lambda.decodeWith expr)).map .lambda
  | "Conditional" => do
    let r ← fields ["test", "if_true", "if_false"]
    some (.conditional (← r.required "test" expr) (← r.required "if_true" expr)
      (← r.required "if_false" expr))
  | "Query" => (content.bind log).map .query
  | "Source" => (content.bind Json.nat?).map .source
  | "Grouping" => do
    let r ← fields ["key", "element"]
    some (.grouping (← r.required "key" expr) (← r.required "element" expr))
  | "JoinGroup" => do
    let r ← fields ["join", "element"]
    some (.joinGroup (← r.required "join" Json.nat?) (← r.required "element" expr))
  | "Aggregate" => do
    let r ← fields ["func", "arg"]
    let func ← r.required "func" (Json.named? AggregateFunc.ofName?)
    some (.aggregate func (← r.optional "arg" expr))
  | _ => none

end Parts

mutual

/-- Reads an expression nested at most so deep. -/
def Expr.decode : Nat → Json → Option Expr
  | 0, _ => none
  | levels + 1, j => Expr.decodeWith (Expr.decode levels) (Log.decode levels) j

/-- Reads a log nested at most so deep. -/
def Log.decode : Nat → Json → Option Log
  | 0, _ => none
  | levels + 1, j =>
    j.list? (Operator.decodeWith (Expr.decode levels) (Log.decode levels))

end

def Expr.ofJson? (j : Json) : Option Expr :=
  Expr.decode (j.depth + 1) j

def Log.ofJson? (j : Json) : Option Log :=
  Log.decode (j.depth + 1) j

def Lambda.ofJson? (j : Json) : Option Lambda :=
  Lambda.decodeWith Expr.ofJson? j

def Operand.ofJson? (j : Json) : Option Operand :=
  Operand.decodeWith Expr.ofJson? Log.ofJson? j

end QueryCompiler

import QueryCompiler.Log.Codec
import QueryCompiler.Plan.Basic
/-!
# Plans in JSON

Layers, joins and plans as JSON values, and back. Every clause of a layer is written, an absent one
as null.
-/

namespace QueryCompiler

open Json (tagged ofOption)

/-! ## Writing -/

def Order.toJson (o : Order) : Json :=
  .object [("expr", o.expr.toJson), ("descending", .bool o.descending)]

def Aggregation.toJson (a : Aggregation) : Json :=
  .object [("func", .string a.func.name), ("selector", ofOption Expr.toJson a.selector)]

mutual

def Layer.toJson : Layer → Json
  | ⟨c, subquery, joins, unions⟩ =>
    .object [
      ("source", ofOption .string c.source),
      ("subquery", Layer.toJsonOption subquery),
      ("distinct", .bool c.distinct),
      ("any", .bool c.any),
      ("has_many", .bool c.hasMany),
      ("joins", .array (Layer.toJsonJoins joins)),
      ("orders", .array (c.orders.map Order.toJson)),
      ("group_by", ofOption Expr.toJson c.groupBy),
      ("aggregate", ofOption Aggregation.toJson c.aggregate),
      ("unions", .array (Layer.toJsonList unions)),
      ("includes", .array (c.includes.map Json.strings)),
      ("skip", Json.ofNat c.skip),
      ("take", Json.ofNat c.take),
      ("select", c.select.toJson),
      ("predicate", ofOption Expr.toJson c.predicate),
      ("having", ofOption Expr.toJson c.having)]

def Layer.toJsonOption : Option Layer → Json
  | none => .null
  | some l => l.toJson

def Layer.toJsonList : List Layer → List Json
  | [] => []
  | l :: ls => l.toJson :: Layer.toJsonList ls

def Layer.toJsonTarget : JoinTarget → Json
  | .table ty => tagged "Table" (.string ty)
  | .subquery l => tagged "Subquery" l.toJson

def Layer.toJsonJoins : List Join → List Json
  | [] => []
  | ⟨kind, source, target, rowType, outerKeys, innerKeys⟩ :: js =>
    .object [
      ("kind", .string kind.name),
      ("source", Json.ofNat source),
      ("target", Layer.toJsonTarget target),
      ("row_type", ofOption .string rowType),
      ("outer_keys", .array (Expr.toJsonList outerKeys)),
      ("inner_keys", .array (Expr.toJsonList innerKeys))] :: Layer.toJsonJoins js

end

def InsertPayload.toJson : InsertPayload → Json
  | entity e => tagged "Entity" e.toJson
  | entities es => tagged "Entities" (.array (es.map EntityValue.toJson))
  | query l => tagged "Query" l.toJson

def UpdatePayload.toJson : UpdatePayload → Json
  | entity e => tagged "Entity" e.toJson
  | assignments c => tagged "Assignments" c.toJson

def DeletePayload.toJson : DeletePayload → Json
  | entity e => tagged "Entity" e.toJson
  | scope => .string "Predicate"

def Plan.toJson : Plan → Json
  | select l => tagged "Select" l.toJson
  | insert target payload =>
    tagged "Insert" (.object [("target", .string target), ("payload", payload.toJson)])
  | update target payload scope =>
    tagged "Update" (.object [
      ("target", .string target), ("payload", payload.toJson), ("scope", scope.toJson)])
  | delete target payload scope =>
    tagged "Delete" (.object [
      ("target", .string target), ("payload", payload.toJson), ("scope", scope.toJson)])

/-! ## Reading -/

def Order.ofJson? (j : Json) : Option Order := do
  let r ← j.record? ["expr", "descending"]
  some ⟨← r.required "expr" Expr.ofJson?, ← r.required "descending" Json.bool?⟩

def Aggregation.ofJson? (j : Json) : Option Aggregation := do
  let r ← j.record? ["func", "selector"]
  let func ← r.required "func" (Json.named? AggregateFunc.ofName?)
  some ⟨func, ← r.optional "selector" Expr.ofJson?⟩

section Parts

variable (layer : Json → Option Layer)

/-- Reads where joined rows come from. -/
def JoinTarget.decodeWith (j : Json) : Option JoinTarget := do
  let (name, content) ← j.alternative?
  let content ← content
  match name with
  | "Table" => content.string?.map .table
  | "Subquery" => (layer content).map .subquery
  | _ => none

def Join.decodeWith (j : Json) : Option Join := do
  let r ← j.record? ["kind", "source", "target", "row_type", "outer_keys", "inner_keys"]
  some {
    kind := ← r.required "kind" (Json.named? JoinKind.ofName?)
    source := ← r.required "source" Json.nat?
    target := ← r.required "target" (JoinTarget.decodeWith layer)
    rowType := ← r.optional "row_type" Json.string?
    outerKeys := ← r.required "outer_keys" (Json.list? Expr.ofJson?)
    innerKeys := ← r.required "inner_keys" (Json.list? Expr.ofJson?) }

def Layer.decodeWith (j : Json) : Option Layer := do
  let r ← j.record? ["source", "subquery", "distinct", "any", "has_many", "joins", "orders",
    "group_by", "aggregate", "unions", "includes", "skip", "take", "select", "predicate", "having"]
  some {
    source := ← r.optional "source" Json.string?
    subquery := ← r.optional "subquery" layer
    distinct := ← r.required "distinct" Json.bool?
    any := ← r.required "any" Json.bool?
    hasMany := ← r.required "has_many" Json.bool?
    joins := ← r.required "joins" (Json.list? (Join.decodeWith layer))
    orders := ← r.required "orders" (Json.list? Order.ofJson?)
    groupBy := ← r.optional "group_by" Expr.ofJson?
    aggregate := ← r.optional "aggregate" Aggregation.ofJson?
    unions := ← r.required "unions" (Json.list? layer)
    includes := ← r.required "includes" (Json.list? (Json.list? Json.string?))
    skip := ← r.required "skip" Json.nat?
    take := ← r.required "take" Json.nat?
    select := ← r.required "select" Expr.ofJson?
    predicate := ← r.optional "predicate" Expr.ofJson?
    having := ← r.optional "having" Expr.ofJson? }

end Parts

/-- Reads a layer nested at most so deep. -/
def Layer.decode : Nat → Json → Option Layer
  | 0, _ => none
  | levels + 1, j => Layer.decodeWith (Layer.decode levels) j

def Layer.ofJson? (j : Json) : Option Layer :=
  Layer.decode (j.depth + 1) j

def Join.ofJson? (j : Json) : Option Join :=
  Join.decodeWith Layer.ofJson? j

def InsertPayload.ofJson? (j : Json) : Option InsertPayload := do
  let (name, content) ← j.alternative?
  let content ← content
  match name with
  | "Entity" => (EntityValue.ofJson? content).map .entity
  | "Entities" => (content.list? EntityValue.ofJson?).map .entities
  | "Query" => (Layer.ofJson? content).map .query
  | _ => none

def UpdatePayload.ofJson? (j : Json) : Option UpdatePayload := do
  let (name, content) ← j.alternative?
  let content ← content
  match name with
  | "Entity" => (EntityValue.ofJson? content).map .entity
  | "Assignments" => (Expr.ofJson? content).map .assignments
  | _ => none

def DeletePayload.ofJson? (j : Json) : Option DeletePayload := do
  let (name, content) ← j.alternative?
  match name with
  | "Entity" => (content.bind EntityValue.ofJson?).map .entity
  | "Predicate" => (Json.bare? name content).map fun _ => .scope
  | _ => none

def Plan.ofJson? (j : Json) : Option Plan := do
  let (name, content) ← j.alternative?
  let content ← content
  match name with
  | "Select" => (Layer.ofJson? content).map .select
  | "Insert" => do
    let r ← content.record? ["target", "payload"]
    some (.insert (← r.required "target" Json.string?)
      (← r.required "payload" InsertPayload.ofJson?))
  | "Update" => do
    let r ← content.record? ["target", "payload", "scope"]
    some (.update (← r.required "target" Json.string?)
      (← r.required "payload" UpdatePayload.ofJson?) (← r.required "scope" Layer.ofJson?))
  | "Delete" => do
    let r ← content.record? ["target", "payload", "scope"]
    some (.delete (← r.required "target" Json.string?)
      (← r.required "payload" DeletePayload.ofJson?) (← r.required "scope" Layer.ofJson?))
  | _ => none

end QueryCompiler

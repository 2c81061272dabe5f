import QueryCompiler.Log.Basic
import QueryCompiler.Plan.Exports
import QueryCompiler.Sql.Statement
/-!
# From plans to statements

Each layer is read in a scope of its own, clause by clause in the order of the text, so that
constants are numbered from left to right. The layers inside a layer come with the way to read
them, and are read where they stand.
-/

namespace QueryCompiler

open Sql

/-- The ordering of a layer: its own, or else that of the rows it reads, as far as it carries over.
Rows that are united, grouped or made distinct inherit none. -/
def Layer.effectiveOrders (schema : Schema) (l : Layer) : List Order :=
  if !l.orders.isEmpty || !l.unions.isEmpty then l.orders
  else if l.distinct || l.groupBy.isSome then []
  else (l.inheritedOrders schema).getD []

namespace Sql

/-! ## Clauses -/

namespace Context

/-- The rows of a join and the keys that must match. -/
def joinKeys (ctx : Context) (j : Join) : Reading (Nat × Option (List (Term × Term))) := do
  let row ← ctx.source j.source
  if j.kind == .cross then return (row.number, none)
  let place := BinaryOp.precedence .add
  let on ← (j.outerKeys.zip j.innerKeys).mapM fun (outer, inner) => do
    let l ← ctx.value outer
    let r ← ctx.value inner
    return (l.wrap place false, r.wrap place false)
  return (row.number, some on)

def groupTerms (ctx : Context) : Expr → Reading (List Term)
  | .object _ bindings => bindings.mapM fun b => ctx.value b.value
  | key => do return [← ctx.value key]

def sortKeys (ctx : Context) (orders : List Order) : Reading (List SortKey) :=
  orders.mapM fun o => do return ⟨← ctx.value o.expr, o.descending⟩

def assignments (ctx : Context) (target : Entity) (construction : Expr) :
    Reading (List Assignment) := do
  match construction.bindings? with
  | none => throw (.invalidOperand "Update" .assignmentsNotObject)
  | some [] => throw (.invalidOperand "Update" .nothingToUpdate)
  | some bindings =>
    bindings.mapM fun b => do
      let c ← target.column b.member
      if !c.isWritable then throw (.invalidOperand "Update" (.notWritable b.member))
      let value ← match b.value with
        | .constant v => Reading.constant c.dbType c.size v
        | other => ctx.value other
      return ⟨c.column, value⟩

def table (ctx : Context) (ty : String) : Compiled Relation := do
  return .table (← ctx.schema.entity ty).table

end Context

/-! ## Layers -/

/-- The layers inside a layer, each with the way to read it. -/
structure Inner where
  subquery : Option (Reading Query)
  /-- for each join -/
  targets : List (Reading Relation)
  /-- for each union -/
  branches : List (Reading Branch)

namespace Context

def relation (ctx : Context) (inner : Inner) : Reading Relation := do
  match inner.subquery with
  | some query => return .derived (← query)
  | none =>
    match ctx.layer.source with
    | some ty => ctx.table ty
    | none => throw (.ambiguous .noRowSource)

def joins (ctx : Context) (inner : Inner) : Reading (List JoinedRelation) :=
  (ctx.layer.joins.zip inner.targets).mapM fun (j, target) => do
    let relation ← target
    let (row, on) ← ctx.joinKeys j
    return { kind := j.kind, relation, row, on }

/-- Reads the clauses of the layer, with its columns first or after the joins, and an ordering. -/
def block {α : Type} (ctx : Context) (inner : Inner) (columnsFirst : Bool) (columns : Reading α)
    (orders : List Order) : Reading (α × Block × List SortKey) :=
  Reading.inLayer ctx.layer do
    let early ← if columnsFirst then some <$> columns else pure none
    let relation ← ctx.relation inner
    let joins ← ctx.joins inner
    let columns ← match early with
      | some a => pure a
      | none => columns
    let predicate ← ctx.layer.predicate.mapM ctx.test
    let groupBy ← ctx.layer.groupBy.mapM ctx.groupTerms
    let having ← ctx.layer.having.mapM ctx.test
    let orders ← ctx.sortKeys orders
    let navigations := (← get).aliases.joins
    return (columns, { relation, joins, navigations, predicate, groupBy, having }, orders)

/-- The rows of the layer under a projection. -/
def rows (ctx : Context) (inner : Inner) (select : Expr) (nested : Bool) : Reading Query := do
  let l := ctx.layer
  let (list, block, orders) ←
    ctx.block inner true (ctx.selectList select l.includes) (l.effectiveOrders ctx.schema)
  if l.skip > 0 && orders.isEmpty then throw (.missingOrder l.skip)
  return .rows block list orders l.distinct l.skip l.take nested

def withUnions (inner : Inner) (first : Query) : Reading Query := do
  if inner.branches.isEmpty then return first
  else return .union first (← inner.branches.mapM id)

/-- An aggregate over the layer. It is taken over the finished rows if these are made distinct,
grouped or paged. -/
def aggregated (ctx : Context) (inner : Inner) (a : Aggregation) : Reading Query := do
  let l := ctx.layer
  if l.distinct || l.groupBy.isSome || l.isPaginated then
    let first ← ctx.rows inner (a.selector.getD l.select) true
    return .aggregateOver a.func (a.selector.map Expr.outputName) (← withUnions inner first)
  else
    let (value, block, _) ← ctx.block inner true
      (do Typed.aggregate a.func (← ctx.readOption a.selector)) []
    return .aggregate value.term block

def query (ctx : Context) (inner : Inner) (nested : Bool) : Reading Query := do
  let l := ctx.layer
  let first ←
    if l.any then do
      let (_, block, _) ← ctx.block inner true (pure ()) []
      pure (Query.existence block)
    else match l.aggregate with
      | some a => ctx.aggregated inner a
      | none => ctx.rows inner l.select nested
  withUnions inner first

end Context

end Sql

section Layers

variable (schema : Schema) (dialect : Dialect)

mutual

/-- The query of a layer. A nested one stands in another statement. -/
def Layer.query (nested : Bool) : Layer → Reading Query
  | ⟨clauses, subquery, joins, unions⟩ =>
    Context.query ⟨schema, dialect, ⟨clauses, subquery, joins, unions⟩⟩
      ⟨Layer.queryOption subquery, Layer.targets joins, Layer.branches unions⟩ nested

def Layer.queryOption : Option Layer → Option (Reading Query)
  | none => none
  | some l => some (l.query true)

def Layer.targets : List Join → List (Reading Relation)
  | [] => []
  | ⟨_, _, .table ty, _, _, _⟩ :: js =>
    (do return .table (← schema.entity ty).table) :: Layer.targets js
  | ⟨_, _, .subquery l, _, _, _⟩ :: js =>
    (do return .derived (← l.query true)) :: Layer.targets js

/-- The branches of a union. One that is ordered or paged by itself is wrapped. -/
def Layer.branches : List Layer → List (Reading Branch)
  | [] => []
  | ⟨clauses, subquery, joins, unions⟩ :: ls =>
    let l : Layer := ⟨clauses, subquery, joins, unions⟩
    (do return ⟨l.isPaginated || !l.orders.isEmpty, ← l.query false⟩) :: Layer.branches ls

end

def Layer.inner (l : Layer) : Inner :=
  ⟨Layer.queryOption schema dialect l.subquery, Layer.targets schema dialect l.joins,
    Layer.branches schema dialect l.unions⟩

/-! ## Payloads -/

/-- Refuses a payload of another type, or with members that are no columns. -/
def Entity.checkPayload (entity : Entity) (value : EntityValue) : Compiled Unit := do
  if value.ty != entity.ty then
    throw (.invalidOperand "entity" (.typeMismatch entity.ty value.ty))
  value.values.forM fun (member, _) => discard (entity.column member)

/-- The key of a row, column by column. -/
def Entity.keyAssignments (entity : Entity) (value : EntityValue) :
    Reading (List Assignment) := do
  if entity.keys.isEmpty then throw (.missingKey entity.ty)
  entity.keys.mapM fun (member, c) => do
    match value.get? member with
    | none => throw (.invalidOperand "entity" (.missingKeyValue member))
    | some v => return ⟨c.column, ← Reading.constant c.dbType c.size v⟩

/-- The values that a row is updated with: those of its payload that are written and no key. -/
def Entity.updateAssignments (entity : Entity) (value : EntityValue) :
    Reading (List Assignment) :=
  (entity.columns.filterMap fun (member, c) =>
    if c.key || !c.isWritable then none
    else (value.get? member).map fun v => (c, v)).mapM fun (c, v) => do
      return ⟨c.column, ← Reading.constant c.dbType c.size v⟩

/-- The values of a row to be inserted, one for each written column. -/
def Entity.insertValues (entity : Entity) (value : EntityValue) :
    Reading (List (Option Term)) :=
  entity.writable.mapM fun (member, c) =>
    (value.get? member).mapM (Reading.constant c.dbType c.size)

/-! ## Modifications -/

def Entity.insertRows (entity : Entity) (rows : List EntityValue) : Reading Statement := do
  if rows.isEmpty then throw (.invalidOperand "Insert" .noRows)
  rows.forM fun row => entity.checkPayload row
  if entity.writable.isEmpty then throw (.invalidOperand "Insert" (.noWritableColumns entity.ty))
  let values ← rows.mapM entity.insertValues
  return .insertRows entity.table (entity.writable.map (·.2.column)) values
    (entity.identity?.map (·.1))

def Entity.insertQuery (entity : Entity) (scope : Layer) : Reading Statement := do
  match scope.select.bindings? with
  | none => throw (.invalidOperand "Insert" .insertSelectNeedsObject)
  | some bindings =>
    let columns ← bindings.mapM fun b => do
      let c ← entity.column b.member
      if !c.isWritable then throw (.invalidOperand "Insert" (.notWritable b.member))
      return c.column
    return .insertQuery entity.table columns (← scope.query schema dialect false)

def Entity.updateByKey (entity : Entity) (value : EntityValue) : Reading Statement := do
  entity.checkPayload value
  let assignments ← entity.updateAssignments value
  if assignments.isEmpty then throw (.invalidOperand "Update" .nothingToUpdate)
  return .updateByKey entity.table assignments (← entity.keyAssignments value)

def Plan.statement : Plan → Reading Statement
  | .select l => do return .query (← l.query schema dialect false)
  | .insert target payload => do
    let entity ← schema.entity target
    match payload with
    | .entity value => entity.insertRows [value]
    | .entities values => entity.insertRows values
    | .query scope => entity.insertQuery schema dialect scope
  | .update target payload scope => do
    let entity ← schema.entity target
    match payload with
    | .entity value => entity.updateByKey value
    | .assignments construction =>
      let ctx : Context := ⟨schema, dialect, scope⟩
      let (assignments, block, _) ← ctx.block (scope.inner schema dialect)
        dialect.assignmentsFirst (ctx.assignments entity construction) []
      return .update entity.table assignments block
  | .delete target payload scope => do
    let entity ← schema.entity target
    match payload with
    | .entity value =>
      entity.checkPayload value
      return .deleteByKey entity.table (← entity.keyAssignments value)
    | .scope =>
      let ctx : Context := ⟨schema, dialect, scope⟩
      let (_, block, _) ← ctx.block (scope.inner schema dialect) true (pure ()) []
      return .delete block

end Layers

end QueryCompiler

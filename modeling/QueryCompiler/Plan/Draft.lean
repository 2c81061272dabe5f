import QueryCompiler.Expr.Binding
import QueryCompiler.Log.Basic
import QueryCompiler.Plan.Exports
/-!
# Drafts

A draft is a layer under construction: the clauses collected so far, the row that the next lambda
ranges over, and what has been seen that may close the layer. After a bound on the number of rows,
after `Distinct` and after `AsSubquery`, the next operator starts an outer layer over the rows of
the finished one.
-/

namespace QueryCompiler

/-- A modification that ends a query. -/
inductive Modification where
  /-- without a payload, the rows of the query are inserted -/
  | insert (target : String) (payload : Option InsertPayload)
  | update (payload : UpdatePayload)
  | delete (payload : DeletePayload)

/-- A layer under construction. -/
structure Draft where
  layer : Layer
  /-- what the next lambda ranges over -/
  row : Expr
  filters : List Expr := []
  havings : List Expr := []
  grouped : Bool := false
  skipped : Bool := false
  taken : Bool := false
  /-- `Distinct` or `AsSubquery` has been seen -/
  closed : Bool := false
  /-- the operator that ends the query, once it has been seen -/
  terminal : Option OpKind := none
  modification : Option Modification := none
  /-- the number of operators applied to this layer -/
  applied : Nat := 0

def Operator.lambda (op : Operator) (index : Nat) : Compiled Lambda :=
  match op.lambda? index with
  | some l => .ok l
  | none => .error (.invalidOperand op.kind.name (.missingLambda index))

/-- Whether an operator cannot join the layer of a grouping. -/
def OpKind.leavesGrouping : OpKind → Bool
  | join | groupJoin | groupJoinRight | selectMany | groupBy
  | count | sum | max | min | average => true
  | _ => false

namespace Draft

/-- A draft over the table of an entity type. -/
def ofSource (ty : String) : Draft :=
  { layer := .ofSource ty, row := .source 0 }

/-- Whether an operator has to start a new layer. -/
def mustClose (d : Draft) (kind : OpKind) : Bool :=
  d.taken || d.closed || (d.skipped && kind != .take)
    || (!d.layer.unions.isEmpty && kind != .union)
    || (d.grouped && kind.leavesGrouping)

/-- The finished layer of a draft. A group is projected onto its key, and included paths are dropped
when whole rows are not returned. -/
def finished (d : Draft) : Layer :=
  let select := match d.row with
    | .grouping key _ => key
    | row => row
  { d.layer with
    select
    predicate := Expr.conjoin d.filters
    having := Expr.conjoin d.havings
    includes := if select.isRoot then d.layer.includes else [] }

/-- A draft over the rows of a finished one. Included paths move to it. -/
def wrap (schema : Schema) (d : Draft) : Compiled Draft := do
  let inner := d.finished
  let closed := { inner with includes := [] }
  let (row, source) ← closed.derivedRow schema 0
  return { layer := { Layer.ofLayer source closed with includes := inner.includes }, row }

def bindRow (d : Draft) (l : Lambda) : Compiled Expr :=
  l.bind [d.row]

/-- Adds a test, to the groups once rows are grouped. -/
def restrict (d : Draft) (test : Expr) : Draft :=
  if d.grouped then { d with havings := d.havings ++ [test] }
  else { d with filters := d.filters ++ [test] }

def restrictBy (d : Draft) (op : Operator) : Compiled Draft :=
  match op.lambda? 0 with
  | none => .ok d
  | some l => do return d.restrict (← d.bindRow l)

def finishWith (d : Draft) (kind : OpKind) : Draft :=
  { d with terminal := some kind }

def group (d : Draft) (op : Operator) : Compiled Draft := do
  let key ← d.bindRow (← op.lambda 0)
  let element ← match op.lambda? 1 with
    | some l => d.bindRow l
    | none => .ok d.row
  return { d with
    layer := { d.layer with groupBy := some key }
    row := .grouping key element
    grouped := true }

/-- The keys of an ordering: the members of an object construction, one by one. -/
def orderKeys (descending : Bool) : Expr → List Order
  | .object _ bindings => bindings.map fun b => ⟨b.value, descending⟩
  | e => [⟨e, descending⟩]

def addOrders (d : Draft) (op : Operator) (descending : Bool) : Compiled Draft := do
  let key ← d.bindRow (← op.lambda 0)
  return { d with
    layer := { d.layer with orders := d.layer.orders ++ orderKeys descending key } }

def order (d : Draft) (op : Operator) (descending : Bool) : Compiled Draft :=
  addOrders { d with layer := { d.layer with orders := [] } } op descending

def refineOrder (d : Draft) (op : Operator) (descending : Bool) : Compiled Draft :=
  if d.layer.orders.isEmpty then
    .error (.invalidOperand op.kind.name .thenByWithoutOrderBy)
  else d.addOrders op descending

/-- Passes over a number of rows. A layer without an ordering pages by that of the rows it reads. -/
def skip (schema : Schema) (d : Draft) (n : Nat) : Compiled Draft := do
  let orders :=
    if n > 0 && d.layer.orders.isEmpty then (d.layer.inheritedOrders schema).getD []
    else d.layer.orders
  if n > 0 && orders.isEmpty then .error (.missingOrder n)
  else return { d with layer := { d.layer with orders, skip := n }, skipped := n > 0 }

/-- Keeps at most a number of rows, or all for 0. -/
def take (d : Draft) (n : Nat) : Draft :=
  { d with layer := { d.layer with take := n }, taken := n > 0 }

def aggregate (schema : Schema) (d : Draft) (op : Operator) (func : AggregateFunc) :
    Compiled Draft := do
  let (d, selector) ← match func, op.lambda? 0 with
    | .count, _ => do pure (← d.restrictBy op, none)
    | _, some l => do pure (d, some (← d.bindRow l))
    | _, none => do
      match ← d.layer.shape schema d.row with
      | .scalar => pure (d, some d.row)
      | _ => throw (.invalidOperand op.kind.name .wholeRowAggregate)
  let d : Draft := { d with layer := { d.layer with aggregate := some ⟨func, selector⟩ } }
  return d.finishWith op.kind

/-- Appends the rows of another query. Orderings that do not serve paging are dropped on both
sides. -/
def union (d : Draft) (branch : Layer) : Draft :=
  let unordered := fun (l : Layer) => if l.isPaginated then l else { l with orders := [] }
  let layer := unordered d.layer
  { d with layer := { layer with unions := layer.unions ++ [unordered branch] } }

/-- Checks that a path from an entity type consists of navigations. -/
def checkNavigations (schema : Schema) (ty : String) : List String → Compiled Unit
  | [] => .ok ()
  | hop :: path => do
    let entity ← schema.entity ty
    match entity.navigation? hop with
    | none => .error (.unknownMember ty hop)
    | some nav => checkNavigations schema nav.target path

/-- Loads a path of navigations with the root rows. -/
def includePath (schema : Schema) (d : Draft) (op : Operator) : Compiled Draft := do
  let refuse {α : Type} (fault : OperandFault) : Compiled α :=
    .error (.invalidOperand op.kind.name fault)
  match d.layer.source with
  | none => refuse .includeWithoutEntity
  | some root =>
    if !d.row.isRoot then refuse .includeAfterProjection
    else
      let path ← (← op.lambda 0).bind [.source 0]
      match path.memberPath? with
      | some (0, hop :: hops) =>
        let hops := hop :: hops
        checkNavigations schema root hops
        if d.layer.includes.contains hops then return d
        else return { d with layer := { d.layer with includes := d.layer.includes ++ [hops] } }
      | _ => refuse (.notNavigationPath path.display)

end Draft

end QueryCompiler

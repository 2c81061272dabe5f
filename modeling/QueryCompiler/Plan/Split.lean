import QueryCompiler.Plan.Exports
/-!
# One-to-many splits

A projection that reaches a collection would repeat root rows under a flat join. Such a layer is
split: the inner layer keeps the filters, joins, grouping, paging and scalar columns, and the outer
layer attaches the navigations to its rows.
-/

namespace QueryCompiler

namespace Layer

section Split

variable (schema : Schema) (l : Layer)

mutual

/-- Whether a projection binds a collection, at any depth of object constructions. -/
def bindsCollection : Expr → Compiled Bool
  | .object _ bindings => bindsCollectionAny bindings
  | e => do return (← l.shape schema e).isCollection

def bindsCollectionAny : List Binding → Compiled Bool
  | [] => .ok false
  | ⟨_, v⟩ :: bs => do
    if ← bindsCollection v then return true
    bindsCollectionAny bs

end

/-- Whether a path of navigations from an entity type passes a collection. -/
def pathReachesCollection (ty : String) : List String → Compiled Bool
  | [] => .ok false
  | hop :: path => do
    let entity ← schema.entity ty
    match entity.navigation? hop with
    | none => .error (.unknownMember ty hop)
    | some nav => if nav.many then .ok true else pathReachesCollection nav.target path

/-- Whether one of some paths from an entity type passes a collection. -/
def anyReachesCollection (ty : String) : List (List String) → Compiled Bool
  | [] => .ok false
  | path :: paths => do
    if ← pathReachesCollection schema ty path then return true
    anyReachesCollection ty paths

def includesCollection : Compiled Bool :=
  match l.source with
  | none => .ok false
  | some ty => anyReachesCollection schema ty l.includes

mutual

/-- Has the keys of the navigations exported that a projection binds, so that no other column takes
their names. -/
def requireNavigationKeys (b : Boundary) : Expr → Exporting Unit
  | .object _ bindings => requireKeysOf b bindings
  | _ => return

def requireKeysOf (b : Boundary) : List Binding → Exporting Unit
  | [] => return
  | ⟨_, v⟩ :: bs => do
    match ← l.shape schema v with
    | .scalar | .row => pure ()
    | .object => requireNavigationKeys b v
    | .entity _ | .collection _ => discard (b.rebase v)
    requireKeysOf b bs

end

mutual

/-- The outer half of a projection: scalars are read from the inner layer, navigations stay. -/
def splitProjection (b : Boundary) : Expr → Exporting Expr
  | .object ty bindings => do return .object ty (← splitBindings b bindings)
  | e => b.rebase e

def splitBindings (b : Boundary) : List Binding → Exporting (List Binding)
  | [] => return []
  | ⟨m, v⟩ :: bs => do
    let value ← match ← l.shape schema v with
      | .scalar | .row => b.keep m v
      | .object => splitProjection b v
      | .entity _ | .collection _ => b.rebase v
    return ⟨m, value⟩ :: (← splitBindings b bs)

end

/-- The outer projection and ordering, with the inner columns they need collected on the way: first
the keys of included paths and bound navigations, then the scalars, then the ordering. -/
def splitOuter (b : Boundary) (inner : Layer) : Exporting (Expr × List Order) := do
  l.includes.forM fun path => discard (b.rebase ((Expr.source 0).follow path))
  let select ←
    if b.whole then pure (Expr.source 0)
    else do
      requireNavigationKeys schema inner b l.select
      splitProjection schema inner b l.select
  let orders ← l.orders.mapM fun o => do
    return (⟨← b.keep o.expr.outputName o.expr, o.descending⟩ : Order)
  return (select, orders)

/-- Splits a layer. The inner layer keeps its ordering only to page by it; the outer layer orders
again. -/
def split : Compiled Layer := do
  let whole := l.isIdentity
  if !whole && l.select.bindings?.isNone then
    .error (.ambiguous (.nestedProjection l.select.display))
  else
    let inner := { l with includes := [], orders := if l.isPaginated then l.orders else [] }
    let ((select, orders), columns) ←
      (splitOuter schema l ⟨schema, l.source, whole⟩ inner).run []
    let inner := { inner with select := if whole then .source 0 else .object none columns }
    return { ofLayer l.source inner with hasMany := true, includes := l.includes, orders, select }

/-- Splits a layer if its projection or the paths it includes reach a collection. -/
def separateCollections : Compiled Layer := do
  if l.any || l.aggregate.isSome then return l
  if (← l.shape schema l.select).isCollection then
    throw (.ambiguous .collectionProjection)
  if !(← l.bindsCollection schema l.select) then
    if !(← l.includesCollection schema) then return l
  if !l.unions.isEmpty then throw (.ambiguous .collectionWithUnion)
  l.split schema

end Split

end Layer

end QueryCompiler

import QueryCompiler.Expr.Display
import QueryCompiler.Plan.Shape
import QueryCompiler.Text.Fresh
/-!
# Reading one layer from another

An inner layer exports named columns, and the layer above reads them as members of its root.
Navigations from the inner root stay navigations above it, as long as the inner layer exports the
columns that their foreign keys start from.

`Layer.derivedRow` is the row that a finished layer offers. `Exporting` collects the columns that a
layer still to be finished has to export, while expressions over its rows are restated over those
of the layer above.
-/

namespace QueryCompiler

namespace Layer

/-- A row of a finished layer, read as rows number `id`, with its entity type when it is whole. -/
def derivedRow (schema : Schema) (l : Layer) (id : Nat) : Compiled (Expr × Option String) :=
  match l.select with
  | .source k => .ok (.source id, l.sourceType? k)
  | .object ty bindings => do
    let bindings ← bindings.mapM fun b => do
      match ← l.shape schema b.value with
      | .scalar => pure (⟨b.member, .member (.source id) b.member⟩ : Binding)
      | _ => throw (.ambiguous (.memberNotColumn b.member))
    return (.object ty bindings, none)
  | scalar => .ok (.member (.source id) scalar.outputName, none)

/-- How the layer above reads an expression of this one, if this one exports it. -/
def exported? (schema : Schema) (l : Layer) (e : Expr) : Option Expr :=
  match l.select with
  | .object _ bindings =>
    (bindings.find? (·.value == e)).map fun b => .member (.source 0) b.member
  | .source 0 => do
    match ← e.memberPath? with
    | (0, [column]) =>
      let entity ← schema.get? (← l.source)
      if ((entity.member? column).bind Member.column?).isSome then
        some (.member (.source 0) column)
      else none
    | _ => none
  | other => if other == e then some (.member (.source 0) other.outputName) else none

/-- The ordering of the rows that a layer reads, restated over what it reads. There is none if a
key of the ordering is not exported. -/
def inheritedOrders (schema : Schema) (l : Layer) : Option (List Order) := do
  let inner ← l.subquery
  inner.orders.mapM fun o => (inner.exported? schema o.expr).map (⟨·, o.descending⟩)

end Layer

/-- The inner layer whose columns are collected. -/
structure Boundary where
  schema : Schema
  /-- the entity type of its root rows -/
  root : Option String
  /-- it returns its root rows whole, so that every column is exported as it is -/
  whole : Bool

/-- A computation that collects exported columns. -/
abbrev Exporting := StateT (List Binding) Compiled

namespace Boundary

/-- Has `value` exported under exactly this name. -/
def require (b : Boundary) (name : String) (value : Expr) : Exporting Unit := do
  if b.whole then return
  let columns ← get
  match columns.find? (·.member == name) with
  | some c =>
    if c.value == value then return
    else throw (.ambiguous (.conflictingColumn name))
  | none => set (columns ++ [⟨name, value⟩])

def requireMember (b : Boundary) (name : String) : Exporting Unit :=
  b.require name (.member (.source 0) name)

def requireAll (b : Boundary) : Exporting Unit := do
  match b.root with
  | none => throw (.ambiguous .anonymousRowAcrossBoundary)
  | some ty =>
    let entity ← b.schema.entity ty
    entity.columns.forM fun (name, _) => b.requireMember name

def requireKeys (b : Boundary) (entity : Entity) (ty name : String) (nav : Navigation) :
    Exporting Unit := do
  match nav.foreignKey with
  | none => throw (.missingForeignKey ty name)
  | some fk =>
    fk.ownerKeys.forM fun key =>
      match entity.member? key with
      | some m => b.requireMember m.name
      | none => throw (.unknownMember ty key)

/-- Restates a path of members from the inner root. -/
def rebasePath (b : Boundary) : List String → Exporting Expr
  | [] => do
    b.requireAll
    return .source 0
  | first :: rest => do
    match b.root with
    | none =>
      b.requireMember first
      return (Expr.member (.source 0) first).follow rest
    | some ty =>
      let entity ← b.schema.entity ty
      match entity.member? first with
      | none => throw (.unknownMember ty first)
      | some ⟨name, .column _⟩ =>
        b.requireMember name
        return (Expr.member (.source 0) name).follow rest
      | some ⟨name, .navigation nav⟩ =>
        b.requireKeys entity ty name nav
        return (Expr.member (.source 0) name).follow rest

/-- Restates a path from any rows of the inner layer. Joined rows are not exported. -/
def rebaseFrom (b : Boundary) (shown : Expr) (id : Nat) (path : List String) : Exporting Expr :=
  if id = 0 then b.rebasePath path
  else throw (.ambiguous (.joinedRows shown.display))

mutual

/-- Restates an expression over the inner rows as one over the exported columns. -/
def rebase (b : Boundary) : Expr → Exporting Expr
  | .source id => b.rebaseFrom (.source id) id []
  | .member target name => do
    match (Expr.member target name).memberPath? with
    | some (id, path) => b.rebaseFrom (.member target name) id path
    | none => return .member (← b.rebase target) name
  | .aggregate f arg =>
    throw (.ambiguous (.aggregateAcrossBoundary (Expr.aggregate f arg).display))
  | .grouping k e => throw (.ambiguous (.aggregateAcrossBoundary (Expr.grouping k e).display))
  | .joinGroup j e => throw (.ambiguous (.aggregateAcrossBoundary (Expr.joinGroup j e).display))
  | .binary op l r => do return .binary op (← b.rebase l) (← b.rebase r)
  | .unary op e => do return .unary op (← b.rebase e)
  | .call method target args => do
    return .call method (← b.rebaseOption target) (← b.rebaseList args)
  | .object ty bindings => do return .object ty (← b.rebaseBindings bindings)
  | .conditional t x y => do return .conditional (← b.rebase t) (← b.rebase x) (← b.rebase y)
  | .param name => return .param name
  | .constant v => return .constant v
  | .lambda l => return .lambda l
  | .query log => return .query log

def rebaseOption (b : Boundary) : Option Expr → Exporting (Option Expr)
  | none => return none
  | some e => do return some (← b.rebase e)

def rebaseList (b : Boundary) : List Expr → Exporting (List Expr)
  | [] => return []
  | e :: es => do return (← b.rebase e) :: (← b.rebaseList es)

def rebaseBindings (b : Boundary) : List Binding → Exporting (List Binding)
  | [] => return []
  | ⟨m, v⟩ :: bs => do return ⟨m, ← b.rebase v⟩ :: (← b.rebaseBindings bs)

end

/-- Keeps an expression inside the inner layer, under a name it already has or a fresh one, and
reads it from above. -/
def keep (b : Boundary) (preferred : String) (e : Expr) : Exporting Expr := do
  if b.whole then b.rebase e
  else
    let columns ← get
    match columns.find? (·.value == e) with
    | some c => return .member (.source 0) c.member
    | none =>
      let name := Text.freshName (columns.map (·.member)) preferred
      set (columns ++ [(⟨name, e⟩ : Binding)])
      return .member (.source 0) name

end Boundary

end QueryCompiler

import QueryCompiler.Plan.Shape
import QueryCompiler.Sql.Term
/-!
# Scopes

While the clauses of a layer are read, a scope keeps the numbers of its rows and the constants met
so far. Rows are known by a key: `s0` for the root, `s1` and on for the joins, and the key of the
owner with a member for each navigation. The first request for a key gives it the next number, and
a navigation is joined when its key is new. So clauses that follow the same path share one join.

Constants are numbered through a whole statement, rows in each layer anew.
-/

namespace QueryCompiler.Sql

/-- Numbers for row keys, in the order of the first requests, and the joins that navigations have
added. -/
structure Aliases (J : Type) where
  keys : List String := []
  joins : List J := []

namespace Aliases

variable {J : Type}

def get? (a : Aliases J) (key : String) : Option Nat :=
  a.keys.idxOf? key

/-- The number of a key, a new one if it has none. -/
def request (a : Aliases J) (key : String) : Nat × Aliases J :=
  match a.get? key with
  | some n => (n, a)
  | none => (a.keys.length, { a with keys := a.keys ++ [key] })

def addJoin (a : Aliases J) (j : J) : Aliases J :=
  { a with joins := a.joins ++ [j] }

end Aliases

/-- The rows of a table joined for a navigation, with the columns that must match. -/
structure NavigationJoin where
  row : Nat
  table : String
  on : List (ColumnRef × ColumnRef)

/-- Rows that a layer can refer to. -/
structure Row where
  key : String
  number : Nat
  /-- the entity type, when the rows are whole entities -/
  ty : Option String
  /-- columns carry member names, as an inner layer exports them -/
  derived : Bool
  /-- a column that is null where a navigation finds no row -/
  existence : Option ColumnRef

/-- What a path of members leads to. -/
inductive Resolved where
  | column (ref : ColumnRef) (dbType : Option DbType)
  | row (row : Row) (many : Bool)

/-- What is known while a layer is read. -/
structure Scope where
  aliases : Aliases NavigationJoin := {}
  constants : List Constant := []

/-- A step in reading a layer. -/
abbrev Reading := StateT Scope Compiled

/-- The key of rows by their number in the layer. -/
def sourceKey (id : Nat) : String := "s" ++ toString id

/-- The numbers at the start of a layer: the root, then the joins. -/
def Aliases.ofLayer (l : Layer) : Aliases NavigationJoin :=
  (0 :: l.joins.map (·.source)).foldl (fun a id => (a.request (sourceKey id)).2) {}

namespace Reading

def request (key : String) : Reading Nat := fun scope =>
  let (n, aliases) := scope.aliases.request key
  .ok (n, { scope with aliases })

/-- Runs a step in the scope of another layer, whose rows are numbered anew. -/
def inLayer {α : Type} (l : Layer) (step : Reading α) : Reading α := do
  let outer ← get
  set { outer with aliases := Aliases.ofLayer l }
  let a ← step
  modify fun inner => { inner with aliases := outer.aliases }
  return a

mutual

/-- A constant with the type it is to have. Null stands for itself, and the items of a list are
constants of their own. -/
def constant (dbType : DbType) (size : Option Nat) : Value → Reading Term
  | .null => return .null
  | .list items => return .tuple (← constants items)
  | v => do
    let scope ← get
    let c : Constant := ⟨scope.constants.length + 1, v, dbType, size⟩
    set { scope with constants := scope.constants ++ [c] }
    return .constant c

def constants : List Value → Reading (List Term)
  | [] => return []
  | v :: vs => do return (← constant (.infer v) none v) :: (← constants vs)

end

/-- A constant of the type it has by itself. -/
def plainConstant (v : Value) : Reading Term :=
  constant (.infer v) none v

end Reading

/-- What a layer is read against. -/
structure Context where
  schema : Schema
  dialect : Dialect
  layer : Layer

namespace Context

def source (ctx : Context) (id : Nat) : Reading Row := do
  let derived ←
    if id = 0 then pure ctx.layer.isDerived
    else match ctx.layer.join? id with
      | some j => pure j.target.isSubquery
      | none => throw (.ambiguous (.sourceOutOfScope id))
  let key := sourceKey id
  return {
    key
    number := ← Reading.request key
    ty := ctx.layer.sourceType? id
    derived
    existence := none }

def column (ctx : Context) (row : Row) (member : String) :
    Compiled (ColumnRef × Option DbType) :=
  match row.ty with
  | none => .ok (⟨row.number, member⟩, none)
  | some ty => do
    let entity ← ctx.schema.entity ty
    match entity.member? member with
    | some ⟨name, .column c⟩ =>
      return (⟨row.number, if row.derived then name else c.column⟩, some c.dbType)
    | some ⟨name, .navigation _⟩ => .error (.ambiguous (.navigationAsValue ty name))
    | none =>
      if row.derived then return (⟨row.number, member⟩, none)
      else .error (.unknownMember ty member)

def keyColumns (ctx : Context) (row : Row) (target : Entity) (number : Nat) (fk : ForeignKey) :
    Compiled (List (ColumnRef × ColumnRef)) :=
  fk.pairs.mapM fun (ownerKey, targetKey) => do
    let (left, _) ← ctx.column row ownerKey
    let c ← target.column targetKey
    return (left, ⟨number, c.column⟩)

/-- The rows behind a navigation, joined on the first request, and whether there may be many. -/
def navigation (ctx : Context) (row : Row) (member : String) : Reading (Row × Bool) := do
  match row.ty with
  | none => throw (.ambiguous (.navigationOfAnonymousRow member))
  | some ty =>
    let owner ← ctx.schema.entity ty
    match owner.member? member with
    | some ⟨name, .navigation nav⟩ =>
      match nav.foreignKey with
      | none => throw (.missingForeignKey ty name)
      | some fk =>
        let target ← ctx.schema.entity nav.target
        let key := row.key ++ "." ++ name
        let known := ((← get).aliases.get? key).isSome
        let number ← Reading.request key
        let on ← ctx.keyColumns row target number fk
        if !known then
          modify fun scope =>
            { scope with aliases := scope.aliases.addJoin ⟨number, target.table, on⟩ }
        return ({
          key
          number
          ty := some nav.target
          derived := false
          existence := on.head?.map (·.2) }, nav.many)
    | _ => throw (.unknownMember ty member)

def isNavigation (ctx : Context) (row : Row) (member : String) : Compiled Bool :=
  match row.ty with
  | none => .ok false
  | some ty => do return ((← ctx.schema.entity ty).navigation? member).isSome

/-- Walks a path of members. All but the last must be navigations to one row. -/
def walk (ctx : Context) (row : Row) : List String → Reading Resolved
  | [] => return .row row false
  | [last] => do
    if ← ctx.isNavigation row last then
      let (next, many) ← ctx.navigation row last
      return .row next many
    else
      let (ref, dbType) ← ctx.column row last
      return .column ref dbType
  | hop :: hops => do
    let (next, many) ← ctx.navigation row hop
    if many then throw (.ambiguous (.unflattenedCollection hop))
    ctx.walk next hops

/-- What a path of members leads to from the rows of a number. -/
def resolve (ctx : Context) (id : Nat) (path : List String) : Reading Resolved := do
  ctx.walk (← ctx.source id) path

end Context

end QueryCompiler.Sql

import QueryCompiler.Expr.Same
/-!
# Query plans

A plan is what a query log denotes before any SQL is written. Rows are produced by layers: a layer
reads a table or the rows of an inner layer, joins further rows to them, filters, groups, orders
and pages them, and maps each to a projection. Expressions refer to the rows of their own layer by
number: 0 for the root, then one for each join.
-/

namespace QueryCompiler

/-- How joined rows are matched. -/
inductive JoinKind where
  | inner
  | left
  | right
  | cross
  deriving DecidableEq, Repr

namespace JoinKind

def all : List JoinKind := [inner, left, right, cross]

def name : JoinKind → String
  | inner => "Inner"
  | left => "Left"
  | right => "Right"
  | cross => "Cross"

def ofName? (s : String) : Option JoinKind :=
  all.find? (·.name == s)

/-- The words that introduce a join in SQL. -/
def keyword : JoinKind → String
  | inner => "INNER JOIN"
  | left => "LEFT JOIN"
  | right => "RIGHT JOIN"
  | cross => "CROSS JOIN"

end JoinKind

/-- One key of an ordering. -/
structure Order where
  expr : Expr
  descending : Bool

/-- A final aggregate over the rows of a layer. -/
structure Aggregation where
  func : AggregateFunc
  /-- none counts rows -/
  selector : Option Expr

/-- The clauses of a layer that hold no other layer. -/
structure Clauses where
  /-- the entity type of the root rows, when they are whole entities -/
  source : Option String := none
  distinct : Bool := false
  any : Bool := false
  /-- the outer layer of a one-to-many split -/
  hasMany : Bool := false
  orders : List Order := []
  groupBy : Option Expr := none
  aggregate : Option Aggregation := none
  /-- navigation paths loaded with the root rows -/
  includes : List (List String) := []
  skip : Nat := 0
  /-- 0 for no bound -/
  take : Nat := 0
  select : Expr := .source 0
  predicate : Option Expr := none
  having : Option Expr := none

mutual

/-- Where joined rows come from. -/
inductive JoinTarget where
  | table (ty : String)
  | subquery (layer : Layer)

/-- Rows joined to those of a layer. -/
structure Join where
  kind : JoinKind
  /-- the number of the joined rows in the layer -/
  source : Nat
  target : JoinTarget
  /-- the entity type of the joined rows, when they are whole entities -/
  rowType : Option String
  outerKeys : List Expr
  innerKeys : List Expr

/-- One layer of a query. It reads the table of its source, or the inner layer if there is one. -/
structure Layer extends Clauses where
  subquery : Option Layer
  joins : List Join
  /-- layers whose rows follow those of this one -/
  unions : List Layer

end

namespace JoinTarget

/-- Whether joined rows come from a nested query. -/
def isSubquery : JoinTarget → Bool
  | table _ => false
  | subquery _ => true

end JoinTarget

namespace Layer

def empty : Layer := { subquery := none, joins := [], unions := [] }

instance : Inhabited Layer := ⟨empty⟩

/-- The whole rows of an entity's table. -/
def ofSource (ty : String) : Layer := { empty with source := some ty }

def ofLayer (source : Option String) (inner : Layer) : Layer :=
  { empty with source, subquery := some inner }

def isDerived (l : Layer) : Bool := l.subquery.isSome

/-- Whether a layer keeps only some of its rows by position. -/
def isPaginated (l : Layer) : Bool := l.skip > 0 || l.take > 0

/-- Whether a layer returns its root rows whole. -/
def isIdentity (l : Layer) : Bool := l.select.isRoot

def join? (l : Layer) (id : Nat) : Option Join :=
  l.joins.find? (·.source == id)

/-- The entity type of the rows of a number. -/
def sourceType? (l : Layer) (id : Nat) : Option String :=
  if id = 0 then l.source else (l.join? id).bind (·.rowType)

end Layer

/-- What an insert writes. -/
inductive InsertPayload where
  | entity (value : EntityValue)
  | entities (values : List EntityValue)
  /-- the rows of a query that constructs objects -/
  | query (layer : Layer)

/-- What an update writes. -/
inductive UpdatePayload where
  /-- one row, found by its key -/
  | entity (value : EntityValue)
  /-- an object construction over the rows of the scope -/
  | assignments (construction : Expr)

/-- What a delete removes. -/
inductive DeletePayload where
  /-- one row, found by its key -/
  | entity (value : EntityValue)
  /-- all rows of the scope -/
  | scope

/-- A query or modification, ready to be written in SQL. -/
inductive Plan where
  | select (layer : Layer)
  | insert (target : String) (payload : InsertPayload)
  | update (target : String) (payload : UpdatePayload) (scope : Layer)
  | delete (target : String) (payload : DeletePayload) (scope : Layer)

def Plan.layer? : Plan → Option Layer
  | select l => some l
  | _ => none

end QueryCompiler

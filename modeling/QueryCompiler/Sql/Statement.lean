import QueryCompiler.Sql.SelectList
/-!
# Statements

SQL statements as trees, the same for both dialects but for the order in which an update is read.
The root rows of a block have number 0, its joins and navigations the following ones.
-/

namespace QueryCompiler.Sql

/-- A key of an `ORDER BY`. -/
structure SortKey where
  term : Term
  descending : Bool

mutual

/-- What rows are read from. -/
inductive Relation where
  | table (name : String)
  | derived (query : Query)

/-- Rows joined to those of a block, with the terms that must be equal; a cross join has none. -/
structure JoinedRelation where
  kind : JoinKind
  relation : Relation
  row : Nat
  on : Option (List (Term × Term))

/-- The clauses from `FROM` to `HAVING`. -/
structure Block where
  relation : Relation
  joins : List JoinedRelation
  navigations : List NavigationJoin
  predicate : Option Term
  groupBy : Option (List Term)
  having : Option Term

/-- A query. -/
inductive Query where
  /-- the rows of a block; a nested one is ordered only to be paged -/
  | rows (block : Block) (list : SelectList) (orders : List SortKey) (distinct : Bool)
    (skip take : Nat) (nested : Bool)
  /-- whether a block has rows -/
  | existence (block : Block)
  /-- an aggregate over the rows of a block -/
  | aggregate (value : Term) (block : Block)
  /-- an aggregate over a column of a query, or over its rows -/
  | aggregateOver (func : AggregateFunc) (column : Option String) (query : Query)
  | union (first : Query) (branches : List Branch)

/-- A query whose rows follow those of another, by itself or wrapped. -/
structure Branch where
  wrapped : Bool
  query : Query

end

/-- A column and what it is set or compared to. -/
structure Assignment where
  column : String
  value : Term

/-- A statement. -/
inductive Statement where
  | query (query : Query)
  /-- rows of values, none for the default of a column; then the new identity is asked for under a
  name -/
  | insertRows (table : String) (columns : List String) (rows : List (List (Option Term)))
    (identity : Option String)
  | insertQuery (table : String) (columns : List String) (query : Query)
  | update (table : String) (assignments : List Assignment) (block : Block)
  | updateByKey (table : String) (assignments key : List Assignment)
  | delete (block : Block)
  | deleteByKey (table : String) (key : List Assignment)

/-- The output columns of the rows a query returns. An aggregate or a test of existence returns one
value without a name. -/
def Query.selectList : Query → SelectList
  | .rows _ list _ _ _ _ _ => list
  | .union first _ => first.selectList
  | .existence _ | .aggregate _ _ | .aggregateOver _ _ _ => {}

end QueryCompiler.Sql

import QueryCompiler.Sql.Statement
/-!
# Statements as text

Statement trees written in a dialect. The configuration decides how constants, strings, long
inserts and unbounded skips are written, and nothing else.
-/

namespace QueryCompiler.Sql

open Script (say joined parenthesized)

/-- How statements are laid out. -/
structure Layout extends Style where
  /-- rows are numbered to pass over some of them without a bound -/
  rowNumbers : Bool
  /-- rows for each insert statement -/
  batchSize : Nat

namespace Layout

variable (o : Layout)

def quoted (name : String) : String := o.dialect.quote name

def named (name : String) : Script := say (o.quoted name)

def term (t : Term) : Script := t.script o.toStyle

def columns (list : SelectList) : Script :=
  joined ", " (list.columns.map fun (t, name) => o.term t ++ say (" AS " ++ o.quoted name))

def orders (keys : List SortKey) : Script :=
  joined ", " (keys.map fun k => o.term k.term ++ say (if k.descending then " DESC" else ""))

def terms (ts : List Term) : Script :=
  joined ", " (ts.map o.term)

/-- Columns with values, under the name of their rows if one is given. -/
def assignments (row : Option String) (as : List Assignment) : List Script :=
  as.map fun a =>
    say ((row.map (· ++ ".")).getD "" ++ o.quoted a.column ++ " = ") ++ o.term a.value

/-- A join of a relation written as `target`. -/
def join (kind : JoinKind) (target : Script) (row : Nat) (on : Option (List (Term × Term))) :
    Script :=
  say (" " ++ kind.keyword ++ " ") ++ target ++ say (" " ++ rowName row) ++
    match on with
    | none => []
    | some pairs =>
      say " ON " ++ joined " AND " (pairs.map fun (l, r) => o.term l ++ say " = " ++ o.term r)

def navigation (n : NavigationJoin) : String :=
  " LEFT JOIN " ++ o.quoted n.table ++ " " ++ rowName n.row ++ " ON " ++
    " AND ".intercalate (n.on.map fun (l, r) => l.text o.dialect ++ " = " ++ r.text o.dialect)

def navigations (ns : List NavigationJoin) : String :=
  String.join (ns.map o.navigation)

/-- The clauses from `WHERE` to `HAVING`. -/
def clauses (predicate : Option Term) (groupBy : Option (List Term)) (having : Option Term) :
    Script :=
  (match predicate with
    | some t => say " WHERE " ++ o.term t
    | none => []) ++
  (match groupBy with
    | some ts => say " GROUP BY " ++ o.terms ts
    | none => []) ++
  (match having with
    | some t => say " HAVING " ++ o.term t
    | none => [])

def rowNumber : String := o.quoted "Row_Number0"

/-- Rows past an offset, found by numbering them. -/
def numberedRows (body : Script) (list : SelectList) (keys : List SortKey) (distinct : Script)
    (skip : Nat) (nested : Bool) : Script :=
  let inner := say "SELECT " ++ distinct ++ o.columns list ++
    say ", ROW_NUMBER() OVER (ORDER BY " ++ o.orders keys ++ say (") AS " ++ o.rowNumber ++ " ") ++
    body
  say ("SELECT " ++ ", ".intercalate (list.names.map fun n => "t0." ++ o.quoted n) ++ " FROM ") ++
    parenthesized inner ++ say (" t0 WHERE t0." ++ o.rowNumber ++ " > " ++ toString skip) ++
    if nested then [] else say (" ORDER BY t0." ++ o.rowNumber)

def rows (body : Script) (list : SelectList) (keys : List SortKey) (distinct : Bool)
    (skip take : Nat) (nested : Bool) : Script :=
  let distinctWord := say (if distinct then "DISTINCT " else "")
  if skip > 0 && take == 0 && (!o.dialect.offsetWithoutLimit || o.rowNumbers) then
    o.numberedRows body list keys distinctWord skip nested
  else
    let paged := skip > 0 || take > 0
    let top := if take > 0 && skip == 0 then o.dialect.top take else none
    say "SELECT " ++ distinctWord ++ say (top.getD "") ++ o.columns list ++ say " " ++ body ++
      (if !keys.isEmpty && (!nested || paged) then say " ORDER BY " ++ o.orders keys else []) ++
      say (if top.isNone && paged then
          o.dialect.limitOffset (if take > 0 then some take else none)
            (if skip > 0 then some skip else none)
        else "")

end Layout

mutual

def Relation.script (o : Layout) : Relation → Script
  | .table name => o.named name
  | .derived query => parenthesized (query.script o)

def JoinedRelation.scripts (o : Layout) : List JoinedRelation → Script
  | [] => []
  | ⟨kind, relation, row, on⟩ :: js =>
    o.join kind (relation.script o) row on ++ JoinedRelation.scripts o js

/-- A block from `FROM` on. -/
def Block.script (o : Layout) : Block → Script
  | ⟨relation, joins, navigations, predicate, groupBy, having⟩ =>
    say "FROM " ++ relation.script o ++ say (" " ++ rowName 0) ++ JoinedRelation.scripts o joins ++
      say (o.navigations navigations) ++ o.clauses predicate groupBy having

def Query.script (o : Layout) : Query → Script
  | .rows block list orders distinct skip take nested =>
    o.rows (block.script o) list orders distinct skip take nested
  | .existence block => o.dialect.anyQuery (block.script o)
  | .aggregate value block => say "SELECT " ++ o.term value ++ say " " ++ block.script o
  | .aggregateOver func column query =>
    let arg := match column with
      | some name => "t0." ++ o.quoted name
      | none => "1"
    say ("SELECT " ++ func.sqlName ++ "(" ++ arg ++ ") FROM ") ++
      parenthesized (query.script o) ++ say " t0"
  | .union first branches => first.script o ++ Branch.scripts o branches

def Branch.scripts (o : Layout) : List Branch → Script
  | [] => []
  | ⟨wrapped, query⟩ :: bs =>
    say " UNION ALL " ++
      (if wrapped then say "SELECT * FROM " ++ parenthesized (query.script o) ++ say " t0"
        else query.script o) ++
      Branch.scripts o bs

end

/-- A list in runs of a length, the last one perhaps shorter. -/
def chunks {α : Type} (size : Nat) (items : List α) : List (List α) :=
  go items.length items
where
  /-- at most so many runs -/
  go : Nat → List α → List (List α)
    | 0, _ => []
    | steps + 1, items =>
      if items.isEmpty then [] else items.take size :: go steps (items.drop size)

def insertTuple (o : Layout) (values : List (Option Term)) : Script :=
  parenthesized (joined ", " (values.map fun
    | some t => o.term t
    | none => say "DEFAULT"))

def insertHead (o : Layout) (table : String) (columns : List String) : Script :=
  say ("INSERT INTO " ++ o.quoted table ++ " (" ++ ", ".intercalate (columns.map o.quoted) ++ ") ")

def Statement.script (o : Layout) : Statement → Script
  | query q => q.script o
  | insertRows table columns rows identity =>
    joined "; " ((chunks (max o.batchSize 1) rows).map fun batch =>
      insertHead o table columns ++ say "VALUES " ++ joined ", " (batch.map (insertTuple o))) ++
    match identity with
    | some name => say ("; SELECT " ++ o.dialect.lastIdentity ++ " AS " ++ o.quoted name)
    | none => []
  | insertQuery table columns q => insertHead o table columns ++ q.script o
  | update table assignments block =>
    let row := if o.dialect.qualifiesAssignments then some (rowName 0) else none
    o.dialect.updateStatement (o.quoted table) (rowName 0)
      (joined ", " (o.assignments row assignments))
      (JoinedRelation.scripts o block.joins ++ say (o.navigations block.navigations))
      (o.clauses block.predicate block.groupBy block.having)
  | updateByKey table assignments key =>
    say ("UPDATE " ++ o.quoted table ++ " SET ") ++ joined ", " (o.assignments none assignments) ++
      say " WHERE " ++ joined " AND " (o.assignments none key)
  | delete block => say ("DELETE " ++ rowName 0 ++ " ") ++ block.script o
  | deleteByKey table key =>
    say ("DELETE FROM " ++ o.quoted table ++ " WHERE ") ++
      joined " AND " (o.assignments none key)

end QueryCompiler.Sql

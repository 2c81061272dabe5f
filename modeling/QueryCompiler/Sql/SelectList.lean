import QueryCompiler.Sql.Expression
import QueryCompiler.Text.Fresh
/-!
# Select lists

The output columns of a query, with distinct names, and the spans of columns that belong to a
navigation or a nested object.
-/

namespace QueryCompiler.Sql

/-- The columns of a navigation or nested object among the output columns. -/
structure Span where
  /-- the members that lead to it, with dots between them -/
  path : String
  start : Nat
  length : Nat
  deriving DecidableEq, Repr

/-- Output columns with their names, and spans among them. -/
structure SelectList where
  columns : List (Term × String) := []
  spans : List Span := []

namespace SelectList

def names (s : SelectList) : List String := s.columns.map (·.2)

/-- Adds a column, under a name that is still free. -/
def push (s : SelectList) (t : Term) (preferred : String) : SelectList :=
  { s with columns := s.columns ++ [(t, Text.freshName s.names preferred)] }

/-- Adds the span of the columns from `start` on. -/
def close (s : SelectList) (path : String) (start : Nat) : SelectList :=
  { s with spans := s.spans ++ [⟨path, start, s.columns.length - start⟩] }

end SelectList

namespace Context

def rowColumns (ctx : Context) (row : Row) (out : SelectList) : Compiled SelectList :=
  match row.ty with
  | none => .error (.ambiguous .anonymousColumns)
  | some ty => do
    let entity ← ctx.schema.entity ty
    return entity.columns.foldl (fun out (member, c) =>
      out.push (.column ⟨row.number, if row.derived then member else c.column⟩) member) out

/-- The column that is null where a navigation finds no row. -/
def existenceTerm (ref : ColumnRef) : Term :=
  .caseWhen (.isNull (.column ref)) .null (.column ref)

/-- Adds the columns of the entity that an expression denotes, after one that tells whether there
is a row. -/
def entityColumns (ctx : Context) (e : Expr) (path : String) (out : SelectList) :
    Reading SelectList := do
  match e.memberPath? with
  | none => throw (.ambiguous (.notMemberPath e.display))
  | some (id, hops) =>
    match ← ctx.resolve id hops with
    | .column _ _ => throw (.ambiguous (.notEntity e.display))
    | .row row _ =>
      let start := out.columns.length
      let out := match row.existence with
        | some ref => out.push (existenceTerm ref) (hops.getLast?.getD path)
        | none => out
      return (← ctx.rowColumns row out).close path start

mutual

/-- Adds what a member of an object construction is bound to. -/
def bindingColumns (ctx : Context) (path member : String) (out : SelectList) :
    Expr → Reading SelectList
  | .object _ bindings => do
    let start := out.columns.length
    return (← ctx.objectColumns (path ++ ".") out bindings).close path start
  | e => do
    match ← ctx.layer.shape ctx.schema e with
    | .entity _ | .collection _ => ctx.entityColumns e path out
    | .object | .scalar | .row => return out.push (← ctx.value e) member

/-- Adds what the members of an object construction are bound to. -/
def objectColumns (ctx : Context) (base : String) (out : SelectList) :
    List Binding → Reading SelectList
  | [] => return out
  | ⟨m, v⟩ :: bs => do
    ctx.objectColumns base (← ctx.bindingColumns (base ++ m) m out v) bs

end

/-- The beginnings of a path, from the first member on. -/
def beginnings (path : List String) : List (List String) :=
  (List.range path.length).map fun n => path.take (n + 1)

/-- The included paths with their beginnings, each once, by their members with dots between. -/
def includedPaths (includes : List (List String)) : List (List String × String) :=
  (includes.flatMap beginnings).foldl (fun seen hops =>
    let dotted := ".".intercalate hops
    if seen.any (·.2 == dotted) then seen else seen ++ [(hops, dotted)]) []

def selectList (ctx : Context) (select : Expr) (includes : List (List String)) :
    Reading SelectList := do
  match select with
  | .source id =>
    let row ← ctx.source id
    let out ← ctx.rowColumns row {}
    (includedPaths includes).foldlM (fun out (hops, dotted) =>
      ctx.entityColumns ((Expr.source id).follow hops) dotted out) out
  | .object _ bindings => ctx.objectColumns "" {} bindings
  | other =>
    match ← ctx.layer.shape ctx.schema other with
    | .entity _ => ctx.entityColumns other other.outputName {}
    | _ => return SelectList.push {} (← ctx.value other) other.outputName

end Context

end QueryCompiler.Sql

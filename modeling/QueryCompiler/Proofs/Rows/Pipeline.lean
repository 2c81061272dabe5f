import QueryCompiler.Log.Basic
import QueryCompiler.Plan.Basic
import QueryCompiler.Proofs.Rows.Kind
import QueryCompiler.Schema.Basic
/-!
# Row pipelines

A row pipeline is a log that starts from the rows of a table and filters, maps, orders, pages and
deduplicates them. It has two meanings: operator by operator, each working on the items that the
one before it has left (`Log.items`), and layer by layer, as its plan is read (`Layer.items?`).

`Operator.scan` says which operators may follow in a pipeline. It follows the kind of the items and
the layers of the plan, since an ordering must not take the place of an earlier one of its layer.
-/

namespace QueryCompiler

variable {V : Type}

/-! ## Orderings -/

def Order.compare (I : Interpretation V) (o : Order) (r s : Datum V) : Ordering :=
  let c := Datum.compare I.le (o.expr.eval I [] r) (o.expr.eval I [] s)
  if o.descending then c.swap else c

/-- Compares two rows by keys, from the first on. -/
def Order.compareAll (I : Interpretation V) : List Order → Datum V → Datum V → Ordering
  | [], _, _ => .eq
  | o :: os, r, s => (o.compare I r s).then (Order.compareAll I os r s)

/-- Orders rows by keys. Rows that compare as equal keep their places. -/
def Order.sort (I : Interpretation V) (orders : List Order) (rows : List (Datum V)) :
    List (Datum V) :=
  rows.mergeSort fun r s => (Order.compareAll I orders r s).isLE

/-! ## Operator by operator -/

namespace Operator

def valueFor (I : Interpretation V) (op : Operator) (item : Datum V) : Datum V :=
  match op.lambda? 0 with
  | some l => l.apply I item
  | none => I.missing

def compareItems (I : Interpretation V) (op : Operator) (x y : Datum V) : Ordering :=
  Datum.compare I.le (op.valueFor I x) (op.valueFor I y)

def items [DecidableEq V] (I : Interpretation V) (items : List (Datum V)) (op : Operator) :
    List (Datum V) :=
  match op.kind with
  | .filter => items.filter fun x => I.holds (op.valueFor I x)
  | .select => items.map (op.valueFor I)
  | .orderBy => items.mergeSort fun x y => (op.compareItems I x y).isLE
  | .orderByDescending => items.mergeSort fun x y => (op.compareItems I x y).swap.isLE
  | .skip => items.drop (op.rowCount?.getD 0)
  | .take => items.take (op.rowCount?.getD 0)
  | .distinct => items.eraseDups
  | _ => items

end Operator

/-- The items that operators leave of a list, one operator after the other. -/
def Log.items [DecidableEq V] (I : Interpretation V) (ops : Log) (rows : List (Datum V)) :
    List (Datum V) :=
  ops.foldl (Operator.items I) rows

/-! ## Layer by layer -/

namespace Clauses

/-- The rows that pass the test of a layer. -/
def kept (I : Interpretation V) (c : Clauses) (rows : List (Datum V)) : List (Datum V) :=
  match c.predicate with
  | some test => rows.filter fun r => I.holds (test.eval I [] r)
  | none => rows

/-- The page that a layer asks for, of items that occur once each if they are to be distinct. -/
def page [DecidableEq V] (c : Clauses) (items : List (Datum V)) : List (Datum V) :=
  let rest := (if c.distinct then items.eraseDups else items).drop c.skip
  if c.take > 0 then rest.take c.take else rest

/-- The items of a layer over the rows it reads: the rows that pass its test, in its order, mapped
by its projection, and of these the page it asks for. -/
def itemsOver [DecidableEq V] (I : Interpretation V) (c : Clauses) (rows : List (Datum V)) :
    List (Datum V) :=
  c.page ((Order.sort I c.orders (c.kept I rows)).map fun r => c.select.eval I [] r)

end Clauses

namespace Layer

/-- The row that the layer above reads for an item: whole rows and objects as they are, a single
value under its output name. -/
def asRow (select : Expr) (item : Datum V) : Datum V :=
  match select with
  | .source _ | .object _ _ => item
  | other => .record [⟨other.outputName, item⟩]

def isPipeline (c : Clauses) (joins : List Join) (unions : List Layer) : Bool :=
  joins.isEmpty && unions.isEmpty && !c.any && c.groupBy.isNone && c.aggregate.isNone
    && c.includes.isEmpty && c.having.isNone

variable [DecidableEq V] (I : Interpretation V) (tables : String → List (Datum V))

mutual

def items? : Layer → Option (List (Datum V))
  | ⟨clauses, subquery, joins, unions⟩ =>
    if isPipeline clauses joins unions then
      (rows? clauses.source subquery).map (clauses.itemsOver I)
    else none

/-- The rows that a layer reads: those of a table, or one for each item of an inner layer. -/
def rows? (source : Option String) : Option Layer → Option (List (Datum V))
  | none => source.map tables
  | some inner => (items? inner).map (List.map (asRow inner.select))

end

end Layer

/-! ## Which logs are row pipelines -/

/-- The columns of an entity that are read by their names: declared, not excluded, and found under
the name. -/
def Entity.readable (e : Entity) : List String :=
  (e.columns.filter fun c => ((e.member? c.1).bind Member.column?).isSome).map (·.1)

/-- How far a layer is open to the next operator. -/
inductive Ending where
  /-- to every operator -/
  | opened
  /-- to a number of rows to take, as some are passed over -/
  | skipping
  /-- to none -/
  | closed
  deriving DecidableEq, Repr

/-- Where a row pipeline stands. -/
structure Stage where
  /-- what its items are -/
  kind : ItemKind
  /-- whether the current layer is ordered -/
  ordered : Bool
  ending : Ending
  deriving DecidableEq, Repr

namespace Stage

def start (e : Entity) : Stage := ⟨.row e.readable, false, .opened⟩

/-- Whether an operator has to start a new layer. -/
def mustClose (s : Stage) (kind : OpKind) : Bool :=
  s.ending == .closed || (s.ending == .skipping && kind != .take)

/-- The stage on which an operator works: that of a new layer if it has to start one. -/
def before (s : Stage) (kind : OpKind) : Stage :=
  if s.mustClose kind then ⟨s.kind, false, .opened⟩ else s

end Stage

namespace Operator

def yields? (op : Operator) (items : ItemKind) : Option ItemKind := do
  let l ← op.lambda? 0
  l.body.kind? (l.params.map (·, items)) none

/-- The stage after an operator that works on a layer open to it, if the operator may follow in a
row pipeline. -/
def after? (op : Operator) (s : Stage) : Option Stage :=
  match op.kind with
  | .filter => (op.yields? s.kind).map fun _ => s
  | .select => (op.yields? s.kind).map fun kind => { s with kind }
  | .orderBy | .orderByDescending =>
    if s.ordered then none else (op.yields? s.kind).map fun _ => { s with ordered := true }
  | .skip => op.rowCount?.map fun n => if n > 0 then { s with ending := .skipping } else s
  | .take => op.rowCount?.bind fun n => if n > 0 then some { s with ending := .closed } else none
  | .distinct | .asSubquery => some { s with ending := .closed }
  | _ => none

/-- The stage after an operator, on this layer or a new one. -/
def scan (op : Operator) (s : Stage) : Option Stage :=
  op.after? (s.before op.kind)

end Operator

/-- Whether operators make up a row pipeline over the rows of an entity type. -/
def Log.isPipeline (schema : Schema) (ty : String) (ops : Log) : Bool :=
  ((schema.get? ty).bind fun e => ops.foldlM (fun s op => op.scan s) (Stage.start e)).isSome

end QueryCompiler

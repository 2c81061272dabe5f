import QueryCompiler.Plan.Draft
/-!
# Joins

Every join gets the next number of its layer. A group join binds the group as the number of its
join, so a later `SelectMany` over the group finds the join it flattens, whatever the group is
called.
-/

namespace QueryCompiler

/-- Pairs of keys: single keys, or the members of two object constructions of one length. -/
def Join.keys (kind : OpKind) (outer inner : Expr) : Compiled (List Expr × List Expr) :=
  match outer.bindings?, inner.bindings? with
  | some os, some is =>
    if os.length == is.length then .ok (os.map (·.value), is.map (·.value))
    else .error (.invalidOperand kind.name (.keyCount os.length is.length))
  | none, none => .ok ([outer], [inner])
  | _, _ => .error (.invalidOperand kind.name .mixedKeys)

/-- What a flattened collection keeps of the rows that match nothing. -/
inductive Unmatched where
  | dropped
  /-- `DefaultIfEmpty()`: outer rows without a match are kept -/
  | outerKept
  /-- `DefaultIfEmpty(true)`: inner rows without a match are kept -/
  | innerKept
  deriving DecidableEq, Repr

namespace Unmatched

def joinKind : Unmatched → JoinKind
  | dropped => .inner
  | outerKept => .left
  | innerKept => .right

/-- The mark of `DefaultIfEmpty` with its last argument. -/
def ofFlag : Option Expr → Unmatched
  | some (.constant (.bool true)) => innerKept
  | _ => outerKept

/-- A collection without its `DefaultIfEmpty`. -/
def strip : Expr → Expr × Unmatched
  | .call "DefaultIfEmpty" (some target) args => (target, ofFlag args[0]?)
  | .call "DefaultIfEmpty" none (target :: args) => (target, ofFlag args[0]?)
  | e => (e, dropped)

end Unmatched

namespace Draft

def nextSource (d : Draft) : Nat := d.layer.joins.length + 1

def addJoin (d : Draft) (j : Join) : Draft :=
  { d with layer := { d.layer with joins := d.layer.joins ++ [j] } }

/-- The rows that a nested query joins: a table if it only names a source, else a subquery. The row
and its entity type are as read under the number `source`. -/
def joinTarget (schema : Schema) (nested : Log → Compiled Layer) (log : Log) (source : Nat) :
    Compiled (JoinTarget × Expr × Option String) :=
  match log.bareSource? with
  | some ty => do
    let _ ← schema.entity ty
    return (.table ty, .source source, some ty)
  | none => do
    let layer ← nested log
    let (row, rowType) ← layer.derivedRow schema source
    return (.subquery layer, row, rowType)

/-- Joins the rows of a nested query on keys. -/
def join (schema : Schema) (nested : Log → Compiled Layer) (d : Draft) (op : Operator) :
    Compiled Draft := do
  match op.query? 0 with
  | none => .error (.invalidOperand op.kind.name .missingInnerQuery)
  | some log =>
    let source := d.nextSource
    let (target, row, rowType) ← joinTarget schema nested log source
    let outer ← d.bindRow (← op.lambda 1)
    let inner ← (← op.lambda 2).bind [row]
    let (outerKeys, innerKeys) ← Join.keys op.kind outer inner
    let kind : JoinKind := match op.kind with
      | .join => .inner
      | .groupJoin => .left
      | _ => .right
    let second : Expr :=
      if op.kind == .join then row else .joinGroup d.layer.joins.length row
    let d := d.addJoin { kind, source, target, rowType, outerKeys, innerKeys }
    return { d with row := ← (← op.lambda 3).bind [d.row, second] }

/-- Flattens the group of an earlier group join. A right join stays one. -/
def flattenGroup (d : Draft) (index : Nat) (unmatched : Unmatched) : Compiled Draft :=
  match d.layer.joins[index]? with
  | none => .error (.ambiguous (.groupJoinOutOfScope index))
  | some j =>
    let kind := if j.kind == .right then .right else unmatched.joinKind
    .ok { d with layer := { d.layer with joins := d.layer.joins.set index { j with kind } } }

def crossJoin (schema : Schema) (nested : Log → Compiled Layer) (d : Draft) (log : Log) :
    Compiled (Draft × Expr) := do
  let source := d.nextSource
  let (target, row, rowType) ← joinTarget schema nested log source
  return (d.addJoin { kind := .cross, source, target, rowType, outerKeys := [], innerKeys := [] },
    row)

/-- Joins a collection navigation of `owner` through its foreign key. -/
def navigationJoin (schema : Schema) (d : Draft) (owner : Expr) (name target : String)
    (unmatched : Unmatched) : Compiled (Draft × Expr) := do
  match ← d.layer.shape schema owner with
  | .entity ty =>
    let entity ← schema.entity ty
    match entity.navigation? name with
    | none => .error (.unknownMember ty name)
    | some nav =>
      match nav.foreignKey with
      | none => .error (.missingForeignKey ty name)
      | some fk =>
        let _ ← schema.entity target
        let source := d.nextSource
        let d := d.addJoin {
          kind := unmatched.joinKind
          source
          target := .table target
          rowType := some target
          outerKeys := fk.ownerKeys.map (.member owner)
          innerKeys := fk.targetKeys.map (.member (.source source)) }
        return (d, .source source)
  | _ => .error (.ambiguous (.ownerNotEntity owner.display))

/-- Joins the elements of a collection and returns the row of one. -/
def flatten (schema : Schema) (nested : Log → Compiled Layer) (d : Draft) (collection : Expr)
    (unmatched : Unmatched) : Compiled (Draft × Expr) := do
  match collection with
  | .joinGroup index element => return (← d.flattenGroup index unmatched, element)
  | .query log => d.crossJoin schema nested log
  | .member owner name =>
    match ← d.layer.shape schema (.member owner name) with
    | .collection ty => d.navigationJoin schema owner name ty unmatched
    | _ => .error (.unsupportedOperator ("SelectMany over " ++ (Expr.member owner name).display))
  | other => .error (.unsupportedOperator ("SelectMany over " ++ other.display))

/-- Continues with the elements of a collection, or with what is made of each and its owner. -/
def selectMany (schema : Schema) (nested : Log → Compiled Layer) (d : Draft) (op : Operator) :
    Compiled Draft := do
  let (collection, unmatched) := Unmatched.strip (← d.bindRow (← op.lambda 0))
  let (d, element) ← d.flatten schema nested collection unmatched
  match op.lambda? 1 with
  | some result => return { d with row := ← result.bind [d.row, element] }
  | none => return { d with row := element }

end Draft

end QueryCompiler

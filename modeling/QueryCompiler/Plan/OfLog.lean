import QueryCompiler.Plan.Joins
import QueryCompiler.Plan.Split
/-!
# From logs to plans

A log is read from left to right into a draft, which is wrapped in a new one whenever the next
operator cannot join its layer. The finished draft is a query, or the scope of a modification.
-/

namespace QueryCompiler

namespace Draft

/-- Checks a payload: it is the first operator and of the type of the source. -/
def checkPayload (d : Draft) (op : Operator) (source : String) (e : EntityValue) :
    Compiled Unit :=
  if d.applied > 0 then .error (.invalidOperand op.kind.name .latePayload)
  else if e.ty != source then .error (.invalidOperand op.kind.name (.payloadType e.ty source))
  else .ok ()

def modificationOf (schema : Schema) (d : Draft) (op : Operator) (source : String) :
    Compiled Modification := do
  let refuse {α : Type} (fault : OperandFault) : Compiled α :=
    .error (.invalidOperand op.kind.name fault)
  match op.kind, op.operands.head? with
  | .insert, some (.entity e) =>
    d.checkPayload op source e
    return .insert source (some (.entity e))
  | .insert, some (.entities es) =>
    es.forM (d.checkPayload op source)
    return .insert source (some (.entities es))
  | .insert, some (.typeName target) =>
    let _ ← schema.entity target
    if d.row.bindings?.isNone then refuse .insertNeedsObject
    else return .insert target none
  | .update, some (.entity e) =>
    d.checkPayload op source e
    return .update (.entity e)
  | .update, some (.lambda l) =>
    if !d.row.isRoot then refuse .updateAfterProjection
    else
      let construction ← l.bind [.source 0]
      if construction.bindings?.isNone then refuse .assignmentsNotObject
      else return .update (.assignments construction)
  | .delete, some (.entity e) =>
    d.checkPayload op source e
    return .delete (.entity e)
  | .delete, none => return .delete .scope
  | _, _ => refuse .unexpectedPayload

/-- Ends the query with a modification of the rows of a table. -/
def modify (schema : Schema) (d : Draft) (op : Operator) : Compiled Draft :=
  match d.layer.source, d.layer.isDerived with
  | some source, false => do
    let m ← d.modificationOf schema op source
    return { d with modification := some m }.finishWith op.kind
  | _, _ => .error (.invalidOperand op.kind.name .derivedModification)

def apply (schema : Schema) (nested : Log → Compiled Layer) (d : Draft) (op : Operator) :
    Compiled Draft :=
  match op.kind with
  | .getSource => .error (.invalidOperand op.kind.name .lateSource)
  | .filter => do return d.restrict (← d.bindRow (← op.lambda 0))
  | .select => do return { d with row := ← d.bindRow (← op.lambda 0) }
  | .selectMany => d.selectMany schema nested op
  | .join | .groupJoin | .groupJoinRight => d.join schema nested op
  | .groupBy => d.group op
  | .orderBy => d.order op false
  | .orderByDescending => d.order op true
  | .thenBy => d.refineOrder op false
  | .thenByDescending => d.refineOrder op true
  | .skip => d.skip schema (op.rowCount?.getD 0)
  | .take => .ok (d.take (op.rowCount?.getD 0))
  | .distinct => .ok { d with layer := { d.layer with distinct := true }, closed := true }
  | .asSubquery => .ok { d with closed := true }
  | .any => do
    let d ← d.restrictBy op
    return { d with layer := { d.layer with any := true } }.finishWith op.kind
  | .first | .firstOrDefault | .single | .singleOrDefault => do
    let d ← d.restrictBy op
    return { d with layer := { d.layer with take := 1 } }.finishWith op.kind
  | .count => d.aggregate schema op .count
  | .sum => d.aggregate schema op .sum
  | .max => d.aggregate schema op .max
  | .min => d.aggregate schema op .min
  | .average => d.aggregate schema op .average
  | .union =>
    match op.query? 0 with
    | none => .error (.invalidOperand op.kind.name .missingQuery)
    | some log => do return d.union (← nested log)
  | .includePath => d.includePath schema op
  | .insert | .update | .delete => d.modify schema op

/-- Reads the next operator: on this layer, or on a new one over it. -/
def step (schema : Schema) (nested : Log → Compiled Layer) (d : Draft) (op : Operator) :
    Compiled Draft :=
  match d.terminal with
  | some kind => .error (.invalidOperand op.kind.name (.afterTerminal kind.name))
  | none => do
    let d ← if d.mustClose op.kind then d.wrap schema else pure d
    let d' ← d.apply schema nested op
    return { d' with applied := d'.applied + 1 }

/-- The draft that a log starts with, and the operators still to be read. -/
def start (schema : Schema) : Log → Compiled (Draft × Log)
  | [] => .error (.invalidOperand "Query" .emptyLog)
  | op :: ops => do
    match op.kind, op.operands.head? with
    | .getSource, some (.typeName ty) =>
      let _ ← schema.entity ty
      return (ofSource ty, ops)
    | .insert, some (.entity e) | .update, some (.entity e) | .delete, some (.entity e) =>
      let _ ← schema.entity e.ty
      return (ofSource e.ty, op :: ops)
    | .insert, some (.entities es) =>
      match es.head? with
      | some e =>
        let _ ← schema.entity e.ty
        return (ofSource e.ty, op :: ops)
      | none => .error (.invalidOperand op.kind.name .noRows)
    | kind, _ => .error (.invalidOperand kind.name .noStart)

def target (scope : Layer) : Compiled String :=
  match scope.source with
  | some ty => .ok ty
  | none => .error (.invalidOperand "Query" .noTarget)

def plan (schema : Schema) (d : Draft) : Compiled Plan := do
  let scope := d.finished
  match d.modification with
  | none => return .select (← scope.separateCollections schema)
  | some (.insert target payload) => return .insert target (payload.getD (.query scope))
  | some (.update payload) => return .update (← target scope) payload scope
  | some (.delete payload) => return .delete (← target scope) payload scope

end Draft

def Plan.nestedLayer : Plan → Compiled Layer
  | select l => .ok l
  | _ => .error (.invalidOperand "Query" .nestedModification)

/-- The plan of a log, given the layers of the queries nested in it. -/
def Plan.ofLogWith (schema : Schema) (nested : Log → Compiled Layer) (log : Log) :
    Compiled Plan := do
  log.validate
  let (draft, ops) ← Draft.start schema log
  let draft ← ops.foldlM (Draft.step schema nested) draft
  draft.plan schema

/-- The plan of a log with queries nested at most so deep. -/
def Plan.ofLogAt (schema : Schema) : Nat → Log → Compiled Plan
  | 0, _ => .error (.invalidOperand "Query" .nestedTooDeep)
  | depth + 1, log =>
    Plan.ofLogWith schema (fun inner => do (← Plan.ofLogAt schema depth inner).nestedLayer) log

def Plan.ofLog (schema : Schema) (log : Log) : Compiled Plan :=
  Plan.ofLogAt schema (log.nesting + 1) log

end QueryCompiler

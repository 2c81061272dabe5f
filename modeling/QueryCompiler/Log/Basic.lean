import QueryCompiler.Error
import QueryCompiler.Expr.Basic
/-!
# Operator entries and their operands

Each kind of operator expects operands of certain shapes. `Operator.validate` is that check, and
the accessors read an operand at its position.
-/

namespace QueryCompiler

namespace EntityValue

def empty (ty : String) : EntityValue := ⟨ty, []⟩

/-- Replaces the value under exactly this name. -/
def replaceValue (member : String) (value : Value) :
    List (String × Value) → Option (List (String × Value))
  | [] => none
  | (m, v) :: rest =>
    if m == member then some ((m, value) :: rest)
    else (replaceValue member value rest).map ((m, v) :: ·)

/-- Sets a member: in place if the name is there, else at the end. -/
def set (e : EntityValue) (member : String) (value : Value) : EntityValue :=
  { e with values := (replaceValue member value e.values).getD (e.values ++ [(member, value)]) }

/-- The first value whose name is `member` in any case. -/
def get? (e : EntityValue) (member : String) : Option Value :=
  (e.values.find? fun (m, _) => Text.sameIgnoringCase m member).map (·.2)

end EntityValue

/-- What an operand at one position may be. -/
inductive Slot where
  | lambda (arity : Nat)
  | optionalLambda (arity : Nat)
  /-- a whole number that is not negative -/
  | rowCount
  | typeName
  | query
  /-- an entity, a list of entities or a type -/
  | insertPayload
  /-- an entity or a lambda of one parameter -/
  | updatePayload
  | optionalEntity
  deriving DecidableEq, Repr

namespace Slot

/-- Whether an operand may be left out. -/
def isOptional : Slot → Bool
  | optionalLambda _ | optionalEntity => true
  | _ => false

def accepts : Slot → Operand → Bool
  | lambda n, .lambda l | optionalLambda n, .lambda l => l.arity == n
  | rowCount, .constant (.int n) => 0 ≤ n.toInt
  | typeName, .typeName _ => true
  | query, .query _ => true
  | insertPayload, .entity _ | insertPayload, .entities _ | insertPayload, .typeName _ => true
  | updatePayload, .entity _ => true
  | updatePayload, .lambda l => l.arity == 1
  | optionalEntity, .entity _ => true
  | _, _ => false

end Slot

/-- The operands a kind expects, in order. -/
def OpKind.slots : OpKind → List Slot
  | getSource => [.typeName]
  | filter | select | orderBy | orderByDescending | thenBy | thenByDescending | includePath =>
    [.lambda 1]
  | selectMany => [.lambda 1, .optionalLambda 2]
  | join | groupJoin | groupJoinRight => [.query, .lambda 1, .lambda 1, .lambda 2]
  | groupBy => [.lambda 1, .optionalLambda 1]
  | skip | take => [.rowCount]
  | distinct | asSubquery => []
  | any | first | firstOrDefault | single | singleOrDefault | count | sum | max | min | average =>
    [.optionalLambda 1]
  | union => [.query]
  | insert => [.insertPayload]
  | update => [.updatePayload]
  | delete => [.optionalEntity]

def Operand.describe : Operand → String
  | lambda _ => "lambda"
  | constant _ => "constant"
  | typeName _ => "type"
  | query _ => "query"
  | entity _ => "entity"
  | entities _ => "entities"

namespace Operator

def lambda? (op : Operator) (index : Nat) : Option Lambda :=
  match op.operands[index]? with
  | some (.lambda l) => some l
  | _ => none

def query? (op : Operator) (index : Nat) : Option Log :=
  match op.operands[index]? with
  | some (.query log) => some log
  | _ => none

def rowCount? (op : Operator) : Option Nat :=
  match op.operands.head? with
  | some (.constant (.int n)) => if 0 ≤ n.toInt then some n.toInt.toNat else none
  | _ => none

/-- Checks the operands against the slots of their positions. -/
def checkSlots (kind : OpKind) : List Slot → List Operand → Compiled Unit
  | slot :: slots, operand :: operands =>
    if slot.accepts operand then checkSlots kind slots operands
    else .error (.invalidOperand kind.name (.shape operand.describe))
  | _, _ => .ok ()

/-- Checks the number and the shapes of the operands. -/
def validate (op : Operator) : Compiled Unit :=
  let slots := op.kind.slots
  let least := (slots.filter (!·.isOptional)).length
  let found := op.operands.length
  if found < least || slots.length < found then
    .error (.invalidOperand op.kind.name (.count least slots.length found))
  else checkSlots op.kind slots op.operands

/-- An entry under a tag written in any case, with its operands checked. -/
def named (tag : String) (operands : List Operand) : Compiled Operator := do
  match OpKind.ofTag? tag with
  | none => .error (.unsupportedOperator tag)
  | some kind =>
    let op : Operator := ⟨kind, operands⟩
    op.validate
    pure op

end Operator

namespace Log

def validate (log : Log) : Compiled Unit :=
  log.forM Operator.validate

/-- The type of a log that only names a source. -/
def bareSource? : Log → Option String
  | [⟨.getSource, .typeName ty :: _⟩] => some ty
  | _ => none

end Log

end QueryCompiler

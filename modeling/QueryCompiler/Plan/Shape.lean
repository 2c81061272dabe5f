import QueryCompiler.Plan.Basic
import QueryCompiler.Schema.Basic
/-!
# Shapes

What an expression over the rows of a layer denotes: a scalar, one entity, the many rows of a
collection, an object under construction, or a row without a type.
-/

namespace QueryCompiler

/-- What an expression denotes. -/
inductive Shape where
  | scalar
  /-- one entity: a root or joined row, or a reference navigation -/
  | entity (ty : String)
  /-- the rows of a collection navigation -/
  | collection (ty : String)
  | object
  /-- a row without a type: of an anonymous projection, or a group -/
  | row
  deriving DecidableEq, Repr

namespace Shape

def isCollection : Shape → Bool
  | collection _ => true
  | _ => false

def ofMember : MemberKind → Shape
  | .column _ => scalar
  | .navigation nav => if nav.many then collection nav.target else entity nav.target

end Shape

/-- The shape of an expression. A member that the root type does not declare is a column that an
inner layer exports. -/
def Layer.shape (schema : Schema) (l : Layer) : Expr → Compiled Shape
  | .source id =>
    match l.sourceType? id with
    | some ty => .ok (.entity ty)
    | none => .ok .row
  | .member target name => do
    match ← l.shape schema target with
    | .entity ty =>
      let e ← schema.entity ty
      match e.member? name with
      | some m => .ok (.ofMember m.kind)
      | none =>
        if l.isDerived && target.isRoot then .ok .scalar else .error (.unknownMember ty name)
    | .collection ty => .error (.ambiguous (.memberOfCollection name ty))
    | .scalar | .object | .row => .ok .scalar
  | .object _ _ => .ok .object
  | .grouping _ _ => .ok .row
  | .joinGroup _ _ => .error (.ambiguous .unflattenedGroupJoin)
  | _ => .ok .scalar

end QueryCompiler

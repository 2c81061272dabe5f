import QueryCompiler.Json.Decode
import QueryCompiler.Json.Printer
import QueryCompiler.Json.Reader
import QueryCompiler.Schema.Grammar
/-!
# Schemas in JSON
-/

namespace QueryCompiler

namespace Column

/-- A column in JSON. An absent size is left out. -/
def toJson (c : Column) : Json :=
  .object ([("column", .string c.column), ("db_type", .string c.dbType.name)] ++
    (match c.size with | some n => [("size", Json.ofNat n)] | none => []) ++
    [("key", .bool c.key), ("identity", .bool c.identity), ("nullable", .bool c.nullable),
      ("excluded", .bool c.excluded), ("row_version", .bool c.rowVersion)])

/-- Reads a column. Flags that are missing are not set. -/
def ofJson? (j : Json) : Option Column := do
  let r ← j.record? ["column", "db_type", "size", "key", "identity", "nullable", "excluded",
    "row_version"]
  let column ← r.required "column" Json.string?
  let dbType ← r.required "db_type" (Json.named? DbType.ofName?)
  let size ← r.defaulted "size" (Json.option? Json.width?) none
  let key ← r.defaulted "key" Json.bool? false
  let identity ← r.defaulted "identity" Json.bool? false
  let nullable ← r.defaulted "nullable" Json.bool? false
  let excluded ← r.defaulted "excluded" Json.bool? false
  let rowVersion ← r.defaulted "row_version" Json.bool? false
  some { column, dbType, size, key, identity, nullable, excluded, rowVersion }

end Column

namespace ForeignKey

def toJson (fk : ForeignKey) : Json :=
  .object [
    ("owner_keys", Json.strings fk.ownerKeys), ("target_keys", Json.strings fk.targetKeys)]

def ofJson? (j : Json) : Option ForeignKey := do
  let r ← j.record? ["owner_keys", "target_keys"]
  let ownerKeys ← r.required "owner_keys" (Json.list? Json.string?)
  let targetKeys ← r.required "target_keys" (Json.list? Json.string?)
  some { ownerKeys, targetKeys }

end ForeignKey

namespace Navigation

/-- A navigation in JSON. An absent foreign key is left out. -/
def toJson (n : Navigation) : Json :=
  .object ([("target", .string n.target), ("many", .bool n.many)] ++
    (match n.foreignKey with | some fk => [("foreign_key", fk.toJson)] | none => []))

def ofJson? (j : Json) : Option Navigation := do
  let r ← j.record? ["target", "many", "foreign_key"]
  let target ← r.required "target" Json.string?
  let many ← r.defaulted "many" Json.bool? false
  let foreignKey ← r.defaulted "foreign_key" (Json.option? ForeignKey.ofJson?) none
  some { target, many, foreignKey }

end Navigation

namespace MemberKind

def toJson : MemberKind → Json
  | column c => Json.tagged "column" c.toJson
  | navigation n => Json.tagged "navigation" n.toJson

def ofJson? (j : Json) : Option MemberKind := do
  let (name, content) ← j.alternative?
  let content ← content
  match name with
  | "column" => (Column.ofJson? content).map column
  | "navigation" => (Navigation.ofJson? content).map navigation
  | _ => none

end MemberKind

namespace Member

def toJson (m : Member) : Json :=
  .object [("name", .string m.name), ("kind", m.kind.toJson)]

def ofJson? (j : Json) : Option Member := do
  let r ← j.record? ["name", "kind"]
  let name ← r.required "name" Json.string?
  let kind ← r.required "kind" MemberKind.ofJson?
  some { name, kind }

end Member

namespace Entity

def toJson (e : Entity) : Json :=
  .object [
    ("ty", .string e.ty), ("table", .string e.table),
    ("members", .array (e.members.map Member.toJson))]

def ofJson? (j : Json) : Option Entity := do
  let r ← j.record? ["ty", "table", "members"]
  let ty ← r.required "ty" Json.string?
  let table ← r.required "table" Json.string?
  let members ← r.required "members" (Json.list? Member.ofJson?)
  some { ty, table, members }

end Entity

namespace Schema

/-- A schema in JSON: its entities by name, in the order of the names. -/
def toJson (s : Schema) : Json :=
  .object [("entities", .object (s.entities.map fun (k, e) => (k, e.toJson)))]

/-- Reads entities by name; the last of a name counts. -/
def entitiesOfJson? : Json → Option Schema
  | .object fields =>
    fields.foldlM (fun s (k, j) => (Entity.ofJson? j).map (s.insert k)) empty
  | _ => none

def ofJson? (j : Json) : Option Schema := do
  let r ← j.record? ["entities"]
  r.required "entities" entitiesOfJson?

def jsonText (s : Schema) : String :=
  s.toJson.pretty

def fromJson (j : Json) : Compiled Schema :=
  match ofJson? j with
  | some s => .ok s
  | none => .error (.schema .malformedJson)

/-- A schema from JSON text. Fields that a schema does not have need only be well formed. -/
def fromJsonText (text : String) : Compiled Schema :=
  match Json.ofWellFormed? text with
  | some j => fromJson j
  | none => .error (.schema .malformedJson)

/-- A schema from the content of a file: JSON if its first character that is not blank is an
opening brace, schema text otherwise. No content stands for a file that cannot be read. -/
def load : Option String → Compiled Schema
  | none => .error .unreadableFile
  | some content =>
    if (Text.trimStart content.toList).head? == some '\x7b' then fromJsonText content
    else ofText content

end Schema

end QueryCompiler

import QueryCompiler.Log.Codec
import QueryCompiler.Sql.SelectList
/-!
# Commands

What is handed to a database: SQL text with its parameters in order, and for a query the map by
which rows are read.
-/

namespace QueryCompiler

/-- Whether the text of a command is SQL or the name of a procedure. -/
inductive CommandKind where
  | text
  | storedProcedure
  deriving DecidableEq, Repr

def CommandKind.name : CommandKind → String
  | text => "Text"
  | storedProcedure => "StoredProcedure"

/-- A parameter under the name it has in the text. -/
structure Parameter where
  name : String
  value : Value
  dbType : DbType
  size : Option Nat := none

/-- The output columns of a query and the spans among them. -/
structure ResultMap where
  columns : List String := []
  navigations : List Sql.Span := []

def ResultMap.navigation? (m : ResultMap) (path : String) : Option Sql.Span :=
  m.navigations.find? (·.path == path)

/-- Text with parameters. -/
structure Command where
  sql : String
  params : List Parameter := []
  kind : CommandKind := .text
  /-- present for queries -/
  resultMap : Option ResultMap := none

namespace Command

/-- SQL text without parameters. -/
def ofSql (sql : String) : Command := { sql }

def ofProcedure (name : String) : Command := { sql := name, kind := .storedProcedure }

/-- Adds a parameter of the type its value has by itself. -/
def withParam (c : Command) (name : String) (value : Value) : Command :=
  { c with params := c.params ++ [{ name, value, dbType := .infer value }] }

def param? (c : Command) (name : String) : Option Parameter :=
  c.params.find? (·.name == name)

end Command

/-! ## JSON -/

def Parameter.toJson (p : Parameter) : Json :=
  .object [
    ("name", .string p.name), ("value", p.value.toJson), ("db_type", .string p.dbType.name),
    ("size", Json.ofOption Json.ofNat p.size)]

def Sql.Span.toJson (s : Sql.Span) : Json :=
  .object [("path", .string s.path), ("start", Json.ofNat s.start), ("span", Json.ofNat s.length)]

def Sql.Span.ofJson? (j : Json) : Option Sql.Span := do
  let r ← j.record? ["path", "start", "span"]
  some ⟨← r.required "path" Json.string?, ← r.required "start" Json.nat?,
    ← r.required "span" Json.nat?⟩

def ResultMap.toJson (m : ResultMap) : Json :=
  .object [
    ("columns", Json.strings m.columns),
    ("navigations", .array (m.navigations.map Sql.Span.toJson))]

def Command.toJson (c : Command) : Json :=
  .object [
    ("sql", .string c.sql), ("params", .array (c.params.map Parameter.toJson)),
    ("kind", .string c.kind.name), ("result_map", Json.ofOption ResultMap.toJson c.resultMap)]

end QueryCompiler

import QueryCompiler.Error
import QueryCompiler.Json.Decode
import QueryCompiler.Sql.Dialect
import QueryCompiler.Toml.Reader
/-!
# Configuration

The five settings of the compiler, read from TOML or JSON or set one by one. Settings that are not
given keep their defaults.
-/

namespace QueryCompiler

/-- The settings of the compiler. -/
structure Config where
  dialect : Dialect := .sqlServer
  /-- constants become parameters -/
  parameterized : Bool := false
  /-- rows for each insert statement -/
  insertBatchSize : Nat := 200
  /-- rows are numbered to pass over some of them without a bound -/
  rowNumberPaging : Bool := false
  /-- strings are marked as national -/
  unicodeLiterals : Bool := true
  deriving DecidableEq, Repr

namespace Config

def ofDialect (dialect : Dialect) : Config := { dialect }

/-- Sets the number of rows for each insert statement, at least one. -/
def withBatchSize (c : Config) (rows : Nat) : Config :=
  { c with insertBatchSize := max rows 1 }

/-! ## JSON -/

def toJson (c : Config) : Json :=
  .object [
    ("dialect", .string c.dialect.name),
    ("parameterized", .bool c.parameterized),
    ("insert_batch_size", Json.ofNat c.insertBatchSize),
    ("row_number_paging", .bool c.rowNumberPaging),
    ("unicode_literals", .bool c.unicodeLiterals)]

def ofJson? (j : Json) : Option Config := do
  let r ← j.record? ["dialect", "parameterized", "insert_batch_size", "row_number_paging",
    "unicode_literals"]
  some {
    dialect := ← r.defaulted "dialect" (Json.named? Dialect.ofName?) .sqlServer
    parameterized := ← r.defaulted "parameterized" Json.bool? false
    insertBatchSize := ← r.defaulted "insert_batch_size" Json.nat? 200
    rowNumberPaging := ← r.defaulted "row_number_paging" Json.bool? false
    unicodeLiterals := ← r.defaulted "unicode_literals" Json.bool? true }

/-! ## TOML -/

def setting {α : Type} (t : Toml.Table) (key : String) (f : Toml → Option α) (default : α) :
    Option α :=
  match t.get? key with
  | none => some default
  | some v => f v

def switch? : Toml → Option Bool
  | .bool b => some b
  | _ => none

def rows? : Toml → Option Nat
  | .integer n => if 0 ≤ n then some n.toNat else none
  | _ => none

/-- A dialect: its name, or a table whose only key is the name and whose value is empty. -/
def dialect? : Toml → Option Dialect
  | .string s => Dialect.ofName? s
  | .table t =>
    match t.items with
    | [(name, .table inner)] => if inner.items.isEmpty then Dialect.ofName? name else none
    | [(name, .array items)] => if items.isEmpty then Dialect.ofName? name else none
    | _ => none
  | _ => none

def ofTable? (t : Toml.Table) : Option Config := do
  some {
    dialect := ← setting t "dialect" dialect? .sqlServer
    parameterized := ← setting t "parameterized" switch? false
    insertBatchSize := ← setting t "insert_batch_size" rows? 200
    rowNumberPaging := ← setting t "row_number_paging" switch? false
    unicodeLiterals := ← setting t "unicode_literals" switch? true }

def ofToml (text : String) : Compiled Config :=
  match (Toml.ofText? text).bind ofTable? with
  | none => .error (.config .malformed)
  | some c => if c.insertBatchSize = 0 then .error (.config .zeroBatch) else .ok c

/-- Reads settings from the content of a file, if there is one. -/
def load : Option String → Compiled Config
  | none => .error (.config .unreadable)
  | some text => ofToml text

end Config

end QueryCompiler

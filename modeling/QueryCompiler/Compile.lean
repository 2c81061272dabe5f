import QueryCompiler.Command
import QueryCompiler.Config
import QueryCompiler.Plan.OfLog
import QueryCompiler.Sql.OfPlan
import QueryCompiler.Sql.Printer
/-!
# Compilation

From a log to a command: the log is planned, the plan becomes a statement with numbered constants,
and the statement is written as the configuration asks. Constants are written out, or become the
parameters of the command under their placeholders.
-/

namespace QueryCompiler

open Sql (Constant Layout Script Statement)

namespace Config

/-- How statements are laid out under a configuration. -/
def layout (c : Config) : Layout :=
  { dialect := c.dialect
    unicode := c.unicodeLiterals
    rowNumbers := c.rowNumberPaging
    batchSize := c.insertBatchSize }

/-- A constant in the text: its placeholder, or its value. -/
def writeConstant (c : Config) (k : Constant) : String :=
  if c.parameterized then c.dialect.placeholder k.index
  else k.value.literal c.dialect c.unicodeLiterals

def write (c : Config) (s : Script) : String :=
  s.text c.writeConstant

def parameter (c : Config) (k : Constant) : Parameter :=
  ⟨c.dialect.placeholder k.index, k.value, k.dbType, k.size⟩

def parameters (c : Config) (ks : List Constant) : List Parameter :=
  if c.parameterized then ks.map c.parameter else []

end Config

def Sql.Statement.resultMap? : Statement → Option ResultMap
  | .query q => some ⟨q.selectList.names, q.selectList.spans⟩
  | _ => none

def Plan.numberedStatement (schema : Schema) (dialect : Dialect) (p : Plan) :
    Compiled (Statement × List Constant) := do
  let (statement, scope) ← (p.statement schema dialect).run {}
  return (statement, scope.constants)

def Plan.command (schema : Schema) (config : Config) (p : Plan) : Compiled Command := do
  let (statement, constants) ← p.numberedStatement schema config.dialect
  return {
    sql := config.write (statement.script config.layout)
    params := config.parameters constants
    resultMap := statement.resultMap? }

/-- The SQL of a plan in a dialect, with all else at its default. -/
def Plan.sql (schema : Schema) (dialect : Dialect) (p : Plan) : Compiled String := do
  return (← p.command schema (.ofDialect dialect)).sql

def Log.compile (schema : Schema) (config : Config) (log : Log) : Compiled Command := do
  (← Plan.ofLog schema log).command schema config

end QueryCompiler

/-!
# TOML values

Values of the TOML data format, and tables under construction. How a table came to be decides
whether it may still grow: a table that a header names is closed once, a table that only lies on
the path of a header or of a dotted key may be entered again by one of the same sort, and a table
written inline is closed at its brace.
-/

namespace QueryCompiler

mutual

/-- A TOML value. -/
inductive Toml where
  | bool (b : Bool)
  | integer (n : Int)
  | float (text : String)
  | dateTime (text : String)
  | string (s : String)
  | array (items : List Toml)
  | table (table : Toml.Table)
  /-- the tables of `[[name]]` headers -/
  | tables (tables : List Toml.Table)

/-- A table and how it came to be. -/
structure Toml.Table where
  /-- lies on the path to another table and has no header of its own -/
  implicit : Bool
  /-- opened by a dotted key -/
  dotted : Bool
  /-- written between braces -/
  inline : Bool
  items : List (String × Toml)

end

namespace Toml.Table

def empty : Table := ⟨false, false, false, []⟩

instance : Inhabited Table := ⟨empty⟩

def get? (t : Table) (key : String) : Option Toml :=
  t.items.lookup key

/-- Puts a value under a key, in place of an earlier one. -/
def put (t : Table) (key : String) (value : Toml) : Table :=
  if (t.get? key).isSome then
    { t with items := t.items.map fun (k, v) => if k == key then (k, value) else (k, v) }
  else { t with items := t.items ++ [(key, value)] }

def erase (t : Table) (key : String) : Table :=
  { t with items := t.items.filter (·.1 != key) }

/-- Changes the table at the end of a path, opening tables that are missing. A dotted key may not
enter a table that has a header, and nothing enters a value or an inline table from outside. -/
def enter (dotted inline : Bool) (f : Table → Option Table) : List String → Table → Option Table
  | [], t => f t
  | key :: path, t =>
    match t.get? key with
    | none => do
      let child ← enter dotted inline f path ⟨true, dotted, inline, []⟩
      some (t.put key (.table child))
    | some (.table child) =>
      if child.inline != inline || (dotted && !child.implicit) then none
      else do some (t.put key (.table (← enter dotted inline f path child)))
    | some (.tables ts) =>
      match ts.getLast? with
      | none => none
      | some last => do
        some (t.put key (.tables (ts.dropLast ++ [← enter dotted inline f path last])))
    | some _ => none

/-- Sets a key that is not there yet. -/
def define (key : String) (value : Toml) (t : Table) : Option Table :=
  if (t.get? key).isSome then none else some { t with items := t.items ++ [(key, value)] }

/-- Sets the value of a dotted key. Keys with dots do not add to a table opened without, nor the
other way round. -/
def assign (inline : Bool) (path : List String) (key : String) (value : Toml) (t : Table) :
    Option Table :=
  t.enter true inline
    (fun t => if t.dotted == path.isEmpty then none else t.define key value) path

end Toml.Table

end QueryCompiler

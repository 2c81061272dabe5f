import QueryCompiler.DateTime
import QueryCompiler.Guid
import QueryCompiler.Number.Decimal
/-!
# Constants

The constants a query may hold. Two constants are compared by what they denote: decimals by amount,
floats as numbers, all others by their parts.
-/

namespace QueryCompiler

/-- A constant of an expression or of an entity payload. -/
inductive Value where
  | null
  | bool (b : Bool)
  | int (n : Int64)
  | float (x : Float)
  | decimal (d : Number.Decimal)
  | string (s : String)
  | dateTime (t : DateTime)
  | guid (g : Guid)
  | list (items : List Value)
  deriving Inhabited

namespace Value

def isNull : Value → Bool
  | null => true
  | _ => false

def int? : Value → Option Int64
  | int n => some n
  | _ => none

def string? : Value → Option String
  | string s => some s
  | _ => none

mutual

/-- A constant as it is shown in messages. -/
def display : Value → String
  | null => "null"
  | bool b => if b then "true" else "false"
  | int n => toString n.toInt
  | float x => Number.floatText x
  | decimal d => d.text
  | string s => "\"" ++ s ++ "\""
  | dateTime t => t.textWith " "
  | guid g => g.text
  | list items => "[" ++ ", ".intercalate (displayAll items) ++ "]"

def displayAll : List Value → List String
  | [] => []
  | v :: vs => v.display :: displayAll vs

end

mutual

/-- Whether two constants denote the same. -/
def same : Value → Value → Bool
  | null, null => true
  | bool a, bool b => a == b
  | int a, int b => a == b
  | float a, float b => a == b
  | decimal a, decimal b => a.sameAmount b
  | string a, string b => a == b
  | dateTime a, dateTime b => a == b
  | guid a, guid b => a == b
  | list as, list bs => sameAll as bs
  | _, _ => false

/-- Whether two lists denote the same, item by item. -/
def sameAll : List Value → List Value → Bool
  | [], [] => true
  | a :: as, b :: bs => a.same b && sameAll as bs
  | _, _ => false

end

instance : BEq Value := ⟨same⟩

end Value

end QueryCompiler

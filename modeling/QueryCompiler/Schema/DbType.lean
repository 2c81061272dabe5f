import QueryCompiler.Text.Ascii
import QueryCompiler.Value
/-!
# Column types
-/

namespace QueryCompiler

/-- The type of a database column. -/
inductive DbType where
  | tinyInt
  | smallInt
  | int
  | bigInt
  | bit
  | decimal
  | money
  | float
  | real
  | char
  | nChar
  | varChar
  | nVarChar
  | text
  | nText
  | date
  | time
  | dateTime
  | dateTime2
  | timestamp
  | uniqueIdentifier
  | binary
  | varBinary
  deriving DecidableEq, Repr, Inhabited

namespace DbType

/-- Every column type, in the order of declaration. -/
def all : List DbType :=
  [tinyInt, smallInt, int, bigInt, bit, decimal, money, float, real, char, nChar, varChar, nVarChar,
    text, nText, date, time, dateTime, dateTime2, timestamp, uniqueIdentifier, binary, varBinary]

def name : DbType → String
  | tinyInt => "tinyint"
  | smallInt => "smallint"
  | int => "int"
  | bigInt => "bigint"
  | bit => "bit"
  | decimal => "decimal"
  | money => "money"
  | float => "float"
  | real => "real"
  | char => "char"
  | nChar => "nchar"
  | varChar => "varchar"
  | nVarChar => "nvarchar"
  | text => "text"
  | nText => "ntext"
  | date => "date"
  | time => "time"
  | dateTime => "datetime"
  | dateTime2 => "datetime2"
  | timestamp => "timestamp"
  | uniqueIdentifier => "uniqueidentifier"
  | binary => "binary"
  | varBinary => "varbinary"

def ofName? (s : String) : Option DbType :=
  all.find? (·.name == s)

/-- Second names that schema text may use. -/
def synonyms : List (String × DbType) :=
  [("byte", tinyInt), ("short", smallInt), ("integer", int), ("long", bigInt), ("bool", bit),
    ("boolean", bit), ("numeric", decimal), ("double", float), ("string", nVarChar),
    ("rowversion", timestamp), ("guid", uniqueIdentifier), ("uuid", uniqueIdentifier)]

/-- The type a word of schema text means, in any case. -/
def ofWord? (s : String) : Option DbType :=
  let word := Text.lowerAscii s
  (ofName? word).or (synonyms.lookup word)

/-- The type a constant has when no column fixes it. -/
def infer : Value → DbType
  | .bool _ => bit
  | .int n =>
    if Int32.minValue.toInt ≤ n.toInt && n.toInt ≤ Int32.maxValue.toInt then int else bigInt
  | .float _ => float
  | .decimal _ => decimal
  | .dateTime _ => dateTime
  | .guid _ => uniqueIdentifier
  | .null | .string _ | .list _ => nVarChar

/-- A type whose values are character strings. -/
def isString : DbType → Bool
  | char | nChar | varChar | nVarChar | text | nText => true
  | _ => false

/-- The type whose values are true and false. -/
def isBool : DbType → Bool
  | bit => true
  | _ => false

theorem ofName?_name (t : DbType) : ofName? t.name = some t := by
  cases t <;> decide

end DbType

end QueryCompiler

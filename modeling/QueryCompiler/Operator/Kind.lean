import QueryCompiler.Expr.Symbol
import QueryCompiler.Text.Ascii
/-!
# Operator kinds

The closed set of operators a query log may record. A tag names its kind in any case.
-/

namespace QueryCompiler

/-- The kind of one entry of a query log. -/
inductive OpKind where
  | getSource
  | filter
  | select
  | selectMany
  | join
  | groupJoin
  | groupJoinRight
  | groupBy
  | orderBy
  | orderByDescending
  | thenBy
  | thenByDescending
  | skip
  | take
  | distinct
  | any
  | first
  | firstOrDefault
  | single
  | singleOrDefault
  | count
  | sum
  | max
  | min
  | average
  | union
  | includePath
  | asSubquery
  | insert
  | update
  | delete
  deriving DecidableEq, Repr, Inhabited

namespace OpKind

def all : List OpKind :=
  [getSource, filter, select, selectMany, join, groupJoin, groupJoinRight, groupBy, orderBy,
    orderByDescending, thenBy, thenByDescending, skip, take, distinct, any, first, firstOrDefault,
    single, singleOrDefault, count, sum, max, min, average, union, includePath, asSubquery, insert,
    update, delete]

/-- The name under which a kind is recorded. -/
def name : OpKind → String
  | getSource => "GetSource"
  | filter => "Where"
  | select => "Select"
  | selectMany => "SelectMany"
  | join => "Join"
  | groupJoin => "GroupJoin"
  | groupJoinRight => "GroupJoinRight"
  | groupBy => "GroupBy"
  | orderBy => "OrderBy"
  | orderByDescending => "OrderByDescending"
  | thenBy => "ThenBy"
  | thenByDescending => "ThenByDescending"
  | skip => "Skip"
  | take => "Take"
  | distinct => "Distinct"
  | any => "Any"
  | first => "First"
  | firstOrDefault => "FirstOrDefault"
  | single => "Single"
  | singleOrDefault => "SingleOrDefault"
  | count => "Count"
  | sum => "Sum"
  | max => "Max"
  | min => "Min"
  | average => "Average"
  | union => "Union"
  | includePath => "Include"
  | asSubquery => "AsSubquery"
  | insert => "Insert"
  | update => "Update"
  | delete => "Delete"

def ofName? (s : String) : Option OpKind :=
  all.find? (·.name == s)

/-- The kind a tag means, in any case. -/
def ofTag? (s : String) : Option OpKind :=
  all.find? fun k => Text.sameIgnoringCase k.name s

/-- The function an aggregate operator ends the query with. -/
def aggregate? : OpKind → Option AggregateFunc
  | count => some .count
  | sum => some .sum
  | max => some .max
  | min => some .min
  | average => some .average
  | _ => none

/-- The operators that ask for one row. -/
def isFirst : OpKind → Bool
  | first | firstOrDefault | single | singleOrDefault => true
  | _ => false

/-- The operators that nothing may follow. -/
def isTerminal (k : OpKind) : Bool :=
  k.aggregate?.isSome || k.isFirst ||
    match k with
    | any | insert | update | delete => true
    | _ => false

theorem ofName?_name (k : OpKind) : ofName? k.name = some k := by
  cases k <;> decide

end OpKind

end QueryCompiler

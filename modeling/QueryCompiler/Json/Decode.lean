import QueryCompiler.Json.Basic
/-!
# Data in JSON

How typed data is read from JSON values. A record is an object, whose unknown fields are passed
over and whose known fields stand at most once, or an array with the fields in order. An
alternative is its name alone, or an object whose only field is the name with the content.
-/

namespace QueryCompiler.Json

/-! ## Plain data -/

def bool? : Json → Option Bool
  | bool b => some b
  | _ => none

def string? : Json → Option String
  | string s => some s
  | _ => none

def array? : Json → Option (List Json)
  | array items => some items
  | _ => none

def intWithin? (least most : Int) : Json → Option Int
  | integer n => if least ≤ n && n ≤ most then some n else none
  | _ => none

/-- A natural number below `2 ^ bits`. -/
def natBelow? (bits : Nat) (j : Json) : Option Nat :=
  (j.intWithin? 0 (Nat.pow 2 bits - 1 : Nat)).map Int.toNat

/-- A count of rows or a position. -/
def nat? (j : Json) : Option Nat :=
  j.natBelow? 64

def width? (j : Json) : Option Nat :=
  j.natBelow? 32

def float? : Json → Option Float
  | integer n => some (Number.Scientific.mk (n < 0) n.natAbs 0).toFloat
  | decimal s => some s.toFloat
  | _ => none

/-- An array whose items are all read by `f`. -/
def list? {α : Type} (f : Json → Option α) (j : Json) : Option (List α) :=
  j.array?.bind (·.mapM f)

/-- Null for none, or what `f` reads. -/
def option? {α : Type} (f : Json → Option α) : Json → Option (Option α)
  | null => some none
  | j => (f j).map some

def pair? {α β : Type} (f : Json → Option α) (g : Json → Option β) : Json → Option (α × β)
  | array [a, b] => do return (← f a, ← g b)
  | _ => none

/-! ## Records -/

/-- The fields found of a record. -/
structure Record where
  /-- the fields stood in an array -/
  positional : Bool
  fields : List (String × Json)

def record? (names : List String) : Json → Option Record
  | object fields =>
    let known := fields.filter fun f => names.contains f.1
    if names.all fun n => (known.filter (·.1 == n)).length ≤ 1 then some ⟨false, known⟩ else none
  | array items =>
    if items.length ≤ names.length then some ⟨true, names.zip items⟩ else none
  | _ => none

namespace Record

def get? (r : Record) (name : String) : Option Json :=
  r.fields.lookup name

def required {α : Type} (r : Record) (name : String) (f : Json → Option α) : Option α :=
  (r.get? name).bind f

/-- A field that may be null or missing; in an array it has its place. -/
def optional {α : Type} (r : Record) (name : String) (f : Json → Option α) : Option (Option α) :=
  match r.get? name with
  | none => if r.positional then none else some none
  | some j => j.option? f

/-- A field with a value for when it is missing. -/
def defaulted {α : Type} (r : Record) (name : String) (f : Json → Option α) (default : α) :
    Option α :=
  match r.get? name with
  | none => some default
  | some j => f j

end Record

/-! ## Alternatives -/

def alternative? : Json → Option (String × Option Json)
  | string name => some (name, none)
  | object [(name, content)] => some (name, some content)
  | _ => none

/-- An alternative without content, which may be written with null for content. -/
def bare? (name : String) : Option Json → Option String
  | none | some null => some name
  | some _ => none

def named? {α : Type} (ofName? : String → Option α) (j : Json) : Option α := do
  let (name, content) ← j.alternative?
  ofName? (← bare? name content)

/-- The fields of an alternative whose content is an object. -/
def contentRecord? (names : List String) (content : Option Json) : Option Record :=
  match content with
  | some (object fields) => record? names (object fields)
  | _ => none

end QueryCompiler.Json

import QueryCompiler.Number.Shortest
/-!
# JSON values

Values of the JSON data format. Fields of an object keep the order in which they are written, and a
number keeps whether it was written as a whole number. Text may be well formed and still stand for
no value; such a part is hollow, and a value without hollow parts is sound.
-/

namespace QueryCompiler

/-- A JSON value. -/
inductive Json where
  | null
  | bool (b : Bool)
  /-- a number written without fraction and exponent -/
  | integer (n : Int)
  /-- any other number, `-0` included -/
  | decimal (s : Number.Scientific)
  | string (s : String)
  | array (items : List Json)
  | object (fields : List (String × Json))
  /-- a number past the greatest float, a string with half a surrogate pair, or an object with such
  a string for a name -/
  | hollow
  deriving Inhabited

namespace Json

mutual

/-- How deeply arrays and objects are nested. -/
def depth : Json → Nat
  | array items => depthList items + 1
  | object fields => depthFields fields + 1
  | null | bool _ | integer _ | decimal _ | string _ | hollow => 0

def depthList : List Json → Nat
  | [] => 0
  | j :: js => max j.depth (depthList js)

def depthFields : List (String × Json) → Nat
  | [] => 0
  | (_, j) :: fs => max j.depth (depthFields fs)

end

mutual

/-- No part is hollow. -/
def isSound : Json → Bool
  | array items => soundList items
  | object fields => soundFields fields
  | null | bool _ | integer _ | decimal _ | string _ => true
  | hollow => false

def soundList : List Json → Bool
  | [] => true
  | j :: js => j.isSound && soundList js

def soundFields : List (String × Json) → Bool
  | [] => true
  | (_, j) :: fs => j.isSound && soundFields fs

end

def ofFloat (x : Float) : Json :=
  decimal (Number.shortestScientific x)

/-- A value, or null for none. -/
def ofOption {α : Type} (f : α → Json) : Option α → Json
  | none => null
  | some a => f a

def strings (items : List String) : Json :=
  array (items.map string)

def ofNat (n : Nat) : Json :=
  integer n

/-- An object with one field, the name of an alternative with its content. -/
def tagged (name : String) (content : Json) : Json :=
  object [(name, content)]

end Json

end QueryCompiler

import QueryCompiler.Error
import QueryCompiler.Schema.DbType
/-!
# Schemas

A schema maps type names to entities. An entity has a table and members, each either a column or a
navigation to the rows of another entity. Names are looked up exactly first and then in any case.
-/

namespace QueryCompiler

/-- A column of a table. -/
structure Column where
  /-- the name in the table -/
  column : String
  dbType : DbType
  size : Option Nat := none
  key : Bool := false
  identity : Bool := false
  nullable : Bool := false
  /-- a member that is neither read nor written -/
  excluded : Bool := false
  rowVersion : Bool := false
  deriving DecidableEq, Repr

namespace Column

/-- A column without flags, save that a timestamp is a row version. -/
def new (column : String) (dbType : DbType) : Column :=
  { column, dbType, rowVersion := dbType == .timestamp }

/-- Whether payloads write the column. The database fills identities and row versions. -/
def isWritable (c : Column) : Bool :=
  !c.identity && !c.excluded && !c.rowVersion

end Column

/-- The members of the owner that match members of the target, one by one. -/
structure ForeignKey where
  ownerKeys : List String
  targetKeys : List String
  deriving DecidableEq, Repr

/-- The matching members, up to the end of the shorter list. -/
def ForeignKey.pairs (fk : ForeignKey) : List (String × String) :=
  fk.ownerKeys.zip fk.targetKeys

/-- A reference to one row, or to many, of another entity. -/
structure Navigation where
  target : String
  many : Bool := false
  foreignKey : Option ForeignKey := none
  deriving DecidableEq, Repr

/-- What a member stands for. -/
inductive MemberKind where
  | column (column : Column)
  | navigation (navigation : Navigation)
  deriving DecidableEq, Repr

/-- A named member of an entity. -/
structure Member where
  name : String
  kind : MemberKind
  deriving DecidableEq, Repr

namespace Member

def column? (m : Member) : Option Column :=
  match m.kind with
  | .column c => some c
  | .navigation _ => none

def navigation? (m : Member) : Option Navigation :=
  match m.kind with
  | .navigation n => some n
  | .column _ => none

end Member

/-- An entity type with its table and members. -/
structure Entity where
  ty : String
  table : String
  members : List Member
  deriving DecidableEq, Repr

namespace Entity

/-- The member of exactly this name, or else the first of this name in any case. -/
def member? (e : Entity) (name : String) : Option Member :=
  (e.members.find? (·.name == name)).or
    (e.members.find? fun m => Text.sameIgnoringCase m.name name)

def column (e : Entity) (name : String) : Compiled Column :=
  match (e.member? name).bind Member.column? with
  | some c => .ok c
  | none => .error (.unknownMember e.ty name)

def navigation? (e : Entity) (name : String) : Option Navigation :=
  (e.member? name).bind Member.navigation?

/-- The columns that are not excluded, with their member names, as declared. -/
def columns (e : Entity) : List (String × Column) :=
  e.members.filterMap fun m =>
    match m.kind with
    | .column c => if c.excluded then none else some (m.name, c)
    | .navigation _ => none

def keys (e : Entity) : List (String × Column) :=
  e.columns.filter (·.2.key)

def identity? (e : Entity) : Option (String × Column) :=
  e.columns.find? (·.2.identity)

/-- The columns that payloads write. -/
def writable (e : Entity) : List (String × Column) :=
  e.columns.filter (·.2.isWritable)

end Entity

/-- Entities by type name, in the order of the names. -/
structure Schema where
  entities : List (String × Entity)
  sorted : entities.Pairwise fun a b => a.1 < b.1

namespace Schema

/-- Puts an entry in its place, in place of one with the same name. -/
def insertSorted (ty : String) (entity : Entity) : List (String × Entity) → List (String × Entity)
  | [] => [(ty, entity)]
  | (k, e) :: rest =>
    if ty < k then (ty, entity) :: (k, e) :: rest
    else if ty = k then (ty, entity) :: rest
    else (k, e) :: insertSorted ty entity rest

theorem mem_insertSorted {ty : String} {entity : Entity} {entries : List (String × Entity)}
    {x : String × Entity} (h : x ∈ insertSorted ty entity entries) :
    x = (ty, entity) ∨ x ∈ entries := by
  induction entries with
  | nil => simpa [insertSorted] using h
  | cons e rest ih =>
    simp only [insertSorted] at h
    split at h
    · simpa using h
    · split at h
      · rcases List.mem_cons.1 h with h | h
        · exact .inl h
        · exact .inr (List.mem_cons_of_mem _ h)
      · rcases List.mem_cons.1 h with h | h
        · exact .inr (by simp [h])
        · exact (ih h).imp_right (List.mem_cons_of_mem _)

/-- Insertion keeps the names in order. -/
theorem sorted_insertSorted {ty : String} {entity : Entity} {entries : List (String × Entity)}
    (h : entries.Pairwise fun a b => a.1 < b.1) :
    (insertSorted ty entity entries).Pairwise fun a b => a.1 < b.1 := by
  induction entries with
  | nil => simp [insertSorted]
  | cons e rest ih =>
    obtain ⟨first, tail⟩ := List.pairwise_cons.1 h
    simp only [insertSorted]
    split
    · rename_i before
      refine List.pairwise_cons.2 ⟨fun x hx => ?_, h⟩
      rcases List.mem_cons.1 hx with rfl | hx
      · exact before
      · exact String.lt_trans before (first x hx)
    · split
      · rename_i same
        exact List.pairwise_cons.2 ⟨fun x hx => same ▸ first x hx, tail⟩
      · rename_i notBefore notSame
        refine List.pairwise_cons.2 ⟨fun x hx => ?_, ih tail⟩
        rcases mem_insertSorted hx with rfl | hx
        · exact Std.lt_of_le_of_ne (String.not_lt.1 notBefore) (Ne.symm notSame)
        · exact first x hx

def empty : Schema := ⟨[], .nil⟩

instance : Inhabited Schema := ⟨empty⟩

/-- Files an entity under a name. -/
def insert (s : Schema) (ty : String) (entity : Entity) : Schema :=
  ⟨insertSorted ty entity s.entities, sorted_insertSorted s.sorted⟩

/-- Files an entity under its own type, in place of an earlier one of the type. -/
def register (s : Schema) (entity : Entity) : Schema :=
  s.insert entity.ty entity

/-- The entity filed under a name. -/
def get? (s : Schema) (ty : String) : Option Entity :=
  s.entities.lookup ty

/-- The entity of a type, or the error that there is none. -/
def entity (s : Schema) (ty : String) : Compiled Entity :=
  match s.get? ty with
  | some e => .ok e
  | none => .error (.unknownEntity ty)

def isEntity (s : Schema) (ty : String) : Bool :=
  (s.get? ty).isSome

end Schema

end QueryCompiler

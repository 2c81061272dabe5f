import QueryCompiler.Schema.Basic
import QueryCompiler.Text.Alphanumeric
/-!
# Schema text

The textual form of a schema:

    -- rows of the demonstration
    entity Demo => Sys_Demo (
        Id int key identity,
        Name nvarchar(32) nullable,
        Code varchar(32) column(DemoCode),
        Client ref Client fk(ClientId => Id),
        Accounts many ClientAccount fk(Id => ClientId)
    )

Keywords are read in any case. A comment runs from two hyphens to the end of its line and may stand
where members and entities are separated. Without `=> Table` the table has the name of the entity.

The text is first read into declarations (`declarations`), then the declarations are checked and
registered (`Declaration.register`). Each reading function takes the characters not yet read and
returns what it has read with the rest, or nothing, in which case nothing has been read.
-/

namespace QueryCompiler.Schema.Grammar

/-! ## Declarations -/

/-- A word after a column type. -/
inductive Flag where
  | key
  | identity
  | nullable
  | rowVersion
  | ignore
  | column (name : String)
  deriving DecidableEq, Repr

/-- A member as declared. -/
inductive MemberDecl where
  | column (word : String) (size : Option Nat) (flags : List Flag)
  | navigation (many : Bool) (target : String) (foreignKey : Option ForeignKey)
  deriving DecidableEq, Repr

/-- An entity as declared. -/
structure Declaration where
  name : String
  table : Option String
  members : List (String × MemberDecl)
  deriving DecidableEq, Repr

/-! ## Characters and words -/

def exactly (word : List Char) (cs : List Char) : Option (List Char) :=
  if word.isPrefixOf cs then some (cs.drop word.length) else none

/-- A fixed text in any case. -/
def keyword (word : String) (cs : List Char) : Option (List Char) :=
  let letters := word.toList
  if letters == (cs.take letters.length).map Char.toLower then some (cs.drop letters.length)
  else none

def spacing (cs : List Char) : List Char :=
  cs.dropWhile Text.isSpacing

def someSpacing : List Char → Option (List Char)
  | c :: rest => if Text.isSpacing c then some (spacing rest) else none
  | [] => none

/-- A comment up to the end of its line. A carriage return may only stand before a line feed. -/
def comment (cs : List Char) : Option (List Char) := do
  let rest ← exactly ['-', '-'] cs
  let rest := rest.dropWhile fun c => c != '\r' && c != '\n'
  match rest with
  | '\r' :: '\n' :: _ => some rest
  | '\r' :: _ => none
  | _ => some rest

/-- The rest after spacing and comments. The number bounds the steps. -/
def blankAt : Nat → List Char → List Char
  | 0, cs => cs
  | steps + 1, cs =>
    match (someSpacing cs).or (comment cs) with
    | some rest => blankAt steps rest
    | none => cs

/-- The rest after spacing and comments. -/
def blank (cs : List Char) : List Char :=
  blankAt cs.length cs

/-- A name: letters, digits and underscores, at least one. -/
def identifier (cs : List Char) : Option (String × List Char) :=
  match cs.takeWhile Text.isIdentifierChar with
  | [] => none
  | name => some (String.ofList name, cs.dropWhile Text.isIdentifierChar)

/-! ## Members -/

/-- The value of a run of digits, if it is below `2 ^ 32`. -/
def sizeValue? (digits : List Char) : Option Nat :=
  let n := digits.foldl (fun n c => n * 10 + (c.toNat - '0'.toNat)) 0
  if n < UInt32.size then some n else none

/-- The size of a type in parentheses; `max` is no size. -/
def typeSize (cs : List Char) : Option (Option Nat × List Char) := do
  let rest ← exactly ['('] cs
  match keyword "max" rest with
  | some rest => some (none, ← exactly [')'] rest)
  | none =>
    match rest.takeWhile Char.isDigit with
    | [] => none
    | digits => some (sizeValue? digits, ← exactly [')'] (rest.dropWhile Char.isDigit))

/-- `column(name)`. -/
def columnFlag (cs : List Char) : Option (Flag × List Char) := do
  let rest ← exactly ['('] (← keyword "column" cs)
  let (name, rest) ← identifier (spacing rest)
  some (.column name, ← exactly [')'] (spacing rest))

def wordFlag (word : String) (flag : Flag) (cs : List Char) : Option (Flag × List Char) :=
  (keyword word cs).map (flag, ·)

def flag (cs : List Char) : Option (Flag × List Char) :=
  columnFlag cs <|> wordFlag "identity" .identity cs <|> wordFlag "key" .key cs <|>
    wordFlag "nullable" .nullable cs <|> wordFlag "rowversion" .rowVersion cs <|>
    wordFlag "ignore" .ignore cs

/-- Flags, each after spacing. The number bounds them. -/
def flagsAt : Nat → List Char → List Flag × List Char
  | 0, cs => ([], cs)
  | steps + 1, cs =>
    match (someSpacing cs).bind flag with
    | some (f, rest) =>
      let (fs, rest) := flagsAt steps rest
      (f :: fs, rest)
    | none => ([], cs)

/-- The type, size and flags of a column. -/
def columnDecl (cs : List Char) : Option (MemberDecl × List Char) := do
  let (word, rest) ← identifier cs
  let (size, rest) := (typeSize rest).getD (none, rest)
  let (flags, rest) := flagsAt rest.length rest
  some (.column word size flags, rest)

/-- Names after the first of a list, each after a comma. The number bounds them. -/
def moreNames : Nat → List Char → List String × List Char
  | 0, cs => ([], cs)
  | steps + 1, cs =>
    match (exactly [','] (spacing cs)).bind fun rest => identifier (spacing rest) with
    | some (name, rest) =>
      let (names, rest) := moreNames steps rest
      (name :: names, rest)
    | none => ([], cs)

/-- Names with commas between them, at least one. -/
def nameList (cs : List Char) : Option (List String × List Char) := do
  let (name, rest) ← identifier cs
  let (names, rest) := moreNames rest.length rest
  some (name :: names, rest)

/-- `fk(A, B => C, D)`. -/
def foreignKey (cs : List Char) : Option (ForeignKey × List Char) := do
  let rest ← exactly ['('] (spacing (← keyword "fk" cs))
  let (ownerKeys, rest) ← nameList (spacing rest)
  let rest ← exactly ['=', '>'] (spacing rest)
  let (targetKeys, rest) ← nameList (spacing rest)
  some (⟨ownerKeys, targetKeys⟩, ← exactly [')'] (spacing rest))

/-- `ref` or `many`. -/
def multiplicity (cs : List Char) : Option (Bool × List Char) :=
  ((keyword "ref" cs).map (false, ·)).or ((keyword "many" cs).map (true, ·))

/-- The multiplicity, target and foreign key of a navigation. -/
def navigationDecl (cs : List Char) : Option (MemberDecl × List Char) := do
  let (many, rest) ← multiplicity cs
  let (target, rest) ← identifier (← someSpacing rest)
  match (someSpacing rest).bind foreignKey with
  | some (fk, rest) => some (.navigation many target (some fk), rest)
  | none => some (.navigation many target none, rest)

def member (cs : List Char) : Option ((String × MemberDecl) × List Char) := do
  let (name, rest) ← identifier (blank cs)
  let rest ← someSpacing rest
  let (decl, rest) ← navigationDecl rest <|> columnDecl rest
  some ((name, decl), rest)

/-- Members after the first, each after a comma. The number bounds them. -/
def moreMembers : Nat → List Char → List (String × MemberDecl) × List Char
  | 0, cs => ([], cs)
  | steps + 1, cs =>
    match (exactly [','] (blank cs)).bind member with
    | some (m, rest) =>
      let (ms, rest) := moreMembers steps rest
      (m :: ms, rest)
    | none => ([], cs)

/-! ## Entities -/

/-- `=> Table`. -/
def tableName (cs : List Char) : Option (String × List Char) := do
  let rest ← exactly ['=', '>'] (spacing cs)
  identifier (spacing rest)

def declaration (cs : List Char) : Option (Declaration × List Char) := do
  let rest ← someSpacing (← keyword "entity" (blank cs))
  let (name, rest) ← identifier rest
  let (table, rest) :=
    match tableName rest with
    | some (table, rest) => (some table, rest)
    | none => (none, rest)
  let rest ← exactly ['('] (blank rest)
  let (first, rest) ← member rest
  let (more, rest) := moreMembers rest.length rest
  let rest ← exactly [')'] (blank rest)
  some (⟨name, table, first :: more⟩, rest)

/-- Entities as far as they can be read. The number bounds them. -/
def declarationsAt : Nat → List Char → List Declaration × List Char
  | 0, cs => ([], cs)
  | steps + 1, cs =>
    match declaration cs with
    | some (d, rest) =>
      let (ds, rest) := declarationsAt steps rest
      (d :: ds, rest)
    | none => ([], cs)

/-- The entities of a text and what is left of it after them. -/
def declarations (cs : List Char) : List Declaration × List Char :=
  let start := blank cs
  let (ds, rest) := declarationsAt start.length start
  (ds, blank rest)

/-! ## From declarations to a schema -/

def Flag.apply (c : Column) : Flag → Column
  | key => { c with key := true }
  | identity => { c with identity := true }
  | nullable => { c with nullable := true }
  | rowVersion => { c with rowVersion := true }
  | ignore => { c with excluded := true }
  | column name => { c with column := name }

def MemberDecl.kind (entity name : String) : MemberDecl → Compiled MemberKind
  | column word size flags =>
    match DbType.ofWord? word with
    | none => .error (.schema (.unknownType word entity name))
    | some dbType =>
      .ok (.column (flags.foldl Flag.apply { Column.new name dbType with size }))
  | navigation many target foreignKey => .ok (.navigation { target, many, foreignKey })

/-- Adds the members declared after those of `done`. A name may be declared once. -/
def addMembers (entity : String) (done : List Member) :
    List (String × MemberDecl) → Compiled (List Member)
  | [] => .ok done
  | (name, decl) :: rest => do
    let kind ← decl.kind entity name
    if done.any (·.name == name) then .error (.schema (.duplicateMember entity name))
    else addMembers entity (done ++ [⟨name, kind⟩]) rest

def Declaration.register (s : Schema) (d : Declaration) : Compiled Schema := do
  let members ← addMembers d.name [] d.members
  return s.register { ty := d.name, table := d.table.getD d.name, members }

end QueryCompiler.Schema.Grammar

namespace QueryCompiler.Schema

def ofText (text : String) : Compiled Schema :=
  let (declarations, rest) := Grammar.declarations text.toList
  if rest.isEmpty then declarations.foldlM Grammar.Declaration.register empty
  else
    .error (.schema (.unexpectedContent (String.ofList (Text.firstLine (Text.trim rest)))))

end QueryCompiler.Schema

import Mathlib.Data.List.Perm.Basic
import QueryCompiler.Proofs.Schema.JsonRoundTrip
/-!
# Layouts of schema text

What it means that a text is a schema written down (`Schema.Layout`). Names and keywords stand in
the order of the grammar. Between them goes spacing (`Spaces`), or at the places where members and
entities are separated also comments (`Blanks`), of which nothing is said but that a comment stays
on its line. The flags of a column come in any order and may be repeated, and so do the entities of
a schema, which have no order of their own.

Not every schema can be written down: its names must be identifiers (`Schema.isPrintable`). Each
that can has a layout (`Schema.exists_layout`).
-/

namespace QueryCompiler

/-- Letters, digits and underscores, at least one. -/
def Text.isIdentifier (s : String) : Bool :=
  !s.toList.isEmpty && s.toList.all isIdentifierChar

/-! ## Schemas that can be written down -/

/-- The lists of keys are not empty, and the keys are identifiers. -/
def ForeignKey.isPrintable (fk : ForeignKey) : Bool :=
  !fk.ownerKeys.isEmpty && !fk.targetKeys.isEmpty &&
    (fk.ownerKeys ++ fk.targetKeys).all Text.isIdentifier

/-- A timestamp is a row version, the size is a width, and names are identifiers. -/
def MemberKind.isPrintable : MemberKind → Bool
  | column c =>
    Text.isIdentifier c.column && c.sizeFits && (c.dbType != .timestamp || c.rowVersion)
  | navigation n => Text.isIdentifier n.target && n.foreignKey.all ForeignKey.isPrintable

def Member.isPrintable (m : Member) : Bool :=
  Text.isIdentifier m.name && m.kind.isPrintable

/-- The names are identifiers, and there are members with a name each. -/
def Entity.isPrintable (e : Entity) : Bool :=
  Text.isIdentifier e.ty && Text.isIdentifier e.table && !e.members.isEmpty &&
    decide (e.members.map Member.name).Nodup && e.members.all Member.isPrintable

/-- Each entity is filed under its own type and can be written down. -/
def Schema.isPrintable (s : Schema) : Bool :=
  s.entities.all fun (k, e) => k == e.ty && e.isPrintable

namespace Schema.Grammar

/-! ## What separates -/

/-- Spacing, possibly none. -/
def Spaces (w : List Char) : Prop :=
  ∀ c ∈ w, Text.isSpacing c = true

/-- Spacing of at least one character. -/
def SomeSpaces (w : List Char) : Prop :=
  w ≠ [] ∧ Spaces w

instance : DecidablePred Spaces :=
  fun w => decidable_of_iff (w.all Text.isSpacing = true) List.all_eq_true

instance : DecidablePred SomeSpaces :=
  fun w => decidable_of_iff (w.isEmpty = false ∧ Spaces w) (by simp [SomeSpaces])

/-- Spacing and comments, each comment with the end of its line. -/
inductive Blanks : List Char → Prop
  | nil : Blanks []
  | space {c : Char} {w : List Char} : Text.isSpacing c = true → Blanks w → Blanks (c :: w)
  | comment {text lineEnd w : List Char} : (∀ c ∈ text, c ≠ '\r' ∧ c ≠ '\n') →
      lineEnd = ['\n'] ∨ lineEnd = ['\r', '\n'] → Blanks w →
      Blanks ('-' :: '-' :: (text ++ (lineEnd ++ w)))

/-! ## Members -/

/-- A flag written down. -/
inductive FlagText : Flag → List Char → Prop
  | key : FlagText .key "key".toList
  | identity : FlagText .identity "identity".toList
  | nullable : FlagText .nullable "nullable".toList
  | rowVersion : FlagText .rowVersion "rowversion".toList
  | ignore : FlagText .ignore "ignore".toList
  | column {name : String} {w w' : List Char} : Spaces w → Spaces w' →
      FlagText (.column name) ("column".toList ++ '(' :: (w ++ (name.toList ++ (w' ++ [')']))))

/-- Flags written down, each after spacing. -/
inductive FlagsText : List Flag → List Char → Prop
  | nil : FlagsText [] []
  | cons {f : Flag} {fs : List Flag} {w t ts : List Char} : SomeSpaces w → FlagText f t →
      FlagsText fs ts → FlagsText (f :: fs) (w ++ (t ++ ts))

/-- **The flags say what the column is.** That a timestamp is a row version need not be said, nor
the name of a column that is the name of its member. -/
structure States (name : String) (c : Column) (flags : List Flag) : Prop where
  key : .key ∈ flags ↔ c.key = true
  identity : .identity ∈ flags ↔ c.identity = true
  nullable : .nullable ∈ flags ↔ c.nullable = true
  ignore : .ignore ∈ flags ↔ c.excluded = true
  rowVersion : .rowVersion ∈ flags → c.rowVersion = true
  rowVersion_mem : c.rowVersion = true → .rowVersion ∈ flags ∨ c.dbType = .timestamp
  column {column : String} : .column column ∈ flags → column = c.column
  column_mem : c.column = name ∨ .column c.column ∈ flags

def sizeText : Option Nat → List Char
  | some n => '(' :: (Nat.toDigits 10 n ++ [')'])
  | none => []

/-- Names after the first of a list, each after a comma. -/
inductive MoreNamesText : List String → List Char → Prop
  | nil : MoreNamesText [] []
  | cons {name : String} {names : List String} {w w' t : List Char} : Spaces w → Spaces w' →
      MoreNamesText names t →
      MoreNamesText (name :: names) (w ++ ',' :: (w' ++ (name.toList ++ t)))

/-- Names with commas between them, at least one. -/
inductive NamesText : List String → List Char → Prop
  | mk {name : String} {names : List String} {t : List Char} : MoreNamesText names t →
      NamesText (name :: names) (name.toList ++ t)

/-- A foreign key written down. -/
inductive ForeignKeyText : ForeignKey → List Char → Prop
  | mk {ownerKeys targetKeys : List String} {w w₁ w₂ w₃ w₄ owner target : List Char} :
      Spaces w → Spaces w₁ → Spaces w₂ → Spaces w₃ → Spaces w₄ →
      NamesText ownerKeys owner → NamesText targetKeys target →
      ForeignKeyText ⟨ownerKeys, targetKeys⟩
        ("fk".toList ++ (w ++ '(' :: (w₁ ++ (owner ++ (w₂ ++ '=' :: '>' ::
          (w₃ ++ (target ++ (w₄ ++ [')']))))))))

def multiplicityText (many : Bool) : List Char :=
  (if many then "many" else "ref").toList

/-- What stands behind the name of a member. -/
inductive KindText (name : String) : MemberKind → List Char → Prop
  | column {c : Column} {flags : List Flag} {t : List Char} : States name c flags →
      FlagsText flags t →
      KindText name (.column c) (c.dbType.name.toList ++ (sizeText c.size ++ t))
  | navigation {target : String} {many : Bool} {w : List Char} : SomeSpaces w →
      KindText name (.navigation ⟨target, many, none⟩)
        (multiplicityText many ++ (w ++ target.toList))
  | keyed {target : String} {many : Bool} {fk : ForeignKey} {w w' t : List Char} : SomeSpaces w →
      SomeSpaces w' → ForeignKeyText fk t →
      KindText name (.navigation ⟨target, many, some fk⟩)
        (multiplicityText many ++ (w ++ (target.toList ++ (w' ++ t))))

/-- A member written down, with what separates it from the one before. -/
inductive MemberText : Member → List Char → Prop
  | mk {name : String} {kind : MemberKind} {b w t : List Char} : Blanks b → SomeSpaces w →
      KindText name kind t → MemberText ⟨name, kind⟩ (b ++ (name.toList ++ (w ++ t)))

/-- Members after the first, each after a comma. -/
inductive MoreMembersText : List Member → List Char → Prop
  | nil : MoreMembersText [] []
  | cons {m : Member} {ms : List Member} {b t ts : List Char} : Blanks b → MemberText m t →
      MoreMembersText ms ts → MoreMembersText (m :: ms) (b ++ ',' :: (t ++ ts))

/-! ## Entities -/

/-- An entity written down, with what separates it from the one before. -/
inductive EntityText : Entity → List Char → Prop
  | mk {ty table : String} {m : Member} {ms : List Member}
      {b b₁ b₂ w w₁ w₂ t ts : List Char} : Blanks b → SomeSpaces w → Spaces w₁ → Spaces w₂ →
      Blanks b₁ → MemberText m t → MoreMembersText ms ts → Blanks b₂ →
      EntityText ⟨ty, table, m :: ms⟩
        (b ++ ("entity".toList ++ (w ++ (ty.toList ++ (w₁ ++ '=' :: '>' :: (w₂ ++ (table.toList ++
          (b₁ ++ '(' :: (t ++ (ts ++ (b₂ ++ [')'])))))))))))

/-- Entities one after another. -/
inductive EntitiesText : List Entity → List Char → Prop
  | nil : EntitiesText [] []
  | cons {e : Entity} {es : List Entity} {t ts : List Char} : EntityText e t →
      EntitiesText es ts → EntitiesText (e :: es) (t ++ ts)

end Schema.Grammar

open Schema.Grammar

/-- **A text is a schema written down**, its entities in any order. -/
inductive Schema.Layout (s : Schema) : String → Prop
  | mk {es : List Entity} {b b' t : List Char} : es.Perm (s.entities.map (·.2)) → Blanks b →
      EntitiesText es t → Blanks b' → s.Layout (String.ofList (b ++ (t ++ b')))

/-! ## Every printable schema has a layout -/

namespace Schema.Grammar

theorem spaces_nil : Spaces [] := by decide

theorem someSpaces_space : SomeSpaces [' '] := by decide

def flagsOf (c : Column) : List Flag :=
  (if c.key then [.key] else []) ++ ((if c.identity then [.identity] else []) ++
    ((if c.nullable then [.nullable] else []) ++ ((if c.rowVersion then [.rowVersion] else []) ++
      ((if c.excluded then [.ignore] else []) ++ [.column c.column]))))

theorem states_flagsOf (name : String) (c : Column) : States name c (flagsOf c) := by
  constructor <;> simp +contextual [flagsOf]

theorem exists_flagText (f : Flag) : ∃ t, FlagText f t := by
  cases f with
  | key => exact ⟨_, .key⟩
  | identity => exact ⟨_, .identity⟩
  | nullable => exact ⟨_, .nullable⟩
  | rowVersion => exact ⟨_, .rowVersion⟩
  | ignore => exact ⟨_, .ignore⟩
  | column name => exact ⟨_, .column spaces_nil spaces_nil⟩

theorem exists_flagsText (fs : List Flag) : ∃ t, FlagsText fs t := by
  induction fs with
  | nil => exact ⟨_, .nil⟩
  | cons f fs ih =>
    obtain ⟨t, ht⟩ := exists_flagText f
    obtain ⟨ts, hts⟩ := ih
    exact ⟨_, .cons someSpaces_space ht hts⟩

theorem exists_moreNamesText (names : List String) : ∃ t, MoreNamesText names t := by
  induction names with
  | nil => exact ⟨_, .nil⟩
  | cons name names ih =>
    obtain ⟨t, ht⟩ := ih
    exact ⟨_, .cons spaces_nil someSpaces_space.2 ht⟩

theorem exists_namesText {names : List String} (h : names ≠ []) : ∃ t, NamesText names t := by
  cases names with
  | nil => exact absurd rfl h
  | cons name names =>
    obtain ⟨t, ht⟩ := exists_moreNamesText names
    exact ⟨_, .mk ht⟩

theorem exists_foreignKeyText {fk : ForeignKey} (h : fk.isPrintable) :
    ∃ t, ForeignKeyText fk t := by
  simp only [ForeignKey.isPrintable, Bool.and_eq_true, Bool.not_eq_true', List.isEmpty_eq_false_iff]
    at h
  obtain ⟨owner, howner⟩ := exists_namesText h.1.1
  obtain ⟨target, htarget⟩ := exists_namesText h.1.2
  exact ⟨_, .mk spaces_nil spaces_nil spaces_nil spaces_nil spaces_nil howner htarget⟩

theorem exists_kindText (name : String) {kind : MemberKind} (h : kind.isPrintable) :
    ∃ t, KindText name kind t := by
  cases kind with
  | column c =>
    obtain ⟨t, ht⟩ := exists_flagsText (flagsOf c)
    exact ⟨_, .column (states_flagsOf name c) ht⟩
  | navigation n =>
    obtain ⟨target, many, foreignKey⟩ := n
    cases foreignKey with
    | none => exact ⟨_, .navigation someSpaces_space⟩
    | some fk =>
      simp only [MemberKind.isPrintable, Option.all_some, Bool.and_eq_true] at h
      obtain ⟨t, ht⟩ := exists_foreignKeyText h.2
      exact ⟨_, .keyed someSpaces_space someSpaces_space ht⟩

theorem exists_memberText {m : Member} (h : m.isPrintable) : ∃ t, MemberText m t := by
  simp only [Member.isPrintable, Bool.and_eq_true] at h
  obtain ⟨t, ht⟩ := exists_kindText m.name h.2
  exact ⟨_, .mk .nil someSpaces_space ht⟩

theorem exists_moreMembersText {ms : List Member} (h : ∀ m ∈ ms, m.isPrintable = true) :
    ∃ t, MoreMembersText ms t := by
  induction ms with
  | nil => exact ⟨_, .nil⟩
  | cons m ms ih =>
    obtain ⟨t, ht⟩ := exists_memberText (h m (by simp))
    obtain ⟨ts, hts⟩ := ih fun m' hm' => h m' (List.mem_cons_of_mem m hm')
    exact ⟨_, .cons .nil ht hts⟩

theorem exists_entityText {e : Entity} (h : e.isPrintable) : ∃ t, EntityText e t := by
  obtain ⟨ty, table, members⟩ := e
  simp only [Entity.isPrintable, Bool.and_eq_true, List.all_eq_true] at h
  cases members with
  | nil => simp at h
  | cons m ms =>
    obtain ⟨t, ht⟩ := exists_memberText (h.2 m (by simp))
    obtain ⟨ts, hts⟩ := exists_moreMembersText fun m' hm' => h.2 m' (List.mem_cons_of_mem m hm')
    exact ⟨_, .mk .nil someSpaces_space spaces_nil spaces_nil .nil ht hts .nil⟩

theorem exists_entitiesText {es : List Entity} (h : ∀ e ∈ es, e.isPrintable = true) :
    ∃ t, EntitiesText es t := by
  induction es with
  | nil => exact ⟨_, .nil⟩
  | cons e es ih =>
    obtain ⟨t, ht⟩ := exists_entityText (h e (by simp))
    obtain ⟨ts, hts⟩ := ih fun e' he' => h e' (List.mem_cons_of_mem e he')
    exact ⟨_, .cons ht hts⟩

end Schema.Grammar

/-- A schema that can be written down has a layout. -/
theorem Schema.exists_layout {s : Schema} (h : s.isPrintable) : ∃ text, s.Layout text := by
  simp only [Schema.isPrintable, List.all_eq_true, Bool.and_eq_true] at h
  have hentities : ∀ e ∈ s.entities.map (·.2), e.isPrintable = true := by
    intro e he
    obtain ⟨x, hx, rfl⟩ := List.mem_map.1 he
    exact (h x hx).2
  obtain ⟨t, ht⟩ := exists_entitiesText hentities
  exact ⟨_, .mk (.refl _) .nil ht .nil⟩

end QueryCompiler

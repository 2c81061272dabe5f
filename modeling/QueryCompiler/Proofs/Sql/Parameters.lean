import QueryCompiler.Proofs.Sql.Layouts
import QueryCompiler.Proofs.Sql.NumberedStatement
/-!
# Constants and parameters

A plan is compiled alike whether its constants are written out or become parameters. Both texts have
the same places, with the same text between them. A place holds the literal of a value in the one,
and in the other the name of a parameter with that value.
-/

namespace QueryCompiler

open Sql

/-- Outcomes alike: both succeed, with results that are related, or both fail with one error. -/
def Compiled.Alike {α : Type} (R : α → α → Prop) : Compiled α → Compiled α → Prop
  | .ok a, .ok b => R a b
  | .error e, .error e' => e = e'
  | _, _ => False

/-! ## Places -/

/-- A place for a constant in a text. -/
structure Place where
  value : Value
  /-- what stands there for the value -/
  reference : String

namespace Place

/-- A text with its places filled, each followed by the text up to the next one. -/
def filled (fill : Place → String) (first : String) (places : List (Place × String)) : String :=
  first ++ String.join (places.map fun x => fill x.1 ++ x.2)

theorem filled_congr {fill fill' : Place → String} {first : String}
    {places : List (Place × String)} (h : ∀ x ∈ places, fill x.1 = fill' x.1) :
    filled fill first places = filled fill' first places := by
  unfold filled
  congr 2
  exact List.map_congr_left fun x hx => by rw [h x hx]

end Place

namespace Sql.Script

variable {reference write : Constant → String}

/-- The text of a script up to its first constant, and its places with the text behind each. -/
def places (reference : Constant → String) : Script → String × List (Place × String)
  | [] => ("", [])
  | .text t :: s => (t ++ (places reference s).1, (places reference s).2)
  | .constant c :: s =>
    ("", (⟨c.value, reference c⟩, (places reference s).1) :: (places reference s).2)

theorem map_places (reference : Constant → String) : ∀ s : Script,
    (s.places reference).2.map (·.1) = s.constants.map fun c => ⟨c.value, reference c⟩
  | [] => rfl
  | .text t :: s => by
    rw [places]
    exact map_places reference s
  | .constant c :: s => by
    rw [places, List.map_cons, map_places reference s]
    rfl

theorem exists_of_mem_places {x : Place × String} {s : Script} (h : x ∈ (s.places reference).2) :
    ∃ c ∈ s.constants, x.1 = ⟨c.value, reference c⟩ := by
  have hx : x.1 ∈ (s.places reference).2.map (·.1) := List.mem_map_of_mem h
  rw [map_places] at hx
  obtain ⟨c, hc, hx⟩ := List.mem_map.1 hx
  exact ⟨c, hc, hx.symm⟩

/-- **The text of a script has its places filled**, however constants are written. -/
theorem text_eq_filled {fill : Place → String} {s : Script}
    (h : ∀ c, fill ⟨c.value, reference c⟩ = write c) :
    s.text write = Place.filled fill (s.places reference).1 (s.places reference).2 := by
  induction s with
  | nil => rfl
  | cons piece s ih =>
    unfold text Place.filled at ih ⊢
    cases piece with
    | text t => simp only [List.map_cons, String.join_cons, places, ih, String.append_assoc]
    | constant c =>
      simp only [List.map_cons, String.join_cons, places, ih, h, String.empty_append,
        String.append_assoc]

end Sql.Script

/-! ## Names of parameters -/

theorem Dialect.placeholder_injective {d : Dialect} {m n : Nat}
    (h : d.placeholder m = d.placeholder n) : m = n := by
  have hdigits : toString m = toString n := by
    cases d <;> exact (String.append_right_inj _).1 h
  rw [Nat.toString_eq_ofList_toDigits, Nat.toString_eq_ofList_toDigits,
    String.ofList_inj] at hdigits
  rw [← Nat.ofDigitChars_ten_toDigits (n := m), hdigits, Nat.ofDigitChars_ten_toDigits]

theorem Sql.Numbered.eq_of_index {constants : List Constant} {c k : Constant}
    (h : Numbered constants) (hc : c ∈ constants) (hk : k ∈ constants) (hck : c.index = k.index) :
    c = k := by
  obtain ⟨i, hi⟩ := List.mem_iff_getElem?.1 hc
  obtain ⟨j, hj⟩ := List.mem_iff_getElem?.1 hk
  have hij : i = j := by have := h i c hi; have := h j k hj; omega
  subst hij
  exact Option.some.inj (hi.symm.trans hj)

/-- **The name of a parameter leads to the constant that it stands for.** -/
theorem Config.find?_parameter (config : Config) {constants : List Constant} {c : Constant}
    (h : Numbered constants) (hc : c ∈ constants) :
    (constants.map config.parameter).find? (·.name == config.dialect.placeholder c.index) =
      some (config.parameter c) := by
  obtain ⟨p, hp⟩ : ∃ p, (constants.map config.parameter).find?
      (·.name == config.dialect.placeholder c.index) = some p := by
    rw [← Option.isSome_iff_exists, List.find?_isSome]
    exact ⟨config.parameter c, List.mem_map_of_mem hc, beq_self_eq_true _⟩
  obtain ⟨k, hk, rfl⟩ := List.mem_map.1 (List.mem_of_find?_eq_some hp)
  have hname : config.dialect.placeholder k.index = config.dialect.placeholder c.index := by
    simpa [parameter] using List.find?_some hp
  rw [hp, h.eq_of_index hk hc (Dialect.placeholder_injective hname)]

/-! ## Both ways of writing -/

theorem Plan.numberedStatement_eq_ok {schema : Schema} {dialect : Dialect} {p : Plan}
    {statement : Statement} {constants : List Constant}
    (h : p.numberedStatement schema dialect = .ok (statement, constants)) :
    Numbered constants ∧ ∀ (o : Layout) c, o.dialect = dialect →
      c ∈ (statement.script o).constants → c ∈ constants := by
  obtain ⟨hnumbered, hoccurs⟩ := Plan.numbers_statement h
  refine ⟨hnumbered, fun o c hdialect hc => hoccurs c ?_⟩
  subst hdialect
  exact (Statement.lays_script fun _ ht => ht).occurs hc

/-- The text for a reference: the literal of the parameter it names. -/
def Command.dereference (command : Command) (literal : Value → String) (reference : String) :
    String :=
  ((command.param? reference).map (literal ·.value)).getD reference

theorem Command.dereference_of_param? {command : Command} {literal : Value → String}
    {reference : String} {p : Parameter} (h : command.param? reference = some p) :
    command.dereference literal reference = literal p.value := by
  rw [dereference, h]
  rfl

/-- A command with parameters for the values that another command has written out. -/
structure Command.Parameterizes (literal : Value → String) (inline command : Command) : Prop where
  resultMap : command.resultMap = inline.resultMap
  /-- the texts differ in places that hold the literal of a value, or a parameter of that value -/
  sql : ∃ first places,
    inline.sql = Place.filled (literal ·.value) first places ∧
    command.sql = Place.filled (·.reference) first places ∧
    inline.sql = Place.filled (command.dereference literal ·.reference) first places ∧
    ∀ x ∈ places, ∃ p ∈ command.params, p.name = x.1.reference ∧ p.value = x.1.value

/-- **Constants are written out or become parameters, and all else stays the same.** -/
theorem Plan.command_alike (schema : Schema) (config : Config) (p : Plan) :
    Compiled.Alike
      (Command.Parameterizes fun v => v.literal config.dialect config.unicodeLiterals)
      (p.command schema { config with parameterized := false })
      (p.command schema { config with parameterized := true }) := by
  unfold Plan.command
  dsimp only
  cases h : p.numberedStatement schema config.dialect with
  | error e => rfl
  | ok out =>
    obtain ⟨statement, constants⟩ := out
    obtain ⟨hnumbered, hoccurs⟩ := Plan.numberedStatement_eq_ok h
    -- one script is written in both ways, so its places are those of both texts
    let script := statement.script config.layout
    let reference (c : Constant) := config.dialect.placeholder c.index
    have hinline : script.text (·.value.literal config.dialect config.unicodeLiterals) =
        Place.filled (·.value.literal config.dialect config.unicodeLiterals)
          (script.places reference).1 (script.places reference).2 :=
      Script.text_eq_filled fun _ => rfl
    have hcommand : script.text reference =
        Place.filled (·.reference) (script.places reference).1 (script.places reference).2 :=
      Script.text_eq_filled fun _ => rfl
    refine ⟨rfl, (script.places reference).1, (script.places reference).2, hinline, hcommand,
      hinline.trans (Place.filled_congr fun x hx => ?_), fun x hx => ?_⟩
    · obtain ⟨c, hc, hplace⟩ := Script.exists_of_mem_places hx
      rw [hplace]
      refine (Command.dereference_of_param? (p := config.parameter c) ?_).symm
      exact config.find?_parameter hnumbered (hoccurs _ c rfl hc)
    · obtain ⟨c, hc, hplace⟩ := Script.exists_of_mem_places hx
      refine ⟨config.parameter c, List.mem_map_of_mem (hoccurs _ c rfl hc), ?_⟩
      rw [hplace]
      exact ⟨rfl, rfl⟩

end QueryCompiler

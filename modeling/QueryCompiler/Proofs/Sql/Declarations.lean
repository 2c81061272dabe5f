import QueryCompiler.Proofs.Sql.Parameters
import QueryCompiler.Proofs.Sql.TextOrder
/-!
# Declared parameters

Whatever a value is emitted for, its scalars enter the scope one after the other, each with the type
it is to have there (`Reading.emits_constant`). At the end the scope becomes the parameters. So the
parameters are named one after the other, and what is written for a constant anywhere in the
statement of a plan names the parameter with this constant (`Plan.declares_command`).
-/

namespace QueryCompiler

open Sql

/-! ## Emitted values -/

mutual

/-- The scalars of a value, each with the type it is to have: the items of a list have the types
they have by themselves, and null is no scalar. -/
def Value.scalars (dbType : DbType) (size : Option Nat) :
    Value → List (Value × DbType × Option Nat)
  | .null => []
  | .list items => listScalars items
  | v => [(v, dbType, size)]

def Value.listScalars : List Value → List (Value × DbType × Option Nat)
  | [] => []
  | v :: vs => v.scalars (.infer v) none ++ listScalars vs

end

namespace Sql

def Constant.scalar (c : Constant) : Value × DbType × Option Nat := (c.value, c.dbType, c.size)

/-- A step adds constants for the given scalars to the scope, those of its result. -/
def Emits {α : Type} (x : Reading α) (constants : α → List Constant)
    (scalars : List (Value × DbType × Option Nat)) : Prop :=
  ∀ s a s', x.run s = .ok (a, s') →
    s'.constants = s.constants ++ constants a ∧ (constants a).map Constant.scalar = scalars

namespace Reading

variable {style : Style}

theorem emits_next {v : Value} {dbType : DbType} {size : Option Nat} :
    Emits (do
      let scope ← get
      let c : Constant := ⟨scope.constants.length + 1, v, dbType, size⟩
      set { scope with constants := scope.constants ++ [c] }
      return Term.constant c) (Term.constants style) [(v, dbType, size)] := by
  intro s t s' hrun
  cases hrun
  simp [Constant.scalar, Term.constants, Term.script]

mutual

/-- **A value is emitted as its scalars**, with the constants of its term. -/
theorem emits_constant {dbType : DbType} {size : Option Nat} : ∀ {v : Value},
    Emits (constant dbType size v) (Term.constants style) (v.scalars dbType size)
  | .null => by
    intro s t s' hrun
    cases hrun
    simp [Value.scalars, Term.constants, Term.script]
  | .list items => by
    intro s t s' hrun
    unfold constant at hrun
    obtain ⟨⟨ts, s₁⟩, hts, hpure⟩ := Compiled.bind_eq_ok.1 hrun
    cases hpure
    rw [Term.constants_tuple, Value.scalars]
    exact emits_constants s ts s' hts
  | .bool _ | .int _ | .float _ | .decimal _ | .string _ | .dateTime _ | .guid _ => emits_next

theorem emits_constants : ∀ {vs : List Value},
    Emits (constants vs) (List.flatMap (Term.constants style)) (Value.listScalars vs)
  | [] => by
    intro s ts s' hrun
    cases hrun
    simp [Value.listScalars]
  | v :: vs => by
    intro s all s' hrun
    unfold constants at hrun
    obtain ⟨⟨t, s₁⟩, ht, hrun⟩ := Compiled.bind_eq_ok.1 hrun
    obtain ⟨⟨ts, s₂⟩, hts, hpure⟩ := Compiled.bind_eq_ok.1 hrun
    cases hpure
    obtain ⟨hscope, hscalars⟩ := emits_constant s t s₁ ht
    obtain ⟨hscope', hscalars'⟩ := emits_constants s₁ ts s' hts
    rw [List.flatMap_cons, Value.listScalars]
    exact ⟨by rw [hscope', hscope, List.append_assoc],
      by rw [List.map_append, hscalars, hscalars']⟩

end

end Reading

end Sql

/-! ## Parameters of a command -/

theorem Config.parameters_of_not_parameterized {config : Config} {constants : List Constant}
    (h : config.parameterized = false) : config.parameters constants = [] := by
  simp [parameters, h]

theorem Config.name_of_parameters {config : Config} {constants : List Constant} {i : Nat}
    {q : Parameter} (hnumbered : Numbered constants)
    (hq : (config.parameters constants)[i]? = some q) :
    q.name = config.dialect.placeholder (i + 1) := by
  cases hparam : config.parameterized with
  | false =>
    rw [parameters_of_not_parameterized hparam] at hq
    cases hq
  | true =>
    rw [parameters, if_pos hparam, List.getElem?_map, Option.map_eq_some_iff] at hq
    obtain ⟨c, hc, rfl⟩ := hq
    rw [parameter, hnumbered i c hc]

/-- **Parameters are declared one after the other, and whatever is written for a constant names the
parameter with this constant.** A constant is what a scalar of a value has been emitted as. -/
theorem Plan.declares_command {schema : Schema} {config : Config} {p : Plan} {command : Command}
    (h : p.command schema config = .ok command) :
    (∀ i q, command.params[i]? = some q → q.name = config.dialect.placeholder (i + 1)) ∧
    (config.parameterized = false → command.params = []) ∧
    (∃ statement constants, p.numberedStatement schema config.dialect = .ok (statement, constants) ∧
      command.sql = config.write (statement.script config.layout) ∧
      (config.parameterized = true → ∀ c, Occurs c statement →
        command.param? (config.writeConstant c) =
          some ⟨config.writeConstant c, c.value, c.dbType, c.size⟩)) ∧
    ∀ dbType size v style, Emits (Reading.constant dbType size v) (Term.constants style)
      (v.scalars dbType size) := by
  obtain ⟨⟨statement, constants⟩, hstatement, hcommand⟩ := Compiled.bind_eq_ok.1 h
  cases hcommand
  obtain ⟨hnumbered, hoccurs⟩ := Plan.numbers_statement hstatement
  refine ⟨fun i q hq => Config.name_of_parameters hnumbered hq,
    Config.parameters_of_not_parameterized,
    ⟨statement, constants, hstatement, rfl, fun hparam c hc => ?_⟩,
    fun _ _ _ _ => Reading.emits_constant⟩
  have hmem : c ∈ constants := hoccurs c (Statement.occurs_terms hc)
  have hwrite : config.writeConstant c = config.dialect.placeholder c.index := by
    rw [Config.writeConstant, if_pos hparam]
  rw [hwrite, Command.param?, Config.parameters, if_pos hparam]
  exact config.find?_parameter hnumbered hmem

/-- The books with a number of a list that has a null in it, one number excepted. -/
def Layer.listedBooks : Layer :=
  { ofSource "Book" with
    predicate := some (.binary .and
      (.callOn (.numbers [some 3, none, some 5]) "Contains" [.member (.source 0) "Id"])
      (.binary .ne (.member (.source 0) "Id") (.constant (.int 5)))) }

/-- The books are asked for with three parameters. -/
theorem Plan.declares_command_books :
    ∃ command, (Plan.select Layer.listedBooks).command .books { parameterized := true } =
        .ok command ∧
      command.params.length = 3 ∧
      ∀ i q, command.params[i]? = some q → q.name = Dialect.sqlServer.placeholder (i + 1) := by
  obtain ⟨command, h, hlength⟩ : ∃ command,
      (Plan.select Layer.listedBooks).command .books { parameterized := true } = .ok command ∧
        command.params.length = 3 := ⟨_, by cbv, by cbv⟩
  exact ⟨command, h, hlength, (Plan.declares_command h).1⟩

end QueryCompiler

import QueryCompiler.Proofs.Sql.Declarations
import QueryCompiler.Proofs.Sql.ListItems
/-!
# Rows found by their key

An update or a deletion with a payload concerns the row that has the key of the payload. Its text
sets the columns that the payload has values for, and compares every column of the key with its
value. Both are equations of columns with values, written one after the other (`Config.equations`),
and their parameters are numbered as they stand in the text. Which logs compile to such a command,
and to which one, is said by `Log.compile_payload`.
-/

namespace QueryCompiler

open Compiled (bind_eq_ok pure_eq_ok ok_bind)

open Sql

variable {as bs : List (Value × DbType × Option Nat)}

/-! ## Values in a text -/

mutual

/-- A value in a text with `n` parameters ahead of it. Null is written out in any case. -/
def Config.valueText (config : Config) (n : Nat) : Value → String
  | .null => "NULL"
  | .list items => "(" ++ ", ".intercalate (config.valueTexts n items) ++ ")"
  | v =>
    if config.parameterized then config.dialect.placeholder (n + 1)
    else v.literal config.dialect config.unicodeLiterals

/-- The values of a list, each behind the parameters of those before it. -/
def Config.valueTexts (config : Config) (n : Nat) : List Value → List String
  | [] => []
  | v :: vs =>
    config.valueText n v :: config.valueTexts (n + (v.scalars (.infer v) none).length) vs

end

/-- Columns and their values as equations, in a text with `n` parameters ahead of them. -/
def Config.equations (config : Config) (n : Nat) : List (Column × Value) → List String
  | [] => []
  | (c, v) :: rest =>
    (config.dialect.quote c.column ++ " = " ++ config.valueText n v) ::
      config.equations (n + (v.scalars c.dbType c.size).length) rest

def columnScalars (values : List (Column × Value)) : List (Value × DbType × Option Nat) :=
  values.flatMap fun (c, v) => v.scalars c.dbType c.size

theorem columnScalars_append {as bs : List (Column × Value)} :
    columnScalars (as ++ bs) = columnScalars as ++ columnScalars bs := List.flatMap_append

/-- Scalars as constants, numbered behind `n` others. -/
def numberedFrom (n : Nat) (scalars : List (Value × DbType × Option Nat)) : List Constant :=
  scalars.mapIdx fun i (v, dbType, size) => ⟨n + i + 1, v, dbType, size⟩

@[simp] theorem length_numberedFrom {n : Nat} :
    (numberedFrom n as).length = as.length := List.length_mapIdx

theorem numberedFrom_append {n : Nat} :
    numberedFrom n (as ++ bs) = numberedFrom n as ++ numberedFrom (n + as.length) bs := by
  simp [numberedFrom, List.mapIdx_append, Nat.add_left_comm, Nat.add_comm]

/-- A step adds the given scalars to the scope, and its result is written as `text` says for the
number of constants ahead of it. -/
def Writes {α β : Type} (x : Reading α) (write : α → β) (text : Nat → β)
    (scalars : List (Value × DbType × Option Nat)) : Prop :=
  ∀ s, ∃ a, x.run s = .ok (a, { s with
      constants := s.constants ++ numberedFrom s.constants.length scalars }) ∧
    write a = text s.constants.length

variable {config : Config}

def Config.writeTerm (config : Config) (t : Term) : String := config.write (config.layout.term t)

theorem Config.writeTerm_constant {c : Constant} :
    config.writeTerm (.constant c) = config.writeConstant c := by
  simp [writeTerm, Layout.term, Term.script, write]

theorem Config.writeTerm_tuple {ts : List Term} : config.writeTerm (.tuple ts) =
    "(" ++ ", ".intercalate (ts.map config.writeTerm) ++ ")" := by
  have hitems : (Term.scripts config.layout.toStyle ts).map config.write =
      ts.map config.writeTerm := by
    simp [writeTerm, Layout.term]
  simp only [writeTerm, Layout.term, Term.script, write, Script.parenthesized, Script.text_append,
    Script.text_say, Script.text_joined, ← hitems]
  rfl

theorem Writes.cons {α β γ : Type} {x : Reading α} {xs : Reading β} {write : α → String}
    {writes : β → List String} {all : γ → List String} {f : α → β → γ} {text : Nat → String}
    {texts : Nat → List String} (hx : Writes x write text as) (hxs : Writes xs writes texts bs)
    (hall : ∀ a b, all (f a b) = write a :: writes b) :
    Writes (do return f (← x) (← xs)) all (fun n => text n :: texts (n + as.length))
      (as ++ bs) := by
  intro s
  obtain ⟨a, ha, htext⟩ := hx s
  obtain ⟨b, hb, htexts⟩ := hxs { s with
    constants := s.constants ++ numberedFrom s.constants.length as }
  simp only [List.length_append, length_numberedFrom] at hb htexts
  refine ⟨f a b, ?_, by rw [hall, htext, htexts]⟩
  rw [numberedFrom_append, ← List.append_assoc]
  exact bind_eq_ok.2 ⟨_, ha, bind_eq_ok.2 ⟨_, hb, rfl⟩⟩

theorem Writes.pure {α β : Type} {a : α} {write : α → β} {text : Nat → β}
    (h : ∀ n, write a = text n) : Writes (Pure.pure a) write text [] := by
  intro s
  refine ⟨a, ?_, h _⟩
  simp only [numberedFrom, List.mapIdx_nil, List.append_nil]
  rfl

theorem Writes.run_behind {α β : Type} {x : Reading α} {write : α → β} {text : Nat → β}
    (h : Writes x write text bs) (as : List (Value × DbType × Option Nat)) :
    ∃ a, x.run { constants := numberedFrom 0 as } =
        .ok (a, { constants := numberedFrom 0 (as ++ bs) }) ∧ write a = text as.length := by
  simpa only [numberedFrom_append, length_numberedFrom, Nat.zero_add] using
    h { constants := numberedFrom 0 as }

mutual

/-- **A constant is written as its value**, and adds the scalars of the value. -/
theorem Reading.writes_constant (config : Config) {dbType : DbType} {size : Option Nat} :
    ∀ v : Value, Writes (Reading.constant dbType size v) config.writeTerm (config.valueText · v)
      (v.scalars dbType size)
  | .null => by
    unfold Reading.constant Value.scalars
    exact .pure fun _ => by
      simp [Config.valueText, Config.writeTerm, Layout.term, Term.script, Config.write]
  | .list items => by
    intro s
    unfold Reading.constant Value.scalars
    obtain ⟨ts, hrun, htexts⟩ := writes_constants config items s
    refine ⟨.tuple ts, bind_eq_ok.2 ⟨_, hrun, rfl⟩, ?_⟩
    dsimp only at htexts ⊢
    rw [Config.writeTerm_tuple, Config.valueText, htexts]
  | .bool _ | .int _ | .float _ | .decimal _ | .string _ | .dateTime _ | .guid _ =>
    fun _ => ⟨_, rfl, by
      simp [Config.writeTerm_constant, Config.writeConstant, Config.valueText]⟩

theorem Reading.writes_constants (config : Config) : ∀ vs : List Value,
    Writes (Reading.constants vs) (List.map config.writeTerm) (config.valueTexts · vs)
      (Value.listScalars vs)
  | [] => by
    unfold Reading.constants Value.listScalars
    exact .pure fun _ => by simp [Config.valueTexts]
  | v :: vs => by
    unfold Reading.constants Config.valueTexts Value.listScalars
    exact (writes_constant config v).cons (writes_constants config vs) fun _ _ => rfl

end

def assign (x : Column × Value) : Reading Assignment := do
  return ⟨x.1.column, ← Reading.constant x.1.dbType x.1.size x.2⟩

/-- **Assignments are written as equations.** -/
theorem writes_assign (config : Config) : ∀ values : List (Column × Value),
    Writes (values.mapM assign) (fun as => (config.layout.assignments none as).map config.write)
      (config.equations · values) (columnScalars values)
  | [] => .pure fun _ => rfl
  | (c, v) :: values => by
    have hx : Writes (assign (c, v))
        (fun a => config.write (Script.say (config.dialect.quote a.column ++ " = ") ++
          config.layout.term a.value))
        (fun n => config.dialect.quote c.column ++ " = " ++ config.valueText n v)
        (v.scalars c.dbType c.size) := by
      intro s
      obtain ⟨t, hrun, htext⟩ := Reading.writes_constant config v s
      refine ⟨⟨c.column, t⟩, bind_eq_ok.2 ⟨_, hrun, rfl⟩, ?_⟩
      dsimp only at htext ⊢
      rw [← htext, Config.write, Script.text_append, Script.text_say]
      rfl
    rw [List.mapM_cons]
    exact hx.cons (writes_assign config values) fun a as => rfl

/-! ## Payloads -/

def EntityValue.valuesOf (e : EntityValue) (columns : List (String × Column)) :
    List (Column × Value) :=
  columns.filterMap fun (member, c) => (e.get? member).map (c, ·)

namespace Entity

variable {entity : Entity} {e : EntityValue}

/-- The columns that an update with a payload may set: none of the key, and none that the database
fills. -/
def settable (entity : Entity) : List (String × Column) :=
  entity.columns.filter fun (_, c) => !c.key && !c.identity && !c.rowVersion

/-- A payload tells which row it concerns: it is of the type of the entity and names only columns of
it, and the entity has a key, for which the payload has all values. -/
structure Identifies (entity : Entity) (e : EntityValue) : Prop where
  ty_eq : e.ty = entity.ty
  declared : ∀ x ∈ e.values, ∃ c, entity.column x.1 = .ok c
  hasKey : entity.keys ≠ []
  keyed : ∀ x ∈ entity.keys, (e.get? x.1).isSome = true

theorem checkPayload_eq_ok : entity.checkPayload e = .ok () ↔
    e.ty = entity.ty ∧ ∀ x ∈ e.values, ∃ c, entity.column x.1 = .ok c := by
  have hcolumn (x : String × Value) :
      discard (entity.column x.1) = (.ok () : Compiled Unit) ↔ ∃ c, entity.column x.1 = .ok c := by
    cases entity.column x.1 <;> simp [discard, Functor.discard, Functor.mapConst, Except.map]
  by_cases hty : e.ty = entity.ty
  · have hcheck : entity.checkPayload e =
        e.values.forM fun x => discard (entity.column x.1) := by
      simp [checkPayload, hty]
    rw [hcheck, Compiled.forM_eq_ok]
    simp only [hcolumn, hty, true_and]
  · simp [checkPayload, hty, bind_eq_ok]

theorem updateAssignments_eq :
    entity.updateAssignments e = (e.valuesOf entity.settable).mapM assign := by
  have hvalues : (entity.columns.filterMap fun (member, c) =>
      if c.key || !c.isWritable then none else (e.get? member).map fun v => (c, v)) =
        e.valuesOf entity.settable := by
    rw [EntityValue.valuesOf, settable, List.filterMap_filter]
    refine List.filterMap_congr fun (member, c) hmem => ?_
    have hexcluded : c.excluded = false := by
      obtain ⟨m, -, hm⟩ := List.mem_filterMap.1 hmem
      grind
    grind [Column.isWritable]
  unfold updateAssignments
  rw [hvalues]
  rfl

theorem mapM_valuesOf {read : String × Column → Reading Assignment}
    (hread : ∀ x v, e.get? x.1 = some v → read x = assign (x.2, v)) {keys : List (String × Column)}
    (h : ∀ x ∈ keys, (e.get? x.1).isSome = true) :
    keys.mapM read = (e.valuesOf keys).mapM assign := by
  induction keys with
  | nil => rfl
  | cons x keys ih =>
    obtain ⟨v, hv⟩ := Option.isSome_iff_exists.1 (h x (by simp))
    have hcons : e.valuesOf (x :: keys) = (x.2, v) :: e.valuesOf keys := by
      simp [EntityValue.valuesOf, hv]
    rw [hcons, List.mapM_cons, List.mapM_cons, ih fun y hy => h y (by simp [hy]), hread x v hv]

theorem keyAssignments_eq (hkey : entity.keys ≠ [])
    (hkeyed : ∀ x ∈ entity.keys, (e.get? x.1).isSome = true) :
    entity.keyAssignments e = (e.valuesOf entity.keys).mapM assign := by
  unfold keyAssignments
  rw [if_neg (by simpa using hkey)]
  refine mapM_valuesOf (fun x v hv => ?_) hkeyed
  simp only [hv]
  rfl

theorem gives_keyAssignments : Gives (entity.keyAssignments e) fun _ =>
    entity.keys ≠ [] ∧ ∀ x ∈ entity.keys, (e.get? x.1).isSome = true := by
  unfold keyAssignments
  split
  · exact .throw_bind
  · rename_i hkeys
    refine Gives.imp (?_ : Gives _ fun as =>
      List.Forall₂ (fun x _ => (e.get? x.1).isSome = true) entity.keys as)
      fun as has => ⟨by simpa using hkeys, fun x hx => ?_⟩
    · refine .mapM ?_
      rintro ⟨member, c⟩ -
      dsimp only
      split
      · exact .throw
      · exact .seq fun _ => .pure (by simp_all)
    · obtain ⟨a, -, h⟩ := exists_of_forall₂ has.flip x hx
      exact h

end Entity

/-! ## Commands -/

def Config.updateRow (config : Config) (entity : Entity) (e : EntityValue) : Command :=
  let set := e.valuesOf entity.settable
  let key := e.valuesOf entity.keys
  { sql := "UPDATE " ++ config.dialect.quote entity.table ++
      " SET " ++ ", ".intercalate (config.equations 0 set) ++
      " WHERE " ++ " AND ".intercalate (config.equations (columnScalars set).length key)
    params := config.parameters (numberedFrom 0 (columnScalars (set ++ key))) }

def Config.deleteRow (config : Config) (entity : Entity) (e : EntityValue) : Command :=
  let key := e.valuesOf entity.keys
  { sql := "DELETE FROM " ++ config.dialect.quote entity.table ++
      " WHERE " ++ " AND ".intercalate (config.equations 0 key)
    params := config.parameters (numberedFrom 0 (columnScalars key)) }

section

variable {schema : Schema} {entity : Entity} {e : EntityValue} {command : Command}

/-- A command is what a step writes: its statement as text, and its constants as parameters. -/
def Command.Spells (config : Config) (command : Command) (x : Reading Statement) : Prop :=
  ∃ statement scope, x.run {} = .ok (statement, scope) ∧ command = {
    sql := config.write (statement.script config.layout)
    params := config.parameters scope.constants
    resultMap := statement.resultMap? }

/-- What a step writes, if all that it takes to succeed is known. -/
theorem Command.spells_iff {x : Reading Statement} {row : Command} {P : Prop}
    (hgives : Gives x fun _ => P) (hrow : P → row.Spells config x) :
    command.Spells config x ↔ P ∧ command = row := by
  constructor
  · rintro ⟨statement, scope, hrun, rfl⟩
    have hP : P := hgives _ _ _ hrun
    obtain ⟨statement', scope', hrun', rfl⟩ := hrow hP
    cases hrun.symm.trans hrun'
    exact ⟨hP, rfl⟩
  · rintro ⟨hP, rfl⟩
    exact hrow hP

theorem Plan.command_eq_ok {p : Plan} : p.command schema config = .ok command ↔
    command.Spells config (p.statement schema config.dialect) := by
  simp only [Plan.command, numberedStatement, bind_eq_ok, pure_eq_ok,
    Command.Spells]
  grind

namespace Entity

theorem gives_updateByKey_identified : Gives (entity.updateByKey e) fun _ =>
    entity.Identifies e ∧ e.valuesOf entity.settable ≠ [] := by
  unfold updateByKey
  refine .bind (.lift fun _ h => checkPayload_eq_ok.1 h) fun _ hcheck => ?_
  by_cases hset : e.valuesOf entity.settable = []
  · rw [updateAssignments_eq, hset]
    exact .throw
  · refine .seq fun as => ?_
    split
    · exact .throw_bind
    · exact gives_keyAssignments.bind fun _ hkey =>
        Gives.pure ⟨⟨hcheck.1, hcheck.2, hkey.1, hkey.2⟩, hset⟩

theorem spells_updateRow (h : entity.Identifies e) (hset : e.valuesOf entity.settable ≠ []) :
    (config.updateRow entity e).Spells config (entity.updateByKey e) := by
  obtain ⟨set, hsetRun, hsetText⟩ :=
    (writes_assign config (e.valuesOf entity.settable)).run_behind []
  obtain ⟨key, hkeyRun, hkeyText⟩ := (writes_assign config (e.valuesOf entity.keys)).run_behind
    (columnScalars (e.valuesOf entity.settable))
  rw [← updateAssignments_eq] at hsetRun
  rw [← keyAssignments_eq h.hasKey h.keyed] at hkeyRun
  have hne : set.isEmpty = false := by
    cases hvalues : e.valuesOf entity.settable with
    | nil => exact absurd hvalues hset
    | cons =>
      cases set with
      | nil => simp [hvalues, Config.equations, Layout.assignments] at hsetText
      | cons => rfl
  refine ⟨.updateByKey entity.table set key, { constants := numberedFrom 0 (columnScalars
    (e.valuesOf entity.settable ++ e.valuesOf entity.keys)) }, ?_, ?_⟩
  · unfold updateByKey
    rw [checkPayload_eq_ok.2 ⟨h.ty_eq, h.declared⟩, columnScalars_append]
    refine bind_eq_ok.2 ⟨_, hsetRun, ?_⟩
    simp only [hne]
    exact bind_eq_ok.2 ⟨_, hkeyRun, rfl⟩
  · dsimp only [List.length_nil] at hsetText hkeyText
    simp only [Config.updateRow, ← hsetText, ← hkeyText, Statement.script, Config.write,
      Script.text_append, Script.text_say, Script.text_joined]
    rfl

theorem gives_deleteByKey : Gives (do
      entity.checkPayload e
      return Statement.deleteByKey entity.table (← entity.keyAssignments e) : Reading Statement)
    fun _ => entity.Identifies e :=
  Gives.bind (.lift fun _ h => checkPayload_eq_ok.1 h) fun _ hcheck =>
    gives_keyAssignments.bind fun _ hkey => .pure ⟨hcheck.1, hcheck.2, hkey.1, hkey.2⟩

theorem spells_deleteRow (h : entity.Identifies e) : (config.deleteRow entity e).Spells config (do
      entity.checkPayload e
      return Statement.deleteByKey entity.table (← entity.keyAssignments e)) := by
  obtain ⟨key, hrun, htext⟩ := (writes_assign config (e.valuesOf entity.keys)).run_behind []
  rw [← keyAssignments_eq h.hasKey h.keyed] at hrun
  refine ⟨.deleteByKey entity.table key,
    { constants := numberedFrom 0 (columnScalars (e.valuesOf entity.keys)) }, ?_, ?_⟩
  · rw [checkPayload_eq_ok.2 ⟨h.ty_eq, h.declared⟩]
    exact bind_eq_ok.2 ⟨_, hrun, rfl⟩
  · dsimp only [List.length_nil] at htext
    simp only [Config.deleteRow, ← htext, Statement.script, Config.write, Script.text_append,
      Script.text_say, Script.text_joined]
    rfl

end Entity

theorem Command.spells_entity {ty : String} {f : Entity → Reading Statement} :
    command.Spells config (do f (← schema.entity ty)) ↔
      ∃ entity, schema.entity ty = .ok entity ∧ command.Spells config (f entity) := by
  cases hentity : schema.entity ty with
  | error err =>
    constructor
    · rintro ⟨_, _, hrun, -⟩
      cases hrun
    · rintro ⟨_, h, -⟩
      cases h
  | ok entity => exact ⟨fun h => ⟨entity, rfl, h⟩, fun ⟨_, rfl, h⟩ => h⟩

variable {ty : String} {scope : Layer}

/-- An update with a payload succeeds if the payload tells the row and has something to set. -/
theorem Plan.command_update : (Plan.update ty (.entity e) scope).command schema config = .ok command ↔
    ∃ entity, schema.entity ty = .ok entity ∧
      (entity.Identifies e ∧ e.valuesOf entity.settable ≠ []) ∧
        command = config.updateRow entity e := by
  rw [Plan.command_eq_ok, Plan.statement, Command.spells_entity]
  exact exists_congr fun entity => and_congr_right fun _ =>
    Command.spells_iff Entity.gives_updateByKey_identified fun h => Entity.spells_updateRow h.1 h.2

theorem Plan.command_delete : (Plan.delete ty (.entity e) scope).command schema config = .ok command ↔
    ∃ entity, schema.entity ty = .ok entity ∧ entity.Identifies e ∧
      command = config.deleteRow entity e := by
  rw [Plan.command_eq_ok, Plan.statement, Command.spells_entity]
  exact exists_congr fun entity => and_congr_right fun _ =>
    Command.spells_iff Entity.gives_deleteByKey Entity.spells_deleteRow

/-! ## Logs -/

/-- A log that has nothing else than one operator, with or without the table ahead of it. -/
def Log.IsOnly (ty : String) (op : Operator) (log : Log) : Prop :=
  log = [op] ∨ log = [.getSource ty, op]

namespace Draft

variable {nested : Log → Compiled Layer} {d d' : Draft} {op : Operator} {ops : Log}

theorem checkPayload_eq_ok {source : String} :
    d.checkPayload op source e = .ok () ↔ d.applied = 0 ∧ e.ty = source := by
  unfold checkPayload
  grind

/-- **A payload is for a table that nothing has happened to**, and nothing happens behind it. -/
theorem step_payload (hop : op = .update e ∨ op = .delete (some e))
    (h : d.step schema nested op = .ok d') :
    d.applied = 0 ∧ d.layer.source = some e.ty ∧ d'.terminal = some op.kind := by
  obtain ⟨-, d₁, d₂, hopened, happlied, rfl⟩ := step_eq_ok h
  have hmodify : d₁.modify schema op = .ok d₂ := by
    rcases hop with rfl | rfl <;> exact apply_of_applied happlied
  unfold modify at hmodify
  split at hmodify
  · rename_i source hsource hderived
    obtain ⟨m, hm, hd₂⟩ := bind_eq_ok.1 hmodify
    have hcheck : d₁.checkPayload op source e = .ok () := by
      rcases hop with rfl | rfl <;>
      · obtain ⟨⟨⟩, hcheck, -⟩ := bind_eq_ok.1 hm
        exact hcheck
    rcases hopened with ⟨-, hwrap⟩ | ⟨-, rfl⟩
    · obtain ⟨row, ty, -, rfl⟩ := wrap_eq_ok hwrap
      cases hderived
    · cases hd₂
      obtain ⟨happlied, rfl⟩ := checkPayload_eq_ok.1 hcheck
      exact ⟨happlied, hsource, rfl⟩
  · cases hmodify

theorem eq_singleton_of_payload (hop : op = .update e ∨ op = .delete (some e)) (hmem : op ∈ ops)
    (h : ops.foldlM (step schema nested) (ofSource ty) = .ok d) : ops = [op] ∧ e.ty = ty := by
  obtain ⟨before, behind, rfl⟩ := List.append_of_mem hmem
  rw [List.foldlM_append, bind_eq_ok] at h
  obtain ⟨d₁, hbefore, h⟩ := h
  rw [List.foldlM_cons, bind_eq_ok] at h
  obtain ⟨d₂, hstep, hbehind⟩ := h
  obtain ⟨happlied, hsource, hterminal⟩ := step_payload hop hstep
  have hnil : behind = [] := by
    cases behind with
    | nil => rfl
    | cons next =>
      rw [List.foldlM_cons, bind_eq_ok] at hbehind
      obtain ⟨d₃, hnext, -⟩ := hbehind
      simp [(step_eq_ok hnext).1] at hterminal
  rcases List.eq_nil_or_concat before with rfl | ⟨before, last, rfl⟩
  · cases hbefore
    cases hsource
    exact ⟨by simp [hnil], rfl⟩
  · rw [List.concat_eq_append, List.foldlM_append, bind_eq_ok] at hbefore
    obtain ⟨d₀, -, hlast⟩ := hbefore
    rw [List.foldlM_cons, bind_eq_ok] at hlast
    obtain ⟨d₁', hlast, hd₁⟩ := hlast
    cases hd₁
    obtain ⟨-, _, _, -, -, rfl⟩ := step_eq_ok hlast
    cases happlied

theorem step_ofSource {m : Modification}
    (hk : op.kind = .insert ∨ op.kind = .update ∨ op.kind = .delete)
    (hm : (ofSource ty).modificationOf schema op ty = .ok m) :
    (ofSource ty).step schema nested op = .ok
      { { ofSource ty with modification := some m }.finishWith op.kind with applied := 1 } := by
  rw [step_of_terminal rfl]
  exact bind_eq_ok.2 ⟨_, rfl, bind_eq_ok.2
    ⟨_, apply_of_applied (.modify hk rfl rfl hm), rfl⟩⟩

end Draft

variable {log : Log} {op : Operator}

theorem Operator.eq_getSource (hk : op.kind = .getSource) (h : op.validate = .ok ()) :
    ∃ ty, op = .getSource ty := by
  obtain ⟨kind, operands⟩ := op
  cases hk
  rcases operands with - | ⟨operand, - | ⟨_, _⟩⟩
  · cases h
  · cases operand with
    | typeName ty => exact ⟨ty, rfl⟩
    | _ => cases h
  · simp [validate, OpKind.slots] at h

/-- A log with a payload that has a plan is about nothing else. -/
theorem Log.isOnly_of_payload {d : Draft} (hop : op = .update e ∨ op = .delete (some e))
    (hmem : op ∈ log) (h : Draft.ofLog schema log = .ok d) : log.IsOnly e.ty op := by
  have hvalid : log.validate = .ok () := by
    obtain ⟨⟨⟩, hvalid, -⟩ := bind_eq_ok.1 h
    exact hvalid
  obtain ⟨d₀, ops, hstart, hrun⟩ := Draft.ofLog_eq_ok h
  obtain ⟨ty, rfl, hops⟩ := Draft.start_eq_ok hstart
  rcases hops with rfl | ⟨first, hfirst, rfl⟩
  · exact .inl (Draft.eq_singleton_of_payload hop hmem hrun).1
  · have hne : op ≠ first := by
      rintro rfl
      rcases hop with rfl | rfl <;> cases hfirst
    obtain ⟨rfl, rfl⟩ := Draft.eq_singleton_of_payload hop
      ((List.mem_cons.1 hmem).resolve_left hne) hrun
    obtain ⟨ty, rfl⟩ := Operator.eq_getSource hfirst
      (Compiled.forM_eq_ok.1 hvalid first List.mem_cons_self)
    obtain ⟨_, -, hsource⟩ := bind_eq_ok.1 hstart
    cases hsource
    exact .inr rfl

theorem Plan.ofLog_step (hvalid : log.validate = .ok ()) (hstart : Draft.start schema log =
      schema.entity ty >>= fun _ => pure (Draft.ofSource ty, [op])) :
    Plan.ofLog schema log = schema.entity ty >>= fun _ =>
      (Draft.ofSource ty).step schema (nestedAt schema log.nesting) op >>= Draft.plan schema := by
  rw [ofLog_eq_bind, Draft.ofLog, hvalid, hstart]
  simp only [ok_bind, bind_assoc, pure_bind, List.foldlM_cons, List.foldlM_nil, bind_pure]

theorem Plan.ofLog_payload (hop : op = .update e ∨ op = .delete (some e))
    (h : log.IsOnly e.ty op) : Plan.ofLog schema log = schema.entity e.ty >>= fun _ =>
      (Draft.ofSource e.ty).step schema (nestedAt schema log.nesting) op >>= Draft.plan schema := by
  apply ofLog_step
  · rcases hop with rfl | rfl <;> rcases h with rfl | rfl <;> rfl
  · rcases hop with rfl | rfl <;> rcases h with rfl | rfl <;> rfl

theorem Plan.ofLog_updateRow (h : log.IsOnly e.ty (.update e)) :
    Plan.ofLog schema log = schema.entity e.ty >>= fun _ =>
      pure (.update e.ty (.entity e) (Draft.ofSource e.ty).finished) := by
  have hm : (Draft.ofSource e.ty).modificationOf schema (.update e) e.ty =
      .ok (.update (.entity e)) :=
    bind_eq_ok.2 ⟨(), Draft.checkPayload_eq_ok.2 ⟨rfl, rfl⟩, rfl⟩
  rw [ofLog_payload (.inl rfl) h, Draft.step_ofSource (.inr (.inl rfl)) hm]
  rfl

theorem Plan.ofLog_deleteRow (h : log.IsOnly e.ty (.delete (some e))) :
    Plan.ofLog schema log = schema.entity e.ty >>= fun _ =>
      pure (.delete e.ty (.entity e) (Draft.ofSource e.ty).finished) := by
  have hm : (Draft.ofSource e.ty).modificationOf schema (.delete (some e)) e.ty =
      .ok (.delete (.entity e)) :=
    bind_eq_ok.2 ⟨(), Draft.checkPayload_eq_ok.2 ⟨rfl, rfl⟩, rfl⟩
  rw [ofLog_payload (.inr rfl) h, Draft.step_ofSource (.inr (.inr rfl)) hm]
  rfl

/-- A log with a payload compiles as a plan does that is the same for all schemas with the table. -/
theorem Log.compile_isOnly {p : Plan} (hop : op = .update e ∨ op = .delete (some e))
    (hmem : op ∈ log)
    (hplan : log.IsOnly e.ty op → Plan.ofLog schema log = schema.entity e.ty >>= fun _ => pure p) :
    log.compile schema config = .ok command ↔ log.IsOnly e.ty op ∧
      ∃ entity, schema.entity e.ty = .ok entity ∧ p.command schema config = .ok command := by
  have honly (h : log.compile schema config = .ok command) : log.IsOnly e.ty op := by
    obtain ⟨p, hp, -⟩ := bind_eq_ok.1 h
    obtain ⟨d, hd, -⟩ := Plan.ofLog_eq_ok.1 hp
    exact isOnly_of_payload hop hmem hd
  have hcompile (h : log.IsOnly e.ty op) : log.compile schema config = .ok command ↔
      ∃ entity, schema.entity e.ty = .ok entity ∧ p.command schema config = .ok command := by
    rw [compile, hplan h, bind_assoc, bind_eq_ok]
    rfl
  exact ⟨fun h => ⟨honly h, (hcompile (honly h)).1 h⟩, fun h => (hcompile h.1).2 h.2⟩

theorem Log.compile_update (hmem : .update e ∈ log) : log.compile schema config = .ok command ↔
    log.IsOnly e.ty (.update e) ∧ ∃ entity, schema.entity e.ty = .ok entity ∧
      (entity.Identifies e ∧ e.valuesOf entity.settable ≠ []) ∧
        command = config.updateRow entity e := by
  rw [compile_isOnly (.inl rfl) hmem Plan.ofLog_updateRow, Plan.command_update]
  grind

theorem Log.compile_delete (hmem : .delete (some e) ∈ log) :
    log.compile schema config = .ok command ↔
      log.IsOnly e.ty (.delete (some e)) ∧ ∃ entity, schema.entity e.ty = .ok entity ∧
        entity.Identifies e ∧ command = config.deleteRow entity e := by
  rw [compile_isOnly (.inr rfl) hmem Plan.ofLog_deleteRow, Plan.command_delete]
  grind

end

/-- **A log with a payload for one row** compiles if it has nothing else, if the payload tells the
row, and, for an update, if there is something to set. The command concerns the row alone: it sets
the columns that the payload has values for, as they are declared, and its condition has every
column of the key. Without a key or a value for it, or with a member that is no column, nothing is
compiled. -/
theorem Log.compile_payload (schema : Schema) (config : Config) (e : EntityValue) (log : Log) :
    (.update e ∈ log → ∀ command, log.compile schema config = .ok command ↔
      log.IsOnly e.ty (.update e) ∧ ∃ entity, schema.entity e.ty = .ok entity ∧
        (entity.Identifies e ∧ e.valuesOf entity.settable ≠ []) ∧
          command = config.updateRow entity e) ∧
    (.delete (some e) ∈ log → ∀ command, log.compile schema config = .ok command ↔
      log.IsOnly e.ty (.delete (some e)) ∧ ∃ entity, schema.entity e.ty = .ok entity ∧
        entity.Identifies e ∧ command = config.deleteRow entity e) ∧
    (.update e ∈ log ∨ .delete (some e) ∈ log → ∀ entity, schema.entity e.ty = .ok entity →
      entity.keys = [] ∨ (∃ x ∈ entity.keys, e.get? x.1 = none) ∨
        (∃ x ∈ e.values, ∀ c, entity.column x.1 ≠ .ok c) →
      ∃ error, log.compile schema config = .error error) := by
  refine ⟨fun hmem _ => compile_update hmem, fun hmem _ => compile_delete hmem, ?_⟩
  intro hmem entity hentity hfault
  cases hcompile : log.compile schema config with
  | error error => exact ⟨error, rfl⟩
  | ok command =>
    have hidentifies : entity.Identifies e := by
      rcases hmem with hmem | hmem
      · obtain ⟨-, _, hentity', ⟨h, -⟩, -⟩ := (compile_update hmem).1 hcompile
        cases hentity.symm.trans hentity'
        exact h
      · obtain ⟨-, _, hentity', h, -⟩ := (compile_delete hmem).1 hcompile
        cases hentity.symm.trans hentity'
        exact h
    obtain ⟨-, hdeclared, hkey, hkeyed⟩ := hidentifies
    rcases hfault with hnone | ⟨x, hx, hnone⟩ | ⟨x, hx, hundeclared⟩
    · exact absurd hnone hkey
    · simpa [hnone] using hkeyed x hx
    · obtain ⟨c, hc⟩ := hdeclared x hx
      exact absurd hc (hundeclared c)

/-- A line of an order. Its key is the number of the order and that of the line. -/
def Entity.orderLine : Entity :=
  ⟨"Line", "lines",
    [⟨"Order", .column { Column.new "order_id" .int with key := true }⟩,
      ⟨"Row", .column { Column.new "row" .int with key := true }⟩,
      ⟨"Text", .column (.new "text" .nVarChar)⟩,
      ⟨"Stamp", .column (.new "stamp" .timestamp)⟩]⟩

def EntityValue.secondLine : EntityValue :=
  ⟨"Line", [("Text", .string "tea"), ("Stamp", .int 3), ("Row", .int 2), ("Order", .int 7)]⟩

/-- A line is told by both numbers, and by no single one. -/
theorem Log.compile_payload_secondLine :
    Log.compile (Schema.empty.register .orderLine) { parameterized := true }
        [.getSource "Line", .update .secondLine] =
      .ok { sql := "UPDATE [lines] SET [text] = @p1 WHERE [order_id] = @p2 AND [row] = @p3"
            params := [⟨"@p1", .string "tea", .nVarChar, none⟩, ⟨"@p2", .int 7, .int, none⟩,
              ⟨"@p3", .int 2, .int, none⟩] } ∧
    ∃ error, Log.compile (Schema.empty.register .orderLine) {}
      [.delete (some ⟨"Line", [("Row", .int 2)]⟩)] = .error error := by
  have hentity : (Schema.empty.register .orderLine).entity "Line" = .ok .orderLine := by cbv
  constructor
  · have hdeclared : (EntityValue.secondLine.values.all fun x =>
        (Entity.orderLine.column x.1).toOption.isSome) = true := by cbv
    have hkeyed : (Entity.orderLine.keys.all fun x =>
        (EntityValue.secondLine.get? x.1).isSome) = true := by cbv
    have hidentifies : Entity.orderLine.Identifies .secondLine :=
      ⟨rfl, fun x hx => Compiled.exists_ok (List.all_eq_true.1 hdeclared x hx),
        List.cons_ne_nil _ _, List.all_eq_true.1 hkeyed⟩
    refine ((Log.compile_payload _ _ .secondLine _).1
      (List.mem_cons_of_mem _ List.mem_cons_self) _).2
      ⟨.inr rfl, .orderLine, hentity, ⟨hidentifies, ?_⟩, ?_⟩
    · have hset : (EntityValue.secondLine.valuesOf Entity.orderLine.settable).length = 1 := by cbv
      exact List.ne_nil_of_length_pos (by rw [hset]; decide)
    · cbv
  · have hnone : EntityValue.get? ⟨"Line", [("Row", .int 2)]⟩ "Order" = none := by cbv
    exact (Log.compile_payload _ _ ⟨"Line", [("Row", .int 2)]⟩ _).2.2 (.inr List.mem_cons_self) _
      hentity (.inr (.inl ⟨_, List.mem_cons_self, hnone⟩))

end QueryCompiler

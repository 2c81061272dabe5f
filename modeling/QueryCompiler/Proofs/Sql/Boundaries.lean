import QueryCompiler.Proofs.Plan.Continued
import QueryCompiler.Proofs.Sql.OutputNames
/-!
# Rows across a boundary

The layer above a finished one reads its rows by the names that they are exported under. So if it
returns them as they are, it exports them under the same names again (`Layer.names_derived`): whole
rows as the columns of their entity, an object by its members, and anything else under its output
name.

There is one projection for which this goes wrong. An entity behind a reference navigation is
exported with all its columns, behind one under the name of the navigation that tells whether there
is a row; the layer above takes it for a scalar of this name (`Layer.projectsNavigation`), and is
left with this column only.
-/

namespace QueryCompiler

open Compiled (bind_eq_ok pure_eq_ok ok_bind)

open Sql

variable {schema : Schema} {dialect : Dialect} {config : Config}

/-! ## Names of a select list -/

/-- The names that columns get one after the other, behind those that are taken. -/
def Text.freshNames (taken preferred : List String) : List String :=
  preferred.foldl (fun taken name => taken ++ [freshName taken name]) taken

namespace Sql.Context

variable {ctx : Context} {α : Type}

theorem rowColumns_names {row : Row} {out list : SelectList} (h : ctx.rowColumns row out = .ok list) :
    ∃ ty entity, row.ty = some ty ∧ ctx.schema.entity ty = .ok entity ∧
      list.names = Text.freshNames out.names (entity.columns.map (·.1)) := by
  unfold rowColumns at h
  split at h
  · cases h
  · rename_i ty hty
    obtain ⟨entity, hentity, hlist⟩ := bind_eq_ok.1 h
    cases hlist
    refine ⟨ty, entity, hty, hentity, ?_⟩
    generalize entity.columns = columns
    clear h
    induction columns generalizing out with
    | nil => rfl
    | cons column columns ih =>
      rw [List.foldl_cons, ih, SelectList.names_push]
      rfl

theorem gives_scalarColumns {base : String} {bindings : List Binding} {out : SelectList}
    (h : ∀ b ∈ bindings, ctx.layer.shape ctx.schema b.value = .ok .scalar) :
    Gives (ctx.objectColumns base out bindings) fun list =>
      list.names = Text.freshNames out.names (bindings.map (·.member)) := by
  induction bindings generalizing out with
  | nil =>
    unfold objectColumns
    exact .pure rfl
  | cons b bs ih =>
    obtain ⟨m, v⟩ := b
    have hscalar : ctx.layer.shape ctx.schema v = .ok .scalar := h ⟨m, v⟩ (by simp)
    have hbinding : Gives (ctx.bindingColumns (base ++ m) m out v) fun list =>
        list.names = out.names ++ [Text.freshName out.names m] := by
      unfold bindingColumns
      split
      · cases hscalar
      · refine .bind (.lift fun _ h => h) fun shape hshape => ?_
        cases hscalar.symm.trans hshape
        exact .seq fun t => .pure SelectList.names_push
    unfold objectColumns
    refine .bind hbinding fun next hnext => ?_
    refine (ih fun b hb => h b (by simp [hb])).imp fun list hlist => ?_
    rw [hlist, hnext]
    rfl

end Sql.Context

/-! ## Layers -/

namespace Layer

variable {l m : Layer} {row : Expr} {source : Option String} {q : Query} {nested : Bool}

/-- The names under which a layer returns its rows, if the layer above reads them back. -/
def names? (schema : Schema) (l : Layer) : Option (List String) :=
  match l.select with
  | .source k =>
    ((l.sourceType? k).bind schema.get?).map fun e => Text.freshNames [] (e.columns.map (·.1))
  | .object _ bindings => some (Text.freshNames [] (bindings.map (·.member)))
  | other => some [other.outputName]

theorem names?_of_source {k : Nat} (hk : l.select = .source k) : l.names? schema =
    ((l.sourceType? k).bind schema.get?).map fun e => Text.freshNames [] (e.columns.map (·.1)) := by
  rw [names?, hk]

theorem names?_of_object {ty : Option String} {bindings : List Binding}
    (hs : l.select = .object ty bindings) :
    l.names? schema = some (Text.freshNames [] (bindings.map (·.member))) := by
  rw [names?, hs]

theorem names?_of_value (hsource : ∀ k, l.select ≠ .source k) (hobject : l.select.bindings? = none) :
    l.names? schema = some [l.select.outputName] := by
  unfold names?
  split
  · rename_i k hk
    exact absurd hk (hsource k)
  · rename_i ty bindings hs
    rw [hs] at hobject
    cases hobject
  · rfl

/-- Whether a layer returns the entity behind a reference navigation. -/
def projectsNavigation (schema : Schema) (l : Layer) : Bool :=
  match l.select, l.shape schema l.select with
  | .member _ _, .ok (.entity _) => true
  | _, _ => false

theorem names?_of_projectsNavigation (h : l.projectsNavigation schema) :
    l.names? schema = some [l.select.outputName] := by
  cases hs : l.select with
  | member target name =>
    rw [← hs]
    refine names?_of_value (fun k hk => ?_) ?_
    · cases hs.symm.trans hk
    · rw [hs]
      rfl
  | _ => rw [projectsNavigation, hs] at h; cases h

/-- A layer returns whole rows, an object of scalars, or a scalar. -/
structure ReadsBack (schema : Schema) (l : Layer) : Prop where
  scalars : ∀ ty bindings, l.select = .object ty bindings →
    ∀ b ∈ bindings, l.shape schema b.value = .ok .scalar
  navigation : l.projectsNavigation schema = false

/-- **A layer that is read back is exported under its names.** -/
theorem ReadsBack.gives_selectList (h : l.ReadsBack schema) :
    Gives (Context.selectList ⟨schema, dialect, l⟩ l.select []) fun list =>
      l.names? schema = some list.names := by
  unfold Context.selectList
  split
  · rename_i k hk
    refine .bind Context.gives_source fun row ⟨hrow, _⟩ => ?_
    refine .bind (.lift fun _ h => h) fun out hout => .pure ?_
    obtain ⟨ty, entity, hty, hentity, hnames⟩ := Context.rowColumns_names hout
    have hget : schema.get? ty = some entity := by
      unfold Schema.entity at hentity
      split at hentity
      · rename_i e he
        cases hentity
        exact he
      · cases hentity
    have hsource : l.sourceType? k = some ty := hrow.symm.trans hty
    rw [names?_of_source hk, hsource, Option.bind_some, hget, hnames]
    rfl
  · rename_i ty bindings hs
    refine (Context.gives_scalarColumns (h.scalars ty bindings hs)).imp fun list hlist => ?_
    rw [names?_of_object hs, hlist]
    rfl
  · rename_i hsource hobject
    refine .bind (.lift fun _ h => h) fun shape hshape => ?_
    split
    · -- entities are rows of a source or stand behind a navigation
      have hnavigation := h.navigation
      unfold projectsNavigation at hnavigation
      rw [hshape] at hnavigation
      cases hs : l.select with
      | source k => exact absurd hs (hsource k)
      | member target name => rw [hs] at hnavigation; cases hnavigation
      | _ => rw [hs] at hshape; cases hshape
    · refine .seq fun t => .pure ?_
      have hvalue : l.select.bindings? = none := by
        cases hs : l.select with
        | object ty bindings => exact absurd hs (hobject ty bindings)
        | _ => rfl
      rw [names?_of_value hsource hvalue, SelectList.names_push,
        Text.freshName_of_notMem (by simp [SelectList.names])]
      rfl

theorem ReadsBack.names_of_writes (h : l.ReadsBack schema) (hwrites : l.Writes schema dialect nested q)
    (hany : l.any = false) (haggregate : l.aggregate = none) (hincludes : l.includes = []) :
    l.names? schema = some q.selectList.names :=
  h.gives_selectList.of_gave (hincludes ▸ (hwrites.rows hany haggregate).1)

theorem ReadsBack.derivedRow (h : l.ReadsBack schema) (id : Nat) :
    ∃ r, l.derivedRow schema id = .ok r := by
  unfold Layer.derivedRow
  split
  · exact ⟨_, rfl⟩
  · rename_i ty bindings hs
    refine ⟨_, bind_eq_ok.2
      ⟨bindings.map fun b => ⟨b.member, .member (.source id) b.member⟩,
        Compiled.mapM_eq_ok.2 (List.forall₂_map_right_iff.2 (List.forall₂_same.2 ?_)), rfl⟩⟩
    intro b hb
    rw [h.scalars ty bindings hs b hb]
    rfl
  · exact ⟨_, rfl⟩

/-- A layer offered to a layer above is read back, unless it returns an entity of a navigation. -/
theorem readsBack_of_derivedRow {id : Nat} (h : l.derivedRow schema id = .ok (row, source))
    (hnavigation : l.projectsNavigation schema = false) : l.ReadsBack schema := by
  refine ⟨fun ty bindings hs => ?_, hnavigation⟩
  rcases derivedRow_cases h with ⟨k, hk, -, -⟩ | ⟨ty', bindings', hs', hscalars, -, -⟩ |
    ⟨-, hobject, -, -⟩
  · cases hk.symm.trans hs
  · cases hs'.symm.trans hs
    exact hscalars
  · rw [hs] at hobject
    cases hobject

/-- **The layer above has the names of the layer it reads**, if it returns the rows as they are. -/
theorem names_derived (h : l.derivedRow schema 0 = .ok (row, source)) (hselect : m.select = row)
    (hsource : m.source = source) : m.names? schema = l.names? schema ∧ m.ReadsBack schema := by
  rcases derivedRow_cases h with ⟨k, hk, rfl, rfl⟩ | ⟨ty, bindings, hs, -, rfl, rfl⟩ |
    ⟨hk, hobject, rfl, rfl⟩
  · refine ⟨?_, ?_, ?_⟩
    · rw [names?_of_source hselect, names?_of_source hk, ← hsource]
      rfl
    · rintro ty bindings hs
      cases hselect.symm.trans hs
    · simp only [projectsNavigation, hselect]
  · have hscalar (name : String) : m.shape schema (.member (.source 0) name) = .ok .scalar := by
      simp [shape, sourceType?, hsource, ok_bind]
    refine ⟨?_, ?_, ?_⟩
    · rw [names?_of_object hselect, names?_of_object hs, List.map_map]
      rfl
    · rintro ty' bindings' hs' b hb
      cases hselect.symm.trans hs'
      obtain ⟨b, -, rfl⟩ := List.mem_map.1 hb
      exact hscalar b.member
    · simp only [projectsNavigation, hselect]
  · have hscalar : m.shape schema (.member (.source 0) l.select.outputName) = .ok .scalar := by
      simp [shape, sourceType?, hsource, ok_bind]
    refine ⟨?_, ?_, ?_⟩
    · rw [names?_of_value hk hobject, names?_of_value (by simp [hselect]) (by rw [hselect]; rfl),
        hselect]
      rfl
    · rintro ty bindings hs
      cases hselect.symm.trans hs
    · simp only [projectsNavigation, hselect, hscalar]

end Layer

/-! ## Logs -/

def Command.columns? (c : Command) : Option (List String) :=
  c.resultMap.map (·.columns)

theorem Plan.columns_of_command {l : Layer} {c : Command}
    (h : (Plan.select l).command schema config = .ok c) :
    ∃ q, l.Writes schema config.dialect false q ∧ c.columns? = some q.selectList.names := by
  simp only [command, numberedStatement, statement, bind_eq_ok] at h
  obtain ⟨⟨st, constants⟩, ⟨⟨st', scope⟩, hrun, hst⟩, hc⟩ := h
  cases hst
  obtain ⟨⟨q, scope'⟩, hq, hst⟩ := bind_eq_ok.1 hrun
  cases hst
  cases hc
  exact ⟨q, ⟨_, _, hq⟩, rfl⟩

namespace Draft

variable {d d' e : Draft} {x : String}

/-- `e` is finished with the rows of `d` as they are. -/
structure Returns (schema : Schema) (d e : Draft) : Prop where
  names : e.finished.names? schema = d.finished.names? schema
  readsBack : e.finished.ReadsBack schema

/-- **A draft over the rows of another one returns these**, as long as it has their row. -/
theorem returns_of_wrap (h : d.wrap schema = .ok d') (hrow : e.row = d'.row)
    (hsource : e.layer.source = d'.layer.source) : d.Returns schema e := by
  obtain ⟨row, source, hderived, rfl⟩ := wrap_eq_ok h
  have hselect : e.finished.select = row := by
    have hrow : e.row = row := hrow
    unfold finished
    dsimp only
    rw [hrow]
    rcases Layer.derivedRow_cases hderived with ⟨k, -, rfl, -⟩ | ⟨_, bindings, -, -, rfl, -⟩ |
      ⟨-, -, rfl, -⟩ <;> rfl
  obtain ⟨hnames, hreads⟩ := Layer.names_derived hderived hselect hsource
  exact ⟨hnames, hreads⟩

theorem includes_wrap (hincludes : d.layer.includes = []) (h : d.wrap schema = .ok d') :
    d'.layer.includes = [] := by
  obtain ⟨row, source, -, rfl⟩ := wrap_eq_ok h
  simp [finished, hincludes]

theorem derivedRow_of_wrap (hincludes : d.layer.includes = []) (h : d.wrap schema = .ok d') :
    ∃ r, d.finished.derivedRow schema 0 = .ok r := by
  obtain ⟨row, source, hderived, -⟩ := wrap_eq_ok h
  have hfinished : { d.finished with includes := [] } = d.finished := by
    simp [finished, hincludes]
  rw [hfinished] at hderived
  exact ⟨_, hderived⟩

theorem Returns.trans {d₁ d₂ : Draft} (h : d.Returns schema d₁) (h' : d₁.Returns schema d₂) :
    d.Returns schema d₂ :=
  ⟨h'.names.trans h.names, h'.readsBack⟩

/-- **Behind a boundary and a test of nothing a draft has the rows that were there before it.** -/
theorem returns_of_boundary {nested : Log → Compiled Layer} (hincludes : d.layer.includes = [])
    (h : ([.asSubquery, .filter ⟨[x], .constant (.bool true)⟩] : Log).foldlM (step schema nested) d =
      .ok e) :
    (∃ r, d.finished.derivedRow schema 0 = .ok r) ∧ d.Returns schema e ∧
      e.layer.any = false ∧ e.layer.aggregate = none ∧ e.layer.includes = [] ∧
      e.modification = none := by
  simp only [List.foldlM_cons, List.foldlM_nil, bind_eq_ok, pure_eq_ok] at h
  obtain ⟨d₁, hboundary, d₂, hfilter, rfl⟩ := h
  obtain ⟨ht, d₀, hopened, hboundary⟩ := step_iff.1 hboundary
  rw [step_of_open (terminal_opened hopened ht) (mustClose_opened hopened)] at hboundary
  cases hboundary
  obtain ⟨-, d₃, hclosed, hfilter⟩ := step_iff.1 hfilter
  have hwrap : d₀.wrap schema = .ok d₃ := by
    rcases opened_eq_ok hclosed with ⟨-, hwrap⟩ | ⟨hopen, -⟩
    · exact hwrap
    · simp [mustClose, counted] at hopen
  have hfresh : d₃.layer.any = false ∧ d₃.layer.aggregate = none ∧ d₃.modification = none ∧
      d₃.terminal = none := by
    obtain ⟨row, source, -, rfl⟩ := wrap_eq_ok hwrap
    exact ⟨rfl, rfl, rfl, rfl⟩
  rw [step_of_open hfresh.2.2.2 (mustClose_opened hclosed)] at hfilter
  obtain ⟨d₄, happly, hcounted⟩ := bind_eq_ok.1 hfilter
  cases hcounted
  obtain ⟨lambda, -, happly⟩ := bind_eq_ok.1 happly
  obtain ⟨test, -, hrestrict⟩ := bind_eq_ok.1 happly
  cases hrestrict
  have hrow : (d₃.restrict test).row = d₃.row := by
    unfold restrict
    split <;> rfl
  have hlayer : (d₃.restrict test).layer = d₃.layer := restrict_layer test
  have hreturns : d₀.Returns schema (d₃.restrict test).counted :=
    returns_of_wrap hwrap hrow (congrArg (·.source) hlayer)
  have hrest : d₀.layer.includes = [] → (d₃.restrict test).counted.layer.any = false ∧
      (d₃.restrict test).counted.layer.aggregate = none ∧
      (d₃.restrict test).counted.layer.includes = [] ∧
      (d₃.restrict test).counted.modification = none := by
    intro hnone
    have hlayer : (d₃.restrict test).counted.layer = d₃.layer := hlayer
    rw [hlayer]
    exact ⟨hfresh.1, hfresh.2.1, includes_wrap hnone hwrap,
      (restrict_modification test).trans hfresh.2.2.1⟩
  rcases opened_eq_ok hopened with ⟨-, hwrap₀⟩ | ⟨-, rfl⟩
  · exact ⟨derivedRow_of_wrap hincludes hwrap₀, (returns_of_wrap hwrap₀ rfl rfl).trans hreturns,
      hrest (includes_wrap hincludes hwrap₀)⟩
  · exact ⟨derivedRow_of_wrap hincludes hwrap, hreturns, hrest hincludes⟩

end Draft

def Log.numberedTitles : Log :=
  [.getSource "Book", .select ⟨["b"], .construct none
    [("Title", .member (.param "b") "Title"), ("Number", .member (.param "b") "Id")]⟩]

def Schema.customers : Schema where
  entities := [
    ("Customer", ⟨"Customer", "customers",
      [⟨"Id", .column (.new "id" .int)⟩, ⟨"Name", .column (.new "name" .nVarChar)⟩]⟩),
    ("Order", ⟨"Order", "orders",
      [⟨"Id", .column (.new "id" .int)⟩, ⟨"CustomerId", .column (.new "customer_id" .int)⟩,
        ⟨"Customer", .navigation ⟨"Customer", false, some ⟨["CustomerId"], ["Id"]⟩⟩⟩]⟩)]
  sorted := by
    have hlt : "Customer" < "Order" := by decide
    exact List.pairwise_pair.2 hlt

def Log.orderCustomers : Log :=
  [.getSource "Order", .select ⟨["o"], .member (.param "o") "Customer"⟩]

end QueryCompiler

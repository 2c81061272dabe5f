import QueryCompiler.Proofs.Sql.AddedTests
/-!
# Members that an entity does not declare

Whole rows are read by the members of their entity. In the rows of a table a member that the entity
does not declare is unknown. An inner layer may export more than the columns of the entity, so in
its rows such a member is taken for one of its columns, whatever it exports
(`Layer.column_undeclared`).

`Log.filtersUndeclared` draws the consequence for a filter on such a member. Over a table it is
refused. Once a bound, `Distinct`, `AsSubquery` or a union has put an inner layer below, it is not:
the log with the filter compiles as it would with a filter that every row passes, and the statement
asks for a column that there is not.
-/

namespace QueryCompiler

open Compiled (bind_eq_ok ok_bind)

open Sql

variable {schema : Schema} {dialect : Dialect} {config : Config}

def Expr.isOne (member : String) : Expr :=
  .binary .eq (.member (.source 0) member) (.constant (.int 1))

/-- The filter `x => x.member == 1`. -/
def Operator.whereOne (member : String) : Operator :=
  .filter ⟨["x"], .binary .eq (.member (.param "x") member) (.constant (.int 1))⟩

/-- The filter `x => true`, which every row passes. -/
def Operator.whereTrue : Operator := .filter ⟨["x"], .constant (.bool true)⟩

/-! ## Members of the root -/

namespace Layer

variable {l : Layer} {ty member : String} {entity : Entity}

/-- Row number 0 as a layer of whole entities reads it. -/
def rootRow (l : Layer) (ty : String) (number : Nat) : Row :=
  ⟨sourceKey 0, number, some ty, l.isDerived, none⟩

theorem source_root (hsource : l.source = some ty) :
    Context.source ⟨schema, dialect, l⟩ 0 = (do
      let number ← Reading.request (sourceKey 0)
      return l.rootRow ty number) := by
  rw [Context.source_eq]
  simp [Context.isDerived?, sourceType?, hsource, rootRow]

theorem read_rootMember {wantTest : Bool} (hsource : l.source = some ty)
    (hentity : schema.entity ty = .ok entity) (hmember : entity.navigation? member = none) :
    Context.read ⟨schema, dialect, l⟩ wantTest (.member (.source 0) member) = (do
      let number ← Reading.request (sourceKey 0)
      let c ← Context.column ⟨schema, dialect, l⟩ (l.rootRow ty number) member
      return .ofValue wantTest ⟨.column c.1, c.2⟩) := by
  have hproperty : Context.isPropertyOf ⟨schema, dialect, l⟩ (.source 0) member = pure false := by
    unfold Context.isPropertyOf
    simp only [shape, sourceType?, hsource]
    split <;> rfl
  have hnavigation (number : Nat) :
      Context.isNavigation ⟨schema, dialect, l⟩ (l.rootRow ty number) member = pure false := by
    simp [Context.isNavigation, rootRow, hentity, hmember]
    rfl
  have hpath : (Expr.member (.source 0) member).memberPath? = some (0, [member]) := rfl
  rw [Context.read, hproperty]
  simp [Context.memberValue, hpath, Context.resolve, source_root hsource, Context.walk, hnavigation]

/-- **An undeclared member is a column of an inner layer's rows, and unknown in a table's.** -/
theorem column_undeclared (hentity : schema.entity ty = .ok entity)
    (hmember : entity.member? member = none) (number : Nat) :
    Context.column ⟨schema, dialect, l⟩ (l.rootRow ty number) member =
      if l.isDerived then pure (⟨number, member⟩, none) else throw (.unknownMember ty member) := by
  simp only [Context.column, rootRow, hentity, ok_bind, hmember]
  rfl

/-- The test on an undeclared member passes unchecked over an inner layer, and only there. -/
theorem comesTo_isOne (hsource : l.source = some ty) (hentity : schema.entity ty = .ok entity)
    (hmember : entity.member? member = none) :
    ComesTo (if l.isDerived then .ok () else .error (.unknownMember ty member))
      (Context.read ⟨schema, dialect, l⟩ true (.isOne member)) := by
  have hnavigation : entity.navigation? member = none := by simp [Entity.navigation?, hmember]
  unfold Expr.isOne
  rw [Context.read]
  simp only [read_rootMember hsource hentity hnavigation, column_undeclared hentity hmember]
  cases l.isDerived with
  | true => exact fun _ => rfl
  | false => exact fun _ => rfl

theorem comesTo_true : ComesTo (.ok ())
    (Context.read ⟨schema, dialect, l⟩ true (.constant (.bool true))) := by
  rw [Context.read]
  exact fun _ => rfl

end Layer

/-! ## One more filter -/

namespace Draft

variable {d : Draft} {log : Log} {op : Operator}

theorem ofLog_concat (hd : ofLog schema log = .ok d) (hvalid : op.validate = .ok ())
    (hnesting : Log.nesting [op] = 0) :
    ofLog schema (log ++ [op]) = d.step schema (Plan.nestedAt schema log.nesting) op := by
  have hnesting' : Log.nesting (log ++ [op]) = log.nesting := by
    rw [Log.nesting_append, hnesting, Nat.max_zero]
  simp only [ofLog, bind_eq_ok] at hd
  obtain ⟨⟨⟩, hlog, ⟨d₀, ops⟩, hstart, hrun⟩ := hd
  have hvalid' : Log.validate (log ++ [op]) = .ok () := by
    rw [Log.validate, Compiled.forM_eq_ok, List.forall_mem_append, List.forall_mem_singleton]
    exact ⟨Compiled.forM_eq_ok.1 hlog, hvalid⟩
  simp only [ofLog, hvalid', start_append _ hstart, hnesting', ok_bind,
    List.foldlM_append, hrun, List.foldlM_cons, List.foldlM_nil, bind_pure]

/-- The draft whose rows the next filter tests: the draft itself, or one over its finished layer. -/
def tested (d : Draft) : Draft :=
  if d.mustClose .filter then
    { layer := { Layer.ofLayer d.layer.source { d.finished with includes := [] } with
        includes := d.finished.includes }
      row := .source 0 }
  else d

theorem tested_row (hrow : d.row = .source 0) : d.tested.row = .source 0 := by
  unfold tested
  split
  · rfl
  · exact hrow

theorem tested_source : d.tested.layer.source = d.layer.source := by
  unfold tested
  split <;> rfl

theorem tested_isDerived :
    d.tested.layer.isDerived = (d.mustClose .filter || d.layer.isDerived) := by
  unfold tested
  split <;> simp [*, Layer.isDerived, Layer.ofLayer]

theorem tested_unions : d.tested.layer.unions = [] := by
  unfold tested
  split
  · rfl
  · rename_i hopen
    simp only [mustClose, Bool.or_eq_true, Bool.and_eq_true, not_or] at hopen
    simpa using hopen.1.2

theorem tested_ended (hregular : d.Regular) (hterminal : d.terminal = none) :
    d.tested.layer.any = false ∧ d.tested.layer.aggregate = none ∧
      d.tested.modification = none := by
  unfold tested
  split
  · exact ⟨rfl, rfl, rfl⟩
  · exact hregular.ended hterminal

theorem compile_filter {l : Lambda} {test : Expr} (hd : ofLog schema log = .ok d)
    (hterminal : d.terminal = none) (hrow : d.row = .source 0) (hkind : op.kind = .filter)
    (hlambda : op.lambda 0 = .ok l) (htest : l.bind [.source 0] = .ok test)
    (hvalid : op.validate = .ok ()) (hnesting : Log.nesting [op] = 0) :
    Log.compile schema config (log ++ [op]) = (d.tested.restrict test).command schema config := by
  have hbind : d.tested.bindRow l = .ok test := by rw [bindRow, tested_row hrow, htest]
  rw [Log.compile_eq, ofLog_concat hd hvalid hnesting]
  simp only [step, hterminal, hkind]
  split
  · rename_i hclose
    have hwrap : d.wrap schema = .ok d.tested := by
      simp [wrap, Layer.derivedRow, finished, hrow, Layer.sourceType?, tested, hclose]
    simp only [hwrap, ok_bind, apply, hkind, hlambda, hbind]
    rfl
  · rename_i hopen
    have hsame : d.tested = d := if_neg hopen
    rw [hsame] at hbind ⊢
    simp only [pure_bind, ok_bind, apply, hkind, hlambda, hbind]
    rfl

end Draft

/-! ## Over a finished layer -/

theorem Plan.outcome_command (q : Layer) : ((Plan.select q).command schema config).outcome =
    ((q.query schema config.dialect false).run {}).outcome := by
  unfold Plan.command Plan.numberedStatement Plan.statement
  rw [StateT.run_bind]
  cases (q.query schema config.dialect false).run {} <;> rfl

namespace Layer

variable {l : Layer} {ty : String} {entity : Entity}

theorem alike_nested (l : Layer) (s : Scope) : Compiled.Alike (fun a b => a.2 = b.2)
    ((l.query schema dialect true).run s) ((l.query schema dialect false).run s) := by
  have hunions (inner : Inner) (first first' : Query) (s : Scope) :
      Compiled.Alike (fun a b => a.2 = b.2) ((Context.withUnions inner first).run s)
        ((Context.withUnions inner first').run s) := by
    unfold Context.withUnions
    split
    · exact rfl
    · rw [StateT.run_bind, StateT.run_bind]
      refine .bind (.refl (R := Eq) _ fun _ => rfl) ?_
      rintro a _ rfl
      exact rfl
  rw [query_eq, query_eq]
  unfold Context.query
  dsimp only
  split
  · exact .refl _ fun _ => rfl
  · split
    · exact .refl _ fun _ => rfl
    · rw [StateT.run_bind, StateT.run_bind]
      refine .bind (R := fun a b => a.2 = b.2) ?_ fun a b hab => ?_
      · unfold Context.rows
        dsimp only
        rw [StateT.run_bind, StateT.run_bind]
        refine .bind (.refl (R := Eq) _ fun _ => rfl) ?_
        rintro a _ rfl
        split
        · exact rfl
        · exact rfl
      · rw [hab]
        exact hunions _ _ _ _

theorem exported?_of_whole {e e' : Expr} (hselect : l.select = .source 0)
    (h : l.exported? schema e = some e') : ∃ ty entity name, l.source = some ty ∧
      schema.get? ty = some entity ∧ e' = .member (.source 0) name ∧
      ((entity.member? name).bind Member.column?).isSome = true := by
  obtain ⟨name, hname, ⟨hother, -⟩ | ⟨-, -, ty, entity, hty, hentity, hcolumn⟩ | ⟨k, hk, rfl⟩⟩ :=
    exported?_cases h
  · exact absurd hselect (hother 0)
  · exact ⟨ty, entity, name, hty, hentity, hname, hcolumn⟩
  · cases hselect.symm.trans hk
    simp [exported?, hselect, Expr.memberPath?] at h

/-- The ordering of whole rows can be read above them as far as it carries over. -/
theorem sure_sortKeys_over (hselect : l.select = .source 0) :
    Sure (Context.sortKeys ⟨schema, dialect, ofLayer l.source l⟩
      ((ofLayer l.source l).effectiveOrders schema)) := by
  refine .mapM fun o ho => .bind ?_ fun _ => .pure
  rcases effectiveOrders_cases ho with ho | ⟨orders, horders, ho⟩
  · cases ho
  · obtain ⟨_, o₀, hinner, -, hexported⟩ := mem_inheritedOrders horders ho
    cases hinner
    obtain ⟨ty, entity, name, hty, hentity, hname, hcolumn⟩ :=
      exported?_of_whole hselect hexported
    obtain ⟨_, hcolumn⟩ := Option.isSome_iff_exists.1 hcolumn
    obtain ⟨⟨member, kind⟩, hmember, hkind⟩ := Option.bind_eq_some_iff.1 hcolumn
    cases kind with
    | navigation nav => cases hkind
    | column c =>
      have hentity' : schema.entity ty = .ok entity := by simp only [Schema.entity, hentity]
      have hnavigation : entity.navigation? name = none := by
        simp [Entity.navigation?, hmember, Member.navigation?]
      have hover : (ofLayer l.source l).source = some ty := hty
      rw [hname, Context.value, read_rootMember hover hentity' hnavigation]
      simp only [Context.column, rootRow, hentity', ok_bind, hmember]
      exact fun _ => ⟨_, rfl⟩

/-- **Whole rows can be read above a layer whenever the layer can be read.** -/
theorem outcome_over (hselect : l.select = .source 0) (hsource : l.source = some ty)
    (hentity : schema.entity ty = .ok entity)
    (h : ((l.query schema dialect false).run {}).outcome = .ok ()) :
    (((ofLayer l.source l).query schema dialect false).run {}).outcome = .ok () := by
  have hbind {α β : Type} {x : Reading α} {f : α → Reading β} {s s' : Scope} {a : α}
      (hx : x.run s = .ok (a, s')) (hf : ∃ r, (f a).run s' = .ok r) :
      ∃ r, (x >>= f).run s = .ok r := by
    obtain ⟨r, hr⟩ := hf
    exact ⟨r, bind_eq_ok.2 ⟨(a, s'), hx, hr⟩⟩
  -- the layer itself, nested and in the scope of the layer above
  have hnested (A : Aliases NavigationJoin) :
      ∃ r, (l.query schema dialect true).run ⟨A, []⟩ = .ok r := by
    rw [← (alike_nested l {}).outcome_eq] at h
    obtain ⟨⟨q, s⟩, hq⟩ := Compiled.outcome_eq_ok.1 h
    exact ⟨_, (l.isolated_query true _ _ _ hq).2 A⟩
  have hcolumns : ∃ list A, (Context.selectList ⟨schema, dialect, ofLayer l.source l⟩ (.source 0)
      []).run ⟨Aliases.ofLayer (ofLayer l.source l), []⟩ = .ok (list, ⟨A, []⟩) := by
    have hover : (ofLayer l.source l).source = some ty := hsource
    simp only [Context.selectList, source_root hover, Context.rowColumns, pure_bind, bind_assoc,
      rootRow, hentity]
    exact ⟨_, _, rfl⟩
  obtain ⟨list, A, hlist⟩ := hcolumns
  obtain ⟨⟨q, s⟩, hq⟩ := hnested A
  have hclauses : ∃ r, (Context.clauses ⟨schema, dialect, ofLayer l.source l⟩
      ((ofLayer l.source l).inner schema dialect) true
      (Context.selectList ⟨schema, dialect, ofLayer l.source l⟩ (.source 0) [])
      ((ofLayer l.source l).effectiveOrders schema)).run
        ⟨Aliases.ofLayer (ofLayer l.source l), []⟩ = .ok r := by
    rw [Context.clauses_true]
    refine hbind hlist (hbind (a := .derived q) (bind_eq_ok.2 ⟨(q, s), hq, rfl⟩) ?_)
    -- no joins, no tests and no groups
    exact Sure.bind Sure.pure (fun _ => Sure.bind Sure.pure fun _ => Sure.bind Sure.pure fun _ =>
      Sure.bind Sure.pure fun _ => Sure.bind (sure_sortKeys_over hselect) fun _ => Sure.pure) s
  obtain ⟨⟨r, s'⟩, hr⟩ := hclauses
  have hblock : ∃ r, (Context.block ⟨schema, dialect, ofLayer l.source l⟩
      ((ofLayer l.source l).inner schema dialect) true
      (Context.selectList ⟨schema, dialect, ofLayer l.source l⟩ (.source 0) [])
      ((ofLayer l.source l).effectiveOrders schema)).run {} = .ok r := by
    rw [Context.block_eq, Reading.run_inLayer]
    exact ⟨_, bind_eq_ok.2 ⟨(_, s'), bind_eq_ok.2 ⟨_, hr, rfl⟩, rfl⟩⟩
  obtain ⟨⟨r', s''⟩, hr'⟩ := hblock
  rw [query_eq_rows rfl rfl rfl]
  exact Compiled.outcome_eq_ok.2 (hbind hr' ⟨_, rfl⟩)

end Layer

/-- Where a filter starts a new layer over whole rows, these rows can be read from it. -/
theorem Draft.outcome_tested {d : Draft} {ty : String} {entity : Entity} (hregular : d.Regular)
    (hterminal : d.terminal = none) (hrow : d.row = .source 0) (hsource : d.layer.source = some ty)
    (hentity : schema.entity ty = .ok entity) (hincludes : d.layer.includes = [])
    (hclose : d.mustClose .filter) (h : (d.command schema config).outcome = .ok ()) :
    (d.tested.command schema config).outcome = .ok () := by
  obtain ⟨-, -, hmodification⟩ := hregular.ended hterminal
  have hselect : d.finished.select = .source 0 := by rw [finished, hrow]
  have hnone : d.finished.includes = [] := by simp [finished, hincludes]
  -- the finished layer is not split, and stands below as it is
  obtain ⟨c, hc⟩ := Compiled.outcome_eq_ok.1 h
  rw [command_of_query hmodification] at hc
  obtain ⟨q, hq, hc⟩ := bind_eq_ok.1 hc
  have hderived : d.finished.derivedRow schema 0 = .ok (.source 0, d.finished.sourceType? 0) := by
    rw [Layer.derivedRow, hselect]
  obtain rfl : q = d.finished := Layer.separateCollections_eq_self hderived hnone hq
  have hquery : ((d.finished.query schema config.dialect false).run {}).outcome = .ok () := by
    rw [← Plan.outcome_command, hc]
    rfl
  have hover : d.tested.finished = Layer.ofLayer d.finished.source d.finished := by
    have hsame : { d.finished with includes := d.finished.includes } = d.finished := rfl
    rw [hnone] at hsame
    rw [tested, if_pos hclose, hsame, hnone]
    rfl
  have hmodification' : d.tested.modification = none := by rw [tested, if_pos hclose]
  rw [command_of_query hmodification', hover,
    Layer.separateCollections_of_whole rfl rfl rfl rfl, Layer.includesCollection_of_nil rfl]
  refine (Plan.outcome_command _).trans ?_
  exact Layer.outcome_over hselect hsource hentity hquery

/-! ## Filters on undeclared members -/

/-- What becomes of a log that leaves the draft `d`, with rows of the entity `ty`, when a filter on
a member is added to it that the entity does not declare. -/
structure Log.FiltersUndeclared (schema : Schema) (config : Config) (log : Log) (d : Draft)
    (ty member : String) : Prop where
  /-- no filter is taken after an operator that ends the query -/
  ended : ∀ kind, d.terminal = some kind →
    compile schema config (log ++ [.whereOne member]) =
      .error (.invalidOperand OpKind.filter.name (.afterTerminal kind.name))
  /-- rows of a table: the member is unknown, unless the log fails by itself -/
  table : d.terminal = none → d.mustClose .filter = false → d.layer.isDerived = false →
    compile schema config (log ++ [.whereOne member]) = .error (.unknownMember ty member) ∨
      ∃ e, compile schema config log = .error e ∧
        compile schema config (log ++ [.whereOne member]) = .error e
  /-- rows of an inner layer: the member goes unchecked -/
  derived : d.terminal = none → d.mustClose .filter = false → d.layer.isDerived = true →
    (compile schema config (log ++ [.whereOne member])).outcome =
      (compile schema config log).outcome
  /-- rows of a layer that takes no filter: the member goes unchecked in the layer over it -/
  closed : d.terminal = none → d.mustClose .filter = true →
    (compile schema config (log ++ [.whereOne member])).outcome =
      (compile schema config (log ++ [.whereTrue])).outcome
  /-- if no paths are loaded, such a filter keeps no log from being compiled -/
  compiles : d.terminal = none → d.mustClose .filter = true → d.layer.includes = [] →
    (compile schema config log).outcome = .ok () →
      (compile schema config (log ++ [.whereOne member])).outcome = .ok ()

namespace Draft

variable {d : Draft} {ty member : String} {entity : Entity}

/-- What a test comes to is interposed in the command of the draft that it is added to. -/
theorem interposed_tested (schema : Schema) (config : Config) {v : Compiled Unit} {test : Expr}
    (hregular : d.Regular) (hterminal : d.terminal = none) (hrow : d.row = .source 0)
    (h : ∀ l : Layer, l.SameRows d.tested.layer →
      ComesTo v (Context.read ⟨schema, config.dialect, l⟩ true test)) :
    Compiled.Interposed v (fun _ _ => True) (d.tested.command schema config)
      ((d.tested.restrict test).command schema config) := by
  obtain ⟨hany, haggregate, hmodification⟩ := tested_ended hregular hterminal
  exact interposed_command hany haggregate hmodification tested_unions (tested_row hrow) h

/-- The test is refused unless it is added above a boundary or in a layer that reads another. -/
theorem comesTo_tested (hsource : d.layer.source = some ty)
    (hentity : schema.entity ty = .ok entity) (hmember : entity.member? member = none) {l : Layer}
    (hl : l.SameRows d.tested.layer) :
    ComesTo (if d.mustClose .filter || d.layer.isDerived then .ok ()
        else .error (.unknownMember ty member))
      (Context.read ⟨schema, dialect, l⟩ true (.isOne member)) := by
  rw [← tested_isDerived, ← hl.isDerived]
  exact Layer.comesTo_isOne (hl.source.trans (tested_source.trans hsource)) hentity hmember

end Draft

def Log.wrappedBooks : Log := [.getSource "Book", .asSubquery]

def Draft.wrappedBooks : Draft := { ofSource "Book" with closed := true, applied := 1 }

end QueryCompiler

import QueryCompiler.Proofs.Sql.Boundaries
import QueryCompiler.Proofs.Sql.PathShapes
/-!
# Columns of an insert

An insert of the rows of a query writes the members that the query binds: for each of them the
statement names the column of that member, and the query returns its value. The names are taken from
the bindings one by one, while the query returns what every query returns for them. There a value is
one column, but an entity is spread over all its columns, and an object over those of its members.

So names and values match exactly if no binding is spread (`Log.insert_aligned_iff`). What is spread
cannot be read as a value at all (`Context.not_gives_value_of_spreads`).
-/

namespace QueryCompiler

open Compiled (bind_eq_ok pure_eq_ok)

open Sql

variable {schema : Schema} {dialect : Dialect} {config : Config} {l : Layer} {e : Expr}
  {name : String} {shape : Shape} {bindings : List Binding}

/-- The entity type of the rows that an expression denotes. -/
def Shape.rowType? : Shape → Option String
  | entity ty | collection ty => some ty
  | scalar | object | row => none

/-- Whether an expression is spread over columns of its own: an object construction, an entity, or
the rows of a collection. -/
def Layer.spreads (schema : Schema) (l : Layer) : Expr → Bool
  | .object _ _ => true
  | e =>
    match l.shape schema e with
    | .ok shape => shape.rowType?.isSome
    | .error _ => false

theorem Layer.spreads_cases (h : l.spreads schema e) :
    (∃ ty bindings, e = .object ty bindings) ∨
      ∃ shape ty, l.shape schema e = .ok shape ∧ shape.rowType? = some ty := by
  unfold spreads at h
  split at h
  · exact .inl ⟨_, _, rfl⟩
  · split at h
    · rename_i shape hshape
      obtain ⟨ty, hty⟩ := Option.isSome_iff_exists.1 h
      exact .inr ⟨shape, ty, hshape, hty⟩
    · cases h

/-! ## Entities are no values -/

namespace Sql.Context

variable {ctx : Context} {ty : String}

theorem isPropertyOf_of_rowType {of : Expr}
    (h : ctx.layer.shape ctx.schema (.member of name) = .ok shape)
    (hty : shape.rowType? = some ty) :
    ctx.isPropertyOf of name = .ok false := by
  obtain ⟨owner, -, howner, -⟩ := Layer.entity_of_shape_member h (by rintro rfl; cases hty)
  unfold isPropertyOf
  rw [howner]
  split <;> rfl

theorem not_gives_memberValue {of : Expr}
    (h : ctx.layer.shape ctx.schema (.member of name) = .ok shape)
    (hty : shape.rowType? = some ty) :
    Gives (ctx.memberValue of name) fun _ => False := by
  unfold memberValue
  split
  · exact .throw
  · rename_i id path hpath
    refine .bind (gives_resolve hpath) fun r hr => ?_
    cases r with
    | row next many => exact .throw
    | column ref dbType =>
      rcases hr with hscalar | ⟨_, _, _, -, -, -, -, hunknown⟩
      · cases h.symm.trans hscalar
        cases hty
      · cases h.symm.trans hunknown

/-- **What is spread cannot be read as a value.** -/
theorem not_gives_value_of_spreads (h : ctx.layer.spreads ctx.schema e) :
    Gives (ctx.value e) fun _ => False := by
  suffices hread : Gives (ctx.read false e) fun _ => False from
    Gives.bind hread fun _ hfalse => hfalse.elim
  rcases Layer.spreads_cases h with ⟨ty, bindings, rfl⟩ | ⟨shape, ty, hshape, hty⟩
  · unfold read
    exact .throw
  · cases e with
    | source id =>
      unfold read
      exact .throw
    | member of name =>
      unfold read
      rw [isPropertyOf_of_rowType hshape hty]
      refine .bind (.lift fun _ h => h) fun isProperty hproperty => ?_
      cases hproperty
      exact .bind (not_gives_memberValue hshape hty) fun _ hfalse => hfalse.elim
    | joinGroup j element => cases hshape
    | _ =>
      cases hshape
      cases hty

/-! ## Values are single columns -/

theorem rowType?_of_value (h : ctx.layer.spreads ctx.schema e = false)
    (hshape : ctx.layer.shape ctx.schema e = .ok shape) : shape.rowType? = none := by
  unfold Layer.spreads at h
  split at h
  · cases h
  · rw [hshape] at h
    simpa using h

theorem settles_valueColumn {pre : Aliases NavigationJoin → Prop} {base member : String}
    {out : SelectList} (h : ctx.layer.spreads ctx.schema e = false) :
    Settles ctx (fun _ => True) pre (ctx.bindingColumns base member out e) fun A list =>
      ∃ x, list.columns = out.columns ++ [x] ∧ ReadsIn A (ctx.value e) x.1 := by
  unfold bindingColumns
  split
  · cases h
  · refine .lift_bind fun shape hshape => ?_
    have hvalue := rowType?_of_value h hshape
    split
    · cases hvalue
    · cases hvalue
    all_goals
      refine .bind (settles_value fun _ _ => trivial).self fun t => ?_
      exact .pure fun A hA => ⟨(t, Text.freshName out.names member), rfl, hA.2.1⟩

/-- **An object of values has a column for each of them.** -/
theorem settles_valueColumns {pre : Aliases NavigationJoin → Prop} {base : String}
    {out : SelectList} (h : ∀ b ∈ bindings, ctx.layer.spreads ctx.schema b.value = false) :
    Settles ctx (fun _ => True) pre (ctx.objectColumns base out bindings) fun A list =>
      ∃ added, list.columns = out.columns ++ added ∧
        List.Forall₂ (fun b x => ReadsIn A (ctx.value b.value) x.1) bindings added := by
  induction bindings generalizing pre out with
  | nil =>
    unfold objectColumns
    exact .pure fun A _ => ⟨[], by simp, .nil⟩
  | cons b bs ih =>
    obtain ⟨m, v⟩ := b
    unfold objectColumns
    refine .bind (settles_valueColumn (h ⟨m, v⟩ (by simp))) fun next => ?_
    refine (ih fun b hb => h b (by simp [hb])).imp fun A list hA hlist => ?_
    obtain ⟨-, x, hnext, hreads⟩ := hA
    obtain ⟨added, hcolumns, hadded⟩ := hlist
    refine ⟨x :: added, ?_, .cons hreads hadded⟩
    rw [hcolumns, hnext, List.append_assoc, List.singleton_append]

/-- **Bindings and columns match exactly if no binding is spread.** -/
theorem aligned_iff {A : Aliases NavigationJoin} {name : Option String}
    {includes : List (List String)} {list : SelectList}
    (hlayer : (Aliases.ofLayer ctx.layer).keys <+: A.keys)
    (h : ReadsIn A (ctx.selectList (.object name bindings) includes) list) :
    List.Forall₂ (fun b x => ReadsIn A (ctx.value b.value) x.1) bindings list.columns ↔
      ∀ b ∈ bindings, ctx.layer.spreads ctx.schema b.value = false := by
  constructor
  · intro haligned b hb
    by_contra hspreads
    obtain ⟨x, -, constants, constants', hrun⟩ := exists_of_forall₂ haligned.flip b hb
    exact not_gives_value_of_spreads (by simpa using hspreads) _ _ _ hrun
  · intro hvalues
    have hcolumns : ReadsIn A (ctx.objectColumns "" {} bindings) list := h
    obtain ⟨added, hadded, haligned⟩ := hcolumns.settled hlayer (settles_valueColumns hvalues)
    rw [hadded]
    exact haligned

end Sql.Context

/-! ## Logs -/

/-- **An insert of the rows of a query reads all of them from a table.** -/
theorem Plan.ofLog_insertFrom {log : Log} {ty : String} {p : Plan}
    (h : Plan.ofLog schema (log ++ [.insertFrom ty]) = .ok p) :
    ∃ scope, p = .insert ty (.query scope) ∧ scope.Open := by
  obtain ⟨e, he, hplan⟩ := Plan.ofLog_eq_ok.1 h
  have hregular : e.Regular := Draft.regular_ofLog he
  obtain ⟨d, source, m, hd, hsource, hsubquery, hm, rfl⟩ :=
    Draft.ofLog_concat_modify (.inl rfl) (by rintro r ⟨⟩) he
  have hinsert : m = .insert ty none := by
    obtain ⟨entity, -, hm⟩ := bind_eq_ok.1 hm
    split at hm
    · cases hm
    · cases hm
      rfl
  subst hinsert
  cases hplan
  obtain ⟨-, hopen, -⟩ := hregular.modified _ rfl
  exact ⟨_, rfl, hopen.skip, hopen.take, hopen.distinct, hopen.any, hopen.aggregate, hopen.unions⟩

theorem Expr.eq_object_of_bindings? (h : e.bindings? = some bindings) :
    ∃ ty, e = .object ty bindings := by
  cases e with
  | object ty bs =>
    cases h
    exact ⟨ty, rfl⟩
  | _ => cases h

/-- A binding is written to the column that its member names. -/
def Entity.Takes (entity : Entity) (b : Binding) (column : String) : Prop :=
  ∃ c, entity.column b.member = .ok c ∧ c.isWritable = true ∧ column = c.column

theorem Entity.gives_column (entity : Entity) (b : Binding) :
    Gives (show Reading String from do
      let c ← entity.column b.member
      if !c.isWritable then throw (.invalidOperand "Insert" (.notWritable b.member))
      return c.column) (entity.Takes b) := by
  refine .bind (.lift fun _ h => h) fun c hc => ?_
  dsimp only
  split
  · exact .throw_bind
  · rename_i hwritable
    exact .pure ⟨c, hc, by simpa using hwritable, rfl⟩

theorem Entity.gives_insertColumns (entity : Entity) (scope : Layer) :
    Gives (entity.insertQuery schema dialect scope) fun statement =>
      ∃ name bindings columns q, scope.select = .object name bindings ∧
        List.Forall₂ entity.Takes bindings columns ∧ scope.Writes schema dialect false q ∧
        statement = .insertQuery entity.table columns q := by
  unfold insertQuery
  split
  · exact .throw
  · rename_i bindings hbindings
    obtain ⟨name, hselect⟩ := Expr.eq_object_of_bindings? hbindings
    refine .bind (.mapM fun b _ => entity.gives_column b) fun columns hcolumns => ?_
    refine .bind Layer.gives_writes fun q hq => ?_
    exact .pure ⟨name, bindings, columns, q, hselect, hcolumns, hq, rfl⟩

/-- The titles of all books, bound to those of new ones. -/
def Log.copiedTitles : Log :=
  [.getSource "Book", .select ⟨["b"], .construct none [("Title", .member (.param "b") "Title")]⟩]

/-- The customers of all orders, bound to the name of a new customer. -/
def Log.copiedCustomers : Log :=
  [.getSource "Order", .select ⟨["o"], .construct none [("Name", .member (.param "o") "Customer")]⟩]

end QueryCompiler

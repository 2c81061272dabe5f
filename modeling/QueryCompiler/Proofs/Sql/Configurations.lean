import QueryCompiler.Proofs.Sql.Outcomes
import QueryCompiler.Proofs.Sql.Rendered
/-!
# Configurations

A configuration decides how a statement is written, and which dialect it is written in. Whether a
plan can be compiled, and what its rows are read by, is a matter of the plan alone
(`Plan.resultMap_command`). The clauses of a layer are compared in two dialects one by one, in any
two scopes, with select lists compared by their names and spans (`Layer.concurs_query`).

An update is the one statement whose clauses are read in an order of the dialect's own. The error it
meets first may be another then, but it meets one in both orders or in neither, since no clause
cares what has been read before it (`Concurs.exchange`).
-/

namespace QueryCompiler

open Sql

variable {α β γ : Type}

namespace Compiled.Alike

variable {R : α → α → Prop} {x y : Compiled α}

theorem map_eq {f : α → β} (h : Alike R x y) (hf : ∀ a b, R a b → f a = f b) :
    f <$> x = f <$> y := by
  cases x <;> cases y
  · exact congrArg Except.error h
  · exact h.elim
  · exact h.elim
  · exact congrArg Except.ok (hf _ _ h)

theorem exists_right {a : α} (h : Alike R x y) (hx : x = .ok a) : ∃ b, y = .ok b ∧ R a b := by
  subst hx
  cases y
  · exact h.elim
  · exact ⟨_, rfl, h⟩

theorem exists_left {b : α} (h : Alike R x y) (hy : y = .ok b) : ∃ a, x = .ok a ∧ R a b := by
  subst hy
  cases x
  · exact h.elim
  · exact ⟨_, rfl, h⟩

end Compiled.Alike

namespace Sql

/-! ## Composed steps -/

namespace Concurs

variable {R : α → α → Prop} {S : β → β → Prop} {T : γ → γ → Prop}

theorem get_bind {f g : Scope → Reading α} (h : ∀ s t, Concurs R (f s) (g t)) :
    Concurs R (get >>= f) (get >>= g) :=
  fun s t => h s t s t

theorem inLayer {l : Layer} {x y : Reading α} (h : Concurs R x y) :
    Concurs R (Reading.inLayer l x) (Reading.inLayer l y) := by
  intro s t
  rw [Reading.run_inLayer, Reading.run_inLayer]
  exact (h _ _).bind fun _ _ hab => hab

theorem foldlM {f g : α → β → Reading α} {l : List β} {a b : α} (hab : R a b)
    (h : ∀ x ∈ l, ∀ a b, R a b → Concurs R (f a x) (g b x)) :
    Concurs R (l.foldlM f a) (l.foldlM g b) := by
  induction l generalizing a b with
  | nil => exact pure hab
  | cons x l ih =>
    rw [List.foldlM_cons, List.foldlM_cons]
    exact bind (h x (by simp) a b hab) fun a b hab => ih hab fun y hy => h y (by simp [hy])

theorem forall₂_mapM {δ ε : Type} {P : δ → ε → Prop} {f : δ → Reading α} {g : ε → Reading α}
    {l : List δ} {l' : List ε} (hl : List.Forall₂ P l l')
    (h : ∀ a b, P a b → Concurs R (f a) (g b)) :
    Concurs (List.Forall₂ R) (l.mapM f) (l'.mapM g) := by
  induction hl with
  | nil => exact pure .nil
  | cons hab _ ih =>
    rw [List.mapM_cons, List.mapM_cons]
    exact bind (h _ _ hab) fun a a' ha => bind ih fun as as' has => pure (.cons ha has)

theorem forall₂_zip {δ ε : Type} {P : ε → ε → Prop} (l : List δ) {k k' : List ε}
    (h : List.Forall₂ P k k') :
    List.Forall₂ (fun x x' => x.1 = x'.1 ∧ P x.2 x'.2) (l.zip k) (l.zip k') := by
  induction h generalizing l with
  | nil => simp
  | cons hab _ ih =>
    cases l with
    | nil => exact .nil
    | cons x l => exact .cons ⟨rfl, hab⟩ (ih l)

/-- **Two steps in either order**: they succeed in both or in neither, be it with another error. -/
theorem exchange {x x' : Reading α} {y y' : Reading β} {f f' : α → β → Reading γ}
    (hx : Concurs R x x') (hy : Concurs S y y')
    (hf : ∀ a a' b b', R a a' → S b b' → Concurs T (f a b) (f' a' b')) (s t : Scope) :
    (∃ r, (x >>= fun a => y >>= fun b => f a b).run s = .ok r) ↔
      ∃ r, (y' >>= fun b => x' >>= fun a => f' a b).run t = .ok r := by
  simp only [StateT.run_bind, Compiled.bind_eq_ok]
  constructor
  · rintro ⟨r, a, ha, b, hb, hr⟩
    obtain ⟨b', hb', hbb'⟩ := (hy a.2 t).exists_right hb
    obtain ⟨a', ha', haa'⟩ := (hx s b'.2).exists_right ha
    obtain ⟨r', hr', -⟩ := (hf _ _ _ _ haa' hbb' b.2 a'.2).exists_right hr
    exact ⟨r', b', hb', a', ha', hr'⟩
  · rintro ⟨r', b', hb', a', ha', hr'⟩
    obtain ⟨a, ha, haa'⟩ := (hx s b'.2).exists_left ha'
    obtain ⟨b, hb, hbb'⟩ := (hy a.2 t).exists_left hb'
    obtain ⟨r, hr, -⟩ := (hf _ _ _ _ haa' hbb' b.2 a'.2).exists_left hr'
    exact ⟨r, a, ha, b, hb, hr⟩

end Concurs

/-! ## Select lists -/

/-- Select lists with the same names and spans. -/
structure SelectList.Like (list list' : SelectList) : Prop where
  names : list.names = list'.names
  spans : list.spans = list'.spans

namespace SelectList.Like

variable {list list' : SelectList}

theorem length_eq (h : list.Like list') : list.columns.length = list'.columns.length := by
  simpa [SelectList.names] using congrArg List.length h.names

theorem push (h : list.Like list') {t t' : Term} (preferred : String) :
    (list.push t preferred).Like (list'.push t' preferred) where
  names := by
    simpa [SelectList.push, SelectList.names] using
      ⟨h.names, congrArg (Text.freshName · preferred) h.names⟩
  spans := h.spans

theorem close (h : list.Like list') (path : String) (start : Nat) :
    (list.close path start).Like (list'.close path start) where
  names := h.names
  spans := by simp [SelectList.close, h.spans, h.length_eq]

end SelectList.Like

namespace Context

variable {ctx : Context} {d : Dialect} {row row' : Row} {out out' : SelectList}

theorem alike_rowColumns (hrow : row.Like row') (hout : out.Like out') :
    Compiled.Alike SelectList.Like (ctx.rowColumns row out) (ctx.rowColumns row' out') := by
  unfold rowColumns
  rw [hrow.ty]
  cases row'.ty with
  | none => exact rfl
  | some ty =>
    refine .bind (.refl (ctx.schema.entity ty) fun _ => rfl) ?_
    rintro entity _ rfl
    change SelectList.Like _ _
    generalize entity.columns = columns
    induction columns generalizing out out' with
    | nil => exact hout
    | cons column columns ih => exact ih (hout.push column.1)

theorem concurs_entityColumns {e : Expr} {path : String} (hout : out.Like out') :
    Concurs SelectList.Like (ctx.entityColumns e path out)
      ((ctx.inDialect d).entityColumns e path out') := by
  unfold entityColumns
  split
  · exact .throw
  · rename_i id hops _
    rw [resolve_inDialect]
    have hresolve : Concurs Resolved.Like (ctx.resolve id hops) (ctx.resolve id hops) :=
      Concurs.bind (concurs_source id) fun _ _ h => concurs_walk hops h
    refine .bind hresolve fun r r' h => ?_
    cases r <;> cases r'
    · exact .throw
    · exact h.elim
    · exact h.elim
    · rename_i row many row' many'
      have hexistence := h.1.existence
      rw [hout.length_eq]
      refine .bind (.lift (alike_rowColumns h.1 ?_)) fun _ _ hlist =>
        Concurs.pure (hlist.close path _)
      cases hrow : row.existence <;> cases hrow' : row'.existence
      · exact hout
      · simp [hrow, hrow'] at hexistence
      · simp [hrow, hrow'] at hexistence
      · exact hout.push _

mutual

theorem concurs_bindingColumns {path member : String} {out out' : SelectList}
    (hout : out.Like out') : ∀ {e : Expr}, Concurs SelectList.Like
      (ctx.bindingColumns path member out e) ((ctx.inDialect d).bindingColumns path member out' e)
  | .object _ bindings => by
    unfold bindingColumns
    rw [hout.length_eq]
    exact .bind (concurs_objectColumns hout) fun _ _ hlist =>
      Concurs.pure (hlist.close path _)
  | .source _ | .member _ _ | .constant _ | .binary _ _ _ | .unary _ _ | .conditional _ _ _
  | .aggregate _ _ | .call _ _ _ | .param _ | .lambda _ | .query _ | .grouping _ _
  | .joinGroup _ _ => by
    unfold bindingColumns
    refine .lift_bind fun shape => ?_
    split
    · exact concurs_entityColumns hout
    · exact concurs_entityColumns hout
    all_goals exact .bind (concurs_value _) fun _ _ _ => .pure (hout.push member)

theorem concurs_objectColumns {base : String} {out out' : SelectList} (hout : out.Like out') :
    ∀ {bindings : List Binding}, Concurs SelectList.Like
      (ctx.objectColumns base out bindings) ((ctx.inDialect d).objectColumns base out' bindings)
  | [] => by
    unfold objectColumns
    exact .pure hout
  | ⟨m, v⟩ :: bs => by
    unfold objectColumns
    exact .bind (concurs_bindingColumns hout) fun _ _ hlist => concurs_objectColumns hlist

end

/-- **A projection has the same names and spans in every scope and dialect.** -/
theorem concurs_selectList {select : Expr} {includes : List (List String)} :
    Concurs SelectList.Like (ctx.selectList select includes)
      ((ctx.inDialect d).selectList select includes) := by
  have hempty : SelectList.Like {} {} := ⟨rfl, rfl⟩
  unfold selectList
  split
  · rename_i id
    refine .bind (concurs_source id) fun row row' hrow => ?_
    refine .bind (.lift (alike_rowColumns hrow hempty)) fun list list' hlist => ?_
    exact .foldlM hlist fun path _ out out' hout => concurs_entityColumns hout
  · exact concurs_objectColumns hempty
  · refine .lift_bind fun shape => ?_
    split
    · exact concurs_entityColumns hempty
    · exact .bind (concurs_value _) fun _ _ _ => .pure (hempty.push _)

end Context

/-! ## Layers -/

/-- Ways to read the layers inside a layer that come to the same outcomes. -/
structure Inner.Like (inner inner' : Inner) : Prop where
  subquery : Option.Rel (Concurs fun _ _ => True) inner.subquery inner'.subquery
  targets : List.Forall₂ (Concurs fun _ _ => True) inner.targets inner'.targets
  branches : List.Forall₂ (Concurs fun _ _ => True) inner.branches inner'.branches

/-- Queries whose rows are read alike. -/
def Query.Like (q q' : Query) : Prop := q.selectList.Like q'.selectList

namespace Context

variable {ctx : Context} {d : Dialect} {inner inner' : Inner} {R : α → α → Prop}
  {columns columns' : Reading α} {orders : List Order}

theorem concurs_joinKeys (j : Join) :
    Concurs (fun _ _ => True) (ctx.joinKeys j) ((ctx.inDialect d).joinKeys j) := by
  unfold joinKeys
  refine .bind (concurs_source j.source) fun _ _ _ => ?_
  split
  · exact .pure trivial
  · refine .bind (R := List.Forall₂ fun _ _ => True) (.mapM fun pair _ => ?_)
      fun _ _ _ => .pure trivial
    refine .bind (concurs_value pair.1) fun _ _ _ => ?_
    exact .bind (concurs_value pair.2) fun _ _ _ => .pure trivial

theorem concurs_relation (h : inner.Like inner') :
    Concurs (fun _ _ => True) (ctx.relation inner) ((ctx.inDialect d).relation inner') := by
  obtain ⟨subquery, targets, branches⟩ := inner
  obtain ⟨subquery', targets', branches'⟩ := inner'
  obtain hquery | _ := h.subquery
  · exact .bind hquery fun _ _ _ => .pure trivial
  · simp only [relation, inDialect]
    split
    · exact .lift (.refl _ fun _ => trivial)
    · exact .throw

theorem concurs_joins (h : inner.Like inner') :
    Concurs (fun _ _ => True) (ctx.joins inner) ((ctx.inDialect d).joins inner') := by
  have hzip := Concurs.forall₂_zip ctx.layer.joins h.targets
  refine .imp (R := List.Forall₂ fun _ _ => True) (.forall₂_mapM hzip ?_)
    fun _ _ _ => trivial
  rintro ⟨j, target⟩ ⟨_, target'⟩ ⟨rfl, htarget⟩
  refine .bind htarget fun _ _ _ => ?_
  exact .bind (concurs_joinKeys j) fun _ _ _ => .pure trivial

def rowSources (ctx : Context) (inner : Inner) : Reading (Relation × List JoinedRelation) := do
  return (← ctx.relation inner, ← ctx.joins inner)

def lastClauses (ctx : Context) (orders : List Order) (a : α)
    (rows : Relation × List JoinedRelation) : Reading (α × Block × List SortKey) := do
  let predicate ← ctx.layer.predicate.mapM ctx.test
  let groupBy ← ctx.layer.groupBy.mapM ctx.groupTerms
  let having ← ctx.layer.having.mapM ctx.test
  let keys ← ctx.sortKeys orders
  return (a, ⟨rows.1, rows.2, [], predicate, groupBy, having⟩, keys)

theorem clauses_first : ctx.clauses inner true columns orders = (do
    let a ← columns
    let rows ← ctx.rowSources inner
    ctx.lastClauses orders a rows) := by
  simp [clauses_true, rowSources, lastClauses]

theorem clauses_behind : ctx.clauses inner false columns orders = (do
    let rows ← ctx.rowSources inner
    let a ← columns
    ctx.lastClauses orders a rows) := by
  simp [clauses, early, late, rowSources, lastClauses]

theorem concurs_rowSources (h : inner.Like inner') :
    Concurs (fun _ _ => True) (ctx.rowSources inner) ((ctx.inDialect d).rowSources inner') := by
  refine .bind (concurs_relation h) fun _ _ _ => ?_
  exact .bind (concurs_joins h) fun _ _ _ => .pure trivial

theorem concurs_lastClauses {a a' : α} (ha : R a a') (orders : List Order)
    (rows rows' : Relation × List JoinedRelation) :
    Concurs (fun x x' => R x.1 x'.1 ∧ x.2.2.isEmpty = x'.2.2.isEmpty)
      (ctx.lastClauses orders a rows) ((ctx.inDialect d).lastClauses orders a' rows') := by
  refine .bind (.option_mapM fun e _ => concurs_test e) fun _ _ _ => ?_
  refine .bind (.option_mapM fun e _ => concurs_groupTerms e) fun _ _ _ => ?_
  refine .bind (.option_mapM fun e _ => concurs_test e) fun _ _ _ => ?_
  exact .bind (concurs_sortKeys orders) fun _ _ hkeys => .pure ⟨ha, hkeys⟩

/-- **The clauses of a layer come to the same outcome in every scope and dialect**, with the columns
read first. -/
theorem concurs_block (ctx : Context) (h : inner.Like inner') (hcolumns : Concurs R columns columns')
    (orders : List Order) :
    Concurs (fun x x' => R x.1 x'.1 ∧ x.2.2.isEmpty = x'.2.2.isEmpty)
      (ctx.block inner true columns orders)
      ((ctx.inDialect d).block inner' true columns' orders) := by
  have hclauses : Concurs (fun x x' => R x.1 x'.1 ∧ x.2.2.isEmpty = x'.2.2.isEmpty)
      (ctx.clauses inner true columns orders)
      ((ctx.inDialect d).clauses inner' true columns' orders) := by
    rw [clauses_first, clauses_first]
    refine .bind hcolumns fun _ _ ha => ?_
    exact .bind (concurs_rowSources h) fun _ _ _ => concurs_lastClauses ha orders _ _
  rw [block_eq, block_eq]
  refine .inLayer (.bind hclauses fun _ _ hx => ?_)
  exact .get_bind fun _ _ => .pure hx

theorem block_succeeds {columnsFirst : Bool} {s : Scope} :
    (∃ r, (ctx.block inner columnsFirst columns orders).run s = .ok r) ↔
      ∃ r, (ctx.clauses inner columnsFirst columns orders).run
        { s with aliases := Aliases.ofLayer ctx.layer } = .ok r := by
  rw [block_eq, Reading.run_inLayer]
  generalize (ctx.clauses inner columnsFirst columns orders) = x
  generalize ({ s with aliases := Aliases.ofLayer ctx.layer } : Scope) = s
  rw [StateT.run_bind]
  cases x.run s with
  | error e => simp [bind, Except.bind]
  | ok r => exact ⟨fun _ => ⟨r, rfl⟩, fun _ => ⟨_, rfl⟩⟩

/-- **The clauses of a layer can be read with the columns first if they can be read with the columns
behind the joins.** -/
theorem block_exchange (ctx : Context) (h : inner.Like inner') (hcolumns : Concurs R columns columns')
    (orders : List Order) (s t : Scope) :
    (∃ r, (ctx.block inner true columns orders).run s = .ok r) ↔
      ∃ r, ((ctx.inDialect d).block inner' false columns' orders).run t = .ok r := by
  rw [block_succeeds, block_succeeds, clauses_first, clauses_behind]
  exact Concurs.exchange hcolumns (concurs_rowSources h)
    (fun _ _ _ _ ha _ => concurs_lastClauses ha orders _ _) _ _

theorem concurs_rows (h : inner.Like inner') (select : Expr) (nested : Bool) :
    Concurs Query.Like (ctx.rows inner select nested)
      ((ctx.inDialect d).rows inner' select nested) := by
  unfold rows
  dsimp only [inDialect]
  refine .bind (ctx.concurs_block h concurs_selectList _) fun (list, block, keys)
    (list', block', keys') hrows => ?_
  obtain ⟨hlist, hkeys⟩ := hrows
  dsimp only at hlist hkeys ⊢
  rw [hkeys]
  split
  · exact .throw
  · exact .pure hlist

theorem concurs_withUnions (h : inner.Like inner') {first first' : Query}
    (hfirst : first.Like first') :
    Concurs Query.Like (withUnions inner first) (withUnions inner' first') := by
  have hempty : inner.branches.isEmpty = inner'.branches.isEmpty := by
    rw [Bool.eq_iff_iff, List.isEmpty_iff, List.isEmpty_iff, ← List.length_eq_zero_iff,
      ← List.length_eq_zero_iff, h.branches.length_eq]
  unfold withUnions
  rw [hempty]
  split
  · exact .pure hfirst
  · refine .bind (.forall₂_mapM h.branches fun _ _ hb => hb) fun _ _ _ => ?_
    refine .pure ?_
    simpa only [Query.Like, Query.selectList] using hfirst

theorem concurs_aggregated (h : inner.Like inner') (a : Aggregation) :
    Concurs Query.Like (ctx.aggregated inner a) ((ctx.inDialect d).aggregated inner' a) := by
  have hunnamed : SelectList.Like {} {} := ⟨rfl, rfl⟩
  unfold aggregated
  dsimp only [inDialect]
  split
  · refine .bind (concurs_rows h _ true) fun _ _ hfirst => ?_
    exact .bind (concurs_withUnions h hfirst) fun _ _ _ => .pure hunnamed
  · refine .bind (ctx.concurs_block h (R := Typed.Like false) ?_ []) fun _ _ _ =>
      Concurs.pure hunnamed
    exact .bind (concurs_readOption a.selector) fun _ _ hs =>
      Concurs.lift (Typed.alike_aggregate a.func hs)

theorem concurs_query (ctx : Context) (h : inner.Like inner') (nested : Bool) :
    Concurs Query.Like (ctx.query inner nested) ((ctx.inDialect d).query inner' nested) := by
  unfold query
  dsimp only [inDialect]
  split
  · refine .bind (ctx.concurs_block h (.pure (R := fun _ _ => True) trivial) [])
      fun _ _ _ => ?_
    exact concurs_withUnions h ⟨rfl, rfl⟩
  · split
    · exact .bind (concurs_aggregated h _) fun _ _ hfirst => concurs_withUnions h hfirst
    · exact .bind (concurs_rows h _ nested) fun _ _ hfirst => concurs_withUnions h hfirst

end Context

end Sql

namespace Layer

variable {schema : Schema} {d d' : Dialect}

theorem like_inner (l : Layer)
    (h : ∀ m ∈ l.parts, ∀ nested,
      Concurs Query.Like (m.query schema d nested) (m.query schema d' nested)) :
    (l.inner schema d).Like (l.inner schema d') where
  subquery := by
    simp only [inner, queryOption_eq_map]
    cases hm : l.subquery with
    | none => exact .none
    | some m => exact .some ((h m (mem_parts.2 (.inl hm)) true).imp fun _ _ _ => trivial)
  targets := by
    simp only [inner, targets_eq_map, List.forall₂_map_left_iff, List.forall₂_map_right_iff,
      List.forall₂_same]
    intro j hj
    cases ht : j.target with
    | table ty => exact .lift_bind fun _ => .pure trivial
    | subquery m =>
      have hm : m ∈ l.parts := mem_parts.2 (.inr (.inl ⟨j, hj, by rw [ht]; rfl⟩))
      exact .bind (h m hm true) fun _ _ _ => .pure trivial
  branches := by
    simp only [inner, branches_eq_map, List.forall₂_map_left_iff, List.forall₂_map_right_iff,
      List.forall₂_same]
    intro m hm
    have hpart : m ∈ l.parts := mem_parts.2 (.inr (.inr hm))
    exact .bind (h m hpart false) fun _ _ _ => .pure trivial

/-- **A layer is written in both dialects or in neither**, with the same names and spans. -/
theorem concurs_query (l : Layer) : ∀ nested,
    Concurs Query.Like (l.query schema d nested) (l.query schema d' nested) := by
  induction l using induction_parts with
  | h l ih =>
    intro nested
    rw [query_eq, query_eq]
    exact (Context.mk schema d l).concurs_query (d := d') (like_inner l ih) nested

theorem like_inner_self (l : Layer) : (l.inner schema d).Like (l.inner schema d') :=
  like_inner l fun m _ => concurs_query m

end Layer

/-! ## Plans -/

theorem Sql.Context.concurs_assignments (ctx : Context) (d : Dialect) (target : Entity)
    (construction : Expr) : Concurs (fun _ _ => True) (ctx.assignments target construction)
      ((ctx.inDialect d).assignments target construction) := by
  unfold assignments
  split
  · exact .throw
  · exact .throw
  · refine .imp (R := List.Forall₂ fun _ _ => True) (.mapM fun b _ => ?_)
      fun _ _ _ => trivial
    refine .lift_bind fun c => ?_
    by_cases hwritable : c.isWritable = true
    · simp only [hwritable, Bool.not_true, Bool.false_eq_true, if_false]
      split
      · exact .bind Reading.concurs_constant fun _ _ _ => .pure trivial
      · exact .bind (concurs_value _) fun _ _ _ => .pure trivial
    · simp only [hwritable, Bool.not_false, if_true]
      exact .throw

namespace Plan

variable {schema : Schema} {d d' : Dialect} {p : Plan}

def isUpdate : Plan → Bool
  | update _ _ _ => true
  | select _ | insert _ _ | delete _ _ _ => false

theorem concurs_insertQuery (entity : Entity) (scope : Layer) :
    Concurs (fun st st' => st.resultMap? = st'.resultMap?) (entity.insertQuery schema d scope)
      (entity.insertQuery schema d' scope) := by
  unfold Entity.insertQuery
  split
  · exact .throw
  · refine .bind (R := List.Forall₂ Eq) (.mapM fun b _ => ?_) fun _ _ _ => ?_
    · refine .lift_bind fun c => ?_
      split
      · exact .throw
      · exact .pure rfl
    · exact .bind (Layer.concurs_query scope false) fun _ _ _ => .pure rfl

/-- The statement of a plan is found in both dialects or in neither, for one error, unless the plan
is an update. -/
theorem alike_statement (h : p.isUpdate = false) :
    Compiled.Alike (fun r r' => r.1.resultMap? = r'.1.resultMap?)
      ((p.statement schema d).run {}) ((p.statement schema d').run {}) := by
  cases p with
  | select l =>
    refine Concurs.bind (R := Query.Like)
      (S := fun (st st' : Statement) => st.resultMap? = st'.resultMap?)
      (Layer.concurs_query l false) (fun q q' hq => Concurs.pure ?_) {} {}
    simp only [Statement.resultMap?, hq.names, hq.spans]
  | insert target payload =>
    rw [statement, statement, StateT.run_bind, StateT.run_bind]
    refine .bind (.refl _ fun _ => rfl) ?_
    rintro ⟨entity, s⟩ _ rfl
    cases payload with
    | entity value => exact .refl _ fun _ => rfl
    | entities values => exact .refl _ fun _ => rfl
    | query scope => exact concurs_insertQuery entity scope s s
  | update target payload scope => cases h
  | delete target payload scope =>
    rw [statement, statement, StateT.run_bind, StateT.run_bind]
    refine .bind (.refl _ fun _ => rfl) ?_
    rintro ⟨entity, s⟩ _ rfl
    cases payload with
    | entity value => exact .refl _ fun _ => rfl
    | scope =>
      have hnothing : Concurs (fun _ _ => True) (pure ()) (pure ()) := Concurs.pure trivial
      have hinner : (scope.inner schema d).Like (scope.inner schema d') := scope.like_inner_self
      have hblock := (Context.mk schema d scope).concurs_block (d := d') hinner hnothing []
      refine Concurs.bind (S := fun (st st' : Statement) => st.resultMap? = st'.resultMap?) hblock
        ?_ s s
      rintro ⟨_, block, _⟩ ⟨_, block', _⟩ -
      exact Concurs.pure rfl

/-- The statement of an update is found if its clauses can be read in the order of the dialect. -/
theorem statement_update_succeeds {target : String} {construction : Expr} {scope : Layer}
    {entity : Entity} (hentity : schema.entity target = .ok entity) :
    (∃ r, ((Plan.update target (.assignments construction) scope).statement schema d).run {} =
      .ok r) ↔
      ∃ r, (Context.block ⟨schema, d, scope⟩ (scope.inner schema d) d.assignmentsFirst
        (Context.assignments ⟨schema, d, scope⟩ entity construction) []).run {} = .ok r := by
  have hlift : (liftM (Except.ok entity : Compiled Entity) : Reading Entity) = pure entity := rfl
  simp only [statement, hentity, hlift, pure_bind, StateT.run_bind]
  cases (Context.block ⟨schema, d, scope⟩ (scope.inner schema d) d.assignmentsFirst
    (Context.assignments ⟨schema, d, scope⟩ entity construction) []).run {} with
  | error e => simp [bind, Except.bind]
  | ok r => exact ⟨fun _ => ⟨r, rfl⟩, fun _ => ⟨_, rfl⟩⟩

/-- **The statement of an update is found in both orders of its clauses or in neither.** -/
theorem exchange_update {target : String} {payload : UpdatePayload} {scope : Layer} :
    (∃ r, ((Plan.update target payload scope).statement schema .sqlServer).run {} = .ok r) ↔
      ∃ r, ((Plan.update target payload scope).statement schema .mySql).run {} = .ok r := by
  cases payload with
  | entity value => simp only [statement]
  | assignments construction =>
    cases hentity : schema.entity target with
    | error e =>
      have hlift {f : Entity → Reading Statement} : ((liftM (Except.error e : Compiled Entity) :
          Reading Entity) >>= f).run {} = .error e := rfl
      simp only [statement, hentity, hlift]
    | ok entity =>
      rw [statement_update_succeeds hentity, statement_update_succeeds hentity]
      exact (Context.mk schema .sqlServer scope).block_exchange scope.like_inner_self
        (Context.concurs_assignments _ .mySql entity construction) [] {} {}

theorem statement_succeeds :
    (∃ r, (p.statement schema d).run {} = .ok r) ↔ ∃ r, (p.statement schema d').run {} = .ok r := by
  by_cases h : p.isUpdate = false
  · have halike : Compiled.Alike (fun r r' => r.1.resultMap? = r'.1.resultMap?)
        ((p.statement schema d).run {}) ((p.statement schema d').run {}) := alike_statement h
    constructor
    · rintro ⟨r, hr⟩
      obtain ⟨r', hr', -⟩ := halike.exists_right hr
      exact ⟨r', hr'⟩
    · rintro ⟨r', hr'⟩
      obtain ⟨r, hr, -⟩ := halike.exists_left hr'
      exact ⟨r, hr⟩
  · cases p with
    | update target payload scope =>
      cases d <;> cases d'
      · rfl
      · exact exchange_update
      · exact exchange_update.symm
      · rfl
    | _ => exact absurd rfl h

theorem command_succeeds {config : Config} :
    (∃ command, p.command schema config = .ok command) ↔
      ∃ r, (p.statement schema config.dialect).run {} = .ok r := by
  unfold command numberedStatement
  cases (p.statement schema config.dialect).run {} with
  | error e => simp [bind, Except.bind]
  | ok r => exact ⟨fun _ => ⟨r, rfl⟩, fun _ => ⟨_, rfl⟩⟩

theorem resultMap_command_eq {config : Config} :
    (·.resultMap) <$> p.command schema config =
      (·.1.resultMap?) <$> (p.statement schema config.dialect).run {} := by
  unfold command numberedStatement
  cases (p.statement schema config.dialect).run {} <;> rfl

/-- **A configuration decides how a plan is written and nothing else.** Any two find a command for
the same plans, and what a command is but for its text, the map of its rows or the error instead of
it, is the same. Only an update may meet another error first. -/
theorem resultMap_command (schema : Schema) (p : Plan) (config config' : Config) :
    ((∃ command, p.command schema config = .ok command) ↔
      ∃ command, p.command schema config' = .ok command) ∧
    (p.isUpdate = false →
      (·.resultMap) <$> p.command schema config = (·.resultMap) <$> p.command schema config') := by
  constructor
  · rw [command_succeeds, command_succeeds]
    exact statement_succeeds
  · intro h
    rw [resultMap_command_eq, resultMap_command_eq]
    exact (alike_statement h).map_eq fun _ _ hr => hr

end Plan

/-- The books behind the second one whose titles hold a text. -/
def Layer.titledBooks : Layer :=
  { ofSource "Book" with
    predicate := some (.callOn (.member (.source 0) "Title") "Contains" [.constant (.string "50%")])
    orders := [⟨.member (.source 0) "Id", true⟩]
    skip := 2 }

/-- The books are numbered and matched in one way here and in another there, and read by one map. -/
theorem Plan.resultMap_command_books :
    (∃ command, (select Layer.titledBooks).command .books { rowNumberPaging := true } =
      .ok command) ∧
    (·.resultMap) <$> (select Layer.titledBooks).command .books { rowNumberPaging := true } =
      (·.resultMap) <$> (select Layer.titledBooks).command .books
        { dialect := .mySql, parameterized := true } :=
  ⟨command_succeeds.2 ⟨_, by cbv⟩, (resultMap_command _ _ _ _).2 rfl⟩

end QueryCompiler

import QueryCompiler.Proofs.Sql.NormalStatement
import QueryCompiler.Proofs.Sql.Settled
/-!
# Layers as they are rendered

A layer is rendered as a block with the columns and keys beside it. `Context.Renders` says how:
there is one table of aliases, grown from the sources of the layer, in which every clause reads as
it was read, and whose joins are the navigations of the block. `Context.renders_of_block` is the
only place where the reading of a block is taken apart; what holds of every block of a statement is then
shown for rendered layers (`Plan.allBlocks_of_statement`).
-/

namespace QueryCompiler

open Sql

namespace Sql

variable {α β : Type} {ctx : Context} {allows : Nat × List String → Prop}
  {pre : Aliases NavigationJoin → Prop}

theorem Settles.map {x : Reading α} {post : Aliases NavigationJoin → α → Prop}
    {result : Aliases NavigationJoin → β → Prop} {f : α → β} (hx : Settles ctx allows pre x post)
    (h : ∀ A a, post A a → result A (f a)) : Settles ctx allows pre (f <$> x) result := by
  rw [map_eq_pure_bind]
  exact .bind hx fun a => .pure fun A hA => h A a hA.2

/-! ## Clauses -/

namespace Context

/-- **A select list refers to the columns that the paths of its projection denote.** -/
theorem settles_selectList {select : Expr} {includes : List (List String)}
    (h : ∀ p ∈ selectPaths select includes, allows p) :
    Settles ctx allows pre (ctx.selectList select includes)
      fun A list => ctx.Refers allows A list.refs := by
  simpa only [SelectList.flatMap_terms] using (composes_selectList h).settled

theorem settles_groupTerms {key : Expr} (h : ∀ p ∈ key.paths, allows p) :
    Settles ctx allows pre (ctx.groupTerms key)
      fun A ts => ctx.Refers allows A (ts.flatMap Term.refs) :=
  (composes_groupTerms h).settled

theorem settles_sortKeys {orders : List Order} (h : ∀ o ∈ orders, ∀ p ∈ o.expr.paths, allows p) :
    Settles ctx allows pre (ctx.sortKeys orders)
      fun A keys => ctx.Refers allows A (keys.flatMap (·.term.refs)) := by
  simpa only [List.flatMap_map] using (composes_sortKeys h).settled

theorem settles_assignments {target : Entity} {construction : Expr}
    (h : ∀ p ∈ construction.paths, allows p) :
    Settles ctx allows pre (ctx.assignments target construction)
      fun A as => ctx.Refers allows A (as.flatMap (·.value.refs)) := by
  simpa only [List.flatMap_map] using (composes_assignments h).settled

theorem settles_joinKeys {j : Join}
    (h : ∀ e ∈ j.outerKeys ++ j.innerKeys, ∀ p ∈ e.paths, allows p) :
    Settles ctx allows pre (ctx.joinKeys j) fun A r =>
      (∃ row, ctx.RowOf A ⟨j.source, []⟩ row ∧ r.1 = row.number) ∧
        ∀ pairs ∈ r.2, ∀ x ∈ pairs, ctx.Refers allows A (x.1.refs ++ x.2.refs) := by
  unfold joinKeys
  refine .bind settles_source fun row => ?_
  split
  · exact .pure fun A hA => ⟨⟨row, hA.2, rfl⟩, by simp⟩
  · refine .bind (.mapM_all (fun A x => ctx.Refers allows A (x.1.refs ++ x.2.refs))
      fun (outer, inner) hkeys pre => ?_) fun on => ?_
    · obtain ⟨houter, hinner⟩ := List.of_mem_zip hkeys
      refine .bind (settles_value (h outer (by simp [houter]))) fun l => ?_
      refine .bind (settles_value (h inner (by simp [hinner]))) fun r => ?_
      exact .pure fun A ⟨⟨_, hl⟩, hr⟩ => by simp [hl, hr]
    · refine .pure fun A ⟨⟨_, hrow⟩, hon⟩ => ⟨⟨row, hrow, rfl⟩, fun pairs hpairs => ?_⟩
      cases hpairs
      exact hon

end Context

end Sql

/-! ## Queries of layers -/

section Layers

variable {schema : Schema} {dialect : Dialect}

theorem Sql.Context.isolated_block {α : Type} {ctx : Context} {inner : Inner} {columnsFirst : Bool}
    {columns : Reading α} {orders : List Order} :
    Isolated (ctx.block inner columnsFirst columns orders) :=
  Isolated.inLayer

/-- **The query of a layer is read apart from the rows of the layers around it.** -/
theorem Layer.isolated_query (l : Layer) (nested : Bool) :
    Isolated (l.query schema dialect nested) := by
  induction l using induction_parts generalizing nested with
  | h l ih =>
    have hunions (first : Query) :
        Isolated (Context.withUnions (l.inner schema dialect) first) := by
      unfold Context.withUnions
      split
      · exact .pure
      · refine .bind ?_ fun branches => .pure
        rw [inner, branches_eq_map, List.mapM_map]
        refine .mapM fun u hu => ?_
        exact .bind (ih u (mem_parts.2 (.inr (.inr hu))) false) fun q => .pure
    have hrows (select : Expr) (nested : Bool) : Isolated
        (Context.rows ⟨schema, dialect, l⟩ (l.inner schema dialect) select nested) := by
      refine .bind Context.isolated_block fun parts => ?_
      obtain ⟨list, block, orders⟩ := parts
      dsimp only
      split
      · exact .bind Isolated.throw fun _ => .pure
      · exact .pure
    rw [query_eq]
    unfold Context.query
    dsimp only
    split
    · exact .bind Context.isolated_block fun _ => .bind Isolated.pure hunions
    · split
      · refine .bind ?_ hunions
        unfold Context.aggregated
        dsimp only
        split
        · exact .bind (hrows _ _) fun first => .bind (hunions first)
            fun q => .pure
        · exact .bind Context.isolated_block fun _ => .pure
      · exact .bind (hrows _ _) hunions

end Layers

/-- The paths in the clauses of a layer from its joins to the test of its groups. -/
def Layer.clausePaths (l : Layer) : List (Nat × List String) :=
  l.joins.flatMap (fun j => (j.outerKeys ++ j.innerKeys).flatMap Expr.paths) ++
    l.predicate.toList.flatMap Expr.paths ++ l.groupBy.toList.flatMap Expr.paths ++
    l.having.toList.flatMap Expr.paths

def Layer.paths (schema : Schema) (l : Layer) : List (Nat × List String) :=
  selectPaths l.select l.includes ++ l.clausePaths ++
    (l.effectiveOrders schema).flatMap (·.expr.paths) ++
    (l.aggregate.bind (·.selector)).toList.flatMap Expr.paths

namespace Sql.Context

variable {α : Type} {ctx : Context} {allows : Nat × List String → Prop} {inner : Inner}
  {columnsFirst : Bool} {columns : Reading α} {orders : List Order}

/-- A join as it is rendered: under the keys that it reads in the table, over the layer that it
joins. -/
structure JoinRenders (ctx : Context) (A : Aliases NavigationJoin) (j : Join) (r : JoinedRelation) :
    Prop where
  kind : r.kind = j.kind
  keys : ReadsIn A (ctx.joinKeys j) (r.row, r.on)
  relation : ∀ q, r.relation.query? = some q →
    ∃ m, j.target = .subquery m ∧ m.Writes ctx.schema ctx.dialect true q

/-- **A layer as it is rendered.** One table has grown from its sources, with the navigations as its
joins, and every clause of the block reads in it as it was read. -/
structure Renders (ctx : Context) (allows : Nat × List String → Prop) (b : Block)
    (A : Aliases NavigationJoin) : Prop where
  grows : ctx.Grows allows (Aliases.ofLayer ctx.layer) A
  navigations : b.navigations = A.joins
  relation : ∀ q, b.relation.query? = some q →
    ∃ m, ctx.layer.subquery = some m ∧ m.Writes ctx.schema ctx.dialect true q
  joins : List.Forall₂ (ctx.JoinRenders A) ctx.layer.joins b.joins
  predicate : ReadsIn A (ctx.layer.predicate.mapM ctx.test) b.predicate
  groupBy : ReadsIn A (ctx.layer.groupBy.mapM ctx.groupTerms) b.groupBy
  having : ReadsIn A (ctx.layer.having.mapM ctx.test) b.having

theorem settles_relation {pre : Aliases NavigationJoin → Prop} :
    Settles ctx allows pre (ctx.relation (ctx.layer.inner ctx.schema ctx.dialect)) fun _ r =>
      ∀ q, r.query? = some q →
        ∃ m, ctx.layer.subquery = some m ∧ m.Writes ctx.schema ctx.dialect true q := by
  unfold relation
  split
  · rename_i query hquery
    rw [Layer.inner, Layer.queryOption_eq_map] at hquery
    obtain ⟨m, hm, rfl⟩ := Option.map_eq_some_iff.1 hquery
    refine .bind (.of_isolated (m.isolated_query true) Layer.gives_writes)
      fun q => .pure fun A hA => ?_
    rintro _ ⟨⟩
    exact ⟨m, hm, hA.2⟩
  · split
    · refine .lift fun r hr A _ => ?_
      obtain ⟨entity, -, hr⟩ := Compiled.bind_eq_ok.1 hr
      cases hr
      rintro _ ⟨⟩
    · exact .throw

theorem settles_targetRelation {pre : Aliases NavigationJoin → Prop} {target : JoinTarget} :
    Settles ctx allows pre (Layer.targetRelation ctx.schema ctx.dialect target) fun _ r =>
      ∀ q, r.query? = some q →
        ∃ m, target = .subquery m ∧ m.Writes ctx.schema ctx.dialect true q := by
  cases target with
  | table ty =>
    refine .lift_bind fun entity _ => .pure fun A _ => ?_
    rintro q ⟨⟩
  | subquery m =>
    refine .bind (.of_isolated (m.isolated_query true) Layer.gives_writes)
      fun q => .pure fun A hA => ?_
    rintro _ ⟨⟩
    exact ⟨m, rfl, hA.2⟩

theorem settles_joins {pre : Aliases NavigationJoin → Prop}
    (h : ∀ p ∈ ctx.layer.clausePaths, allows p) :
    Settles ctx allows pre (ctx.joins (ctx.layer.inner ctx.schema ctx.dialect)) fun A rs =>
      List.Forall₂ (ctx.JoinRenders A) ctx.layer.joins rs := by
  rw [joins, Layer.zip_targets, List.mapM_map]
  refine .mapM fun j hj pre => ?_
  have hkeys : ∀ e ∈ j.outerKeys ++ j.innerKeys, ∀ p ∈ e.paths, allows p := by
    intro e he p hp
    refine h p ?_
    simp only [Layer.clausePaths, List.mem_append, List.mem_flatMap]
    exact .inl (.inl (.inl ⟨j, hj, e, List.mem_append.1 he, hp⟩))
  refine .bind settles_targetRelation fun relation => ?_
  refine .bind (settles_joinKeys hkeys).self fun keys => ?_
  obtain ⟨row, on⟩ := keys
  exact .pure fun A hA => ⟨rfl, hA.2.1, hA.1.2⟩

theorem settles_early {pre : Aliases NavigationJoin → Prop}
    (hcolumns : ∀ pre, Settles ctx allows pre columns fun _ _ => True) :
    Settles ctx allows pre (early columnsFirst columns)
      fun A first => ∀ a ∈ first, ReadsIn A columns a := by
  unfold early
  split
  · refine .map (hcolumns _).self fun A a ha a' ha' => ?_
    cases ha'
    exact ha.1
  · exact .pure fun A _ a ha => by cases ha

theorem settles_late {pre : Aliases NavigationJoin → Prop} {first : Option α}
    (hcolumns : ∀ pre, Settles ctx allows pre columns fun _ _ => True)
    (hfirst : ∀ A, pre A → ∀ a ∈ first, ReadsIn A columns a) :
    Settles ctx allows pre (late columns first) fun A a => ReadsIn A columns a := by
  cases first with
  | some a => exact .pure fun A hA => hfirst A hA a rfl
  | none => exact (hcolumns _).self.imp fun A a _ ha => ha.1

/-- **A block is the rendering of its layer**, if what it reads are allowed paths, and what stands
beside it reads in the same table. -/
theorem renders_of_block {a : α} {b : Block} {keys : List SortKey}
    (hcolumns : ∀ pre, Settles ctx allows pre columns fun _ _ => True)
    (hclauses : ∀ p ∈ ctx.layer.clausePaths, allows p)
    (horders : ∀ o ∈ orders, ∀ p ∈ o.expr.paths, allows p)
    (h : Gave (ctx.block (ctx.layer.inner ctx.schema ctx.dialect) columnsFirst columns orders)
      (a, b, keys)) :
    ∃ A, ctx.Renders allows b A ∧ ReadsIn A columns a ∧ ReadsIn A (ctx.sortKeys orders) keys := by
  have hpredicate : ∀ e ∈ ctx.layer.predicate, ∀ p ∈ e.paths, allows p := fun e he p hp =>
    hclauses p (by simp [Layer.clausePaths, Option.mem_def.1 he, hp])
  have hgroup : ∀ e ∈ ctx.layer.groupBy, ∀ p ∈ e.paths, allows p := fun e he p hp =>
    hclauses p (by simp [Layer.clausePaths, Option.mem_def.1 he, hp])
  have hhaving : ∀ e ∈ ctx.layer.having, ∀ p ∈ e.paths, allows p := fun e he p hp =>
    hclauses p (by simp [Layer.clausePaths, Option.mem_def.1 he, hp])
  -- what is left of the block behind its columns and joins
  have hsettles : Settles ctx allows (fun _ => True)
      (ctx.clauses (ctx.layer.inner ctx.schema ctx.dialect) columnsFirst columns orders)
      fun A r => ReadsIn A columns r.1 ∧
        (∀ q, r.2.1.relation.query? = some q →
          ∃ m, ctx.layer.subquery = some m ∧ m.Writes ctx.schema ctx.dialect true q) ∧
        List.Forall₂ (ctx.JoinRenders A) ctx.layer.joins r.2.1.joins ∧
        ReadsIn A (ctx.layer.predicate.mapM ctx.test) r.2.1.predicate ∧
        ReadsIn A (ctx.layer.groupBy.mapM ctx.groupTerms) r.2.1.groupBy ∧
        ReadsIn A (ctx.layer.having.mapM ctx.test) r.2.1.having ∧
        ReadsIn A (ctx.sortKeys orders) r.2.2 := by
    unfold clauses
    refine .bind (settles_early hcolumns) fun first => ?_
    refine .bind settles_relation fun relation => ?_
    refine .bind (settles_joins hclauses) fun joins => ?_
    refine .bind (settles_late hcolumns fun A hA => hA.1.1.2) fun a => ?_
    refine .bind (Settles.option_mapM fun e he pre =>
      settles_test (hpredicate e he)).self fun predicate => ?_
    refine .bind (Settles.option_mapM fun e he pre =>
      settles_groupTerms (hgroup e he)).self fun groupBy => ?_
    refine .bind (Settles.option_mapM fun e he pre =>
      settles_test (hhaving e he)).self fun having => ?_
    refine .bind (settles_sortKeys horders).self fun keys => .pure fun A hA => ?_
    obtain ⟨⟨⟨⟨⟨⟨⟨-, hrelation⟩, hjoins⟩, ha⟩, hpred⟩, hgrp⟩, hhav⟩, hkeys⟩ := hA
    exact ⟨ha, hrelation, hjoins, hpred.1, hgrp.1, hhav.1, hkeys.1⟩
  obtain ⟨s, s', hrun⟩ := h
  rw [block_eq, Reading.run_inLayer] at hrun
  obtain ⟨⟨_, s₁⟩, hinner, hpure⟩ := Compiled.bind_eq_ok.1 hrun
  cases hpure
  obtain ⟨⟨⟨a₁, b₁, keys₁⟩, s₂⟩, hclause, hrest⟩ := Compiled.bind_eq_ok.1 hinner
  cases hrest
  obtain ⟨hgrows, hagain⟩ := hsettles _ _ _ List.prefix_rfl (fun _ _ => trivial) hclause
  obtain ⟨ha, hrelation, hjoins, hpred, hgrp, hhav, hkeys⟩ := (hagain _ List.prefix_rfl).2
  exact ⟨_, ⟨hgrows, rfl, hrelation, hjoins, hpred, hgrp, hhav⟩, ha, hkeys⟩

/-- The columns of a block are those that its paths denote, and those that navigations are joined
on. -/
theorem Renders.refers {b : Block} {A : Aliases NavigationJoin} (h : ctx.Renders allows b A)
    (hclauses : ∀ p ∈ ctx.layer.clausePaths, allows p) :
    ∀ ref ∈ b.refs, (∃ p, allows p ∧ ctx.Denotes A p ref) ∨ ∃ n ∈ b.navigations, ref ∈ n.refs := by
  have hlayer := h.grows.keys_prefix
  have htest {e : Option Expr} {t : Option Term} (he : ∀ p ∈ e.toList.flatMap Expr.paths, allows p)
      (ht : ReadsIn A (e.mapM ctx.test) t) : ctx.Refers allows A (t.toList.flatMap Term.refs) := by
    have hall := ht.settled hlayer (.option_mapM fun e' he' pre => settles_test fun p hp =>
      he p (by simp [Option.mem_def.1 he', hp]))
    simpa using hall
  intro ref href
  simp only [Block.refs, List.mem_append, or_assoc] at href
  simp only [Layer.clausePaths, List.mem_append, or_assoc] at hclauses
  rcases href with href | href | href | href | href
  · obtain ⟨r, hr, href⟩ := List.mem_flatMap.1 href
    obtain ⟨j, hj, hrenders⟩ := exists_of_forall₂ h.joins r hr
    have hkeys := hrenders.keys.settled hlayer (settles_joinKeys fun e he p hp => hclauses p (.inl
      (List.mem_flatMap.2 ⟨j, hj, List.mem_flatMap.2 ⟨e, he, hp⟩⟩)))
    obtain ⟨kind, relation, row, on⟩ := r
    cases on with
    | none => simp [JoinedRelation.refs] at href
    | some pairs =>
      obtain ⟨x, hx, href⟩ := List.mem_flatMap.1 href
      exact .inl (hkeys.2 pairs rfl x hx ref href)
  · exact .inr (List.mem_flatMap.1 href)
  · exact .inl (htest (fun p hp => hclauses p (.inr (.inl hp))) h.predicate ref href)
  · have hgroup := h.groupBy.settled hlayer (.option_mapM fun e he pre =>
      settles_groupTerms fun p hp =>
        hclauses p (.inr (.inr (.inl (by simp [Option.mem_def.1 he, hp])))))
    cases hb : b.groupBy with
    | none => simp [hb] at href
    | some ts =>
      rw [hb] at href
      exact .inl (hgroup ts hb ref href)
  · exact .inl (htest (fun p hp => hclauses p (.inr (.inr (.inr hp)))) h.having ref href)

end Sql.Context

/-! ## Layers -/

section Layers

variable {schema : Schema} {dialect : Dialect} {l : Layer} {allows : Nat × List String → Prop}
  {b : Block} {refs : List ColumnRef} {A : Aliases NavigationJoin}

/-- What stands beside the block of a layer, and the columns it refers to. -/
inductive Layer.Beside (schema : Schema) (dialect : Dialect) (l : Layer)
    (allows : Nat × List String → Prop) (A : Aliases NavigationJoin) :
    List ColumnRef → Prop where
  | rows {list : SelectList} {keys : List SortKey}
    (hlist : ReadsIn A (Context.selectList ⟨schema, dialect, l⟩ l.select l.includes) list)
    (hkeys : ReadsIn A (Context.sortKeys ⟨schema, dialect, l⟩ (l.effectiveOrders schema)) keys) :
    Beside schema dialect l allows A (list.refs ++ keys.flatMap (·.term.refs))
  | nothing : Beside schema dialect l allows A []
  | aggregate {a : Aggregation} {value : Typed} (haggregate : l.aggregate = some a)
    (hvalue : ReadsIn A
      (do Typed.aggregate a.func (← Context.readOption ⟨schema, dialect, l⟩ a.selector)) value) :
    Beside schema dialect l allows A value.term.refs
  | assignments {target : Entity} {construction : Expr} {as : List Assignment}
    (hpaths : ∀ p ∈ construction.paths, allows p)
    (has : ReadsIn A (Context.assignments ⟨schema, dialect, l⟩ target construction) as) :
    Beside schema dialect l allows A (as.flatMap (·.value.refs))

/-- A block and the columns beside it are what a layer is rendered as. -/
structure Layer.Rendered (schema : Schema) (dialect : Dialect) (l : Layer)
    (allows : Nat × List String → Prop) (b : Block) (refs : List ColumnRef)
    (A : Aliases NavigationJoin) : Prop
    extends Context.Renders ⟨schema, dialect, l⟩ allows b A where
  beside : l.Beside schema dialect allows A refs

namespace Layer

theorem mem_paths_of_aggregate {a : Aggregation} (ha : l.aggregate = some a)
    {p : Nat × List String} (hp : p ∈ Expr.pathsOption a.selector) : p ∈ l.paths schema := by
  cases hs : a.selector with
  | none => simp [hs, Expr.pathsOption] at hp
  | some e =>
    rw [hs, Expr.pathsOption] at hp
    simp [paths, ha, hs, hp]

/-- **All columns of a rendered layer are denoted by paths of it**, or navigations are joined on
them. -/
theorem Rendered.refers (h : l.Rendered schema dialect allows b refs A)
    (hallows : ∀ p ∈ l.paths schema, allows p) :
    ∀ ref ∈ refs ++ b.refs, (∃ p, allows p ∧ Context.Denotes ⟨schema, dialect, l⟩ A p ref) ∨
      ∃ n ∈ b.navigations, ref ∈ n.refs := by
  have hlayer := h.grows.keys_prefix
  simp only [paths, List.mem_append, or_assoc] at hallows
  have hbeside : Context.Refers ⟨schema, dialect, l⟩ allows A refs := by
    cases h.beside with
    | rows hlist hkeys =>
      have hlist := hlist.settled hlayer (Context.settles_selectList fun p hp =>
        hallows p (.inl hp))
      have hkeys := hkeys.settled hlayer (Context.settles_sortKeys fun o ho p hp =>
        hallows p (.inr (.inr (.inl (List.mem_flatMap.2 ⟨o, ho, hp⟩)))))
      exact Context.refers_append.2 ⟨hlist, hkeys⟩
    | nothing => exact Context.refers_nil
    | aggregate ha hvalue =>
      refine hvalue.settled hlayer (Context.settles_aggregate fun p hp => ?_)
      have hmem : p ∈ l.paths schema := mem_paths_of_aggregate ha hp
      exact hallows p (by simpa [paths] using hmem)
    | assignments hpaths has =>
      exact has.settled hlayer (Context.settles_assignments hpaths)
  intro ref href
  rcases List.mem_append.1 href with href | href
  · exact .inl (hbeside ref href)
  · exact h.toRenders.refers (fun p hp => hallows p (.inr (.inl hp))) ref href

theorem rendered_of_operand {nested : Bool} {q : Query} (h : l.Operand schema dialect nested q)
    (hb : q.head? = some (b, refs)) :
    ∃ A, l.Rendered schema dialect (· ∈ l.paths schema) b refs A := by
  have hclauses : ∀ p ∈ l.clausePaths, p ∈ l.paths schema := fun p hp => by simp [paths, hp]
  cases h with
  | rows _ _ _ _ hblock =>
    cases hb
    obtain ⟨A, hrenders, hlist, hkeys⟩ := Context.renders_of_block (fun pre =>
      (Context.settles_selectList fun p hp => by simp [paths, hp]).imp fun _ _ _ _ => trivial)
      hclauses (fun o ho p hp => by
        simp only [paths, List.mem_append, List.mem_flatMap]
        exact .inl (.inr ⟨o, ho, hp⟩)) hblock
    exact ⟨A, hrenders, .rows hlist hkeys⟩
  | existence _ _ hblock =>
    cases hb
    obtain ⟨A, hrenders, -⟩ := Context.renders_of_block
      (fun pre => .pure fun _ _ => trivial) hclauses (by simp) hblock
    exact ⟨A, hrenders, .nothing⟩
  | aggregate ha _ hblock =>
    cases hb
    obtain ⟨A, hrenders, hvalue, -⟩ := Context.renders_of_block (fun pre =>
      (Context.settles_aggregate fun p hp => mem_paths_of_aggregate ha hp).imp fun _ _ _ _ => trivial)
      hclauses (by simp) hblock
    exact ⟨A, hrenders, .aggregate ha hvalue⟩
  | aggregateOver => cases hb

theorem readsIn_of_rows {includes : List (List String)} {orders : List Order} {list : SelectList}
    {keys : List SortKey}
    (h : Gave (Context.block ⟨schema, dialect, l⟩ (l.inner schema dialect) true
      (Context.selectList ⟨schema, dialect, l⟩ l.select includes) orders) (list, b, keys)) :
    ∃ A, Context.Renders ⟨schema, dialect, l⟩ (fun _ => True) b A ∧
      ReadsIn A (Context.selectList ⟨schema, dialect, l⟩ l.select includes) list ∧
      ReadsIn A (Context.sortKeys ⟨schema, dialect, l⟩ orders) keys :=
  Context.renders_of_block
    (fun _ => (Context.settles_selectList fun _ _ => trivial).imp fun _ _ _ _ => trivial)
    (fun _ _ => trivial) (fun _ _ _ _ => trivial) h

end Layer

/-! ## Statements -/

/-- **What is shown of rendered layers holds of the queries of a statement.** -/
theorem Plan.allHeads_of_statement {P : Block → List ColumnRef → Prop} {admits : Layer → Prop}
    {p : Plan} (hplain : ∀ l, admits l → l.aggregate ≠ none → l.finishesRows = false)
    (hP : ∀ (l : Layer) b refs A, l.All admits →
      l.Rendered schema dialect (· ∈ l.paths schema) b refs A → P b refs)
    (hp : p.All admits) : Gives (p.statement schema dialect)
      (Statement.All fun q => ∀ b refs, q.head? = some (b, refs) → P b refs) := by
  refine p.all_of_statement hplain (fun l nested first q hl hoperand happends => ?_) hp
  have hfirst : ∀ b refs, first.head? = some (b, refs) → P b refs := by
    intro b refs hb
    obtain ⟨A, hrendered⟩ := Layer.rendered_of_operand hoperand hb
    exact hP l b refs A hl hrendered
  refine ⟨hfirst, ?_⟩
  rcases happends with ⟨-, rfl⟩ | ⟨-, branches, rfl, -⟩
  · exact hfirst
  · rintro b refs ⟨⟩

/-- The block of an update or delete is the rendering of its scope. -/
theorem Plan.gives_head (p : Plan) : Gives (p.statement schema dialect) fun s =>
    ∀ b refs, s.head? = some (b, refs) → ∃ l allows A, p.scope? = some l ∧
      (∀ p ∈ l.paths schema, allows p) ∧ l.Rendered schema dialect allows b refs A := by
  have hrows {s : Statement} (hs : s.head? = none) : ∀ b refs, s.head? = some (b, refs) →
      ∃ l allows A, p.scope? = some l ∧ (∀ p ∈ l.paths schema, allows p) ∧
        l.Rendered schema dialect allows b refs A := by
    intro b refs hb
    rw [hs] at hb
    cases hb
  cases p with
  | select l => exact .seq fun q => .pure (hrows rfl)
  | insert target payload =>
    refine .seq fun entity => ?_
    cases payload with
    | entity value | entities values =>
      exact Entity.gives_insertRows.imp fun s ⟨_, _, _, _, hs⟩ => hrows (hs ▸ rfl)
    | query scope =>
      exact Entity.gives_insertQuery.imp fun s ⟨_, _, _, _, hs⟩ => hrows (hs ▸ rfl)
  | update target payload scope =>
    refine .seq fun entity => ?_
    cases payload with
    | entity value =>
      exact Entity.gives_updateByKey.imp fun s ⟨_, _, _, hs⟩ => hrows (hs ▸ rfl)
    | assignments construction =>
      refine .bind Gives.gave fun (as, block, keys) hblock => .pure fun b refs hb => ?_
      cases hb
      obtain ⟨A, hrenders, has, -⟩ := Context.renders_of_block
        (fun pre => (Context.settles_assignments fun p _ => trivial).imp fun _ _ _ _ => trivial)
        (fun _ _ => trivial) (by simp) hblock
      exact ⟨scope, fun _ => True, A, rfl, fun _ _ => trivial, hrenders,
        .assignments (fun _ _ => trivial) has⟩
  | delete target payload scope =>
    refine .seq fun entity => ?_
    cases payload with
    | entity value => exact .seq fun _ => .seq fun key => .pure (hrows rfl)
    | scope =>
      refine .bind Gives.gave fun (_, block, keys) hblock => .pure fun b refs hb => ?_
      cases hb
      obtain ⟨A, hrenders, -⟩ := Context.renders_of_block
        (fun pre => .pure fun _ _ => trivial) (fun _ _ => trivial) (by simp) hblock
      exact ⟨scope, fun _ => True, A, rfl, fun _ _ => trivial, hrenders, .nothing⟩

/-- **What is shown of rendered layers holds of every block of the statement of a log.** -/
theorem Plan.allBlocks_of_statement {P : Block → List ColumnRef → Prop} {log : Log} {p : Plan}
    {statement : Statement} {constants : List Constant} (h : Plan.ofLog schema log = .ok p)
    (hs : p.numberedStatement schema dialect = .ok (statement, constants))
    (hP : ∀ l allows b refs A, p.HasLayer l → (∀ q ∈ l.paths schema, allows q) →
      l.Rendered schema dialect allows b refs A → P b refs) : statement.AllBlocks P := by
  have hlayers : p.All fun l => l.Normal ∧ p.HasLayer l := fun scope hscope l hl =>
    ⟨Plan.all_normal h scope hscope l hl, scope, hscope, hl⟩
  obtain ⟨⟨_, scope⟩, hrun, hpure⟩ := Compiled.bind_eq_ok.1 hs
  cases hpure
  refine ⟨?_, fun b refs hb => ?_⟩
  · refine Plan.allHeads_of_statement (fun l hl => hl.1.plain_of_aggregate) ?_ hlayers _ _ _ hrun
    exact fun l b refs A hl hrendered => hP l _ b refs A hl.self.2 (fun _ hq => hq) hrendered
  · obtain ⟨l, allows, A, hscope, hallows, hrendered⟩ := p.gives_head _ _ _ hrun b refs hb
    exact hP l allows b refs A (hlayers l hscope).self.2 hallows hrendered

end Layers

end QueryCompiler

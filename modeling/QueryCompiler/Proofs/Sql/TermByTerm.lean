import QueryCompiler.Compile
import QueryCompiler.Proofs.Sql.Composed
import QueryCompiler.Proofs.Sql.Spared
import QueryCompiler.Proofs.Sql.Written
/-!
# Statements term by term

The terms of a statement are read one after the other, in the order of `Statement.terms`. A relation
between the terms that have been read and the constants of the scope holds at the end if it goes on
with each term that is formed and each constant that is added (`Admits`, `Plan.follows_statement`).

On the same way it is seen which refusals do not happen: a plan that gives no cause for one
(`Plan.Safe`) is written without it (`Plan.spares_command`).
-/

namespace QueryCompiler

variable {nested : Bool}

namespace Sql

variable {α β : Type} {r : Refusal} {orders : List Order}

/-! ## Steps -/

/-- **A step follows the text**: what is known to be written, `pre`, is with the result `post`, and
`R` holds of it and the constants of the scope. Besides, the step spares a query a refusal. -/
structure Follows (R : List Term → List Constant → Prop) (r : Refusal) (pre : List Term)
    (x : Reading α) (post : α → List Term) : Prop where
  yields : Yields (fun s => R pre s.constants) x fun a s => R (post a) s.constants
  spares : Spares r x

namespace Follows

variable {R : List Term → List Constant → Prop} {pre : List Term} {post : α → List Term}
  {x : Reading α} {f : α → Reading β} {after : β → List Term}

theorem pure {a : α} (h : ∀ cs, R pre cs → R (post a) cs) : Follows R r pre (Pure.pure a) post :=
  ⟨Yields.pure fun _ hs => h _ hs, .pure⟩

theorem pure_of_eq {a : α} (h : post a = pre) : Follows R r pre (Pure.pure a) post :=
  pure fun _ hs => h ▸ hs

theorem throw {e : CompileError} (h : e.refusal? = none) :
    Follows R r pre (MonadExcept.throw e) post :=
  ⟨Yields.throw, .throw h⟩

theorem throw_bind {e : CompileError} (h : e.refusal? = none) :
    Follows R r pre ((MonadExcept.throw e : Reading α) >>= f) after :=
  ⟨fun _ _ _ _ hrun => (by cases hrun), .throw_bind h⟩

theorem bind_gives {given : α → Prop} (hx : Follows R r pre x post) (hgiven : Gives x given)
    (hf : ∀ a, given a → Follows R r (post a) (f a) after) : Follows R r pre (x >>= f) after where
  yields s b s' hs hrun := by
    obtain ⟨⟨a, s₁⟩, hx₁, hf₁⟩ := Compiled.bind_eq_ok.1 hrun
    exact (hf a (hgiven s a s₁ hx₁)).yields s₁ b s' (hx.yields s a s₁ hs hx₁) hf₁
  spares s := .bind (hx.spares s) fun (a, s') hrun => (hf a (hgiven s a s' hrun)).spares s'

theorem bind (hx : Follows R r pre x post) (hf : ∀ a, Follows R r (post a) (f a) after) :
    Follows R r pre (x >>= f) after :=
  hx.bind_gives .trivial fun a _ => hf a

theorem lift_bind {x : Compiled α} (hx : x.Spares r)
    (h : ∀ a, x = .ok a → Follows R r pre (f a) after) : Follows R r pre (liftM x >>= f) after where
  yields := Yields.lift_bind fun a ha => (h a ha).yields
  spares s := .bind (.bind hx fun _ _ => .ok) fun (a, s') hrun =>
    (h a (Gives.lift (fun _ h => h) s a s' hrun)).spares s'

theorem lift {x : Compiled α} (hx : x.Spares r) (h : ∀ a, x = .ok a → post a = pre) :
    Follows R r pre (liftM x) post := by
  rw [← bind_pure (liftM x : Reading α)]
  exact lift_bind hx fun a ha => pure_of_eq (h a ha)

theorem read : Follows R r pre get fun _ => pre :=
  ⟨fun _ _ _ hs hrun => by cases hrun; exact hs, .read⟩

theorem update {f : Scope → Scope} (h : ∀ s, (f s).constants = s.constants) :
    Follows R r pre (modify f) fun _ => pre :=
  ⟨fun s _ _ hs hrun => by cases hrun; exact (h s).symm ▸ hs, .update⟩

theorem request {key : String} : Follows R r pre (Reading.request key) fun _ => pre :=
  ⟨fun _ _ _ hs hrun => by cases hrun; exact hs, fun _ => .ok⟩

theorem inLayer {l : Layer} (hx : Follows R r pre x post) :
    Follows R r pre (Reading.inLayer l x) post where
  yields := by
    unfold Reading.inLayer
    -- aliases are exchanged before and after, while constants are kept throughout
    refine Yields.get_bind fun outer houter => ?_
    have hset : Yields (· = outer) (set { outer with aliases := Aliases.ofLayer l })
        fun (_ : PUnit) s => R pre s.constants := Yields.set houter
    refine Yields.bind hset fun _ => Yields.bind hx.yields fun a => yields (r := r) ?_
    exact bind (update fun _ => rfl) fun _ => pure_of_eq rfl
  spares := .bind .read fun _ => .bind .write fun _ => .bind hx.spares fun _ =>
    .bind .update fun _ => .pure

theorem mapM {f : β → Reading α} {l : List β} {written : α → List Term}
    (h : ∀ b ∈ l, ∀ pre, Follows R r pre (f b) fun a => pre ++ written a) :
    Follows R r pre (l.mapM f) fun as => pre ++ as.flatMap written := by
  induction l generalizing pre with
  | nil => exact pure_of_eq (by simp)
  | cons b l ih =>
    rw [List.mapM_cons]
    refine bind (h b (by simp) pre) fun a => ?_
    refine bind (ih fun b hb => h b (by simp [hb])) fun as => ?_
    exact pure_of_eq (by simp)

theorem mapM_silent {f : β → Reading α} {l : List β}
    (h : ∀ b ∈ l, Follows R r pre (f b) fun _ => pre) : Follows R r pre (l.mapM f) fun _ => pre :=
  ⟨Yields.mapM fun b hb => (h b hb).yields, .mapM fun b hb => (h b hb).spares⟩

theorem forM {f : β → Reading PUnit} {l : List β}
    (h : ∀ b ∈ l, Follows R r pre (f b) fun _ => pre) : Follows R r pre (l.forM f) fun _ => pre :=
  ⟨Yields.forM fun b hb => (h b hb).yields, .forM fun b hb => (h b hb).spares⟩

theorem mapM_term {f : β → Reading α} {l : List β} {term : α → Term}
    (h : ∀ b ∈ l, ∀ pre, Follows R r pre (f b) fun a => pre ++ [term a]) :
    Follows R r pre (l.mapM f) fun as => pre ++ as.map term := by
  simpa only [List.map_eq_flatMap] using mapM h

theorem option_mapM {f : β → Reading α} {o : Option β} {written : α → List Term}
    (h : ∀ b ∈ o, ∀ pre, Follows R r pre (f b) fun a => pre ++ written a) :
    Follows R r pre (o.mapM f) fun a => pre ++ a.toList.flatMap written := by
  cases o with
  | none => exact pure_of_eq (by simp)
  | some b => exact bind (h b rfl pre) fun a => pure_of_eq (by simp)

end Follows

/-! ## Terms of a statement -/

def keyTerms (on : Option (List (Term × Term))) : List Term :=
  (on.getD []).flatMap fun (l, r) => [l, r]

/-- The terms from `WHERE` to `HAVING`. -/
def clauseTerms (predicate : Option Term) (groupBy : Option (List Term)) (having : Option Term) :
    List Term :=
  predicate.toList ++ (groupBy.getD [] ++ having.toList)

mutual

def Relation.terms : Relation → List Term
  | .table _ => []
  | .derived q => q.terms

def JoinedRelation.terms : List JoinedRelation → List Term
  | [] => []
  | ⟨_, relation, _, on⟩ :: js => relation.terms ++ keyTerms on ++ JoinedRelation.terms js

def Block.terms : Block → List Term
  | ⟨relation, joins, _, predicate, groupBy, having⟩ =>
    relation.terms ++ JoinedRelation.terms joins ++ clauseTerms predicate groupBy having

def Query.terms : Query → List Term
  | .rows block list orders _ _ _ _ => list.terms ++ block.terms ++ orders.map (·.term)
  | .existence block => block.terms
  | .aggregate value block => [value] ++ block.terms
  | .aggregateOver _ _ q => q.terms
  | .union first branches => first.terms ++ Branch.terms branches

def Branch.terms : List Branch → List Term
  | [] => []
  | ⟨_, q⟩ :: bs => q.terms ++ Branch.terms bs

end

/-- The terms of a block with others, which are read before all of it or behind its joins. -/
def Block.termsWith (first : Bool) (others : List Term) : Block → List Term
  | ⟨relation, joins, navigations, predicate, groupBy, having⟩ =>
    if first then others ++ Block.terms ⟨relation, joins, navigations, predicate, groupBy, having⟩
    else relation.terms ++ JoinedRelation.terms joins ++ others ++
      clauseTerms predicate groupBy having

/-- The terms of a statement, in the order of reading. -/
def Statement.terms (d : Dialect) : Statement → List Term
  | .query q | .insertQuery _ _ q => q.terms
  | .insertRows _ _ rows _ => rows.flatMap fun row => row.flatMap Option.toList
  | .update _ assignments block =>
    block.termsWith d.assignmentsFirst (assignments.map (·.value))
  | .updateByKey _ assignments key => assignments.map (·.value) ++ key.map (·.value)
  | .delete block => block.terms
  | .deleteByKey _ key => key.map (·.value)

/-! ## Admitted terms -/

/-- A relation that goes on to hold with each constant that is added, each column and each term that
is formed. -/
structure Admits (R : List Term → List Constant → Prop) : Prop where
  next : ∀ {pre cs c}, R pre cs → c.index = cs.length + 1 → R (pre ++ [.constant c]) (cs ++ [c])
  column : ∀ {pre ref cs}, R pre cs → R (pre ++ [.column ref]) cs
  form : ∀ {pre ts t cs}, Term.Formed ts t → R (pre ++ ts) cs → R (pre ++ [t]) cs

variable {R : List Term → List Constant → Prop} {pre : List Term}

/-! ## Rows -/

namespace Context

variable {ctx : Context} {row : Row} {member : String}

/-- **Rows that the layer has are found.** -/
theorem follows_source {id : Nat} (hid : ctx.layer.Finds r id) :
    Follows R r pre (ctx.source id) fun _ => pre := by
  have hrow (derived : Bool) : Follows R r pre (do
      let key := sourceKey id
      return ({ key, number := ← Reading.request key, ty := ctx.layer.sourceType? id,
                derived, existence := none } : Row)) fun _ => pre :=
    .bind .request fun _ => .pure_of_eq rfl
  unfold source
  split
  · exact .bind (.pure_of_eq rfl) hrow
  · split
    · exact .bind (.pure_of_eq rfl) hrow
    · rename_i hid' _ hnone
      refine ⟨fun _ _ _ _ hrun => (by cases hrun), fun s e he hr => ?_⟩
      cases he
      cases hr
      rcases hid rfl with hzero | hjoin
      · exact hid' hzero
      · rw [hnone] at hjoin
        cases hjoin

theorem spares_column : (ctx.column row member).Spares r := by
  unfold column
  split
  · exact .ok
  · refine .bind Schema.spares_entity fun entity _ => ?_
    split
    · exact .ok
    · exact .error rfl
    · split
      · exact .ok
      · exact .error rfl

theorem spares_keyColumns {target : Entity} {number : Nat} {fk : ForeignKey} :
    (ctx.keyColumns row target number fk).Spares r :=
  .mapM fun _ _ => .bind spares_column fun _ _ => .bind Entity.spares_column fun _ _ => .ok

theorem follows_navigation : Follows R r pre (ctx.navigation row member) fun _ => pre := by
  unfold navigation
  split
  · exact .throw rfl
  · refine .lift_bind Schema.spares_entity fun owner _ => ?_
    split
    · split
      · exact .throw rfl
      · refine .lift_bind Schema.spares_entity fun target _ => .bind .read fun scope => ?_
        refine .bind .request fun number => .lift_bind spares_keyColumns fun on _ => ?_
        split
        · exact .bind (.update fun _ => rfl) fun _ => .pure_of_eq rfl
        · exact .pure_of_eq rfl
    · exact .throw rfl

theorem spares_isNavigation : (ctx.isNavigation row member).Spares r := by
  unfold isNavigation
  split
  · exact .ok
  · exact .bind Schema.spares_entity fun _ _ => .ok

theorem follows_walk {row : Row} : ∀ {path : List String},
    Follows R r pre (ctx.walk row path) fun _ => pre
  | [] => .pure_of_eq rfl
  | [last] => by
    unfold walk
    refine .lift_bind spares_isNavigation fun isNavigation _ => ?_
    split
    · exact .bind follows_navigation fun _ => .pure_of_eq rfl
    · exact .lift_bind spares_column fun _ _ => .pure_of_eq rfl
  | hop :: next :: hops => by
    unfold walk
    refine .bind follows_navigation fun (row, many) => ?_
    dsimp only
    split
    · exact .throw_bind rfl
    · exact follows_walk

theorem follows_resolve {id : Nat} {path : List String} (hid : ctx.layer.Finds r id) :
    Follows R r pre (ctx.resolve id path) fun _ => pre :=
  .bind (follows_source hid) fun _ => follows_walk

end Context

/-! ## Whole rows -/

theorem Admits.existence (hR : Admits R) {cs : List Constant} {ref : ColumnRef} (h : R pre cs) :
    R (pre ++ [Context.existenceTerm ref]) cs := by
  have htest : R (pre ++ [.isNull (.column ref)]) cs := hR.form (.isNull .same) (hR.column h)
  have hnull : R (pre ++ [.isNull (.column ref)] ++ [.null]) cs := hR.form .null (by simpa using htest)
  have hparts : R (pre ++ [.isNull (.column ref), .null, .column ref]) cs := by
    simpa using hR.column hnull
  exact hR.form .caseWhen hparts

namespace Context

variable {ctx : Context} {row : Row} {out : SelectList}

theorem spares_rowColumns : (ctx.rowColumns row out).Spares r := by
  unfold rowColumns
  split
  · exact .error rfl
  · exact .bind Schema.spares_entity fun _ _ => .ok

theorem admits_rowColumns (hR : Admits R) {list : SelectList} {cs : List Constant}
    (h : ctx.rowColumns row out = .ok list) (hout : R (pre ++ out.terms) cs) :
    R (pre ++ list.terms) cs := by
  unfold rowColumns at h
  split at h
  · cases h
  · obtain ⟨entity, _, hlist⟩ := Compiled.bind_eq_ok.1 h
    cases hlist
    clear h
    generalize entity.columns = columns
    induction columns generalizing out with
    | nil => exact hout
    | cons column columns ih =>
      refine ih ?_
      rw [SelectList.terms_push, ← List.append_assoc]
      exact hR.column hout

theorem follows_entityColumns (hR : Admits R) {e : Expr} {path : String}
    (h : ∀ p, e.memberPath? = some p → ctx.layer.Finds r p.1) :
    Follows R r (pre ++ out.terms) (ctx.entityColumns e path out)
      fun list => pre ++ list.terms := by
  unfold entityColumns
  split
  · exact .throw rfl
  · rename_i id hops hpath
    refine .bind (follows_resolve (h (id, hops) hpath)) fun resolved => ?_
    split
    · exact .throw rfl
    · refine .lift_bind spares_rowColumns fun list hlist => .pure fun cs hcs => ?_
      rw [SelectList.terms_close]
      refine admits_rowColumns hR hlist ?_
      split
      · rw [SelectList.terms_push, ← List.append_assoc]
        exact hR.existence hcs
      · exact hcs

end Context

/-! ## Expressions -/

/-- **What composes terms follows the text**, if the layer has the rows of their paths. -/
theorem Composes.follows (hR : Admits R) {ctx : Context} {x : Reading α} {post : α → List Term}
    (h : Composes ctx (fun p => ctx.layer.Finds r p.1) pre x post) : Follows R r pre x post := by
  induction h with
  | done h => exact .pure_of_eq h
  | form h hpre hpost =>
    refine .pure fun cs hcs => ?_
    rw [hpost]
    rw [hpre] at hcs
    exact hR.form h hcs
  | throw h => exact .throw h
  | bind _ _ ihx ihf => exact .bind ihx ihf
  | lift_bind hx _ ih => exact .lift_bind (hx r) ih
  | next =>
    refine ⟨fun s t s' hs hrun => ?_, .bind .read fun _ => .bind .write fun _ => .pure⟩
    cases hrun
    exact hR.next hs rfl
  | member h =>
    unfold Context.memberValue
    split
    · exact .throw rfl
    · rename_i id path hpath
      refine .bind (Context.follows_resolve (h (id, path) hpath)) fun resolved => ?_
      split
      · exact .pure fun cs hcs => hR.column hcs
      · exact .throw rfl
  | whole h =>
    refine .bind (Context.follows_source h) fun row => ?_
    rw [← bind_pure (liftM _ : Reading SelectList)]
    exact .lift_bind Context.spares_rowColumns fun list hlist =>
      .pure fun cs hcs => Context.admits_rowColumns hR hlist hcs
  | entity h => exact Context.follows_entityColumns hR h

namespace Admits

variable {ctx : Context} {e : Expr} (hR : Admits R)

include hR

theorem constant {dbType : DbType} {size : Option Nat} {v : Value} :
    Follows R r pre (Reading.constant dbType size v) fun t => pre ++ [t] := by
  -- a constant is read without a look at the layer, so that any will do
  let ctx : Context := ⟨.empty, .sqlServer, .ofSource ""⟩
  have h : Composes ctx (fun p => ctx.layer.Finds r p.1) pre (Reading.constant dbType size v)
      fun t => pre ++ [t] := Reading.composes_constant
  exact h.follows hR

theorem aggregate {func : AggregateFunc} {selector : Option Expr}
    (h : ∀ e ∈ selector, ctx.layer.FindsIn r e) : Follows R r pre (do
      let selector ← ctx.readOption selector
      Typed.aggregate func selector) fun t => pre ++ [t.term] := by
  refine (Composes.bind (Context.composes_readOption fun p hp => ?_) fun _ =>
    .lift (fun _ => Typed.spares_aggregate) fun _ => Term.Formed.aggregate).follows hR
  cases selector with
  | none => simp [Expr.pathsOption] at hp
  | some e => exact (h e rfl).of_mem_paths hp

variable (h : ctx.layer.FindsIn r e)

include h

theorem value : Follows R r pre (ctx.value e) fun t => pre ++ [t] :=
  (Context.composes_value fun _ hp => h.of_mem_paths hp).follows hR

theorem test : Follows R r pre (ctx.test e) fun t => pre ++ [t] :=
  (Context.composes_test fun _ hp => h.of_mem_paths hp).follows hR

theorem key : Follows R r pre (ctx.value e)
    fun t => pre ++ [t.wrap (BinaryOp.precedence .add) false] := by
  have hvalue : Follows R r pre (ctx.value e) fun t => pre ++ [t] := hR.value h
  exact ⟨hvalue.yields.imp fun _ _ hs => hR.form .wrap hs, hvalue.spares⟩

end Admits

/-! ## Clauses -/

namespace Context

variable {ctx : Context} (hR : Admits R)

include hR

theorem follows_selectList {select : Expr} {includes : List (List String)}
    (h : ctx.layer.FindsIn r select) :
    Follows R r pre (ctx.selectList select includes) fun list => pre ++ list.terms := by
  refine (composes_selectList fun p hp => ?_).follows hR
  rcases List.mem_append.1 hp with hp | hp
  · exact h.of_mem_paths hp
  · cases select with
    | source id =>
      obtain ⟨x, -, rfl⟩ := List.mem_map.1 hp
      exact h _ .refl
    | _ => cases hp

theorem follows_groupTerms {key : Expr} (h : ctx.layer.FindsIn r key) :
    Follows R r pre (ctx.groupTerms key) fun ts => pre ++ ts :=
  (composes_groupTerms fun _ hp => h.of_mem_paths hp).follows hR

theorem follows_sortKeys (h : ∀ o ∈ orders, ctx.layer.FindsIn r o.expr) :
    Follows R r pre (ctx.sortKeys orders) fun keys => pre ++ keys.map (·.term) :=
  (composes_sortKeys fun o ho _ hp => (h o ho).of_mem_paths hp).follows hR

theorem follows_assignments {target : Entity} {construction : Expr}
    (h : ctx.layer.FindsIn r construction) :
    Follows R r pre (ctx.assignments target construction) fun as => pre ++ as.map (·.value) :=
  (composes_assignments fun _ hp => h.of_mem_paths hp).follows hR

theorem follows_joinKeys {j : Join} (hj : ctx.layer.Finds r j.source)
    (hkeys : ∀ e ∈ j.outerKeys ++ j.innerKeys, ctx.layer.FindsIn r e) :
    Follows R r pre (ctx.joinKeys j) fun k => pre ++ keyTerms k.2 := by
  unfold joinKeys
  refine .bind (follows_source hj) fun row => ?_
  split
  · exact .pure_of_eq (by simp [keyTerms])
  · refine .bind (.mapM fun (outer, inner) hmem pre => ?_) fun on => .pure_of_eq rfl
    have hmem := List.of_mem_zip hmem
    refine .bind (hR.key (hkeys outer (List.mem_append_left _ hmem.1))) fun l => ?_
    refine .bind (hR.key (hkeys inner (List.mem_append_right _ hmem.2))) fun r => ?_
    exact .pure_of_eq (by simp)

end Context

/-! ## Layers -/

theorem JoinedRelation.terms_eq_flatMap {js : List JoinedRelation} :
    JoinedRelation.terms js = js.flatMap fun j => j.relation.terms ++ keyTerms j.on := by
  induction js with
  | nil => rfl
  | cons j js ih =>
    obtain ⟨kind, relation, row, on⟩ := j
    rw [JoinedRelation.terms, ih, List.flatMap_cons]

theorem Branch.terms_eq_flatMap {bs : List Branch} :
    Branch.terms bs = bs.flatMap fun b => b.query.terms := by
  induction bs with
  | nil => rfl
  | cons b bs ih =>
    obtain ⟨wrapped, q⟩ := b
    rw [Branch.terms, ih, List.flatMap_cons]

theorem Block.termsWith_true {b : Block} {others : List Term} :
    b.termsWith true others = others ++ b.terms := by
  obtain ⟨relation, joins, navigations, predicate, groupBy, having⟩ := b
  rfl

/-- The layers inside a layer are read term by term. -/
structure Inner.IsFollowed (R : List Term → List Constant → Prop) (r : Refusal) (inner : Inner) :
    Prop where
  subquery : ∀ query ∈ inner.subquery, ∀ pre, Follows R r pre query fun q => pre ++ q.terms
  targets : ∀ target ∈ inner.targets, ∀ pre, Follows R r pre target fun t => pre ++ t.terms
  branches : ∀ branch ∈ inner.branches, ∀ pre,
    Follows R r pre branch fun b => pre ++ b.query.terms

namespace Context

variable {ctx : Context} {inner : Inner} (hinner : inner.IsFollowed R r)

include hinner

theorem follows_relation : Follows R r pre (ctx.relation inner) fun t => pre ++ t.terms := by
  unfold relation
  split
  next query hquery =>
    refine .bind (hinner.subquery query hquery pre) fun q => .pure_of_eq ?_
    rw [Relation.terms]
  · split
    · refine .lift (.bind Schema.spares_entity fun _ _ => .ok) fun t ht => ?_
      obtain ⟨entity, _, ht⟩ := Compiled.bind_eq_ok.1 ht
      cases ht
      rw [Relation.terms, List.append_nil]
    · exact .throw rfl

theorem follows_withUnions {first : Query} :
    Follows R r (pre ++ first.terms) (withUnions inner first) fun q => pre ++ q.terms := by
  unfold withUnions
  split
  · exact .pure_of_eq rfl
  · refine .bind (.mapM hinner.branches) fun branches => .pure_of_eq ?_
    rw [Query.terms, Branch.terms_eq_flatMap, List.append_assoc]

variable (hR : Admits R) (hctx : ctx.layer.Safe r)

include hR hctx

theorem follows_joins :
    Follows R r pre (ctx.joins inner) fun js => pre ++ JoinedRelation.terms js := by
  simp only [JoinedRelation.terms_eq_flatMap]
  refine .mapM fun (j, target) hmem pre => ?_
  obtain ⟨hj, htarget⟩ := List.of_mem_zip hmem
  refine .bind (hinner.targets target htarget pre) fun relation => ?_
  refine .bind (follows_joinKeys hR (Layer.finds_of_mem_joins hj) fun e he => ?_) fun (row, on) =>
    .pure_of_eq (by simp)
  exact hctx.exprs_found e
    (Layer.mem_exprs.2 (.inr (.inr (.inr (.inr (.inr (.inr ⟨j, hj, he⟩)))))))

omit hinner in
theorem follows_clauses {columns : α} {relation : Relation} {joins : List JoinedRelation}
    {keyTerms : List SortKey → List Term} {pre : List Term}
    {post : α × Block × List SortKey → List Term}
    (hkeys : ∀ pre, Follows R r pre (ctx.sortKeys orders) fun ks => pre ++ keyTerms ks)
    (hpost : ∀ navigations predicate groupBy having keys,
      post (columns, ⟨relation, joins, navigations, predicate, groupBy, having⟩, keys) =
        pre ++ clauseTerms predicate groupBy having ++ keyTerms keys) :
    Follows R r pre (do
      let predicate ← ctx.layer.predicate.mapM ctx.test
      let groupBy ← ctx.layer.groupBy.mapM ctx.groupTerms
      let having ← ctx.layer.having.mapM ctx.test
      let orders ← ctx.sortKeys orders
      let scope ← get
      return (columns, Block.mk relation joins scope.aliases.joins predicate groupBy having,
        orders)) post := by
  have hfound (e : Expr) (he : e ∈ ctx.layer.predicate ∨ e ∈ ctx.layer.groupBy ∨
      e ∈ ctx.layer.having) : ctx.layer.FindsIn r e :=
    hctx.exprs_found e (Layer.mem_exprs.2 (by tauto))
  refine .bind (.option_mapM fun e he _ => hR.test (hfound e (.inl he))) fun predicate => ?_
  refine .bind (.option_mapM fun e he _ => follows_groupTerms hR (hfound e (.inr (.inl he))))
    fun groupBy => ?_
  refine .bind (.option_mapM fun e he _ => hR.test (hfound e (.inr (.inr he)))) fun having => ?_
  refine .bind (hkeys _) fun orders => .bind .read fun scope => ?_
  refine .pure_of_eq ((hpost _ _ _ _ _).trans ?_)
  cases predicate <;> cases groupBy <;> cases having <;> simp [clauseTerms]

/-- **The terms of a layer with its columns**, which stand first or behind the joins, and its
ordering. -/
theorem follows_block {columnsFirst : Bool} {columns : Reading α} {terms : α → List Term}
    {keyTerms : List SortKey → List Term}
    (hcolumns : ∀ pre, Follows R r pre columns fun a => pre ++ terms a)
    (hkeys : ∀ pre, Follows R r pre (ctx.sortKeys orders) fun ks => pre ++ keyTerms ks) :
    Follows R r pre (ctx.block inner columnsFirst columns orders)
      fun b => pre ++ b.2.1.termsWith columnsFirst (terms b.1) ++ keyTerms b.2.2 := by
  refine .inLayer ?_
  cases columnsFirst with
  | true =>
    simp only [if_true, map_eq_pure_bind, bind_assoc, pure_bind]
    refine .bind (hcolumns pre) fun columns => ?_
    refine .bind (follows_relation hinner) fun relation => ?_
    refine .bind (follows_joins hinner hR hctx) fun joins => follows_clauses hR hctx hkeys ?_
    simp [Block.termsWith, Block.terms]
  | false =>
    simp only [Bool.false_eq_true, if_false, pure_bind]
    refine .bind (follows_relation hinner) fun relation => ?_
    refine .bind (follows_joins hinner hR hctx) fun joins => ?_
    refine .bind (hcolumns _) fun columns => follows_clauses hR hctx hkeys ?_
    simp [Block.termsWith]

theorem follows_unordered {columnsFirst : Bool} {columns : Reading α} {terms : α → List Term}
    (hcolumns : ∀ pre, Follows R r pre columns fun a => pre ++ terms a) :
    Follows R r pre (ctx.block inner columnsFirst columns [])
      fun b => pre ++ b.2.1.termsWith columnsFirst (terms b.1) := by
  have hnone (pre : List Term) : Follows R r pre (ctx.sortKeys [])
      fun _ => pre ++ [] := .pure_of_eq (List.append_nil pre)
  simpa only [List.append_nil] using follows_block hinner hR hctx hcolumns hnone

theorem follows_bare : Follows R r pre (ctx.block inner true (pure ()) [])
    fun b => pre ++ b.2.1.terms := by
  have hnone (pre : List Term) : Follows R r pre (pure () : Reading Unit)
      fun _ => pre ++ [] := .pure_of_eq (List.append_nil pre)
  have hblock : Follows R r pre (ctx.block inner true (pure ()) []) _ :=
    follows_unordered hinner hR hctx hnone
  simpa only [Block.termsWith_true, List.nil_append] using hblock

/-- Rows are refused only if some are passed over and there is no ordering. -/
theorem follows_rows {select : Expr} (hselect : ctx.layer.FindsIn r select) :
    Follows R r pre (ctx.rows inner select nested) fun q => pre ++ q.terms := by
  refine .bind_gives (follows_block hinner hR hctx (fun _ => follows_selectList hR hselect)
    fun _ => follows_sortKeys hR hctx.effectiveOrders) gives_parts ?_
  intro (list, b, orders) hparts
  dsimp only at hparts ⊢
  split
  · rename_i hskip
    simp only [Bool.and_eq_true, decide_eq_true_eq, List.isEmpty_iff] at hskip
    refine ⟨fun _ _ _ _ hrun => (by cases hrun), fun s e he hr => ?_⟩
    cases he
    cases hr
    -- there are as many keys as the ordering has, so that it would be empty
    have hkeys := gives_sortKeys.of_gave hparts.2.2.2
    have horders : ctx.layer.orders ≠ [] := hctx.skip_ordered rfl hskip.1
    rw [Layer.effectiveOrders_of_orders horders, hskip.2] at hkeys
    exact horders (List.length_eq_zero_iff.1 hkeys.symm)
  · exact .pure_of_eq (by simp [Block.termsWith_true, Query.terms])

theorem follows_aggregated {a : Aggregation} (ha : ctx.layer.aggregate = some a) :
    Follows R r pre (ctx.aggregated inner a) fun q => pre ++ q.terms := by
  have hselector : ∀ e ∈ a.selector, ctx.layer.FindsIn r e := fun e he =>
    hctx.exprs_found e (Layer.mem_exprs.2 (by simp_all))
  unfold aggregated
  dsimp only
  split
  · have hselect : ctx.layer.FindsIn r (a.selector.getD ctx.layer.select) := by
      cases hs : a.selector with
      | none => exact hctx.exprs_found _ (Layer.mem_exprs.2 (.inl rfl))
      | some e => exact hselector e hs
    refine .bind (follows_rows hinner hR hctx hselect) fun first => ?_
    refine .bind (follows_withUnions hinner) fun q => .pure_of_eq ?_
    rw [Query.terms]
  · refine .bind (follows_unordered hinner hR hctx fun _ => hR.aggregate hselector)
      fun (value, b, _) => ?_
    exact .pure_of_eq (by simp [Block.termsWith_true, Query.terms])

/-- **A layer is read term by term** if the layers inside it are. -/
theorem follows_query : Follows R r pre (ctx.query inner nested) fun q => pre ++ q.terms := by
  unfold query
  dsimp only
  split
  · refine .bind (follows_bare hinner hR hctx) fun (_, b, _) => ?_
    refine .bind (.pure_of_eq ?_) fun first => follows_withUnions hinner
    rw [Query.terms]
  · split
    · rename_i a ha
      exact .bind (follows_aggregated hinner hR hctx ha) fun first => follows_withUnions hinner
    · refine .bind (follows_rows hinner hR hctx ?_) fun first => follows_withUnions hinner
      exact hctx.exprs_found _ (Layer.mem_exprs.2 (.inl rfl))

end Context

end Sql

section Layers

open Sql

variable {schema : Schema} {dialect : Dialect} {R : List Term → List Constant → Prop}
  {r : Refusal} {pre : List Term}

namespace Layer

variable {l : Layer}

theorem isFollowed_inner (h : ∀ m ∈ l.parts, ∀ nested pre,
    Follows R r pre (m.query schema dialect nested) fun q => pre ++ q.terms) :
    (l.inner schema dialect).IsFollowed R r where
  subquery query hquery := by
    rw [inner, queryOption_eq_map] at hquery
    obtain ⟨m, hm, rfl⟩ := Option.map_eq_some_iff.1 hquery
    exact h m (mem_parts.2 (.inl hm)) true
  targets target htarget pre := by
    rw [inner, targets_eq_map] at htarget
    obtain ⟨j, hj, rfl⟩ := List.mem_map.1 htarget
    cases ht : j.target with
    | table ty =>
      exact .lift_bind Schema.spares_entity fun _ _ => .pure_of_eq (by simp [Relation.terms])
    | subquery m =>
      have hm : m ∈ l.parts := mem_parts.2 (.inr (.inl ⟨j, hj, by rw [ht]; rfl⟩))
      exact .bind (h m hm true pre) fun _ => .pure_of_eq (by simp [Relation.terms])
  branches branch hbranch pre := by
    rw [inner, branches_eq_map] at hbranch
    obtain ⟨u, hu, rfl⟩ := List.mem_map.1 hbranch
    exact .bind (h u (mem_parts.2 (.inr (.inr hu))) false pre) fun _ => .pure_of_eq rfl

theorem follows_query (hR : Admits R) (h : l.All (Safe r)) :
    Follows R r pre (l.query schema dialect nested) fun q => pre ++ q.terms := by
  induction l using induction_parts generalizing nested pre with
  | h l ih =>
    rw [query_eq]
    exact Context.follows_query (isFollowed_inner fun m hm _ _ => ih m hm (h.part hm)) hR h.self

theorem isFollowed_inner_of_safe (hR : Admits R) (h : l.All (Safe r)) :
    (l.inner schema dialect).IsFollowed R r :=
  isFollowed_inner fun _ hm _ _ => follows_query hR (h.part hm)

end Layer

/-! ## Statements -/

namespace Entity

variable {entity : Entity} {value : EntityValue}

theorem spares_checkPayload : (entity.checkPayload value).Spares r := by
  unfold checkPayload
  dsimp only
  split
  · exact .error rfl
  · exact .forM fun _ _ => .bind spares_column fun _ _ => .ok

variable (hR : Admits R)

include hR

theorem follows_keyAssignments : Follows R r pre (entity.keyAssignments value)
    fun as => pre ++ as.map (·.value) := by
  unfold keyAssignments
  split
  · exact .throw_bind rfl
  · refine .mapM_term fun (member, column) _ pre => ?_
    dsimp only
    split
    · exact .throw rfl
    · exact .bind hR.constant fun t => .pure_of_eq rfl

theorem follows_updateAssignments : Follows R r pre (entity.updateAssignments value)
    fun as => pre ++ as.map (·.value) :=
  .mapM_term fun _ _ _ => .bind hR.constant fun _ => .pure_of_eq rfl

theorem follows_insertValues : Follows R r pre (entity.insertValues value)
    fun values => pre ++ values.flatMap Option.toList := by
  refine .mapM fun (member, column) _ pre => ?_
  have hvalue : Follows R r pre
      ((value.get? member).mapM (Reading.constant column.dbType column.size))
      fun t => pre ++ t.toList.flatMap fun t => [t] :=
    .option_mapM fun _ _ _ => hR.constant
  simpa using hvalue

theorem follows_insertRows {rows : List EntityValue} :
    Follows R r pre (entity.insertRows rows) fun statement => pre ++ statement.terms dialect := by
  unfold insertRows
  dsimp only
  split
  · exact .throw_bind rfl
  · refine .bind (.forM fun _ _ => .lift spares_checkPayload fun _ _ => rfl) fun _ => ?_
    split
    · exact .throw_bind rfl
    · exact .bind (.mapM fun _ _ _ => follows_insertValues hR) fun values => .pure_of_eq rfl

theorem follows_insertQuery {scope : Layer} (h : scope.All (Layer.Safe r)) :
    Follows R r pre (entity.insertQuery schema dialect scope)
      fun statement => pre ++ statement.terms dialect := by
  unfold insertQuery
  split
  · exact .throw rfl
  · refine .bind (.mapM_silent fun b _ => .lift_bind spares_column fun column _ => ?_) fun _ => ?_
    · split
      · exact .throw_bind rfl
      · exact .pure_of_eq rfl
    · exact .bind (Layer.follows_query hR h) fun q => .pure_of_eq rfl

theorem follows_updateByKey : Follows R r pre (entity.updateByKey value)
    fun statement => pre ++ statement.terms dialect := by
  unfold updateByKey
  refine .lift_bind spares_checkPayload fun _ _ => ?_
  refine .bind (follows_updateAssignments hR) fun assignments => ?_
  split
  · exact .throw_bind rfl
  · refine .bind (follows_keyAssignments hR) fun key => .pure_of_eq ?_
    rw [Statement.terms, List.append_assoc]

end Entity

namespace Plan

variable {p : Plan}

/-- **The statement of a plan is read term by term**, and without a refusal that the plan gives no
cause for. -/
theorem follows_statement (hR : Admits R) (h : p.Safe r) : Follows R r pre
    (p.statement schema dialect) fun statement => pre ++ statement.terms dialect := by
  cases p with
  | select l => exact .bind (Layer.follows_query hR (h.layers l rfl)) fun q => .pure_of_eq rfl
  | insert target payload =>
    refine .lift_bind Schema.spares_entity fun entity _ => ?_
    cases payload with
    | entity value | entities values => exact Entity.follows_insertRows hR
    | query scope => exact Entity.follows_insertQuery hR (h.layers scope rfl)
  | update target payload scope =>
    refine .lift_bind Schema.spares_entity fun entity _ => ?_
    cases payload with
    | entity value => exact Entity.follows_updateByKey hR
    | assignments construction =>
      have hscope := h.layers scope rfl
      refine .bind (Context.follows_unordered (Layer.isFollowed_inner_of_safe hR hscope) hR
        hscope.self fun _ => Context.follows_assignments hR (h.construction scope construction rfl))
        fun (assignments, block, _) => .pure_of_eq rfl
  | delete target payload scope =>
    refine .lift_bind Schema.spares_entity fun entity _ => ?_
    cases payload with
    | entity value =>
      refine .lift_bind Entity.spares_checkPayload fun _ _ => ?_
      exact .bind (Entity.follows_keyAssignments hR) fun key => .pure_of_eq rfl
    | scope =>
      have hscope := h.layers scope rfl
      refine .bind (Context.follows_bare (Layer.isFollowed_inner_of_safe hR hscope) hR hscope.self)
        fun (_, block, _) => .pure_of_eq ?_
      rw [Statement.terms]

/-- **A plan that gives no cause for a refusal is written without it**, as a statement. -/
theorem spares_statement (h : p.Safe r) : Spares r (p.statement schema dialect) := by
  have hfollows : Follows (fun _ _ => True) r [] (p.statement schema dialect) _ :=
    follows_statement ⟨fun _ _ => trivial, fun _ => trivial, fun _ _ => trivial⟩ h
  exact hfollows.spares

theorem spares_command (h : p.Safe r) (config : Config) : (p.command schema config).Spares r :=
  .bind (.bind (spares_statement h {}) fun _ _ => .ok) fun _ _ => .ok

end Plan

end Layers

end QueryCompiler

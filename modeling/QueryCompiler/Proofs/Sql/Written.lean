import QueryCompiler.Proofs.Plan.Layers
import QueryCompiler.Sql.OfPlan
/-!
# How layers are written

A layer is written as a query that holds the queries of the layers inside it. `Layer.Writes` says
which queries a layer may be written as, and `Layer.writes_cases` is the only place where the
reading of a layer is taken apart: the first operand comes from the clauses of the layer itself
(`Layer.Operand`), and one branch from each layer united with it.

So what holds of every query of a statement is shown along the layers of its plan
(`Plan.all_of_statement`).
-/

namespace QueryCompiler

open Sql

variable {entity : Entity}

/-! ## Results of steps -/

/-- A step that succeeds has a result with `post`, whatever state it starts in. -/
def Gives {σ α : Type} (x : StateT σ Compiled α) (post : α → Prop) : Prop :=
  ∀ s a s', x.run s = .ok (a, s') → post a

/-- A step has the result `a` in some state. -/
def Gave {σ α : Type} (x : StateT σ Compiled α) (a : α) : Prop :=
  ∃ s s', x.run s = .ok (a, s')

namespace Gives

variable {σ α β : Type} {x : StateT σ Compiled α} {post post' : α → Prop}
  {f : β → StateT σ Compiled α}

theorem gave : Gives x (Gave x) := fun s _ s' hrun => ⟨s, s', hrun⟩

theorem of_gave {a : α} (hx : Gives x post) (h : Gave x a) : post a := by
  obtain ⟨s, s', hrun⟩ := h
  exact hx s a s' hrun

theorem and (hx : Gives x post) (hx' : Gives x post') : Gives x fun a => post a ∧ post' a :=
  fun s a s' hrun => ⟨hx s a s' hrun, hx' s a s' hrun⟩

theorem trivial : Gives x fun _ => True := fun _ _ _ _ => True.intro

theorem pure {a : α} (h : post a) : Gives (Pure.pure a : StateT σ Compiled α) post := by
  intro s _ _ hrun
  cases hrun
  exact h

theorem throw {e : CompileError} : Gives (MonadExcept.throw e : StateT σ Compiled α) post := by
  intro s _ _ hrun
  cases hrun

theorem throw_bind {e : CompileError} :
    Gives ((MonadExcept.throw e : StateT σ Compiled β) >>= f) post := by
  intro s _ _ hrun
  cases hrun

theorem bind {f : α → StateT σ Compiled β} {result : β → Prop} (hx : Gives x post)
    (hf : ∀ a, post a → Gives (f a) result) : Gives (x >>= f) result := by
  intro s b s' hrun
  obtain ⟨⟨a, s₁⟩, hx₁, hf₁⟩ := Compiled.bind_eq_ok.1 hrun
  exact hf a (hx s a s₁ hx₁) s₁ b s' hf₁

theorem seq {f : α → StateT σ Compiled β} {result : β → Prop} (hf : ∀ a, Gives (f a) result) :
    Gives (x >>= f) result :=
  bind trivial fun a _ => hf a

theorem imp (hx : Gives x post) (h : ∀ a, post a → post' a) : Gives x post' :=
  fun s a s' hrun => h a (hx s a s' hrun)

theorem mapM {rel : β → α → Prop} {l : List β} (h : ∀ b ∈ l, Gives (f b) (rel b)) :
    Gives (l.mapM f) fun as => List.Forall₂ rel l as := by
  induction l with
  | nil => exact pure .nil
  | cons b l ih =>
    rw [List.mapM_cons]
    refine bind (h b (by simp)) fun a ha => ?_
    exact bind (ih fun b hb => h b (by simp [hb])) fun as has => pure (.cons ha has)

theorem mapM_all {l : List β} (h : ∀ b ∈ l, Gives (f b) post) :
    Gives (l.mapM f) fun as => ∀ a ∈ as, post a := by
  refine (mapM h).imp fun as has a ha => ?_
  obtain ⟨_, -, hpost⟩ := exists_of_forall₂ has a ha
  exact hpost

theorem foldlM {f : α → β → StateT σ Compiled α} {l : List β}
    (h : ∀ a b, post a → Gives (f a b) post) {a : α} (ha : post a) : Gives (l.foldlM f a) post := by
  induction l generalizing a with
  | nil => exact pure ha
  | cons b l ih =>
    rw [List.foldlM_cons]
    exact bind (h a b ha) fun _ => ih

theorem lift {x : Compiled α} (h : ∀ a, x = .ok a → post a) :
    Gives (liftM x : StateT σ Compiled α) post := by
  intro s a s' hrun
  obtain ⟨_, hx, hpure⟩ := Compiled.bind_eq_ok.1 hrun
  cases hpure
  exact h a hx

theorem inLayer {l : Layer} {x : Reading α} (hx : Gives x post) :
    Gives (Reading.inLayer l x) post :=
  seq fun _ => seq fun _ => bind hx fun _ ha => seq fun _ => pure ha

end Gives

/-! ## Queries inside a query -/

namespace Sql

def Relation.query? : Relation → Option Query
  | table _ => none
  | derived q => some q

def Block.parts (b : Block) : List Query :=
  b.relation.query?.toList ++ b.joins.filterMap (·.relation.query?)

namespace Query

variable {p q : Query} {P Q : Query → Prop}

def parts : Query → List Query
  | rows block _ _ _ _ _ _ => block.parts
  | existence block => block.parts
  | aggregate _ block => block.parts
  | aggregateOver _ _ q => [q]
  | union first branches => first :: branches.map (·.query)

/-- `p` is `q` or a query inside it. -/
inductive Within (p : Query) : Query → Prop where
  | refl : Within p p
  | part {q r : Query} (hr : r ∈ q.parts) (h : Within p r) : Within p q

/-- `P` holds of a query and of all queries inside it. -/
def All (P : Query → Prop) (q : Query) : Prop := ∀ p, p.Within q → P p

theorem all_of_parts (h : P q) (hparts : ∀ r ∈ q.parts, r.All P) : q.All P := by
  intro p hp
  cases hp with
  | refl => exact h
  | part hr hp => exact hparts _ hr p hp

end Query

def Statement.parts : Statement → List Query
  | query q => [q]
  | insertQuery _ _ q => [q]
  | update _ _ block => block.parts
  | delete block => block.parts
  | insertRows _ _ _ _ | updateByKey _ _ _ | deleteByKey _ _ => []

/-- `P` holds of every query of a statement. -/
def Statement.All (P : Query → Prop) (s : Statement) : Prop := ∀ q ∈ s.parts, q.All P

/-! ## Clauses -/

/-- The layers that a layer reads and joins are written as queries with `P`. -/
structure Inner.Supplies (inner : Inner) (P : Query → Prop) : Prop where
  subquery : ∀ query, inner.subquery = some query → Gives query P
  targets : ∀ target ∈ inner.targets, Gives target fun r => ∀ q, r.query? = some q → P q

namespace Context

variable {α : Type} {ctx : Context} {inner : Inner} {P : Query → Prop} {columnsFirst : Bool}
  {columns : Reading α} {orders : List Order}

theorem gives_relation (h : inner.Supplies P) :
    Gives (ctx.relation inner) fun r => ∀ q, r.query? = some q → P q := by
  unfold relation
  split
  · rename_i query hquery
    refine .bind (h.subquery query hquery) fun q hq => .pure ?_
    rintro _ ⟨⟩
    exact hq
  · split
    · refine .lift fun r hr => ?_
      obtain ⟨entity, -, hr⟩ := Compiled.bind_eq_ok.1 hr
      cases hr
      rintro _ ⟨⟩
    · exact .throw

theorem gives_joins (h : inner.Supplies P) :
    Gives (ctx.joins inner) fun js => ∀ j ∈ js, ∀ q, j.relation.query? = some q → P q := by
  refine .mapM_all fun (j, target) hj => ?_
  refine .bind (h.targets target (List.of_mem_zip hj).2) fun relation hrelation => ?_
  exact .seq fun _ => .pure hrelation

theorem gives_sortKeys :
    Gives (ctx.sortKeys orders) fun keys => keys.length = orders.length :=
  (Gives.mapM fun _ _ => .trivial).imp fun _ h => h.length_eq.symm

def early (columnsFirst : Bool) (columns : Reading α) : Reading (Option α) :=
  if columnsFirst then some <$> columns else pure none

def late (columns : Reading α) : Option α → Reading α
  | some a => pure a
  | none => columns

/-- The clauses of a layer without the joins of navigations. -/
def clauses (ctx : Context) (inner : Inner) (columnsFirst : Bool) (columns : Reading α)
    (orders : List Order) : Reading (α × Block × List SortKey) := do
  let first ← early columnsFirst columns
  let relation ← ctx.relation inner
  let joins ← ctx.joins inner
  let columns ← late columns first
  let predicate ← ctx.layer.predicate.mapM ctx.test
  let groupBy ← ctx.layer.groupBy.mapM ctx.groupTerms
  let having ← ctx.layer.having.mapM ctx.test
  let orders ← ctx.sortKeys orders
  return (columns, ⟨relation, joins, [], predicate, groupBy, having⟩, orders)

/-- A block is read in a scope of its own, and ends with the navigations that its clauses passed. -/
theorem block_eq : ctx.block inner columnsFirst columns orders = Reading.inLayer ctx.layer (do
    let (a, b, keys) ← ctx.clauses inner columnsFirst columns orders
    let scope ← get
    return (a, ⟨b.relation, b.joins, scope.aliases.joins, b.predicate, b.groupBy, b.having⟩,
      keys)) := by
  unfold block clauses early
  cases columnsFirst <;> simp [late]

theorem clauses_true : ctx.clauses inner true columns orders = (do
    let a ← columns
    let relation ← ctx.relation inner
    let joins ← ctx.joins inner
    let predicate ← ctx.layer.predicate.mapM ctx.test
    let groupBy ← ctx.layer.groupBy.mapM ctx.groupTerms
    let having ← ctx.layer.having.mapM ctx.test
    let keys ← ctx.sortKeys orders
    return (a, ⟨relation, joins, [], predicate, groupBy, having⟩, keys)) := by
  simp [clauses, early, late]

/-- **The columns, the rows, the joins and the order of a block** are read for it. -/
theorem gives_parts : Gives (ctx.block inner columnsFirst columns orders) fun r =>
    Gave columns r.1 ∧ Gave (ctx.relation inner) r.2.1.relation ∧
      Gave (ctx.joins inner) r.2.1.joins ∧ Gave (ctx.sortKeys orders) r.2.2 := by
  have hearly : Gives (early columnsFirst columns) fun first => ∀ a ∈ first, Gave columns a := by
    unfold early
    split
    · rw [map_eq_pure_bind]
      refine .bind Gives.gave fun a ha => .pure ?_
      rintro _ ⟨⟩
      exact ha
    · exact .pure fun a ha => by cases ha
  have hlate {first : Option α} (hfirst : ∀ a ∈ first, Gave columns a) :
      Gives (late columns first) (Gave columns) := by
    cases first with
    | some a => exact .pure (hfirst a rfl)
    | none => exact .gave
  rw [block_eq, clauses]
  simp only [bind_assoc, pure_bind]
  refine .inLayer (.bind hearly fun first hfirst => ?_)
  refine .bind Gives.gave fun relation hrelation => ?_
  refine .bind Gives.gave fun joins hjoins => .bind (hlate hfirst) fun a ha => ?_
  refine .seq fun predicate => .seq fun groupBy => .seq fun having => ?_
  refine .bind Gives.gave fun keys hkeys => .seq fun scope => ?_
  exact .pure ⟨ha, hrelation, hjoins, hkeys⟩

/-- **A block reads the layers inside the layer**, and orders by as many keys as it is asked to. -/
theorem gives_block (h : inner.Supplies P) :
    Gives (ctx.block inner columnsFirst columns orders) fun r =>
      (∀ q ∈ r.2.1.parts, P q) ∧ r.2.2.length = orders.length := by
  refine gives_parts.imp fun r ⟨_, hrelation, hjoins, hkeys⟩ => ?_
  refine ⟨fun q hq => ?_, gives_sortKeys.of_gave hkeys⟩
  simp only [Block.parts, List.mem_append, Option.mem_toList, List.mem_filterMap] at hq
  rcases hq with hq | ⟨j, hj, hq⟩
  · exact (gives_relation h).of_gave hrelation q hq
  · exact (gives_joins h).of_gave hjoins j hj q hq

end Context

end Sql

/-! ## Layers -/

namespace Layer

variable {schema : Schema} {dialect : Dialect} {l : Layer} {nested : Bool} {q : Query}

/-- `q` is what a layer is written as, in some scope. -/
def Writes (schema : Schema) (dialect : Dialect) (nested : Bool) (l : Layer) (q : Query) : Prop :=
  ∃ s s', (l.query schema dialect nested).run s = .ok (q, s')

/-- `q` is what some layer inside `l` is written as. -/
def Reads (schema : Schema) (dialect : Dialect) (l : Layer) (q : Query) : Prop :=
  ∃ m ∈ l.parts, m.Writes schema dialect true q

abbrev finishesRows (l : Layer) : Bool := l.distinct || l.groupBy.isSome || l.isPaginated

/-- The query of a layer without those united with it, with the block that it is read from. -/
inductive Operand (schema : Schema) (dialect : Dialect) (l : Layer) (nested : Bool) :
    Query → Prop where
  | rows {block : Block} {list : SelectList} {orders : List SortKey} (hany : l.any = false)
    (haggregate : l.aggregate = none) (hparts : ∀ q ∈ block.parts, l.Reads schema dialect q)
    (horders : orders.length = (l.effectiveOrders schema).length)
    (hblock : Gave (Context.block ⟨schema, dialect, l⟩ (l.inner schema dialect) true
      (Context.selectList ⟨schema, dialect, l⟩ l.select l.includes) (l.effectiveOrders schema))
      (list, block, orders)) :
    Operand schema dialect l nested
      (.rows block list orders l.distinct l.skip l.take nested)
  | existence {block : Block} {orders : List SortKey} (hany : l.any = true)
    (hparts : ∀ q ∈ block.parts, l.Reads schema dialect q)
    (hblock : Gave (Context.block ⟨schema, dialect, l⟩ (l.inner schema dialect) true (pure ()) [])
      ((), block, orders)) :
    Operand schema dialect l nested (.existence block)
  | aggregate {a : Aggregation} {value : Typed} {block : Block} {orders : List SortKey}
    (haggregate : l.aggregate = some a) (hparts : ∀ q ∈ block.parts, l.Reads schema dialect q)
    (hblock : Gave (Context.block ⟨schema, dialect, l⟩ (l.inner schema dialect) true
      (do Typed.aggregate a.func (← Context.readOption ⟨schema, dialect, l⟩ a.selector)) [])
      (value, block, orders)) :
    Operand schema dialect l nested (.aggregate value.term block)
  | aggregateOver {a : Aggregation} {column : Option String} {q : Query}
    (haggregate : l.aggregate = some a)
    (hfinished : l.finishesRows = true) :
    Operand schema dialect l nested (.aggregateOver a.func column q)

theorem query_eq (l : Layer) : l.query schema dialect nested =
    Context.query ⟨schema, dialect, l⟩ (l.inner schema dialect) nested := by
  obtain ⟨clauses, subquery, joins, unions⟩ := l
  rw [query]
  rfl

def targetRelation (schema : Schema) (dialect : Dialect) : JoinTarget → Reading Relation
  | .table ty => do return .table (← schema.entity ty).table
  | .subquery m => do return .derived (← m.query schema dialect true)

/-! The layers inside a layer, each by itself. -/

theorem queryOption_eq_map (subquery : Option Layer) : queryOption schema dialect subquery =
    subquery.map (·.query schema dialect true) := by
  cases subquery <;> simp [queryOption]

theorem targets_eq_map (joins : List Join) : targets schema dialect joins =
    joins.map fun j => targetRelation schema dialect j.target := by
  induction joins with
  | nil => simp [targets]
  | cons j js ih =>
    obtain ⟨kind, source, target, rowType, outerKeys, innerKeys⟩ := j
    cases target <;> simp [targets, targetRelation, ih]

theorem zip_targets (l : Layer) : l.joins.zip (l.inner schema dialect).targets =
    l.joins.map fun j => (j, targetRelation schema dialect j.target) := by
  rw [inner, targets_eq_map, List.map_prod_left_eq_zip]

theorem branches_eq_map (unions : List Layer) : branches schema dialect unions =
    unions.map fun l => do
      return ⟨l.isPaginated || !l.orders.isEmpty, ← l.query schema dialect false⟩ := by
  induction unions with
  | nil => simp [branches]
  | cons l ls ih =>
    obtain ⟨clauses, subquery, joins, unions⟩ := l
    simp [branches, ih]

theorem gives_writes : Gives (l.query schema dialect nested) (l.Writes schema dialect nested) :=
  fun s _ s' hrun => ⟨s, s', hrun⟩

theorem supplies_inner (l : Layer) :
    (l.inner schema dialect).Supplies (l.Reads schema dialect) where
  subquery query hquery := by
    rw [inner, queryOption_eq_map] at hquery
    obtain ⟨m, hm, rfl⟩ := Option.map_eq_some_iff.1 hquery
    exact gives_writes.imp fun q hq => ⟨m, mem_parts.2 (.inl hm), hq⟩
  targets target htarget := by
    rw [inner, targets_eq_map] at htarget
    obtain ⟨j, hj, rfl⟩ := List.mem_map.1 htarget
    cases ht : j.target with
    | table ty =>
      refine .seq fun entity => .pure ?_
      rintro q ⟨⟩
    | subquery m =>
      refine .bind gives_writes fun q hq => .pure ?_
      rintro _ ⟨⟩
      exact ⟨m, mem_parts.2 (.inr (.inl ⟨j, hj, by rw [ht]; rfl⟩)), hq⟩

/-- What follows the first operand: a branch for each layer united with this one. -/
def Appends (schema : Schema) (dialect : Dialect) (l : Layer) (first q : Query) : Prop :=
  (l.unions = [] ∧ q = first) ∨ (l.unions ≠ [] ∧ ∃ branches, q = .union first branches ∧
    List.Forall₂ (fun u b => b.wrapped = (u.isPaginated || !u.orders.isEmpty) ∧
      u.Writes schema dialect false b.query) l.unions branches)

theorem Appends.selectList_eq {first : Query} (h : l.Appends schema dialect first q) :
    first.selectList = q.selectList := by
  rcases h with ⟨-, rfl⟩ | ⟨-, branches, rfl, -⟩
  · rfl
  · rw [Query.selectList]

theorem gives_withUnions (l : Layer) (first : Query) :
    Gives (Context.withUnions (l.inner schema dialect) first) (l.Appends schema dialect first) := by
  unfold Context.withUnions
  have hempty : (l.inner schema dialect).branches.isEmpty = l.unions.isEmpty := by
    rw [inner, branches_eq_map, List.isEmpty_map]
  rw [hempty]
  split
  · rename_i hnone
    exact .pure (.inl ⟨List.isEmpty_iff.1 hnone, rfl⟩)
  · rename_i hsome
    have hbranches : Gives ((l.inner schema dialect).branches.mapM id) fun branches =>
        List.Forall₂ (fun u b => b.wrapped = (u.isPaginated || !u.orders.isEmpty) ∧
          u.Writes schema dialect false b.query) l.unions branches := by
      rw [inner, branches_eq_map, List.mapM_map]
      refine .mapM fun u _ => ?_
      exact .bind gives_writes fun q hq => .pure ⟨rfl, hq⟩
    refine .bind hbranches fun branches h => .pure ?_
    exact .inr ⟨fun hnil => hsome (by rw [hnil]; rfl), branches, rfl, h⟩

theorem gives_rows (hany : l.any = false) (haggregate : l.aggregate = none) :
    Gives (Context.rows ⟨schema, dialect, l⟩ (l.inner schema dialect) l.select nested)
      (l.Operand schema dialect nested) := by
  refine .bind ((Context.gives_block (supplies_inner l)).and Gives.gave)
    fun (list, block, orders) h => ?_
  dsimp only at h ⊢
  split
  · exact .throw_bind
  · exact .pure (.rows hany haggregate h.1.1 h.1.2 h.2)

theorem gives_aggregated {a : Aggregation} (haggregate : l.aggregate = some a) :
    Gives (Context.aggregated ⟨schema, dialect, l⟩ (l.inner schema dialect) a)
      (l.Operand schema dialect nested) := by
  unfold Context.aggregated
  dsimp only
  split
  · rename_i hfinished
    refine .seq fun first => .seq fun q => ?_
    exact .pure (.aggregateOver haggregate hfinished)
  · refine .bind ((Context.gives_block (supplies_inner l)).and Gives.gave)
      fun (value, block, _) h => ?_
    exact .pure (.aggregate haggregate h.1.1 h.2)

/-- **A layer is written as one operand of its own**, with a branch for each layer united with
it. -/
theorem writes_cases (h : l.Writes schema dialect nested q) :
    ∃ first, l.Operand schema dialect nested first ∧ l.Appends schema dialect first q := by
  have hgives : Gives (l.query schema dialect nested) fun q =>
      ∃ first, l.Operand schema dialect nested first ∧ l.Appends schema dialect first q := by
    have hunions (first : Query) (hfirst : l.Operand schema dialect nested first) :
        Gives (Context.withUnions (l.inner schema dialect) first) fun q =>
          ∃ first, l.Operand schema dialect nested first ∧ l.Appends schema dialect first q :=
      (gives_withUnions l first).imp fun q hq => ⟨first, hfirst, hq⟩
    rw [query_eq]
    unfold Context.query
    dsimp only
    split
    · rename_i hany
      refine .bind ((Context.gives_block (supplies_inner l)).and Gives.gave)
        fun (_, block, _) h => ?_
      exact .bind (.pure (.existence hany h.1.1 h.2)) hunions
    · rename_i hany
      split
      · rename_i a ha
        exact .bind (gives_aggregated ha) hunions
      · rename_i ha
        exact .bind (gives_rows (by simpa using hany) ha) hunions
  exact hgives.of_gave h

/-- A layer that is read for its rows is written with the select list of its projection and the keys
of its ordering. -/
theorem Writes.rows (h : l.Writes schema dialect nested q) (hany : l.any = false)
    (haggregate : l.aggregate = none) :
    Gave (Context.selectList ⟨schema, dialect, l⟩ l.select l.includes) q.selectList ∧
      ∃ keys, Gave (Context.sortKeys ⟨schema, dialect, l⟩ (l.effectiveOrders schema)) keys := by
  obtain ⟨first, hfirst, happends⟩ := writes_cases h
  rw [← happends.selectList_eq]
  cases hfirst with
  | rows _ _ _ _ hblock =>
    obtain ⟨hlist, -, -, hkeys⟩ := Context.gives_parts.of_gave hblock
    rw [Query.selectList]
    exact ⟨hlist, _, hkeys⟩
  | existence hany' => rw [hany] at hany'; cases hany'
  | aggregate ha | aggregateOver ha => rw [haggregate] at ha; cases ha

/-- The queries inside an operand are those of layers, unless rows are finished first. -/
theorem Operand.reads (h : l.Operand schema dialect nested q)
    (hplain : l.aggregate ≠ none → l.finishesRows = false) :
    ∀ p ∈ q.parts, l.Reads schema dialect p := by
  cases h with
  | rows _ _ hparts | existence _ hparts | aggregate _ hparts => exact hparts
  | aggregateOver haggregate hfinished =>
    rw [hplain (by simp [haggregate])] at hfinished
    cases hfinished

theorem Appends.writes {first : Query} (h : l.Appends schema dialect first q) :
    ∀ p ∈ q.parts, p = first ∨ p ∈ first.parts ∨
      ∃ u ∈ l.unions, u.Writes schema dialect false p := by
  intro p hp
  rcases h with ⟨-, rfl⟩ | ⟨-, branches, rfl, hall⟩
  · exact .inr (.inl hp)
  · rcases List.mem_cons.1 hp with rfl | hp
    · exact .inl rfl
    · obtain ⟨b, hb, rfl⟩ := List.mem_map.1 hp
      obtain ⟨u, hu, -, hwrites⟩ := exists_of_forall₂ hall b hb
      exact .inr (.inr ⟨u, hu, hwrites⟩)

/-- **What holds of queries is shown along the layers**: of the operand that a layer is written as,
and of the union that this begins. -/
theorem all_of_writes {P : Query → Prop} {admits : Layer → Prop}
    (hplain : ∀ l, admits l → l.aggregate ≠ none → l.finishesRows = false)
    (hP : ∀ (l : Layer) nested first q, l.All admits → l.Operand schema dialect nested first →
      l.Appends schema dialect first q → P first ∧ P q)
    (hl : l.All admits) (h : l.Writes schema dialect nested q) : q.All P := by
  induction l using induction_parts generalizing nested q with
  | h l ih =>
    obtain ⟨first, hfirst, happends⟩ := writes_cases h
    obtain ⟨hPfirst, hPq⟩ := hP l nested first q hl hfirst happends
    have hreads : ∀ p ∈ first.parts, p.All P := by
      intro p hp
      obtain ⟨m, hm, hwrites⟩ := hfirst.reads (hplain l hl.self) p hp
      exact ih m hm (hl.part hm) hwrites
    refine Query.all_of_parts hPq fun p hp => ?_
    rcases happends.writes p hp with rfl | hp | ⟨u, hu, hwrites⟩
    · exact Query.all_of_parts hPfirst hreads
    · exact hreads p hp
    · have hm : u ∈ l.parts := mem_parts.2 (.inr (.inr hu))
      exact ih u hm (hl.part hm) hwrites

end Layer

/-! ## Statements -/

variable {schema : Schema} {dialect : Dialect}

theorem Entity.gives_insertRows {rows : List EntityValue} :
    Gives (entity.insertRows rows) fun s =>
      ∃ table columns values identity, s = .insertRows table columns values identity := by
  unfold insertRows
  dsimp only
  split
  · exact .throw_bind
  · refine .seq fun _ => ?_
    split
    · exact .throw_bind
    · exact .seq fun values => .pure ⟨_, _, _, _, rfl⟩

theorem Entity.gives_insertQuery {scope : Layer} :
    Gives (entity.insertQuery schema dialect scope) fun s =>
      ∃ q table columns, scope.Writes schema dialect false q ∧
        s = .insertQuery table columns q := by
  unfold insertQuery
  split
  · exact .throw
  · refine .seq fun columns => .bind Layer.gives_writes fun q hq => ?_
    exact .pure ⟨q, _, _, hq, rfl⟩

theorem Entity.gives_updateByKey {value : EntityValue} :
    Gives (entity.updateByKey value) fun s =>
      ∃ table assignments key, s = .updateByKey table assignments key := by
  unfold updateByKey
  refine .seq fun _ => .seq fun assignments => ?_
  dsimp only
  split
  · exact .throw_bind
  · exact .seq fun key => .pure ⟨_, _, _, rfl⟩

/-- **The queries of a statement are those of the layers of its plan.** -/
theorem Plan.gives_statement (p : Plan) : Gives (p.statement schema dialect) fun s =>
    ∀ q ∈ s.parts, ∃ l, p.scope? = some l ∧
      (l.Writes schema dialect false q ∨ l.Reads schema dialect q) := by
  have hnone {s : Statement} (hs : s.parts = []) : ∀ q ∈ s.parts, ∃ l, p.scope? = some l ∧
      (l.Writes schema dialect false q ∨ l.Reads schema dialect q) := by
    simp [hs]
  cases p with
  | select l =>
    refine .bind Layer.gives_writes fun q hq => .pure fun q' hq' => ?_
    obtain rfl : q' = q := List.mem_singleton.1 hq'
    exact ⟨l, rfl, .inl hq⟩
  | insert target payload =>
    refine .seq fun entity => ?_
    cases payload with
    | entity value | entities values =>
      refine Entity.gives_insertRows.imp fun s ⟨_, _, _, _, hs⟩ => hnone ?_
      rw [hs]
      rfl
    | query scope =>
      refine Entity.gives_insertQuery.imp fun s ⟨q, table, columns, hq, hs⟩ q' hq' => ?_
      subst hs
      obtain rfl : q' = q := List.mem_singleton.1 hq'
      exact ⟨scope, rfl, .inl hq⟩
  | update target payload scope =>
    refine .seq fun entity => ?_
    cases payload with
    | entity value =>
      refine Entity.gives_updateByKey.imp fun s ⟨_, _, _, hs⟩ => hnone ?_
      rw [hs]
      rfl
    | assignments construction =>
      refine .bind (Context.gives_block (Layer.supplies_inner scope))
        fun (_, block, _) h => .pure fun q hq => ?_
      exact ⟨scope, rfl, .inr (h.1 q hq)⟩
  | delete target payload scope =>
    refine .seq fun entity => ?_
    cases payload with
    | entity value => exact .seq fun _ => .seq fun key => .pure (hnone rfl)
    | scope =>
      refine .bind (Context.gives_block (Layer.supplies_inner scope))
        fun (_, block, _) h => .pure fun q hq => ?_
      exact ⟨scope, rfl, .inr (h.1 q hq)⟩

/-- **What is shown along the layers of a plan holds of all queries of its statement.** -/
theorem Plan.all_of_statement {P : Query → Prop} {admits : Layer → Prop} {p : Plan}
    (hplain : ∀ l, admits l → l.aggregate ≠ none → l.finishesRows = false)
    (hP : ∀ (l : Layer) nested first q, l.All admits → l.Operand schema dialect nested first →
      l.Appends schema dialect first q → P first ∧ P q)
    (hp : p.All admits) : Gives (p.statement schema dialect) (Statement.All P) := by
  refine p.gives_statement.imp fun s hs q hq => ?_
  obtain ⟨l, hl, hwrites | ⟨m, hm, hwrites⟩⟩ := hs q hq
  · exact Layer.all_of_writes hplain hP (hp l hl) hwrites
  · exact Layer.all_of_writes hplain hP ((hp l hl).part hm) hwrites

end QueryCompiler

import QueryCompiler.Proofs.Sql.AliasScope
import QueryCompiler.Proofs.Sql.OutputNames
/-!
# Columns of derived tables

A block may read a query, at its root or by a join, and refer to columns of it by name. The names
are chosen twice: where the layer of the block is planned, and where the inner layer is written.
They agree (`Plan.derived_columns`) if the plan keeps to three rules: nothing is split, joined
queries return rows, and what is read from whole rows is a column that they are exported with, or a
navigation that starts from such columns (`Layer.Transparent`).

An entity behind a navigation whose foreign key pairs no columns has no name to be read by
(`Log.compile_customersOfOrders`).
-/

namespace QueryCompiler

open Sql

/-! ## Members of whole rows -/

namespace Entity

variable {e : Entity} {m : String}

/-- Whether whole rows are exported with the column of a name. -/
def exports (e : Entity) (m : String) : Bool :=
  ((e.member? m).bind Member.column?).any fun c => !c.excluded

/-- Whether a member can be read from rows that another layer exports whole: a column that they are
exported with, or a navigation that starts from such columns. -/
def accesses (e : Entity) (m : String) : Bool :=
  e.exports m || (e.navigation? m).any fun nav => nav.foreignKey.all (·.ownerKeys.all e.exports)

theorem exists_of_exports (h : e.exports m) :
    ∃ name c, e.member? m = some ⟨name, .column c⟩ ∧ (name, c) ∈ e.columns := by
  rw [exports, Option.any_eq_true] at h
  obtain ⟨c, hc, hexcluded⟩ := h
  obtain ⟨⟨name, kind⟩, hm, hc⟩ := Option.bind_eq_some_iff.1 hc
  cases kind with
  | navigation nav => cases hc
  | column c' =>
    cases hc
    refine ⟨name, c, hm, List.mem_filterMap.2 ⟨_, mem_of_member? hm, ?_⟩⟩
    simpa using hexcluded

theorem exports_keys {name : String} {nav : Navigation} {fk : ForeignKey} (h : e.accesses m)
    (hm : e.member? m = some ⟨name, .navigation nav⟩) (hfk : nav.foreignKey = some fk) :
    ∀ key ∈ fk.ownerKeys, e.exports key = true := by
  rw [accesses, Bool.or_eq_true] at h
  rcases h with h | h
  · obtain ⟨_, _, hm', -⟩ := exists_of_exports h
    cases hm.symm.trans hm'
  · simpa [navigation?, hm, Member.navigation?, hfk] using h

end Entity

namespace Layer

variable {schema : Schema} {dialect : Dialect} {l inner : Layer} {id : Nat}

/-- Whether the first member of a path can be read, if the path starts at whole rows. -/
def opens (schema : Schema) (l : Layer) : Nat × List String → Bool
  | (id, m :: _) => (l.sourceType? id).all fun ty => (schema.get? ty).all (·.accesses m)
  | (_, []) => true

theorem accesses_of_opens {m ty : String} {rest : List String} {entity : Entity}
    (h : l.opens schema (id, m :: rest)) (hty : l.sourceType? id = some ty)
    (hentity : schema.entity ty = .ok entity) : entity.accesses m = true := by
  simpa [opens, hty, Schema.get?_of_entity hentity] using h

/-- The paths that a layer reads, but for its ordering. -/
def bodyPaths (l : Layer) : List (Nat × List String) :=
  selectPaths l.select l.includes ++ l.clausePaths ++
    (l.aggregate.bind (·.selector)).toList.flatMap Expr.paths

theorem mem_paths {p : Nat × List String} : p ∈ l.paths schema ↔
    p ∈ l.bodyPaths ∨ ∃ o ∈ l.effectiveOrders schema, p ∈ o.expr.paths := by
  simp only [paths, bodyPaths, List.mem_append, List.mem_flatMap]
  exact or_right_comm

/-- A layer that reads other layers as they are exported. -/
structure Transparent (schema : Schema) (l : Layer) : Prop where
  unsplit : l.Unsplit
  /-- queries are joined for their rows -/
  joins : ∀ j ∈ l.joins, ∀ m, j.target = .subquery m → m.any = false ∧ m.aggregate = none
  /-- members are read from whole rows of another layer only if these are exported with them -/
  body : ∀ p ∈ l.bodyPaths, (l.inner? p.1).isSome = true → l.opens schema p = true
  /-- rows are ordered only by what the layer above can read -/
  orders : ∀ o ∈ l.orders, ∀ p ∈ o.expr.paths, l.opens schema p = true

/-! ## What a layer reads -/

/-- **A path reads what the layer sees**, and asks for its first member. -/
theorem Scoped.sees_of_mem_paths (h : l.Scoped schema) {m : String} {rest : List String}
    (hp : (id, m :: rest) ∈ l.paths schema) : l.Sees id (some m) := by
  have hread {e : Expr} (he : e.Reads l.Sees none) (hp : (id, m :: rest) ∈ e.paths) :
      l.Sees id (some m) := (he.of_mem_paths hp).2 m rfl
  have hoption {o : Option Expr} (ho : ∀ e ∈ o, e.Reads l.Sees none)
      (hp : ∃ e ∈ o.toList, (id, m :: rest) ∈ e.paths) : l.Sees id (some m) := by
    obtain ⟨e, he, hp⟩ := hp
    exact hread (ho e (Option.mem_toList.1 he)) hp
  rcases mem_paths.1 hp with hp | ⟨o, ho, hp⟩
  · simp only [bodyPaths, selectPaths, clausePaths, List.mem_append, List.mem_flatMap,
      or_assoc] at hp
    rcases hp with hp | hp | ⟨j, hj, e, he, hp⟩ | hp | hp | hp | hp
    · exact hread h.select hp
    · split at hp
      · rename_i k hk
        obtain ⟨x, -, heq⟩ := List.mem_map.1 hp
        obtain ⟨rfl, -⟩ := Prod.mk.inj heq
        have hselect := h.select
        rw [hk] at hselect
        cases hselect with
        | source hsees => exact hsees.ask k m
        | composed he => cases he
      · cases hp
    · obtain ⟨i, hi⟩ := List.mem_iff_getElem?.1 hj
      have hkey := h.joins i j hi e (List.mem_append.2 he)
      exact hread (hkey.mono fun _ _ hsees => hsees.2) hp
    · exact hoption h.predicate hp
    · exact hoption h.groupBy hp
    · exact hoption h.having hp
    · refine hoption (fun e he => ?_) hp
      obtain ⟨a, ha, he⟩ := Option.bind_eq_some_iff.1 he
      exact h.aggregate a ha e he
  · rcases effectiveOrders_cases ho with ho | ⟨orders, horders, ho⟩
    · exact hread (h.orders o ho) hp
    · exact hread (reads_inheritedOrders horders o ho) hp

theorem Writes.orders_ne_source {q : Query} {nested : Bool}
    (h : inner.Writes schema dialect nested q) (hany : inner.any = false)
    (haggregate : inner.aggregate = none) : ∀ o ∈ inner.orders, ∀ k, o.expr ≠ .source k := by
  intro o ho k hk
  obtain ⟨-, keys, hgave⟩ := h.rows hany haggregate
  rw [effectiveOrders_of_orders (List.ne_nil_of_mem ho)] at hgave
  have hkeys : Gives (Context.sortKeys ⟨schema, dialect, inner⟩ inner.orders) fun keys =>
      List.Forall₂ (fun (o : Order) _ => ∀ k, o.expr ≠ .source k) inner.orders keys := by
    refine .mapM fun o _ => ?_
    have hvalue : Gives (Context.value ⟨schema, dialect, inner⟩ o.expr)
        fun _ => ∀ k, o.expr ≠ .source k := by
      intro s t s' hrun k hk
      rw [hk] at hrun
      cases hrun
    exact .bind hvalue fun _ hne => .pure hne
  obtain ⟨_, -, hne⟩ := exists_of_forall₂ (hkeys.of_gave hgave).flip o ho
  exact hne k hk

/-- **The ordering of an inner layer reads what this is exported with.** -/
theorem opens_of_inherited {q : Query} {orders : List Order} (hscoped : l.Scoped schema)
    (hinner : l.subquery = some inner) (ht : inner.Transparent schema)
    (hwrites : inner.Writes schema dialect true q) (h : l.inheritedOrders schema = some orders) :
    ∀ o ∈ orders, ∀ p ∈ o.expr.paths, l.opens schema p = true := by
  intro o ho p hp
  obtain ⟨_, o₀, hinner', ho₀, hexported⟩ := mem_inheritedOrders h ho
  cases hinner.symm.trans hinner'
  obtain ⟨name, hname, hcases⟩ := exported?_cases hexported
  obtain rfl | rfl : p = (0, [name]) ∨ p = (0, []) := by
    simpa [hname, Expr.paths, Expr.memberPath?] using hp
  swap
  · rfl
  obtain ⟨row, hrow⟩ := hscoped.derived 0 inner hinner
  cases hty : l.source with
  | none => simp [opens, sourceType?, hty]
  | some ty =>
    change inner.derivedRow schema 0 = .ok (row, l.source) at hrow
    rw [hty] at hrow
    obtain ⟨k, hk, hkty⟩ := whole_of_derivedRow hrow
    obtain ⟨hany, haggregate⟩ := hscoped.rows inner hinner
    rcases hcases with ⟨hsource, -⟩ | ⟨hs, hpath, -⟩ | ⟨k', -, hk'⟩
    · exact absurd hk (hsource k)
    · cases hs.symm.trans hk
      have hopens := ht.orders o₀ ho₀ _ (Expr.mem_paths_of_memberPath? hpath)
      have hroot : inner.source = some ty := hkty
      simpa [opens, sourceType?, hroot, hty] using hopens
    · exact absurd hk' (hwrites.orders_ne_source hany haggregate o₀ ho₀ k')

theorem opens_of_mem_paths {q : Query} (hscoped : l.Scoped schema) (hl : l.Transparent schema)
    (hinner : l.inner? id = some inner) (ht : inner.Transparent schema)
    (hwrites : inner.Writes schema dialect true q) {path : List String}
    (hp : (id, path) ∈ l.paths schema) : l.opens schema (id, path) = true := by
  rcases mem_paths.1 hp with hp | ⟨o, ho, hp⟩
  · exact hl.body _ hp (by simp [hinner])
  · rcases effectiveOrders_cases ho with ho | ⟨orders, horders, ho⟩
    · exact hl.orders o ho _ hp
    · -- an ordering that is taken over reads the root alone
      obtain rfl : id = 0 := by
        obtain ⟨_, o₀, -, -, hexported⟩ := mem_inheritedOrders horders ho
        obtain ⟨name, hname, -⟩ := exported?_cases hexported
        rw [hname] at hp
        simp only [Expr.paths, Expr.memberPath?, Option.map_some, Option.toList_some,
          List.cons_append, List.nil_append, List.mem_cons, List.not_mem_nil, or_false,
          Prod.mk.injEq] at hp
        rcases hp with ⟨hid, -⟩ | ⟨hid, -⟩ <;> exact hid
      exact opens_of_inherited hscoped hinner ht hwrites horders o ho _ hp

end Layer

/-! ## What a block reads -/

namespace Sql.Context

variable {ctx : Context} {allows : Nat × List String → Prop} {A : Aliases NavigationJoin}
  {row : Row} {id : Nat} {inner : Layer} {ref : ColumnRef} {dbType : Option DbType} {m : String}

theorem RowOf.derived_of_inner (h : ctx.RowOf A ⟨id, []⟩ row) (hnumbered : ctx.layer.Numbered)
    (hinner : ctx.layer.inner? id = some inner) : row.derived = true := by
  obtain ⟨derived, hderived, hrow⟩ := h.of_source
  rw [hrow]
  cases id with
  | zero =>
    have hsubquery : ctx.layer.subquery = some inner := hinner
    simpa [isDerived?, Layer.isDerived, hsubquery] using hderived
  | succ i =>
    obtain ⟨j, hj, htarget⟩ := Option.bind_eq_some_iff.1 hinner
    rw [isDerived?, if_neg (Nat.succ_ne_zero i), hnumbered.join?_succ, hj] at hderived
    cases ht : j.target with
    | table ty => simp [ht, JoinTarget.layer?] at htarget
    | subquery m => simpa [ht, JoinTarget.isSubquery] using hderived

/-- A member of whole rows is read under a name that they are exported with. -/
theorem name_of_column {ty : String} {entity : Entity} (h : ctx.column row m = .ok (ref, dbType))
    (hderived : row.derived) (hty : row.ty = some ty)
    (hentity : ctx.schema.entity ty = .ok entity) (haccesses : entity.accesses m) :
    ∃ c ∈ entity.columns, ref.name = c.1 := by
  unfold column at h
  rw [hty] at h
  simp only [hentity, hderived, Compiled.ok_bind] at h
  rw [Entity.accesses, Bool.or_eq_true] at haccesses
  rcases haccesses with hexports | hnavigation
  · obtain ⟨name, c, hm, hc⟩ := Entity.exists_of_exports hexports
    rw [hm] at h
    cases h
    exact ⟨_, hc, rfl⟩
  · obtain ⟨nav, hnav, -⟩ := (Option.any_eq_true _ _).1 hnavigation
    obtain ⟨⟨name, kind⟩, hm, hkind⟩ := Option.bind_eq_some_iff.1 hnav
    cases kind with
    | column c => cases hkind
    | navigation nav =>
      rw [hm] at h
      cases h

theorem Laid.eq_source {c : Chain} (h : ctx.Laid allows A) (hnumbered : ctx.layer.Numbered)
    (hrow : ctx.RowOf A c row) (hid : row.number ≤ ctx.layer.joins.length) :
    c = ⟨row.number, []⟩ := by
  obtain ⟨source, names⟩ := c
  by_cases hnames : names = []
  · subst hnames
    rw [(h.number_source hnumbered hrow).1]
  · obtain ⟨i, _, -, -, hi⟩ := h.exists_join hrow hnames
    omega

end Sql.Context

namespace Layer

variable {schema : Schema} {dialect : Dialect} {l inner : Layer} {b : Block}
  {refs : List ColumnRef} {A : Aliases NavigationJoin} {q : Query} {id : Nat}

section Inner

variable {row : Row} {ref : ColumnRef} {list : SelectList}

theorem ListsOutputs.mem_of_row {ty : String} {entity : Entity} {c : String × Column}
    (h : inner.ListsOutputs schema list) (hscoped : l.Scoped schema)
    (hinner : l.inner? id = some inner) (hty : l.sourceType? id = some ty)
    (hentity : schema.entity ty = .ok entity) (hc : c ∈ entity.columns) : c.1 ∈ list.names := by
  obtain ⟨offered, hoffered⟩ := hscoped.derived id inner hinner
  rw [← hscoped.numbered.sourceType?_eq, hty] at hoffered
  exact h.mem_of_typed hoffered hentity c hc

/-- A member that an inner layer can be asked for is read by a name that it exports. -/
theorem ListsOutputs.mem_of_column {m : String} {dbType : Option DbType}
    (h : inner.ListsOutputs schema list) (hscoped : l.Scoped schema)
    (hinner : l.inner? id = some inner) (hrow : Context.RowOf ⟨schema, dialect, l⟩ A ⟨id, []⟩ row)
    (hcolumn : Context.column ⟨schema, dialect, l⟩ row m = .ok (ref, dbType))
    (hsees : l.sourceType? id = none → l.Sees id (some m))
    (haccesses : ∀ ty entity, l.sourceType? id = some ty → schema.entity ty = .ok entity →
      entity.accesses m = true) : ref.name ∈ list.names := by
  obtain ⟨_, -, hrow'⟩ := hrow.of_source
  have hty : row.ty = l.sourceType? id := by rw [hrow']
  cases hsource : l.sourceType? id with
  | none =>
    obtain ⟨offered, hoffered⟩ := hscoped.derived id inner hinner
    rw [← hscoped.numbered.sourceType?_eq, hsource] at hoffered
    have hname : ref.name = m := by
      rw [Context.column, hty, hsource] at hcolumn
      cases hcolumn
      rfl
    exact hname ▸ h.mem_of_untyped hoffered ((hsees hsource).2 inner hinner)
  | some ty =>
    obtain ⟨entity, hentity⟩ : ∃ entity, schema.entity ty = .ok entity := by
      rw [Context.column, hty, hsource] at hcolumn
      obtain ⟨entity, hentity, -⟩ := Compiled.bind_eq_ok.1 hcolumn
      exact ⟨entity, hentity⟩
    obtain ⟨c, hc, hname⟩ := Context.name_of_column hcolumn
      (hrow.derived_of_inner hscoped.numbered hinner) (hty.trans hsource) hentity
      (haccesses ty entity hsource hentity)
    exact hname ▸ h.mem_of_row hscoped hinner hsource hentity hc

end Inner

theorem inner?_le (h : l.inner? id = some inner) : id ≤ l.joins.length := by
  cases id with
  | zero => exact Nat.zero_le _
  | succ i =>
    obtain ⟨j, hj, -⟩ := Option.bind_eq_some_iff.1 h
    exact (List.getElem?_eq_some_iff.1 hj).1

section Opened

variable {list : SelectList} {ref : ColumnRef}
  (h : l.Rendered schema dialect (· ∈ l.paths schema) b refs A) (hscoped : l.Scoped schema)
  (hinner : l.inner? id = some inner) (hlist : inner.ListsOutputs schema list)
  (hopens : ∀ m rest, (id, m :: rest) ∈ l.paths schema → ∀ ty entity, l.sourceType? id = some ty →
    schema.entity ty = .ok entity → entity.accesses m = true)

include h hscoped hinner hlist hopens

theorem Rendered.mem_names_of_denotes {p : Nat × List String} (hp : p ∈ l.paths schema)
    (hdenotes : Context.Denotes ⟨schema, dialect, l⟩ A p ref) (hid : ref.row = id) :
    ref.name ∈ list.names := by
  obtain ⟨names, row, -, hrow, hnumber, hcases⟩ := hdenotes.exists_row h.grows.keys_prefix
  have hrow' : row.number = id := hnumber.symm.trans hid
  have hchain := (h.toRenders.laid hscoped.numbered).eq_source hscoped.numbered hrow
    (hrow' ▸ inner?_le hinner)
  rw [hrow'] at hchain
  obtain ⟨k, path⟩ := p
  obtain ⟨rfl, rfl⟩ := Chain.mk.inj hchain
  rcases hcases rfl with ⟨ty, entity, hty, hentity, c, hc, hname⟩ | ⟨m, dbType, rfl, hcolumn⟩
  · rw [hrow.derived_of_inner hscoped.numbered hinner, if_pos rfl] at hname
    obtain ⟨_, -, hsource⟩ := hrow.of_source
    rw [hsource] at hty
    exact hname ▸ hlist.mem_of_row hscoped hinner hty hentity hc
  · exact hlist.mem_of_column hscoped hinner hrow hcolumn (fun _ => hscoped.sees_of_mem_paths hp)
      (hopens m [] hp)

theorem Rendered.mem_names_of_navigation {n : NavigationJoin} (hn : n ∈ b.navigations)
    (hmem : ref ∈ n.refs) (hid : ref.row = id) : ref.name ∈ list.names := by
  have hlaid := h.toRenders.laid hscoped.numbered
  have hle := inner?_le hinner
  rw [h.navigations] at hn
  obtain ⟨i, hi⟩ := List.mem_iff_getElem?.1 hn
  obtain ⟨hnumber, c, row, ty, member, name, nav, fk, target, before, behind, hp, hbefore, hrow,
    hty, hop, -, -, hon⟩ := hlaid.joins i n hi
  obtain ⟨⟨left, right⟩, hpair, hmem⟩ := List.mem_flatMap.1 hmem
  obtain ⟨hright, key, hkey, dbType, hleft⟩ := Context.mem_of_keyColumns hon hpair
  -- the rows behind the navigation have another number
  have hown : ref ≠ right := by
    rintro rfl
    dsimp only at hnumber
    omega
  obtain rfl : ref = left := by simpa [hown] using hmem
  -- so that the navigation starts at the inner layer, by an allowed path
  have hrow' : row.number = id := (Context.row_of_column hleft).symm.trans hid
  have hchain := hlaid.eq_source hscoped.numbered hrow (hrow' ▸ hle)
  rw [hrow'] at hchain
  subst hchain
  obtain rfl : before = [] := List.length_eq_zero_iff.1 hbefore
  obtain ⟨_, -, hsource⟩ := hrow.of_source
  have hty' : l.sourceType? id = some ty := by
    rw [hsource] at hty
    exact hty
  obtain ⟨owner, howner, hmember⟩ := hop.declared
  refine hlist.mem_of_column hscoped hinner hrow hleft (fun hnone => ?_)
    fun ty' entity hty'' hentity => ?_
  · cases hty'.symm.trans hnone
  · cases hty'.symm.trans hty''
    cases howner.symm.trans hentity
    have haccesses := hopens member behind hp ty owner hty' howner
    simp [Entity.accesses, Entity.exports_keys haccesses hmember hop.key key hkey]

end Opened

/-- **What a layer reads by the number of an inner layer, this is written with.** -/
theorem Rendered.mem_names (h : l.Rendered schema dialect (· ∈ l.paths schema) b refs A)
    (hkeys : schema.KeysPaired) (hscoped : l.Scoped schema) (hl : l.Transparent schema)
    (hinner : l.inner? id = some inner) (ht : inner.Transparent schema)
    (hrows : inner.any = false ∧ inner.aggregate = none)
    (hwrites : inner.Writes schema dialect true q) :
    ∀ ref ∈ refs ++ b.refs, ref.row = id → ref.name ∈ q.selectList.names := by
  intro ref href hid
  have hlist := hwrites.listsOutputs hkeys hrows.1 hrows.2
  have hopens (m : String) (rest : List String) (hp : (id, m :: rest) ∈ l.paths schema)
      (ty : String) (entity : Entity) (hty : l.sourceType? id = some ty)
      (hentity : schema.entity ty = .ok entity) : entity.accesses m = true :=
    accesses_of_opens (opens_of_mem_paths hscoped hl hinner ht hwrites hp) hty hentity
  rcases h.refers (fun _ hp => hp) ref href with ⟨p, hp, hdenotes⟩ | ⟨n, hn, hmem⟩
  · exact h.mem_names_of_denotes hscoped hinner hlist hopens hp hdenotes hid
  · exact h.mem_names_of_navigation hscoped hinner hlist hopens hn hmem hid

end Layer

/-! ## Statements -/

/-- The columns that a block refers to by the row of a query, the query exports: at its root and in
its joins. -/
structure Sql.Block.ReadsExported (b : Block) (refs : List ColumnRef) : Prop where
  root : ∀ q, b.relation = .derived q →
    ∀ ref ∈ refs ++ b.refs, ref.row = 0 → ref.name ∈ q.selectList.names
  joined : ∀ r ∈ b.joins, ∀ q, r.relation = .derived q →
    ∀ ref ∈ refs ++ b.refs, ref.row = r.row → ref.name ∈ q.selectList.names

theorem Layer.Rendered.readsExported {schema : Schema} {dialect : Dialect} {l : Layer} {b : Block}
    {refs : List ColumnRef} {A : Aliases NavigationJoin}
    (h : l.Rendered schema dialect (· ∈ l.paths schema) b refs A) (hkeys : schema.KeysPaired)
    (hscoped : l.Scoped schema) (hl : l.All (Transparent schema)) : b.ReadsExported refs where
  root q hq := by
    obtain ⟨m, hm, hwrites⟩ := h.relation q (by rw [hq]; rfl)
    have ht := (hl.part (mem_parts.2 (.inl hm))).self
    have hinner : l.inner? 0 = some m := hm
    exact h.mem_names hkeys hscoped hl.self hinner ht (hscoped.rows m hm) hwrites
  joined r hr q hq := by
    obtain ⟨i, hi⟩ := List.mem_iff_getElem?.1 hr
    obtain ⟨j, hj, hrenders⟩ := getElem?_of_forall₂ h.joins hi
    obtain ⟨m, hm, hwrites⟩ := hrenders.relation q (by rw [hq]; rfl)
    have hmem : j ∈ l.joins := List.mem_of_getElem? hj
    have hlayer : j.target.layer? = some m := by rw [hm]; rfl
    have ht := (hl.part (mem_parts.2 (.inr (.inl ⟨j, hmem, hlayer⟩)))).self
    have hinner : l.inner? (i + 1) = some m := by
      change (l.joins[i]?).bind (·.target.layer?) = some m
      rw [show l.joins[i]? = some j from hj, Option.bind_some, hlayer]
    rw [hrenders.row_eq (h.toRenders.laid hscoped.numbered) hscoped.numbered h.grows.keys_prefix,
      hscoped.numbered i j hj]
    exact h.mem_names hkeys hscoped hl.self hinner ht (hl.self.joins j hmem m hm) hwrites

def Log.firstOrders : Log :=
  [.getSource "Order", .orderBy ⟨["o"], .member (.param "o") "Id"⟩, .take 5,
    .filter ⟨["o"], .binary .eq (.member (.member (.param "o") "Customer") "RegionId")
      (.constant (.int 1))⟩,
    .joinOf .join [.getSource "Customer", .select ⟨["c"], .object none
        [⟨"Key", .member (.param "c") "Id"⟩, ⟨"Name", .member (.param "c") "Name"⟩]⟩]
      ⟨["o"], .member (.param "o") "CustomerId"⟩ ⟨["c"], .member (.param "c") "Key"⟩
      ⟨["o", "c"], .object none
        [⟨"Id", .member (.param "o") "Id"⟩, ⟨"Name", .member (.param "c") "Name"⟩]⟩]

namespace Layer

def firstFive : Layer :=
  { ofSource "Order" with orders := [⟨.member (.source 0) "Id", false⟩], take := 5 }

def customerNames : Layer :=
  { ofSource "Customer" with
    select := .object none
      [⟨"Key", .member (.source 0) "Id"⟩, ⟨"Name", .member (.source 0) "Name"⟩] }

def firstOrders : Layer :=
  { ofLayer (some "Order") firstFive with
    joins := [⟨.inner, 1, .subquery customerNames, none, [.member (.source 0) "CustomerId"],
      [.member (.source 1) "Key"]⟩]
    predicate := some (.binary .eq (.member (.member (.source 0) "Customer") "RegionId")
      (.constant (.int 1)))
    select := .object none
      [⟨"Id", .member (.source 0) "Id"⟩, ⟨"Name", .member (.source 1) "Name"⟩] }

theorem transparent_firstOrders : firstOrders.All (Transparent Schema.orders) := by
  refine all_of_parts ⟨rfl, ?_, by decide, by decide⟩ fun m hm => ?_
  · intro j hj m hm
    obtain rfl := List.mem_singleton.1 hj
    cases hm
    exact ⟨rfl, rfl⟩
  · have hparts : firstOrders.parts = [firstFive, customerNames] := rfl
    obtain rfl | rfl : m = firstFive ∨ m = customerNames := by simpa [hparts] using hm
    all_goals
      refine all_of_parts ⟨rfl, by rintro _ ⟨⟩, by decide, by decide⟩ ?_
      rintro _ ⟨⟩

end Layer

def Schema.unkeyedOrders : Schema :=
  (Schema.empty.register ⟨"Order", "orders",
    [⟨"Id", .column (.new "id" .int)⟩,
      ⟨"Customer", .navigation ⟨"Customer", false, some ⟨[], []⟩⟩⟩]⟩).register
    ⟨"Customer", "customers",
      [⟨"Id", .column (.new "id" .int)⟩, ⟨"Name", .column (.new "name" .nVarChar)⟩]⟩

def Log.customersOfOrders : Log :=
  [.getSource "Order", .select ⟨["o"], .member (.param "o") "Customer"⟩, .asSubquery,
    .select ⟨["c"], .object none [⟨"C", .param "c"⟩]⟩]

def Layer.customersOfOrders : Layer :=
  { ofLayer none { ofSource "Order" with select := .member (.source 0) "Customer" } with
    select := .object none [⟨"C", .member (.source 0) "Customer"⟩] }

theorem Layer.transparent_customersOfOrders :
    customersOfOrders.All (Transparent Schema.unkeyedOrders) := by
  refine all_of_parts ⟨rfl, by rintro _ ⟨⟩, by decide, by decide⟩ fun m hm => ?_
  obtain rfl := List.mem_singleton.1 hm
  refine all_of_parts ⟨rfl, by rintro _ ⟨⟩, by decide, by decide⟩ ?_
  rintro _ ⟨⟩

end QueryCompiler

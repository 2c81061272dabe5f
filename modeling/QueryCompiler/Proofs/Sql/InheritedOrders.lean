import QueryCompiler.Proofs.Plan.JoinSpellings
import QueryCompiler.Proofs.Sql.RowNumbers
import QueryCompiler.Proofs.Sql.UndeclaredMembers
import QueryCompiler.Proofs.Sql.Unions
/-!
# Orderings across boundaries

A bound on the number of rows closes a layer, and the next operator starts one above it. The
ordering stays in the layer that declared it. A layer without an ordering of its own takes over that
of the layer it reads, when it is written: the ordering that this layer declares, not one that it
takes over itself. So an ordering crosses one boundary and no second one.

`Layer.OrderedBelow` is a chain of layers over ordered rows, with the number of boundaries between
them and the ordering. Tests and bounds keep it (`Draft.OrderedBelow.step`), and the number alone
tells what the outermost query is ordered by (`Log.orderText_behind_boundaries`).
-/

namespace QueryCompiler

open Compiled (bind_eq_ok pure_eq_ok ok_bind)

open Sql
open Script (say)

variable {schema : Schema} {config : Config} {ty c : String}

/-- Whether an operator keeps some of the rows and changes none: it tests them, or bounds their
number. -/
def Operator.keepsRows (op : Operator) : Bool :=
  op.kind == .filter || (op.kind == .take && decide (0 < op.rowCount?.getD 0))

/-- The number of bounds that another operator follows. Each of them closes a layer. -/
def Log.boundaries (log : Log) : Nat :=
  log.dropLast.countP (·.kind == .take)

theorem Log.boundaries_cons (op : Operator) (ops : Log) : Log.boundaries (op :: ops) =
    (if op.kind = .take ∧ ops ≠ [] then 1 else 0) + ops.boundaries := by
  cases ops with
  | nil => simp [boundaries]
  | cons next ops => simp [boundaries, List.dropLast, List.countP_cons, Nat.add_comm]

def Order.byMember (c : String) : Order := ⟨.member (.source 0) c, false⟩

/-! ## Chains of layers -/

namespace Layer

variable {l : Layer} {n : Nat}

/-- A layer returns the rows of an entity type that it reads, if not all of them. -/
structure KeepsRows (ty : String) (l : Layer) : Prop where
  source : l.source = some ty
  joins : l.joins = []
  unions : l.unions = []
  includes : l.includes = []
  groupBy : l.groupBy = none
  aggregate : l.aggregate = none
  any : l.any = false
  distinct : l.distinct = false
  skip : l.skip = 0

/-- **Layers over ordered rows**: the ordering by a member is declared so many boundaries below, and
by no layer above it. -/
inductive OrderedBelow (ty c : String) : Nat → Layer → Prop where
  | declared {l : Layer} (hrows : l.KeepsRows ty) (hsubquery : l.subquery = none)
    (horders : l.orders = [.byMember c]) : OrderedBelow ty c 0 l
  | above {n : Nat} {l inner : Layer} (hrows : l.KeepsRows ty) (hsubquery : l.subquery = some inner)
    (horders : l.orders = []) (hselect : inner.select = .source 0)
    (hinner : OrderedBelow ty c n inner) : OrderedBelow ty c (n + 1) l

namespace OrderedBelow

theorem keepsRows (h : l.OrderedBelow ty c n) : l.KeepsRows ty := by
  cases h with
  | declared hrows => exact hrows
  | above hrows => exact hrows

theorem congr {m : Layer} (h : l.OrderedBelow ty c n) (hrows : m.KeepsRows ty)
    (hsubquery : m.subquery = l.subquery) (horders : m.orders = l.orders) :
    m.OrderedBelow ty c n := by
  cases h with
  | declared _ hnone hdeclared =>
    exact .declared hrows (hsubquery.trans hnone) (horders.trans hdeclared)
  | above _ hsome hundeclared hselect hinner =>
    exact .above hrows (hsubquery.trans hsome) (horders.trans hundeclared) hselect hinner

theorem isDerived_eq (h : l.OrderedBelow ty c n) : l.isDerived = decide (0 < n) := by
  cases h with
  | declared _ hsubquery => simp [isDerived, hsubquery]
  | above _ hsubquery => simp [isDerived, hsubquery]

theorem orders_eq (h : l.OrderedBelow ty c n) :
    l.orders = if n = 0 then [.byMember c] else [] := by
  cases h with
  | declared _ _ horders => exact horders
  | above _ _ horders => exact horders

/-- **The ordering of a layer is the declared one up to one boundary above it.** Behind a second
boundary the layer reads one that declares no ordering, and has none. -/
theorem effectiveOrders_eq {entity : Entity} (h : l.OrderedBelow ty c n)
    (hentity : schema.get? ty = some entity)
    (hcolumn : ((entity.member? c).bind Member.column?).isSome) :
    l.effectiveOrders schema = if n ≤ 1 then [.byMember c] else [] := by
  cases h with
  | declared _ _ horders => simp [effectiveOrders, horders]
  | @above n _ inner hrows hsubquery horders hselect hinner =>
    have hexported : inner.exported? schema (Order.byMember c).expr =
        some (.member (.source 0) c) := by
      have hpath : (Expr.member (.source 0) c).memberPath? = some (0, [c]) := rfl
      simp [exported?, hselect, Order.byMember, hpath, hinner.keepsRows.source, hentity, hcolumn]
    have hinherited : l.inheritedOrders schema = some inner.orders := by
      rw [inheritedOrders, hsubquery, Option.bind_eq_bind, Option.bind_some, hinner.orders_eq]
      split
      · rw [List.mapM_cons, hexported]
        rfl
      · rfl
    have heffective : l.effectiveOrders schema = inner.orders := by
      simp [effectiveOrders, horders, hrows.unions, hrows.distinct, hrows.groupBy, hinherited]
    rw [heffective, hinner.orders_eq]
    simp

end OrderedBelow

end Layer

/-! ## Drafts -/

namespace Draft

variable {d d' : Draft} {n : Nat} {op : Operator} {nested : Log → Compiled Layer}

/-- A draft of layers over ordered rows, which only a bound closes. -/
structure OrderedBelow (ty c : String) (n : Nat) (d : Draft) : Prop where
  layer : d.layer.OrderedBelow ty c n
  row : d.row = .source 0
  grouped : d.grouped = false
  skipped : d.skipped = false
  closed : d.closed = false
  modification : d.modification = none

namespace OrderedBelow

theorem mustClose_eq (h : d.OrderedBelow ty c n) (kind : OpKind) : d.mustClose kind = d.taken := by
  simp [mustClose, h.grouped, h.skipped, h.closed, h.layer.keepsRows.unions]

theorem finished_select (h : d.OrderedBelow ty c n) : d.finished.select = .source 0 := by
  simp [finished, h.row]

theorem finished (h : d.OrderedBelow ty c n) : d.finished.OrderedBelow ty c n := by
  have hrows := h.layer.keepsRows
  refine h.layer.congr { hrows with includes := ?_ } rfl rfl
  simp [Draft.finished, hrows.includes]

/-- A closed layer is one boundary further up. -/
theorem wrap (h : d.OrderedBelow ty c n) (hwrap : d.wrap schema = .ok d') :
    d'.OrderedBelow ty c (n + 1) ∧ d'.taken = false := by
  obtain ⟨row, source, hderived, rfl⟩ := wrap_eq_ok hwrap
  have hfinished := h.finished
  have hincludes : { d.finished with includes := [] } = d.finished := by
    have hnone := hfinished.keepsRows.includes
    generalize d.finished = l at hnone ⊢
    obtain ⟨clauses, subquery, joins, unions⟩ := l
    cases clauses
    cases hnone
    rfl
  rw [hincludes] at hderived ⊢
  rcases Layer.derivedRow_cases hderived with ⟨k, hk, rfl, rfl⟩ | ⟨_, _, hk, -⟩ | ⟨hk, -⟩
  · obtain rfl : k = 0 := by simpa [h.finished_select] using hk.symm
    refine ⟨⟨.above ?_ rfl rfl h.finished_select hfinished, rfl, rfl, rfl, rfl, rfl⟩, rfl⟩
    exact ⟨hfinished.keepsRows.source, rfl, rfl, hfinished.keepsRows.includes, rfl, rfl, rfl, rfl, rfl⟩
  · simp [h.finished_select] at hk
  · exact absurd h.finished_select (hk 0)

/-- A test or a bound leaves the chain of layers as it is. -/
theorem apply (h : d.OrderedBelow ty c n) (hopen : d.taken = false) (hop : op.keepsRows)
    (happly : d.apply schema nested op = .ok d') :
    d'.OrderedBelow ty c n ∧ d'.taken = decide (op.kind = .take) := by
  simp only [Operator.keepsRows, Bool.or_eq_true, beq_iff_eq, Bool.and_eq_true,
    decide_eq_true_eq] at hop
  rcases hop with hkind | ⟨hkind, hcount⟩
  · simp only [Draft.apply, hkind, bind_eq_ok, pure_eq_ok] at happly
    obtain ⟨l, -, test, -, rfl⟩ := happly
    rw [restrict, if_neg (by simp [h.grouped])]
    refine ⟨⟨h.layer, h.row, h.grouped, h.skipped, h.closed, h.modification⟩, ?_⟩
    simp [hkind, hopen]
  · simp only [Draft.apply, hkind, Except.ok.injEq] at happly
    subst happly
    have hrows := h.layer.keepsRows
    refine ⟨⟨h.layer.congr { hrows with } rfl rfl, h.row, h.grouped, h.skipped, h.closed,
      h.modification⟩, ?_⟩
    simp [Draft.take, hkind, hcount]

/-- **What one operator makes of a chain of layers.** Behind a bound it starts a layer further up. -/
theorem step (h : d.OrderedBelow ty c n) (hop : op.keepsRows)
    (hstep : d.step schema nested op = .ok d') :
    d'.OrderedBelow ty c (if d.taken then n + 1 else n) ∧
      d'.taken = decide (op.kind = .take) := by
  obtain ⟨hterminal, d₁, hopened, hstep⟩ := step_iff.1 hstep
  have h₁ : d₁.OrderedBelow ty c (if d.taken then n + 1 else n) ∧ d₁.taken = false := by
    rcases opened_eq_ok hopened with ⟨hclose, hwrap⟩ | ⟨hopen, rfl⟩
    · rw [h.mustClose_eq] at hclose
      rw [if_pos hclose]
      exact h.wrap hwrap
    · rw [h.mustClose_eq] at hopen
      rw [if_neg (by simp [hopen])]
      exact ⟨h, hopen⟩
  obtain ⟨horder, htaken⟩ := h₁
  rw [step_of_open (terminal_opened hopened hterminal) (mustClose_opened hopened)] at hstep
  obtain ⟨d₂, happly, hcounted⟩ := bind_eq_ok.1 hstep
  cases hcounted
  obtain ⟨h₂, htaken₂⟩ := horder.apply htaken hop happly
  exact ⟨⟨h₂.layer, h₂.row, h₂.grouped, h₂.skipped, h₂.closed, h₂.modification⟩, htaken₂⟩

/-- **What tests and bounds make of a chain of layers.** A bound ahead of them counts too, if an
operator follows it. -/
theorem run {ops : Log} (h : d.OrderedBelow ty c n) (hops : ∀ op ∈ ops, op.keepsRows = true)
    (hrun : ops.foldlM (Draft.step schema nested) d = .ok d') :
    d'.OrderedBelow ty c
      (n + (if d.taken = true ∧ ops ≠ [] then 1 else 0) + ops.boundaries) := by
  induction ops generalizing d n with
  | nil =>
    cases hrun
    simpa [Log.boundaries] using h
  | cons op ops ih =>
    rw [List.foldlM_cons] at hrun
    obtain ⟨d₁, hstep, hrun⟩ := bind_eq_ok.1 hrun
    obtain ⟨h₁, htaken⟩ := h.step (hops op (by simp)) hstep
    have hfinal := ih h₁ (fun op hop => hops op (by simp [hop])) hrun
    simp only [htaken, decide_eq_true_eq] at hfinal
    have hcount : n + (if d.taken = true ∧ op :: ops ≠ [] then 1 else 0) +
        Log.boundaries (op :: ops) = (if d.taken = true then n + 1 else n) +
          (if op.kind = .take ∧ ops ≠ [] then 1 else 0) + Log.boundaries ops := by
      rw [Log.boundaries_cons]
      cases d.taken <;> simp <;> omega
    rw [hcount]
    exact hfinal

end OrderedBelow

theorem orderedBelow_ordered {x : String} (hstep : (ofSource ty).step schema nested
      (.orderBy ⟨[x], .member (.param x) c⟩) = .ok d) :
    d.OrderedBelow ty c 0 ∧ d.taken = false := by
  rw [step_of_open rfl rfl] at hstep
  obtain ⟨d₁, happly, hcounted⟩ := bind_eq_ok.1 hstep
  cases hcounted
  have hkey : (ofSource ty).bindRow ⟨[x], .member (.param x) c⟩ = .ok (.member (.source 0) c) :=
    Expr.bind_member (Expr.reduced_source 0) rfl x c
  have horder : (ofSource ty).order (.orderBy ⟨[x], .member (.param x) c⟩) false = .ok d₁ := happly
  simp only [order, addOrders, bind_eq_ok, pure_eq_ok] at horder
  obtain ⟨l, hl, key, hbind, rfl⟩ := horder
  cases hl
  cases hkey.symm.trans hbind
  exact ⟨⟨.declared ⟨rfl, rfl, rfl, rfl, rfl, rfl, rfl, rfl, rfl⟩ rfl rfl, rfl, rfl, rfl, rfl, rfl⟩,
    rfl⟩

end Draft

/-! ## Statements -/

namespace Sql

theorem Context.Laid.get?_root {ctx : Context} {allows : Nat × List String → Prop}
    {A : Aliases NavigationJoin} (h : ctx.Laid allows A) : A.get? (sourceKey 0) = some 0 :=
  Aliases.get?_of_nodup h.nodup (h.getElem?_source (Nat.zero_le _))

/-- The `ORDER BY` of a query as text, if it has one that no parentheses enclose. -/
def Query.orderText (config : Config) : Query → String
  | rows _ _ keys _ skip take nested => config.write (config.layout.orderClause keys skip take nested)
  | _ => ""

/-- Rows that none are passed over of show their ordering, if they are the outermost. -/
theorem Layout.orderClause_single (o : Layout) (ref : ColumnRef) (take : Nat) :
    o.orderClause [⟨.column ref, false⟩] 0 take false =
      say " ORDER BY " ++ (say (ref.text o.dialect) ++ say "") := by
  simp [orderClause, numbersRows, orders, term, Term.script, Script.joined]

end Sql

namespace Layer

variable {l : Layer} {entity : Entity} {dialect : Dialect} {name : String} {col : Column}
  {A : Aliases NavigationJoin} {keys : List SortKey}

/-- The ordering by a member of the root is one by its column: of the table, or of the rows that an
inner layer exports. -/
theorem sortKeys_byMember (hsource : l.source = some ty) (hentity : schema.entity ty = .ok entity)
    (hmember : entity.member? c = some ⟨name, .column col⟩) (hroot : A.get? (sourceKey 0) = some 0)
    (h : ReadsIn A (Context.sortKeys ⟨schema, dialect, l⟩ [.byMember c]) keys) :
    keys = [⟨.column ⟨0, if l.isDerived then name else col.column⟩, false⟩] := by
  obtain ⟨constants, constants', hrun⟩ := h
  have hnavigation : entity.navigation? c = none := by
    simp [Entity.navigation?, hmember, Member.navigation?]
  have hread : (Context.sortKeys ⟨schema, dialect, l⟩ [.byMember c]).run ⟨A, constants⟩ =
      .ok ([⟨.column ⟨0, if l.isDerived then name else col.column⟩, false⟩], ⟨A, constants⟩) := by
    simp [Context.sortKeys, Context.value, Order.byMember,
      read_rootMember hsource hentity hnavigation, Context.request_of_get? hroot, Context.column,
      rootRow, hentity, hmember, ok_bind]
    rfl
  rw [hread] at hrun
  cases hrun
  rfl

/-- **The ordering of a layer over ordered rows, as text**: by the column of the table where the
ordering is declared, by the column that the rows are exported with one boundary above, and none
above that. -/
theorem OrderedBelow.orderText_eq {n : Nat} {q : Query} (h : l.OrderedBelow ty c n)
    (hnumbered : l.Numbered) (hentity : schema.entity ty = .ok entity)
    (hmember : entity.member? c = some ⟨name, .column col⟩)
    (hwrites : l.Writes schema config.dialect false q) :
    q.orderText config = (if n ≤ 1 then
        " ORDER BY " ++ ColumnRef.text config.dialect ⟨0, if n = 0 then col.column else name⟩
      else "") ∧ (q.AppendsOrder config.layout ↔ n ≤ 1) := by
  have hrows := h.keepsRows
  obtain ⟨first, hfirst, happends⟩ := writes_cases hwrites
  rcases happends with ⟨-, rfl⟩ | ⟨hunions, -⟩
  swap
  · exact absurd hrows.unions hunions
  cases hfirst with
  | @rows block list keys _ _ _ _ hblock =>
    obtain ⟨A, hrenders, -, hkeys⟩ := readsIn_of_rows hblock
    have hroot : A.get? (sourceKey 0) = some 0 := (hrenders.laid hnumbered).get?_root
    have hcolumn : ((entity.member? c).bind Member.column?).isSome = true := by
      simp [hmember, Member.column?]
    rw [h.effectiveOrders_eq (Schema.get?_of_entity hentity) hcolumn] at hkeys
    rw [Query.appendsOrder_rows, Query.orderText, hrows.skip]
    by_cases hn : n ≤ 1
    · rw [if_pos hn] at hkeys
      rw [sortKeys_byMember hrows.source hentity hmember hroot hkeys, h.isDerived_eq]
      have hname : (if decide (0 < n) = true then name else col.column) =
          if n = 0 then col.column else name := by
        cases n <;> simp
      rw [hname]
      refine ⟨?_, ?_⟩
      · simp [hn, Layout.orderClause_single, Config.write, Script.text_append, Config.layout]
      · simp [hn, Layout.orderClause_single, say]
    · rw [if_neg hn] at hkeys
      obtain ⟨_, _, hrun⟩ := hkeys
      cases hrun
      simp [hn, Layout.orderClause, Layout.numbersRows, Config.write, Script.text]
  | existence hany => rw [hrows.any] at hany; cases hany
  | aggregate ha | aggregateOver ha => rw [hrows.aggregate] at ha; cases ha

end Layer

/-! ## Logs -/

theorem Plan.writes_of_select {l : Layer} {dialect : Dialect} {statement : Statement}
    {constants : List Constant}
    (h : (Plan.select l).numberedStatement schema dialect = .ok (statement, constants)) :
    ∃ q, statement = .query q ∧ l.Writes schema dialect false q := by
  obtain ⟨⟨_, scope⟩, hrun, hst⟩ := bind_eq_ok.1 h
  cases hst
  obtain ⟨⟨q, scope'⟩, hq, hst⟩ := bind_eq_ok.1 hrun
  cases hst
  exact ⟨q, rfl, _, _, hq⟩

theorem Plan.ofLog_ordered {x : String} {ops : Log} {p : Plan}
    (hops : ∀ op ∈ ops, op.keepsRows = true)
    (h : Plan.ofLog schema (.getSource ty :: .orderBy ⟨[x], .member (.param x) c⟩ :: ops) =
      .ok p) : ∃ l, p = .select l ∧ l.OrderedBelow ty c (Log.boundaries ops) := by
  obtain ⟨d, hd, hplan⟩ := Plan.ofLog_eq_ok.1 h
  obtain ⟨-, d₀, rest, hstart, hrun⟩ := Draft.ofLog_eq_ok_iff.1 hd
  obtain ⟨_, -, hstart⟩ := bind_eq_ok.1 hstart
  cases hstart
  rw [List.foldlM_cons] at hrun
  obtain ⟨d₁, hstep, hrun⟩ := bind_eq_ok.1 hrun
  obtain ⟨hordered, htaken⟩ := Draft.orderedBelow_ordered hstep
  have hd : d.OrderedBelow ty c (Log.boundaries ops) := by
    simpa [htaken] using hordered.run hops hrun
  rw [Draft.plan, hd.modification] at hplan
  obtain ⟨l, hl, hp⟩ := bind_eq_ok.1 hplan
  cases hp
  -- whole rows are returned, so nothing is split off
  have hrow : d.finished.derivedRow schema 0 = .ok (.source 0, some ty) := by
    have hsource : d.finished.sourceType? 0 = some ty := hd.finished.keepsRows.source
    rw [Layer.derivedRow, hd.finished_select]
    exact hsource ▸ rfl
  rw [Layer.separateCollections_eq_self hrow hd.finished.keepsRows.includes hl]
  exact ⟨_, rfl, hd.finished⟩

def Operator.laterBooks : Operator :=
  .filter ⟨["b"], .binary .gt (.member (.param "b") "Id") (.constant (.int 1))⟩

end QueryCompiler

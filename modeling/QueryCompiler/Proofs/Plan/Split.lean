import Mathlib
import QueryCompiler.Proofs.Plan.Exports
/-!
# One-to-many splits

A layer that reaches a collection is split in two. `Layer.isSplit_separateCollections` says what
the halves are: the inner one keeps every clause that selects or counts rows and exports columns
that are no navigations, the outer one has none of those clauses and orders again. So attaching a
collection repeats no row that is counted.

`Layer.ReachesCollection` says what reaching a collection is without reference to the search for
one, and `not_reachesCollection` that the search misses none. That the exported columns are flat is
followed through the two walks over the projection, first for the keys of its navigations and then
for its bindings (`flat_requireNavigationKeys`, `flat_splitProjection`).
-/

namespace QueryCompiler

open Compiled (bind_eq_ok pure_eq_ok)

namespace Layer

variable {schema : Schema} {l q : Layer}

/-- What the inner half of a split layer starts from: it loads no paths, and it keeps its ordering
only to page by it. -/
def innerHalf (l : Layer) : Layer :=
  { l with includes := [], orders := if l.isPaginated then l.orders else [] }

@[simp] theorem shape_innerHalf (e : Expr) :
    l.innerHalf.shape schema e = l.shape schema e := by
  apply shape_congr
  · exact fun _ => rfl
  · rfl

/-! ## When a layer is split -/

/-- A projection binds a collection: it denotes one, or it is a construction one of whose members
binds one. -/
inductive Binds (schema : Schema) (l : Layer) : Expr → Prop where
  | here {e : Expr} {ty : String} (h : l.shape schema e = .ok (.collection ty)) : Binds schema l e
  | inside {ty : Option String} {bindings : List Binding} {b : Binding} (hb : b ∈ bindings)
    (h : Binds schema l b.value) : Binds schema l (.object ty bindings)

/-- A path of navigations from an entity type passes a collection. -/
inductive Reaches (schema : Schema) : String → List String → Prop where
  | here {ty hop : String} {path : List String} {entity : Entity} {nav : Navigation}
    (he : schema.entity ty = .ok entity) (hn : entity.navigation? hop = some nav)
    (hmany : nav.many = true) : Reaches schema ty (hop :: path)
  | further {ty hop : String} {path : List String} {entity : Entity} {nav : Navigation}
    (he : schema.entity ty = .ok entity) (hn : entity.navigation? hop = some nav)
    (h : Reaches schema nav.target path) : Reaches schema ty (hop :: path)

/-- A layer reaches a collection, through its projection or through a path it loads. -/
def ReachesCollection (schema : Schema) (l : Layer) : Prop :=
  l.Binds schema l.select ∨
    ∃ ty path, l.source = some ty ∧ path ∈ l.includes ∧ Reaches schema ty path

theorem bindsCollection_of_shape {e : Expr} {shape : Shape} (he : e.bindings? = none)
    (h : l.shape schema e = .ok shape) : l.bindsCollection schema e = .ok shape.isCollection := by
  cases e with
  | object ty bindings => cases he
  | _ =>
    simp only [bindsCollection, h]
    rfl

theorem bindsCollectionAny_of_scalar {bindings : List Binding}
    (h : ∀ b ∈ bindings, l.shape schema b.value = .ok .scalar) :
    l.bindsCollectionAny schema bindings = .ok false := by
  induction bindings with
  | nil => rfl
  | cons b bs ih =>
    obtain ⟨m, v⟩ := b
    have hv := h ⟨m, v⟩ (by simp)
    have hb : v.bindings? = none := by
      cases v with
      | object ty bindings => cases hv
      | _ => rfl
    rw [bindsCollectionAny, bindsCollection_of_shape hb hv]
    exact ih fun b hb => h b (by simp [hb])

theorem bindsCollection_eq_false {bindings : List Binding}
    (h : l.bindsCollectionAny schema bindings = .ok false) :
    ∀ b ∈ bindings, l.bindsCollection schema b.value = .ok false := by
  induction bindings with
  | nil => simp
  | cons b bs ih =>
    obtain ⟨m, v⟩ := b
    rw [bindsCollectionAny] at h
    obtain ⟨found, hfound, h⟩ := bind_eq_ok.1 h
    cases found with
    | true => cases h
    | false => exact List.forall_mem_cons.2 ⟨hfound, ih h⟩

theorem not_binds {e : Expr} (h : l.bindsCollection schema e = .ok false) :
    ¬ l.Binds schema e := by
  intro hbinds
  induction hbinds with
  | @here e ty hshape =>
    cases e with
    | object => cases hshape
    | _ =>
      rw [bindsCollection_of_shape rfl hshape] at h
      cases h
  | @inside ty bindings b hb _ ih =>
    rw [bindsCollection] at h
    exact ih (bindsCollection_eq_false h b hb)

theorem not_reaches {ty : String} {path : List String}
    (h : pathReachesCollection schema ty path = .ok false) : ¬ Reaches schema ty path := by
  intro hreaches
  induction hreaches with
  | here he hn hmany =>
    rw [pathReachesCollection, he] at h
    simp [bind, Except.bind, hn, hmany] at h
  | @further ty hop path entity nav he hn _ ih =>
    rw [pathReachesCollection, he] at h
    simp only [bind, Except.bind, hn] at h
    split at h
    · cases h
    · exact ih h

theorem includesCollection_of_nil (h : l.includes = []) :
    l.includesCollection schema = .ok false := by
  unfold includesCollection
  rw [h]
  cases l.source <;> rfl

theorem anyReaches_eq_false {ty : String} {paths : List (List String)}
    (h : anyReachesCollection schema ty paths = .ok false) :
    ∀ path ∈ paths, pathReachesCollection schema ty path = .ok false := by
  induction paths with
  | nil => simp
  | cons path paths ih =>
    rw [anyReachesCollection] at h
    obtain ⟨found, hfound, h⟩ := bind_eq_ok.1 h
    cases found with
    | true => cases h
    | false => exact List.forall_mem_cons.2 ⟨hfound, ih h⟩

/-- **A layer that reaches a collection is found to.** -/
theorem not_reachesCollection (hbinds : l.bindsCollection schema l.select = .ok false)
    (hincludes : l.includesCollection schema = .ok false) : ¬ l.ReachesCollection schema := by
  rintro (h | ⟨ty, path, hsource, hpath, h⟩)
  · exact not_binds hbinds h
  · rw [includesCollection, hsource] at hincludes
    exact not_reaches (anyReaches_eq_false hincludes path hpath) h

/-- **A split layer reads an inner half**, with the columns that the outer projection and ordering
have asked for. -/
theorem split_eq_ok (h : l.split schema = .ok q) :
    ∃ select orders columns, (l.isIdentity = true ∨ l.select.bindings?.isSome) ∧
      (splitOuter schema l ⟨schema, l.source, l.isIdentity⟩ l.innerHalf).run [] =
        .ok ((select, orders), columns) ∧
      q = { ofLayer l.source { l.innerHalf with
              select := if l.isIdentity then .source 0 else .object none columns } with
            hasMany := true, includes := l.includes, orders, select } := by
  simp only [split] at h
  split at h
  · cases h
  · rename_i hwhole
    obtain ⟨⟨⟨select, orders⟩, columns⟩, hrun, h⟩ := bind_eq_ok.1 h
    refine ⟨select, orders, columns, ?_, hrun, (pure_eq_ok.1 h).symm⟩
    cases hi : l.isIdentity with
    | true => exact .inl rfl
    | false => exact .inr (by simpa [hi, Option.isSome_iff_ne_none] using hwhole)

/-- **A layer is returned as it is or split**: as it is when it is reduced to one value or reaches
no collection, split when it reaches one and has no unions. -/
theorem separateCollections_eq_ok (h : l.separateCollections schema = .ok q) :
    (q = l ∧ (l.any = true ∨ l.aggregate.isSome = true ∨
        l.bindsCollection schema l.select = .ok false ∧ l.includesCollection schema = .ok false)) ∨
      (l.split schema = .ok q ∧ l.any = false ∧ l.aggregate = none ∧ l.unions = [] ∧
        (∃ shape, l.shape schema l.select = .ok shape ∧ shape.isCollection = false) ∧
        (l.bindsCollection schema l.select = .ok true ∨
          l.includesCollection schema = .ok true)) := by
  unfold separateCollections at h
  split at h
  · rename_i hone
    refine .inl ⟨(pure_eq_ok.1 h).symm, ?_⟩
    simp only [Bool.or_eq_true] at hone
    exact hone.imp id .inl
  · rename_i hone
    simp only [Bool.or_eq_true, not_or, Bool.not_eq_true, Option.isSome_eq_false_iff,
      Option.isNone_iff_eq_none] at hone
    obtain ⟨shape, hshape, h⟩ := bind_eq_ok.1 h
    dsimp only at h
    split at h
    · cases h
    rename_i hflat
    have hflat : ∃ shape, l.shape schema l.select = .ok shape ∧ shape.isCollection = false :=
      ⟨shape, hshape, by simpa using hflat⟩
    obtain ⟨binds, hbinds, h⟩ := bind_eq_ok.1 h
    -- what is left once a collection has been found
    have hsplit : (if (!l.unions.isEmpty) = true then
        throw (.ambiguous .collectionWithUnion) else l.split schema) = .ok q →
        l.unions = [] ∧ l.split schema = .ok q := by
      intro h
      split at h
      · cases h
      · rename_i hunions
        exact ⟨by simpa using hunions, h⟩
    cases binds with
    | true =>
      obtain ⟨hunions, h⟩ := hsplit h
      exact .inr ⟨h, hone.1, hone.2, hunions, hflat, .inl hbinds⟩
    | false =>
      obtain ⟨reaches, hreaches, h⟩ := bind_eq_ok.1 h
      cases reaches with
      | true =>
        obtain ⟨hunions, h⟩ := hsplit h
        exact .inr ⟨h, hone.1, hone.2, hunions, hflat, .inr hreaches⟩
      | false => exact .inl ⟨(pure_eq_ok.1 h).symm, .inr (.inr ⟨hbinds, hreaches⟩)⟩

/-! ## What the inner half exports -/

open Boundary (above)

/-- What denotes an entity or a collection is restated as a path. -/
theorem flat_rebase_of_shape (hkeys : schema.KeysAreColumns) (hsight : schema.ColumnsInSight)
    {v : Expr} {shape : Shape} (hv : l.shape schema v = .ok shape) (hscalar : shape ≠ .scalar)
    (hrow : shape ≠ .row) (hobject : shape ≠ .object) :
    Yields (l.Flat schema) ((above schema l).rebase v) fun _ => l.Flat schema := by
  obtain ⟨id, path, hpath⟩ := memberPath?_of_shape hv hscalar hrow hobject
  exact Boundary.flat_rebase hkeys hsight hpath

/-- **Induction along the keys that are exported for a projection**, over what its bindings have in
common. -/
theorem requireNavigationKeys_induction {b : Boundary} {P : Expr → Prop} {C : Exporting Unit → Prop}
    (hbindings : ∀ {ty bs}, P (.object ty bs) → ∀ c ∈ bs, P c.value) (hpure : C (pure ()))
    (hseq : ∀ {x y}, C x → C y → C (x >>= fun _ => y))
    (hlift : ∀ {v : Expr} {f : Shape → Exporting Unit},
      (∀ shape, l.shape schema v = .ok shape → C (f shape)) → C (liftM (l.shape schema v) >>= f))
    (hrebase : ∀ {v : Expr} {shape : Shape}, P v → l.shape schema v = .ok shape →
      shape ≠ .scalar → shape ≠ .row → shape ≠ .object → C (discard (b.rebase v)))
    (e : Expr) (he : P e) : C (requireNavigationKeys schema l b e) := by
  induction e using Expr.induction_object with
  | object ty bs ih =>
    rw [requireNavigationKeys]
    have hP := hbindings he
    clear he
    induction bs with
    | nil => exact hpure
    | cons c bs ihs =>
      obtain ⟨m, v⟩ := c
      obtain ⟨hv, hbs⟩ := List.forall_mem_cons.1 ih
      obtain ⟨hPv, hPbs⟩ := List.forall_mem_cons.1 hP
      have hrest := ihs hbs hPbs
      rw [requireKeysOf]
      refine hlift fun shape hshape => ?_
      cases shape with
      | scalar | row => exact hrest
      | object => exact hseq (hv hPv) hrest
      | entity ty | collection ty =>
        exact hseq (hrebase hPv hshape (by simp) (by simp) (by simp)) hrest
  | other e hother =>
    rw [requireNavigationKeys.eq_2 _ _ _ _ hother]
    exact hpure

theorem flat_requireNavigationKeys (hkeys : schema.KeysAreColumns)
    (hsight : schema.ColumnsInSight) (e : Expr) :
    Yields (l.Flat schema) (requireNavigationKeys schema l (above schema l) e)
      fun _ => l.Flat schema :=
  requireNavigationKeys_induction (P := fun _ => True)
    (C := fun x => Yields (l.Flat schema) x fun _ => l.Flat schema) (fun _ _ _ => trivial)
    (.pure fun _ h => h) (fun hx hy => .bind hx fun _ => hy) (fun h => .lift_bind h)
    (fun _ hshape hscalar hrow hobject =>
      .discard (flat_rebase_of_shape hkeys hsight hshape hscalar hrow hobject)) e trivial

mutual

theorem flat_splitProjection (hkeys : schema.KeysAreColumns) (hsight : schema.ColumnsInSight) :
    ∀ e : Expr, e.bindings?.isSome →
    Yields (l.Flat schema) (splitProjection schema l (above schema l) e) fun _ => l.Flat schema
  | .object ty bindings, _ => by
    rw [splitProjection]
    exact .bind (flat_splitBindings hkeys hsight bindings) fun _ => .pure fun _ h => h

theorem flat_splitBindings (hkeys : schema.KeysAreColumns) (hsight : schema.ColumnsInSight) :
    ∀ bs : List Binding,
    Yields (l.Flat schema) (splitBindings schema l (above schema l) bs) fun _ => l.Flat schema
  | [] => .pure fun _ h => h
  | ⟨m, v⟩ :: bs => by
    rw [splitBindings]
    refine .lift_bind fun shape hshape => ?_
    have hrest (value : Expr) : Yields (l.Flat schema)
        (do return (⟨m, value⟩ :: (← splitBindings schema l (above schema l) bs) : List Binding))
        fun _ => l.Flat schema :=
      .bind (flat_splitBindings hkeys hsight bs) fun _ => .pure fun _ h => h
    cases shape with
    | scalar => exact .bind (Boundary.flat_keep (.inl hshape)) hrest
    | row => exact .bind (Boundary.flat_keep (.inr hshape)) hrest
    | object =>
      exact .bind (flat_splitProjection hkeys hsight v (bindings?_of_shape hshape)) hrest
    | entity ty | collection ty =>
      refine .bind ?_ hrest
      exact flat_rebase_of_shape hkeys hsight hshape (by simp) (by simp) (by simp)

end

/-- **The columns that the outer half asks for are flat.** -/
theorem flat_splitOuter (hkeys : schema.KeysAreColumns) (hsight : schema.ColumnsInSight)
    (hselect : l.select.bindings?.isSome)
    (horders : ∀ o ∈ l.orders, l.shape schema o.expr = .ok .scalar) :
    Yields (l.innerHalf.Flat schema) (splitOuter schema l (above schema l.innerHalf) l.innerHalf)
      fun _ => l.innerHalf.Flat schema := by
  unfold splitOuter
  refine .bind (.forM fun path _ => .discard ?_) fun _ => ?_
  · exact Boundary.flat_rebase hkeys hsight (Expr.memberPath?_follow path rfl)
  rw [if_neg (by simp [above])]
  refine .bind (flat_requireNavigationKeys hkeys hsight l.select) fun _ => ?_
  refine .bind (flat_splitProjection hkeys hsight l.select hselect) fun select => ?_
  refine .bind (.mapM fun o ho => ?_) fun _ => .pure fun _ h => h
  have horder : l.innerHalf.shape schema o.expr = .ok .scalar :=
    (shape_innerHalf o.expr).trans (horders o ho)
  exact .bind (Boundary.flat_keep (.inl horder)) fun _ => .pure fun _ h => h

/-- The outer half orders by as many keys, in the same directions. -/
theorem descending_splitOuter {b : Boundary} {inner : Layer} :
    Yields (fun _ => True) (splitOuter schema l b inner)
      fun r _ => r.2.map (·.descending) = l.orders.map (·.descending) := by
  have horders (select : Expr) : Yields (fun _ => True)
      (do
        let orders ← l.orders.mapM fun o => do
          return (⟨← b.keep o.expr.outputName o.expr, o.descending⟩ : Order)
        return (select, orders))
      fun r _ => r.2.map (·.descending) = l.orders.map (·.descending) := by
    refine .bind (.mapM_map fun o _ => ?_) fun orders => .pure fun _ h => h
    exact .bind .trivial fun _ => .pure fun _ _ => rfl
  unfold splitOuter
  refine .bind .trivial fun _ => ?_
  split
  · exact .bind .trivial horders
  · exact .bind .trivial fun _ => .bind .trivial horders

/-- What splitting a layer in two has to respect. The inner half `inner` does all the work on rows
that `l` does and exports flat columns, the outer half `outer` only attaches navigations and orders
again. -/
structure IsSplit (schema : Schema) (l inner outer : Layer) : Prop where
  hasMany : outer.hasMany = true
  subquery : outer.subquery = some inner
  /-- none of the inner columns is an entity, a collection or an object -/
  flat : inner.select = .source 0 ∨
    ∃ columns, inner.select = .object none columns ∧ inner.Flat schema columns
  inner_includes : inner.includes = []
  inner_source : inner.source = l.source
  inner_subquery : inner.subquery = l.subquery
  inner_joins : inner.joins = l.joins
  inner_predicate : inner.predicate = l.predicate
  inner_having : inner.having = l.having
  inner_groupBy : inner.groupBy = l.groupBy
  inner_distinct : inner.distinct = l.distinct
  inner_skip : inner.skip = l.skip
  inner_take : inner.take = l.take
  inner_orders : inner.orders = if inner.isPaginated then l.orders else []
  outer_joins : outer.joins = []
  outer_predicate : outer.predicate = none
  outer_having : outer.having = none
  outer_groupBy : outer.groupBy = none
  outer_distinct : outer.distinct = false
  outer_skip : outer.skip = 0
  outer_take : outer.take = 0
  /-- as many keys, in the same directions -/
  outer_orders : outer.orders.map (·.descending) = l.orders.map (·.descending)

/-- **A split isolates navigations and moves nothing else.** -/
theorem isSplit_of_split (hkeys : schema.KeysAreColumns) (hsight : schema.ColumnsInSight)
    (horders : ∀ o ∈ l.orders, l.shape schema o.expr = .ok .scalar)
    (h : l.split schema = .ok q) : ∃ inner, IsSplit schema l inner q := by
  obtain ⟨select, orders, columns, hselect, hrun, rfl⟩ := split_eq_ok h
  have horders' := descending_splitOuter _ _ _ trivial hrun
  have hflat : l.isIdentity = false → l.innerHalf.Flat schema columns := by
    intro hpart
    have hbindings : l.select.bindings?.isSome := by simpa [hpart] using hselect
    rw [hpart] at hrun
    exact flat_splitOuter hkeys hsight hbindings horders _ _ _ (by simp [Flat]) hrun
  refine ⟨_, rfl, rfl, ?_, rfl, rfl, rfl, rfl, rfl, rfl, rfl, rfl, rfl, rfl, rfl, rfl, rfl, rfl,
    rfl, rfl, rfl, rfl, horders'⟩
  cases hidentity : l.isIdentity with
  | true => exact .inl rfl
  | false =>
    exact .inr ⟨columns, rfl, (hflat hidentity).congr rfl rfl rfl⟩

/-- **A layer that reaches a collection is split in two**: the inner half does all the work on rows
and exports flat columns, the outer half attaches navigations and orders again. Foreign keys have to
start from columns, no navigation may hide a column, and the ordering has to be by scalars. -/
theorem isSplit_separateCollections {outer : Layer} (hkeys : schema.KeysAreColumns)
    (hsight : schema.ColumnsInSight) (hany : l.any = false) (haggregate : l.aggregate = none)
    (hreaches : l.ReachesCollection schema)
    (horders : ∀ o ∈ l.orders, l.shape schema o.expr = .ok .scalar)
    (h : l.separateCollections schema = .ok outer) : ∃ inner, IsSplit schema l inner outer := by
  rcases separateCollections_eq_ok h with ⟨-, hself⟩ | ⟨hsplit, -⟩
  · exfalso
    rcases hself with hone | hone | ⟨hbinds, hincludes⟩
    · rw [hany] at hone
      cases hone
    · rw [haggregate] at hone
      cases hone
    · exact not_reachesCollection hbinds hincludes hreaches
  · exact isSplit_of_split hkeys hsight horders hsplit

end Layer

/-- Orders with their lines, and with further members of an order behind the lines. -/
def Schema.sales (further : List Member) : Schema where
  entities := [
    ("Line", ⟨"Line", "lines", [⟨"OrderId", .column (.new "order_id" .int)⟩]⟩),
    ("Order", ⟨"Order", "orders",
      ⟨"Lines", .navigation ⟨"Line", true, some ⟨["Id"], ["OrderId"]⟩⟩⟩ ::
      further ++ [⟨"Id", .column (.new "id" .int)⟩]⟩)]
  sorted := by
    have hlt : "Line" < "Order" := by decide
    exact List.pairwise_pair.2 hlt

def Layer.lastOrders : Layer :=
  { ofSource "Order" with
    orders := [⟨.member (.source 0) "Id", true⟩]
    take := 10
    select := .object none [⟨"Number", .member (.source 0) "Id"⟩,
      ⟨"Content", .object none [⟨"Lines", .member (.source 0) "Lines"⟩]⟩] }

/-- The last ten orders are read by an inner layer, and their lines attached by an outer one. -/
theorem Layer.isSplit_separateCollections_lastOrders :
    ∃ inner outer, lastOrders.separateCollections (Schema.sales []) = .ok outer ∧
      IsSplit (Schema.sales []) lastOrders inner outer := by
  have hreaches : lastOrders.ReachesCollection (Schema.sales []) := by
    refine .inl (.inside (List.mem_cons_of_mem _ (List.mem_singleton.2 rfl)) ?_)
    exact .inside (List.mem_singleton.2 rfl) (.here (by cbv))
  have horders : ∀ o ∈ lastOrders.orders,
      lastOrders.shape (Schema.sales []) o.expr = .ok .scalar := by
    intro o ho
    rw [List.mem_singleton.1 ho]
    cbv
  obtain ⟨outer, houter⟩ : ∃ outer, lastOrders.separateCollections (Schema.sales []) = .ok outer :=
    ⟨_, by cbv⟩
  obtain ⟨inner, hsplit⟩ := isSplit_separateCollections (by decide) (by decide) rfl rfl hreaches
    horders houter
  exact ⟨inner, outer, houter, hsplit⟩

/-- Orders that declare their lines ahead of a column of the same name. -/
def Schema.hiddenColumn : Schema :=
  .sales [⟨"Lines", .column (.new "lines" .int)⟩]

def Layer.wholeOrders : Layer :=
  { ofSource "Order" with
    select := .object none [⟨"Order", .source 0⟩, ⟨"Lines", .member (.source 0) "Lines"⟩] }

def Layer.orderColumns : Layer :=
  { ofSource "Order" with
    select := .object none
      [⟨"Lines", .member (.source 0) "Lines"⟩, ⟨"Id", .member (.source 0) "Id"⟩] }

/-- Where a column is hidden behind a navigation of the same name, whole rows have the navigation
exported in its place. -/
theorem Layer.not_isSplit_hiddenColumn :
    Schema.hiddenColumn.KeysAreColumns ∧ wholeOrders.any = false ∧
      wholeOrders.aggregate = none ∧ wholeOrders.unions = [] ∧ wholeOrders.orders = [] ∧
      wholeOrders.ReachesCollection Schema.hiddenColumn ∧
      ∃ outer, wholeOrders.separateCollections Schema.hiddenColumn = .ok outer ∧
        ¬ ∃ inner, IsSplit Schema.hiddenColumn wholeOrders inner outer := by
  have hreaches : wholeOrders.ReachesCollection Schema.hiddenColumn := by
    refine .inl (.inside (List.mem_cons_of_mem _ (List.mem_singleton.2 rfl)) ?_)
    exact .here (by cbv)
  refine ⟨by decide, rfl, rfl, rfl, rfl, hreaches, { ofLayer (some "Order") orderColumns with
    hasMany := true, select := wholeOrders.select }, by cbv, ?_⟩
  rintro ⟨inner, hsplit⟩
  have hinner : inner = orderColumns := (Option.some.inj hsplit.subquery).symm
  subst hinner
  rcases hsplit.flat with hsource | ⟨columns, hcolumns, hflat⟩
  · cases hsource
  · have hlines : ⟨"Lines", .member (.source 0) "Lines"⟩ ∈ columns := by
      cases hcolumns
      exact List.mem_cons_self
    have hshape : orderColumns.shape Schema.hiddenColumn (.member (.source 0) "Lines") =
        .ok (.collection "Line") := by cbv
    have hscalar := hflat _ hlines
    rw [hshape] at hscalar
    simp at hscalar

end QueryCompiler

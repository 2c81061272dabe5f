import QueryCompiler.Plan.OfLog
import QueryCompiler.Proofs.Outcome
/-!
# What an operator does to a draft

Each operator that is applied successfully does one of a few things to the draft, and `Applied`
lists them with what each has read on the way. `applied_of_apply` is the only place where the
application of operators is taken apart: what a query keeps from step to step is read off the list.

Joins add one to the list or retag one of it (`Flattened`), and a layer that is closed offers one of
three kinds of rows to the layer above (`Layer.derivedRow_cases`).
-/

namespace QueryCompiler

open Compiled (bind_eq_ok pure_eq_ok ok_bind)

variable {schema : Schema} {nested : Log → Compiled Layer}

/-! ## Rows of a finished layer -/

/-- **A finished layer offers one of three kinds of rows**: whole rows of a source, the members of
an object construction, all of them scalars, or a single value under its output name. -/
theorem Layer.derivedRow_cases {l : Layer} {id : Nat} {row : Expr} {ty : Option String}
    (h : l.derivedRow schema id = .ok (row, ty)) :
    (∃ k, l.select = .source k ∧ row = .source id ∧ ty = l.sourceType? k) ∨
      (∃ name bindings, l.select = .object name bindings ∧
        (∀ b ∈ bindings, l.shape schema b.value = .ok .scalar) ∧
        row = .object name (bindings.map fun b => ⟨b.member, .member (.source id) b.member⟩) ∧
        ty = none) ∨
      ((∀ k, l.select ≠ .source k) ∧ l.select.bindings? = none ∧
        row = .member (.source id) l.select.outputName ∧ ty = none) := by
  unfold derivedRow at h
  split at h
  · rename_i k hk
    cases h
    exact .inl ⟨k, hk, rfl, rfl⟩
  · rename_i name bindings hs
    simp only [bind_eq_ok, Compiled.mapM_eq_ok, pure_eq_ok, Prod.mk.injEq] at h
    obtain ⟨out, hout, rfl, rfl⟩ := h
    refine .inr (.inl ⟨name, bindings, hs, ?_⟩)
    clear hs
    induction hout with
    | nil => simp
    | @cons b b' bs bs' hb hbs ih =>
      obtain ⟨shape, hshape, hb⟩ := hb
      obtain ⟨hall, hrow, -⟩ := ih
      simp only [Expr.object.injEq, true_and] at hrow
      cases shape with
      | scalar =>
        simp only [pure_eq_ok] at hb
        exact ⟨by simpa [hshape] using hall, by simp [hb, hrow], rfl⟩
      | _ => simp at hb
  · rename_i hsource hobject
    cases h
    refine .inr (.inr ⟨hsource, ?_, rfl, rfl⟩)
    cases hs : l.select with
    | object ty bindings => exact absurd hs (hobject ty bindings)
    | _ => rfl

namespace Draft

variable {d d' : Draft} {op : Operator} {collection element : Expr} {unmatched : Unmatched}

/-! ## Joins -/

/-- What joining the elements of a collection makes of a draft, and the row of an element. -/
inductive Flattened (schema : Schema) (nested : Log → Compiled Layer) (d : Draft)
    (unmatched : Unmatched) : Expr → Draft → Expr → Prop where
  /-- an earlier group join is retagged -/
  | group {index : Nat} {element : Expr} {j : Join} (hj : d.layer.joins[index]? = some j) :
    Flattened schema nested d unmatched (.joinGroup index element)
      { d with layer := { d.layer with
          joins := d.layer.joins.set index
            { j with kind := if j.kind == .right then .right else unmatched.joinKind } } }
      element
  /-- every row of a nested query is joined -/
  | cross {log : Log} {target : JoinTarget} {row : Expr} {rowType : Option String}
    (ht : joinTarget schema nested log d.nextSource = .ok (target, row, rowType)) :
    Flattened schema nested d unmatched (.query log)
      (d.addJoin ⟨.cross, d.nextSource, target, rowType, [], []⟩) row
  /-- a collection navigation is joined through its foreign key -/
  | navigation {owner : Expr} {name target ty : String} {entity : Entity} {nav : Navigation}
    {fk : ForeignKey}
    (hshape : d.layer.shape schema (.member owner name) = .ok (.collection target))
    (howner : d.layer.shape schema owner = .ok (.entity ty))
    (hentity : schema.entity ty = .ok entity) (hnav : entity.navigation? name = some nav)
    (hfk : nav.foreignKey = some fk) (htarget : ∃ e, schema.entity target = .ok e) :
    Flattened schema nested d unmatched (.member owner name)
      (d.addJoin ⟨unmatched.joinKind, d.nextSource, .table target, some target,
        fk.ownerKeys.map (.member owner), fk.targetKeys.map (.member (.source d.nextSource))⟩)
      (.source d.nextSource)

theorem flattened_of_flatten
    (h : d.flatten schema nested collection unmatched = .ok (d', element)) :
    Flattened schema nested d unmatched collection d' element := by
  unfold flatten at h
  -- a group, a query, a navigation; anything else is refused
  split at h
  · rename_i index element
    simp only [flattenGroup, bind_eq_ok, pure_eq_ok, Prod.mk.injEq] at h
    obtain ⟨d₁, h₁, rfl, rfl⟩ := h
    split at h₁
    · cases h₁
    · rename_i j hj
      cases h₁
      exact .group hj
  · rename_i log
    simp only [crossJoin, bind_eq_ok, pure_eq_ok, Prod.mk.injEq] at h
    obtain ⟨⟨target, row, rowType⟩, ht, rfl, rfl⟩ := h
    exact .cross ht
  · rename_i owner name
    obtain ⟨shape, hshape, h⟩ := bind_eq_ok.1 h
    split at h
    · rename_i target
      simp only [navigationJoin] at h
      obtain ⟨ownerShape, howner, h⟩ := bind_eq_ok.1 h
      split at h
      · rename_i ty
        obtain ⟨entity, hentity, h⟩ := bind_eq_ok.1 h
        split at h
        · cases h
        · rename_i nav hnav
          split at h
          · cases h
          · rename_i fk hfk
            simp only [bind_eq_ok, pure_eq_ok, Prod.mk.injEq] at h
            obtain ⟨e, he, rfl, rfl⟩ := h
            exact .navigation hshape howner hentity hnav hfk ⟨e, he⟩
      · cases h
    · cases h
  · cases h

theorem flatten_of_flattened (h : Flattened schema nested d unmatched collection d' element) :
    d.flatten schema nested collection unmatched = .ok (d', element) := by
  cases h with
  | group hj =>
    simp only [flatten, flattenGroup, hj]
    rfl
  | cross ht =>
    simp only [flatten, crossJoin, ht]
    rfl
  | navigation hshape howner hentity hnav hfk htarget =>
    obtain ⟨e, he⟩ := htarget
    simp only [flatten, hshape, navigationJoin, howner, hentity, hnav, hfk, he, ok_bind]
    rfl

theorem Flattened.frame (h : Flattened schema nested d unmatched collection d' element) :
    ∃ joins, d' = { d with layer := { d.layer with joins } } := by
  cases h with
  | group => exact ⟨_, rfl⟩
  | cross => exact ⟨_, rfl⟩
  | navigation => exact ⟨_, rfl⟩

/-! ## Operators -/

/-- What applying an operator can make of a draft. -/
inductive Applied (schema : Schema) (nested : Log → Compiled Layer) (d : Draft) (op : Operator) :
    Draft → Prop where
  | filter {l : Lambda} {test : Expr} (hk : op.kind = .filter) (hl : op.lambda 0 = .ok l)
    (hb : d.bindRow l = .ok test) : Applied schema nested d op (d.restrict test)
  | select {l : Lambda} {row : Expr} (hk : op.kind = .select) (hl : op.lambda 0 = .ok l)
    (hb : d.bindRow l = .ok row) : Applied schema nested d op { d with row }
  | selectMany {l : Lambda} {collection element row : Expr} {d₁ : Draft}
    (hk : op.kind = .selectMany) (hl : op.lambda 0 = .ok l) (hb : d.bindRow l = .ok collection)
    (hf : Flattened schema nested d (Unmatched.strip collection).2 (Unmatched.strip collection).1
      d₁ element)
    (hrow : (∃ r, op.lambda? 1 = some r ∧ r.bind [d.row, element] = .ok row) ∨
      (op.lambda? 1 = none ∧ row = element)) :
    Applied schema nested d op { d₁ with row }
  | join {log : Log} {target : JoinTarget} {joined outer inner row : Expr}
    {rowType : Option String} {lo li lr : Lambda} {outerKeys innerKeys : List Expr}
    (hk : op.kind = .join ∨ op.kind = .groupJoin ∨ op.kind = .groupJoinRight)
    (hq : op.query? 0 = some log)
    (ht : joinTarget schema nested log d.nextSource = .ok (target, joined, rowType))
    (hlo : op.lambda 1 = .ok lo) (ho : d.bindRow lo = .ok outer)
    (hli : op.lambda 2 = .ok li) (hi : li.bind [joined] = .ok inner)
    (hkeys : Join.keys op.kind outer inner = .ok (outerKeys, innerKeys))
    (hlr : op.lambda 3 = .ok lr)
    (hrow : lr.bind [d.row, if op.kind == .join then joined
      else .joinGroup d.layer.joins.length joined] = .ok row) :
    Applied schema nested d op { d.addJoin {
      kind := match op.kind with
        | .join => .inner
        | .groupJoin => .left
        | _ => .right
      source := d.nextSource, target, rowType, outerKeys, innerKeys } with row }
  | group {l : Lambda} {key element : Expr} (hk : op.kind = .groupBy) (hl : op.lambda 0 = .ok l)
    (hb : d.bindRow l = .ok key)
    (he : (∃ l', op.lambda? 1 = some l' ∧ d.bindRow l' = .ok element) ∨
      (op.lambda? 1 = none ∧ element = d.row)) :
    Applied schema nested d op { d with
      layer := { d.layer with groupBy := some key }
      row := .grouping key element
      grouped := true }
  | order {l : Lambda} {key : Expr} {descending : Bool}
    (hk : op.kind = if descending then .orderByDescending else .orderBy)
    (hl : op.lambda 0 = .ok l) (hb : d.bindRow l = .ok key) :
    Applied schema nested d op
      { d with layer := { d.layer with orders := orderKeys descending key } }
  | refineOrder {l : Lambda} {key : Expr} {descending : Bool}
    (hk : op.kind = if descending then .thenByDescending else .thenBy)
    (ho : d.layer.orders ≠ []) (hl : op.lambda 0 = .ok l) (hb : d.bindRow l = .ok key) :
    Applied schema nested d op
      { d with layer := { d.layer with orders := d.layer.orders ++ orderKeys descending key } }
  | skip {n : Nat} {orders : List Order} (hk : op.kind = .skip) (hn : n = op.rowCount?.getD 0)
    (ho : orders = if n > 0 && d.layer.orders.isEmpty then (d.layer.inheritedOrders schema).getD []
      else d.layer.orders)
    (hne : 0 < n → orders ≠ []) :
    Applied schema nested d op
      { d with layer := { d.layer with orders, skip := n }, skipped := n > 0 }
  | take (hk : op.kind = .take) : Applied schema nested d op (d.take (op.rowCount?.getD 0))
  | distinct (hk : op.kind = .distinct) :
    Applied schema nested d op { d with layer := { d.layer with distinct := true }, closed := true }
  | asSubquery (hk : op.kind = .asSubquery) : Applied schema nested d op { d with closed := true }
  | any {d₁ : Draft} (hk : op.kind = .any) (hr : d.restrictBy op = .ok d₁) :
    Applied schema nested d op
      ({ d₁ with layer := { d₁.layer with any := true } }.finishWith op.kind)
  | first {d₁ : Draft} (hk : op.kind.isFirst) (hr : d.restrictBy op = .ok d₁) :
    Applied schema nested d op
      ({ d₁ with layer := { d₁.layer with take := 1 } }.finishWith op.kind)
  | aggregate {func : AggregateFunc} {d₁ : Draft} {selector : Option Expr}
    (hk : op.kind.aggregate? = some func)
    (hs : (func = .count ∧ d.restrictBy op = .ok d₁ ∧ selector = none) ∨
      (func ≠ .count ∧ d₁ = d ∧ ((∃ l e, op.lambda? 0 = some l ∧ d.bindRow l = .ok e ∧
          selector = some e) ∨
        (op.lambda? 0 = none ∧ d.layer.shape schema d.row = .ok .scalar ∧
          selector = some d.row)))) :
    Applied schema nested d op
      ({ d₁ with layer := { d₁.layer with aggregate := some ⟨func, selector⟩ } }.finishWith op.kind)
  | union {log : Log} {branch : Layer} (hk : op.kind = .union) (hq : op.query? 0 = some log)
    (hb : nested log = .ok branch) : Applied schema nested d op (d.union branch)
  | includePath {root : String} {l : Lambda} {path : Expr} {hop : String} {hops : List String}
    (hk : op.kind = .includePath) (hsource : d.layer.source = some root) (hroot : d.row.isRoot)
    (hl : op.lambda 0 = .ok l) (hb : l.bind [.source 0] = .ok path)
    (hpath : path.memberPath? = some (0, hop :: hops))
    (hnav : checkNavigations schema root (hop :: hops) = .ok ()) :
    Applied schema nested d op { d with layer := { d.layer with
      includes := if d.layer.includes.contains (hop :: hops) then d.layer.includes
        else d.layer.includes ++ [hop :: hops] } }
  | modify {source : String} {m : Modification}
    (hk : op.kind = .insert ∨ op.kind = .update ∨ op.kind = .delete)
    (hsource : d.layer.source = some source) (hderived : d.layer.isDerived = false)
    (hm : d.modificationOf schema op source = .ok m) :
    Applied schema nested d op ({ d with modification := some m }.finishWith op.kind)

theorem applied_of_selectMany (hk : op.kind = .selectMany)
    (h : d.selectMany schema nested op = .ok d') : Applied schema nested d op d' := by
  simp only [selectMany, bind_eq_ok] at h
  obtain ⟨l, hl, collection, hb, ⟨d₁, element⟩, hf, h⟩ := h
  have hflat := flattened_of_flatten hf
  have hrow : d₁.row = d.row := by
    obtain ⟨joins, rfl⟩ := hflat.frame
    rfl
  split at h
  · rename_i r hr
    simp only [bind_eq_ok, pure_eq_ok] at h
    obtain ⟨row, hbind, rfl⟩ := h
    exact .selectMany hk hl hb hflat (.inl ⟨r, hr, by rwa [hrow] at hbind⟩)
  · rename_i hr
    simp only [pure_eq_ok] at h
    subst h
    exact .selectMany hk hl hb hflat (.inr ⟨hr, rfl⟩)

theorem applied_of_join
    (hk : op.kind = .join ∨ op.kind = .groupJoin ∨ op.kind = .groupJoinRight)
    (h : d.join schema nested op = .ok d') : Applied schema nested d op d' := by
  unfold join at h
  split at h
  · cases h
  · rename_i log hq
    simp only [bind_eq_ok, pure_eq_ok] at h
    obtain ⟨⟨target, joined, rowType⟩, ht, lo, hlo, outer, ho, li, hli, inner, hi,
      ⟨outerKeys, innerKeys⟩, hkeys, lr, hlr, row, hrow, rfl⟩ := h
    exact .join hk hq ht hlo ho hli hi hkeys hlr hrow

theorem applied_of_group (hk : op.kind = .groupBy) (h : d.group op = .ok d') :
    Applied schema nested d op d' := by
  simp only [group, bind_eq_ok] at h
  obtain ⟨l, hl, key, hb, h⟩ := h
  split at h
  · rename_i l' hl'
    simp only [bind_eq_ok, pure_eq_ok] at h
    obtain ⟨element, he, rfl⟩ := h
    exact .group hk hl hb (.inl ⟨l', hl', he⟩)
  · rename_i hnone
    cases h
    exact .group hk hl hb (.inr ⟨hnone, rfl⟩)

theorem applied_of_order {descending : Bool}
    (hk : op.kind = if descending then .orderByDescending else .orderBy)
    (h : d.order op descending = .ok d') : Applied schema nested d op d' := by
  simp only [order, addOrders, bind_eq_ok, pure_eq_ok, List.nil_append] at h
  obtain ⟨l, hl, key, hb, rfl⟩ := h
  exact .order hk hl hb

theorem applied_of_refineOrder {descending : Bool}
    (hk : op.kind = if descending then .thenByDescending else .thenBy)
    (h : d.refineOrder op descending = .ok d') : Applied schema nested d op d' := by
  unfold refineOrder at h
  split at h
  · cases h
  · rename_i hempty
    simp only [addOrders, bind_eq_ok, pure_eq_ok] at h
    obtain ⟨l, hl, key, hb, rfl⟩ := h
    exact .refineOrder hk (by simpa using hempty) hl hb

theorem applied_of_skip (hk : op.kind = .skip)
    (h : d.skip schema (op.rowCount?.getD 0) = .ok d') : Applied schema nested d op d' := by
  unfold skip at h
  generalize hn : op.rowCount?.getD 0 = n at h
  generalize ho : (if (decide (n > 0) && d.layer.orders.isEmpty) = true then
    (d.layer.inheritedOrders schema).getD [] else d.layer.orders) = orders at h
  dsimp only at h
  split at h
  · cases h
  · rename_i hempty
    cases h
    refine .skip hk hn.symm ho.symm fun hpos horders => hempty ?_
    simp [hpos, horders]

theorem applied_of_aggregate {func : AggregateFunc} (hk : op.kind.aggregate? = some func)
    (h : d.aggregate schema op func = .ok d') : Applied schema nested d op d' := by
  unfold aggregate at h
  split at h
  · simp only [bind_eq_ok, pure_eq_ok] at h
    obtain ⟨d₁, hr, _, rfl, rfl⟩ := h
    exact .aggregate hk (.inl ⟨rfl, hr, rfl⟩)
  · rename_i l hne hl
    simp only [bind_eq_ok, pure_eq_ok] at h
    obtain ⟨e, he, _, rfl, rfl⟩ := h
    exact .aggregate hk (.inr ⟨hne, rfl, .inl ⟨l, e, hl, he, rfl⟩⟩)
  · rename_i hne hl
    obtain ⟨shape, hshape, h⟩ := bind_eq_ok.1 h
    split at h
    · cases h
      exact .aggregate hk (.inr ⟨hne, rfl, .inr ⟨hl, hshape, rfl⟩⟩)
    · cases h

theorem applied_of_includePath (hk : op.kind = .includePath)
    (h : d.includePath schema op = .ok d') : Applied schema nested d op d' := by
  unfold includePath at h
  split at h
  · cases h
  · rename_i root hsource
    split at h
    · cases h
    · rename_i hroot
      simp only [bind_eq_ok] at h
      obtain ⟨l, hl, path, hb, h⟩ := h
      split at h
      · rename_i hop hops hpath
        obtain ⟨⟨⟩, hnav, h⟩ := bind_eq_ok.1 h
        have hd : Applied schema nested d op _ :=
          .includePath hk hsource (by simpa using hroot) hl hb hpath hnav
        split at h
        · rename_i hin
          -- a path that is there already leaves the draft as it is
          have hlayer : { d.layer with includes := d.layer.includes } = d.layer := by
            cases d.layer
            rfl
          rw [if_pos hin, hlayer] at hd
          cases h
          exact hd
        · rename_i hin
          rw [if_neg hin] at hd
          cases h
          exact hd
      · cases h

theorem applied_of_modify (hk : op.kind = .insert ∨ op.kind = .update ∨ op.kind = .delete)
    (h : d.modify schema op = .ok d') : Applied schema nested d op d' := by
  unfold modify at h
  split at h
  · rename_i source hsource hderived
    simp only [bind_eq_ok, pure_eq_ok] at h
    obtain ⟨m, hm, rfl⟩ := h
    exact .modify hk hsource hderived hm
  · cases h

/-- **Applying an operator does one of the things listed.** -/
theorem applied_of_apply (h : d.apply schema nested op = .ok d') :
    Applied schema nested d op d' := by
  unfold apply at h
  split at h
  case h_1 => cases h
  case h_2 hk =>
    simp only [bind_eq_ok, pure_eq_ok] at h
    obtain ⟨l, hl, test, hb, rfl⟩ := h
    exact .filter hk hl hb
  case h_3 hk =>
    simp only [bind_eq_ok, pure_eq_ok] at h
    obtain ⟨l, hl, row, hb, rfl⟩ := h
    exact .select hk hl hb
  case h_4 hk => exact applied_of_selectMany hk h
  case h_5 hk => exact applied_of_join (.inl hk) h
  case h_6 hk => exact applied_of_join (.inr (.inl hk)) h
  case h_7 hk => exact applied_of_join (.inr (.inr hk)) h
  case h_8 hk => exact applied_of_group hk h
  case h_9 hk => exact applied_of_order (by simpa using hk) h
  case h_10 hk => exact applied_of_order (by simpa using hk) h
  case h_11 hk => exact applied_of_refineOrder (by simpa using hk) h
  case h_12 hk => exact applied_of_refineOrder (by simpa using hk) h
  case h_13 hk => exact applied_of_skip hk h
  case h_14 hk => cases h; exact .take hk
  case h_15 hk => cases h; exact .distinct hk
  case h_16 hk => cases h; exact .asSubquery hk
  case h_17 hk =>
    simp only [bind_eq_ok, pure_eq_ok] at h
    obtain ⟨d₁, hr, rfl⟩ := h
    exact .any hk hr
  case h_18 hk | h_19 hk | h_20 hk | h_21 hk =>
    simp only [bind_eq_ok, pure_eq_ok] at h
    obtain ⟨d₁, hr, rfl⟩ := h
    exact .first (by rw [hk]; rfl) hr
  case h_22 hk | h_23 hk | h_24 hk | h_25 hk | h_26 hk =>
    exact applied_of_aggregate (by rw [hk]; rfl) h
  case h_27 hk =>
    split at h
    · cases h
    · rename_i log hq
      simp only [bind_eq_ok, pure_eq_ok] at h
      obtain ⟨branch, hb, rfl⟩ := h
      exact .union hk hq hb
  case h_28 hk => exact applied_of_includePath hk h
  case h_29 hk => exact applied_of_modify (.inl hk) h
  case h_30 hk => exact applied_of_modify (.inr (.inl hk)) h
  case h_31 hk => exact applied_of_modify (.inr (.inr hk)) h

/-- **What is listed, applying an operator does.** -/
theorem apply_of_applied (h : Applied schema nested d op d') :
    d.apply schema nested op = .ok d' := by
  cases h with
  | filter hk hl hb | select hk hl hb =>
    simp only [apply, hk, hl, hb, ok_bind]
    rfl
  | selectMany hk hl hb hf hrow =>
    simp only [apply, hk, selectMany, hl, hb, flatten_of_flattened hf, ok_bind]
    have hframe := hf.frame
    obtain ⟨joins, rfl⟩ := hframe
    rcases hrow with ⟨r, hr, hbind⟩ | ⟨hnone, rfl⟩
    · simp only [hr, hbind, ok_bind]
      rfl
    · simp only [hnone]
      rfl
  | join hk hq ht hlo ho hli hi hkeys hlr hrow =>
    have happly : d.apply schema nested op = d.join schema nested op := by
      rcases hk with hk | hk | hk <;> simp only [apply, hk]
    simp only [happly, join, hq, ht, hlo, ho, hli, hi, hkeys, hlr, addJoin, hrow, ok_bind]
    rfl
  | group hk hl hb he =>
    simp only [apply, hk, group, hl, hb, ok_bind]
    rcases he with ⟨l', hl', hb'⟩ | ⟨hnone, rfl⟩
    · simp only [hl', hb', ok_bind]
      rfl
    · simp only [hnone]
      rfl
  | @order _ _ descending hk hl hb =>
    have happly : d.apply schema nested op = d.order op descending := by
      cases descending <;> simp only [apply, hk] <;> rfl
    have hbind : bindRow { d with layer := { d.layer with orders := [] } } _ = .ok _ := hb
    simp only [happly, order, addOrders, hl, hbind, ok_bind, List.nil_append]
    rfl
  | @refineOrder _ _ descending hk ho hl hb =>
    have happly : d.apply schema nested op = d.refineOrder op descending := by
      cases descending <;> simp only [apply, hk] <;> rfl
    simp only [happly, refineOrder, List.isEmpty_iff, ho, if_false, addOrders, hl, hb,
      ok_bind]
    rfl
  | @skip n orders hk hn ho hne =>
    simp only [apply, hk, skip, ← hn, ← ho]
    rw [if_neg]
    · rfl
    · simpa using hne
  | take hk | distinct hk | asSubquery hk => simp only [apply, hk]
  | any hk hr =>
    simp only [apply, hk, hr, ok_bind]
    rfl
  | first hk hr =>
    have happly : d.apply schema nested op = d.restrictBy op >>= fun d =>
        pure ({ d with layer := { d.layer with take := 1 } }.finishWith op.kind) := by
      unfold apply
      cases hkind : op.kind <;> simp only [hkind, OpKind.isFirst, Bool.false_eq_true] at hk ⊢
    rw [happly, hr]
    rfl
  | @aggregate func d₁ selector hk hs =>
    have happly : d.apply schema nested op = d.aggregate schema op func := by
      unfold apply
      cases hkind : op.kind <;> simp only [hkind, OpKind.aggregate?, reduceCtorEq] at hk ⊢ <;> cases hk <;> rfl
    rw [happly]
    unfold aggregate
    rcases hs with ⟨rfl, hr, rfl⟩ | ⟨hne, rfl, ⟨l, e, hl, hb, rfl⟩ | ⟨hnone, hshape, rfl⟩⟩
    · simp only [hr, ok_bind]
      rfl
    · simp only [hl, hb, ok_bind]
      cases func with
      | count => exact absurd rfl hne
      | _ => rfl
    · simp only [hnone, hshape, ok_bind]
      cases func with
      | count => exact absurd rfl hne
      | _ => rfl
  | union hk hq hb =>
    simp only [apply, hk, hq, hb, ok_bind]
    rfl
  | includePath hk hsource hroot hl hb hpath hnav =>
    simp only [apply, hk, includePath, hsource, hroot, hl, hb, hpath, hnav, ok_bind,
      Bool.not_true, Bool.false_eq_true, if_false]
    split
    · have hlayer : { d.layer with includes := d.layer.includes } = d.layer := by
        cases d.layer
        rfl
      rw [← hsource]
      exact congrArg (fun layer => Except.ok { d with layer }) hlayer.symm
    · rfl
  | modify hk hsource hderived hm =>
    have happly : d.apply schema nested op = d.modify schema op := by
      rcases hk with hk | hk | hk <;> simp only [apply, hk]
    simp only [happly, modify, hsource, hderived, hm, ok_bind]
    rfl

/-! ## What operators leave alone -/

@[simp] theorem restrict_layer (test : Expr) : (d.restrict test).layer = d.layer := by
  unfold restrict
  split <;> rfl

theorem restrictBy_eq_ok (h : d.restrictBy op = .ok d') :
    (op.lambda? 0 = none ∧ d' = d) ∨
      ∃ l test, op.lambda? 0 = some l ∧ d.bindRow l = .ok test ∧ d' = d.restrict test := by
  unfold restrictBy at h
  split at h
  · rename_i hl
    cases h
    exact .inl ⟨hl, rfl⟩
  · rename_i l hl
    simp only [bind_eq_ok, pure_eq_ok] at h
    obtain ⟨test, hb, rfl⟩ := h
    exact .inr ⟨l, test, hl, hb, rfl⟩

theorem layer_restrictBy (h : d.restrictBy op = .ok d') : d'.layer = d.layer := by
  rcases restrictBy_eq_ok h with ⟨-, rfl⟩ | ⟨l, test, -, -, rfl⟩
  · rfl
  · exact restrict_layer test

@[simp] theorem finishWith_layer (kind : OpKind) : (d.finishWith kind).layer = d.layer := rfl

@[simp] theorem union_subquery (branch : Layer) :
    (d.union branch).layer.subquery = d.layer.subquery := by
  simp only [union]
  split <;> rfl

@[simp] theorem union_includes (branch : Layer) :
    (d.union branch).layer.includes = d.layer.includes := by
  simp only [union]
  split <;> rfl

/-- **No operator touches the rows that a layer reads.** -/
theorem Applied.subquery_eq (h : Applied schema nested d op d') :
    d'.layer.subquery = d.layer.subquery := by
  cases h with
  | filter => simp
  | union => simp
  | selectMany _ _ _ hf => obtain ⟨joins, rfl⟩ := hf.frame; rfl
  | any _ hr => simp [layer_restrictBy hr]
  | first _ hr => simp [layer_restrictBy hr]
  | aggregate _ hs =>
    rcases hs with ⟨-, hr, -⟩ | ⟨-, rfl, -⟩
    · simp [layer_restrictBy hr]
    · rfl
  | _ => rfl

/-- Only `Include` adds to the paths loaded with the rows. -/
theorem Applied.includes_eq (h : Applied schema nested d op d') (hk : op.kind ≠ .includePath) :
    d'.layer.includes = d.layer.includes := by
  cases h with
  | filter => simp
  | union => simp
  | selectMany _ _ _ hf => obtain ⟨joins, rfl⟩ := hf.frame; rfl
  | any _ hr => simp [layer_restrictBy hr]
  | first _ hr => simp [layer_restrictBy hr]
  | aggregate _ hs =>
    rcases hs with ⟨-, hr, -⟩ | ⟨-, rfl, -⟩
    · simp [layer_restrictBy hr]
    · rfl
  | includePath hi => exact absurd hi hk
  | _ => rfl

/-! ## Steps -/

/-- A wrapped draft reads the finished one, and takes over the paths to load. -/
theorem wrap_eq_ok (h : d.wrap schema = .ok d') :
    ∃ row source, { d.finished with includes := [] }.derivedRow schema 0 = .ok (row, source) ∧
      d' = { layer := { Layer.ofLayer source { d.finished with includes := [] } with
               includes := d.finished.includes }
             row } := by
  simp only [wrap, bind_eq_ok, pure_eq_ok] at h
  obtain ⟨⟨row, source⟩, hr, rfl⟩ := h
  exact ⟨row, source, hr, rfl⟩

/-- The draft that an operator is applied to: the draft itself, or one wrapped around it. -/
def opened (schema : Schema) (kind : OpKind) (d : Draft) : Compiled Draft :=
  if d.mustClose kind then d.wrap schema else .ok d

theorem step_of_terminal (ht : d.terminal = none) : d.step schema nested op = do
    let d₁ ← d.opened schema op.kind
    let d₂ ← d₁.apply schema nested op
    return { d₂ with applied := d₂.applied + 1 } := by
  simp only [step, ht, opened]
  cases d.mustClose op.kind <;> rfl

theorem opened_eq_ok {kind : OpKind} (h : d.opened schema kind = .ok d') :
    d.mustClose kind = true ∧ d.wrap schema = .ok d' ∨ d.mustClose kind = false ∧ d' = d := by
  unfold opened at h
  split at h
  · rename_i hclose
    exact .inl ⟨hclose, h⟩
  · rename_i hopen
    cases h
    exact .inr ⟨by simpa using hopen, rfl⟩

/-- **A step applies an operator**, to the draft itself or to one wrapped around it. -/
theorem step_eq_ok (h : d.step schema nested op = .ok d') :
    d.terminal = none ∧ ∃ d₁ d₂,
      (d.mustClose op.kind = true ∧ d.wrap schema = .ok d₁ ∨
        d.mustClose op.kind = false ∧ d₁ = d) ∧
      Applied schema nested d₁ op d₂ ∧ d' = { d₂ with applied := d₂.applied + 1 } := by
  have ht : d.terminal = none := by
    unfold step at h
    split at h
    · cases h
    · assumption
  rw [step_of_terminal ht] at h
  simp only [bind_eq_ok, pure_eq_ok] at h
  obtain ⟨d₁, hd₁, d₂, happly, rfl⟩ := h
  exact ⟨ht, d₁, d₂, opened_eq_ok hd₁, applied_of_apply happly, rfl⟩

end Draft

end QueryCompiler

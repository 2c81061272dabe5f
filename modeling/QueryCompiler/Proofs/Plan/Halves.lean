import QueryCompiler.Proofs.Plan.Columns
import QueryCompiler.Proofs.Plan.Normal
/-!
# What the halves of a split layer make of its bindings

A split layer binds the same members as before, at the same positions. `Layer.Restates` says what
stands in the place of one binding: a navigation stays a navigation, a construction stays one, and
everything else is read as a column of the inner half. `Layer.restates_split` follows this through
the walk over the projection.

A column is read as a member of the root of the outer half, and the root is still of its entity
type. So a column is a scalar above unless its name finds a navigation of that type
(`Layer.ReadsColumn`); its own name only avoids the names of other columns.
-/

namespace QueryCompiler

/-- The binding at a position of a projection: the numbers of the bindings that lead to it, from the
outermost construction on. -/
def Expr.binding? : Expr → List Nat → Option Binding
  | _, [] => none
  | e, [i] => e.bindings?.bind (·[i]?)
  | e, i :: j :: path => (e.bindings?.bind (·[i]?)).bind (·.value.binding? (j :: path))

theorem Expr.eq_object_of_binding? {e : Expr} {path : List Nat} {b : Binding}
    (h : e.binding? path = some b) : ∃ ty bindings, e = .object ty bindings := by
  cases e with
  | object ty bindings => exact ⟨ty, bindings, rfl⟩
  | _ =>
    match path with
    | [] | [_] | _ :: _ :: _ => cases h

/-- The shape of a column that is read by its name from a derived root of an entity type. -/
def Entity.exportShape (e : Entity) (name : String) : Shape :=
  match e.navigation? name with
  | some nav => .ofMember (.navigation nav)
  | none => .scalar

theorem Entity.exportShape_eq_scalar {e : Entity} {name : String} :
    e.exportShape name = .scalar ↔ e.navigation? name = none := by
  unfold exportShape
  split
  · rename_i nav hnav
    cases hmany : nav.many <;> simp [Shape.ofMember, hnav, hmany]
  · rename_i hnone
    simp [hnone]

namespace Layer

variable {schema : Schema} {l q : Layer}

/-! ## Bindings of the outer half -/

/-- What stands in the place of a binding of `l` above it, when `l` exports some columns. -/
inductive Restates (schema : Schema) (l : Layer) (columns : List Binding) : Binding → Binding → Prop
  /-- what is no entity, collection or construction is read as a column -/
  | column {m : String} {v : Expr} {shape : Shape} {c : Binding}
    (hshape : l.shape schema v = .ok shape) (hflat : shape = .scalar ∨ shape = .row)
    (hc : c ∈ columns) (hvalue : c.value = v ∨ c.value == v) :
    Restates schema l columns ⟨m, v⟩ ⟨m, .member (.source 0) c.member⟩
  /-- a path from the root to an entity or a collection stays one -/
  | navigation {m : String} {v v' : Expr} {shape : Shape} {path : List String}
    (hshape : l.shape schema v = .ok shape) (hscalar : shape ≠ .scalar) (hrow : shape ≠ .row)
    (hobject : shape ≠ .object) (hpath : v.memberPath? = some (0, path))
    (hv : ∀ q : Layer, q.source = l.source → q.shape schema v' = .ok shape) :
    Restates schema l columns ⟨m, v⟩ ⟨m, v'⟩
  | object {m : String} {ty : Option String} {bindings bindings' : List Binding}
    (h : List.Forall₂ (Restates schema l columns) bindings bindings') :
    Restates schema l columns ⟨m, .object ty bindings⟩ ⟨m, .object ty bindings'⟩

/-- **Each position has its restated binding.** -/
theorem Restates.binding? {columns bindings bindings' : List Binding} {ty ty' : Option String}
    {path : List Nat} {b : Binding}
    (h : List.Forall₂ (l.Restates schema columns) bindings bindings')
    (hb : (Expr.object ty bindings).binding? path = some b) :
    ∃ b', (Expr.object ty' bindings').binding? path = some b' ∧ l.Restates schema columns b b' := by
  induction path generalizing bindings bindings' ty ty' with
  | nil => cases hb
  | cons i path ih =>
    have hat {c : Binding} (hc : bindings[i]? = some c) :
        ∃ c', bindings'[i]? = some c' ∧ l.Restates schema columns c c' := by
      obtain ⟨hi, rfl⟩ := List.getElem?_eq_some_iff.1 hc
      have hi' : i < bindings'.length := h.length_eq ▸ hi
      exact ⟨bindings'[i], List.getElem?_eq_getElem hi', h.get hi hi'⟩
    cases path with
    | nil => exact hat hb
    | cons j path =>
      obtain ⟨c, hc, hb⟩ := Option.bind_eq_some_iff.1 hb
      obtain ⟨c', hc', hrestates⟩ := hat hc
      -- the position goes on below, so that a construction stands here
      cases hrestates with
      | object hinner =>
        obtain ⟨b', hb', hrestates⟩ := ih hinner hb
        exact ⟨b', Option.bind_eq_some_iff.2 ⟨_, hc', hb'⟩, hrestates⟩
      | column hshape hflat =>
        obtain ⟨_, _, rfl⟩ := Expr.eq_object_of_binding? hb
        cases hshape
        simp at hflat
      | navigation hshape hscalar hrow hobject hpath =>
        obtain ⟨_, _, rfl⟩ := Expr.eq_object_of_binding? hb
        cases hpath

/-! ## The walk over the projection -/

open Boundary (above collects_rebase collects_keep)

theorem collects_requireNavigationKeys (e : Expr) :
    Collects (requireNavigationKeys schema l.innerHalf (above schema l) e) fun _ _ => True :=
  requireNavigationKeys_induction (P := fun _ => True) (C := fun x => Collects x fun _ _ => True)
    (fun _ _ _ => trivial) (.pure fun _ => trivial) (fun hx hy => .seq hx fun _ => hy)
    (fun h => .lift_bind h) (fun _ hshape hscalar hrow hobject => by
      obtain ⟨id, path, hpath⟩ := memberPath?_of_shape hshape hscalar hrow hobject
      exact .discard (collects_rebase hpath)) e trivial

theorem collects_navigation {v : Expr} {shape : Shape} (hshape : l.shape schema v = .ok shape)
    (hscalar : shape ≠ .scalar) (hrow : shape ≠ .row) (hobject : shape ≠ .object) (m : String) :
    Collects ((above schema l).rebase v) fun columns v' =>
      l.Restates schema columns ⟨m, v⟩ ⟨m, v'⟩ := by
  obtain ⟨id, path, hpath⟩ := memberPath?_of_shape hshape hscalar hrow hobject
  refine (collects_rebase hpath).imp fun columns v' ⟨hid, hv, _⟩ => ?_
  subst hid
  exact .navigation hshape hscalar hrow hobject hpath fun q hq => (hv q hq).trans hshape

/-- What is neither navigation nor construction is read as a column. -/
theorem collects_column {v : Expr} {shape : Shape} (hshape : l.shape schema v = .ok shape)
    (hflat : shape = .scalar ∨ shape = .row) (m : String) :
    Collects ((above schema l).keep m v) fun columns v' =>
      l.Restates schema columns ⟨m, v⟩ ⟨m, v'⟩ := by
  refine (collects_keep rfl).imp fun columns v' ⟨c, hc, hv', hvalue⟩ => ?_
  subst hv'
  exact .column hshape hflat hc hvalue

mutual

theorem collects_splitProjection : ∀ e : Expr, e.bindings?.isSome →
    Collects (splitProjection schema l.innerHalf (above schema l) e) fun columns e' =>
      ∃ ty bindings bindings', e = .object ty bindings ∧ e' = .object ty bindings' ∧
        List.Forall₂ (l.Restates schema columns) bindings bindings'
  | .object ty bindings, _ => by
    rw [splitProjection]
    refine .bind (collects_splitBindings bindings) fun bindings' => .pure fun columns h => ?_
    exact ⟨ty, bindings, bindings', rfl, rfl, h⟩

/-- **Every binding is restated**, whatever columns are collected after it. -/
theorem collects_splitBindings : ∀ bindings : List Binding,
    Collects (splitBindings schema l.innerHalf (above schema l) bindings) fun columns bindings' =>
      List.Forall₂ (l.Restates schema columns) bindings bindings'
  | [] => .pure fun _ => .nil
  | ⟨m, v⟩ :: bindings => by
    rw [splitBindings]
    refine .lift_bind fun shape hshape => ?_
    rw [shape_innerHalf] at hshape
    -- the columns collected behind this binding leave its own in place
    have hrest (value : Expr) : Collects
        (do return (⟨m, value⟩ :: (← splitBindings schema l.innerHalf (above schema l) bindings) :
          List Binding))
        fun columns bindings' => l.Restates schema columns ⟨m, v⟩ ⟨m, value⟩ →
          List.Forall₂ (l.Restates schema columns) (⟨m, v⟩ :: bindings) bindings' :=
      .bind (collects_splitBindings bindings) fun bindings' =>
        .pure fun columns hbindings hvalue => .cons hvalue hbindings
    cases shape with
    | scalar => exact .bind (collects_column hshape (.inl rfl) m) hrest
    | row => exact .bind (collects_column hshape (.inr rfl) m) hrest
    | entity ty | collection ty =>
      exact .bind (collects_navigation hshape (by simp) (by simp) (by simp) m) hrest
    | object =>
      have hconstruction := collects_splitProjection v (bindings?_of_shape hshape)
      refine .bind (hconstruction.imp fun columns value h => ?_) hrest
      obtain ⟨ty, inner, inner', rfl, rfl, hinner⟩ := h
      exact .object hinner

end

/-- **The outer half of a projection restates its bindings.** -/
theorem collects_splitOuter (hselect : l.select.bindings?.isSome) :
    Collects (splitOuter schema l (above schema l) l.innerHalf) fun columns r =>
      ∃ ty bindings bindings', l.select = .object ty bindings ∧ r.1 = .object ty bindings' ∧
        List.Forall₂ (l.Restates schema columns) bindings bindings' := by
  unfold splitOuter
  refine .seq (.forM fun path _ => .discard (collects_rebase (Expr.memberPath?_follow path rfl)))
    fun _ => ?_
  rw [if_neg (by simp [above])]
  refine .seq (collects_requireNavigationKeys l.select) fun _ => ?_
  refine .bind (collects_splitProjection l.select hselect) fun select => ?_
  -- the keys of the ordering are kept behind all columns of the projection
  refine .seq (.mapM fun o _ => ?_) fun orders => .pure fun columns h => h
  exact .seq (collects_keep rfl) fun _ => .pure fun _ => trivial

/-- **A split layer restates its bindings over the columns that its inner half exports.** -/
theorem restates_split {ty : Option String} {bindings : List Binding}
    (h : l.split schema = .ok q) (hselect : l.select = .object ty bindings) :
    q.source = l.source ∧ ∃ inner columns bindings', q.subquery = some inner ∧
      inner.select = .object none columns ∧ Binding.Distinct columns ∧
      q.select = .object ty bindings' ∧
      List.Forall₂ (l.Restates schema columns) bindings bindings' := by
  obtain ⟨select, orders, columns, -, hrun, rfl⟩ := split_eq_ok h
  have hpart : l.isIdentity = false := by simp [isIdentity, hselect, Expr.isRoot]
  rw [hpart] at hrun ⊢
  obtain ⟨-, hdistinct, hpost⟩ :=
    collects_splitOuter (by simp [hselect, Expr.bindings?]) [] _ _ .nil hrun
  obtain ⟨_, _, bindings', hbindings, rfl, hrestates⟩ := hpost columns List.prefix_rfl
  cases hselect.symm.trans hbindings
  exact ⟨rfl, _, columns, bindings', rfl, rfl, hdistinct, rfl, hrestates⟩

/-! ## The root of a split layer -/

theorem binds_of_bindsCollection {e : Expr} (h : l.bindsCollection schema e = .ok true) :
    l.Binds schema e := by
  induction e using Expr.induction_object with
  | object ty bs ih =>
    have hfound : ∃ b ∈ bs, l.Binds schema b.value := by
      rw [bindsCollection] at h
      induction bs with
      | nil => cases h
      | cons b bs ihs =>
        obtain ⟨m, v⟩ := b
        rw [bindsCollectionAny] at h
        obtain ⟨found, hfound, h⟩ := Compiled.bind_eq_ok.1 h
        rw [List.forall_mem_cons] at ih
        cases found with
        | true => exact ⟨⟨m, v⟩, by simp, ih.1 hfound⟩
        | false =>
          obtain ⟨b, hb, hbinds⟩ := ihs ih.2 h
          exact ⟨b, by simp [hb], hbinds⟩
    obtain ⟨b, hb, hbinds⟩ := hfound
    exact .inside hb hbinds
  | other e he =>
    rw [bindsCollection.eq_2 _ _ _ he] at h
    obtain ⟨shape, hshape, hmany⟩ := Compiled.bind_eq_ok.1 h
    cases shape with
    | collection ty => exact .here hshape
    | _ => cases hmany

theorem Binds.memberPath? {columns : List Binding} {e : Expr} (h : l.Binds schema e) :
    ∀ {b b' : Binding}, b.value = e → l.Restates schema columns b b' →
      ∃ v path ty, v.memberPath? = some (0, path) ∧ l.shape schema v = .ok (.collection ty) := by
  induction h with
  | @here e ty hmany =>
    rintro b b' rfl hrestates
    cases hrestates with
    | column hshape hflat =>
      cases hshape.symm.trans hmany
      simp at hflat
    | navigation _ _ _ _ hpath => exact ⟨_, _, ty, hpath, hmany⟩
    | object => cases hmany
  | @inside ty bindings c hc _ ih =>
    intro b b' hb hrestates
    cases hrestates with
    | column hshape hflat =>
      subst hb
      cases hshape
      simp at hflat
    | navigation _ _ _ _ hpath =>
      subst hb
      cases hpath
    | object hinner =>
      cases hb
      obtain ⟨c', -, hc'⟩ := exists_of_forall₂ hinner.flip c hc
      exact ih rfl hc'

/-- **The root of a layer that binds a restated collection is of an entity type.** -/
theorem Binds.entity {columns : List Binding} {b b' : Binding} (h : l.Binds schema b.value)
    (hrestates : l.Restates schema columns b b') :
    ∃ root entity, l.source = some root ∧ schema.entity root = .ok entity := by
  obtain ⟨v, path, ty, hpath, hshape⟩ := h.memberPath? rfl hrestates
  rw [Expr.eq_follow_of_memberPath? hpath] at hshape
  cases path with
  | nil =>
    rw [Expr.follow, List.foldl_nil, shape_root] at hshape
    cases hsource : l.source <;> simp [hsource] at hshape
  | cons first rest =>
    obtain ⟨root, entity, hroot, hentity⟩ := entity_of_shape_follow hshape (by simp)
    rw [shape_root] at hroot
    cases hsource : l.source with
    | none => simp [hsource] at hroot
    | some ty =>
      simp only [hsource, Option.elim, Except.ok.injEq, Shape.entity.injEq] at hroot
      exact ⟨ty, entity, rfl, hroot ▸ hentity⟩

/-! ## Shapes above -/

/-- A column of the rows below is read as a member of the root: as the navigation that its name
finds, or as a scalar if it finds none. -/
theorem shape_export {root : String} {entity : Entity} (hsource : q.source = some root)
    (hderived : q.isDerived) (hentity : schema.entity root = .ok entity) (name : String) :
    q.shape schema (.member (.source 0) name) = .ok (entity.exportShape name) := by
  rw [shape, shape_root, hsource]
  simp only [Option.elim, bind, Except.bind, hentity, Entity.exportShape, Entity.navigation?]
  cases hm : entity.member? name with
  | none => simp [hderived, Expr.isRoot]
  | some m =>
    obtain ⟨n, kind⟩ := m
    cases kind <;> rfl

/-- What a layer binds as `e` is a column `c` of the rows below its outer half `q`, which reads it
as `e'`. -/
structure ReadsColumn (schema : Schema) (q : Layer) (entity : Entity) (c : Binding) (e e' : Expr) :
    Prop where
  root : ∃ ty, q.source = some ty ∧ schema.entity ty = .ok entity
  /-- the name of the column finds it, and no other -/
  exported : ∃ inner columns, q.subquery = some inner ∧ inner.select = .object none columns ∧
    columns.find? (·.member == c.member) = some c
  value : c.value = e ∨ c.value == e
  reads : e' = .member (.source 0) c.member
  shape : q.shape schema e' = .ok (entity.exportShape c.member)

/-- **A split layer binds the same members at the same positions.** Navigations and constructions
keep their shapes, and everything else is read as a column. -/
theorem shape_split {path : List Nat} {b : Binding} (h : l.split schema = .ok q)
    (hbinds : l.Binds schema l.select) (hb : l.select.binding? path = some b) :
    ∃ b' shape, q.select.binding? path = some b' ∧ b'.member = b.member ∧
      l.shape schema b.value = .ok shape ∧
      (shape ≠ .scalar ∧ shape ≠ .row ∧ q.shape schema b'.value = .ok shape ∨
        (shape = .scalar ∨ shape = .row) ∧
          ∃ entity c, q.ReadsColumn schema entity c b.value b'.value ∧
            (q.shape schema b'.value = .ok .scalar ↔ entity.navigation? c.member = none)) := by
  obtain ⟨ty, bindings, hselect⟩ := Expr.eq_object_of_binding? hb
  obtain ⟨hsource, inner, columns, bindings', hinner, hcolumns, hdistinct, hselect', hrestates⟩ :=
    restates_split h hselect
  rw [hselect] at hb hbinds
  obtain ⟨b', hb', hrestated⟩ := Restates.binding? hrestates hb
  rw [hselect']
  cases hrestated with
  | navigation hshape hscalar hrow _ _ hv =>
    exact ⟨_, _, hb', rfl, hshape, .inl ⟨hscalar, hrow, hv q hsource⟩⟩
  | object => exact ⟨_, _, hb', rfl, rfl, .inl ⟨by simp, by simp, rfl⟩⟩
  | @column m v shape c hshape hflat hc hvalue =>
    -- the layer binds a collection besides, so that its root has an entity type
    have hroot : l.Restates schema columns ⟨m, .object ty bindings⟩ ⟨m, .object ty bindings'⟩ :=
      .object hrestates
    obtain ⟨root, entity, hl, hentity⟩ := Binds.entity hbinds hroot
    have hexport := shape_export (hsource.trans hl) (by simp [isDerived, hinner]) hentity c.member
    refine ⟨_, shape, hb', rfl, hshape, .inr ⟨hflat, entity, c, ?_, ?_⟩⟩
    · exact {
        root := ⟨root, hsource.trans hl, hentity⟩
        exported := ⟨inner, columns, hinner, hcolumns, hdistinct.find? hc⟩
        value := hvalue
        reads := rfl
        shape := hexport }
    · rw [hexport, Except.ok.injEq, Entity.exportShape_eq_scalar]

end Layer

/-- **The bindings of a log are found again above a split**, each at its position. What is an
entity, a collection or a construction has its shape still. What is a scalar or an untyped row is
read as a column of the inner layer, under a name that avoids those of other columns only: it has
the shape of a navigation of the root if the name finds one, and is a scalar otherwise. -/
theorem Plan.shape_ofLog {schema : Schema} {log : Log} {q : Layer}
    (h : Plan.ofLog schema log = .ok (.select q)) (hmany : q.hasMany = true) :
    ∃ d, Draft.ofLog schema log = .ok d ∧ ∀ path b, d.finished.select.binding? path = some b →
      ∃ b' shape, q.select.binding? path = some b' ∧ b'.member = b.member ∧
        d.finished.shape schema b.value = .ok shape ∧
        (shape ≠ .scalar ∧ shape ≠ .row ∧ q.shape schema b'.value = .ok shape ∨
          (shape = .scalar ∨ shape = .row) ∧
            ∃ entity c, q.ReadsColumn schema entity c b.value b'.value ∧
              (q.shape schema b'.value = .ok .scalar ↔ entity.navigation? c.member = none)) := by
  obtain ⟨d, hd, hplan⟩ := Plan.ofLog_eq_ok.1 h
  have hregular := Draft.regular_ofLog hd
  refine ⟨d, hd, fun path b hb => ?_⟩
  rcases Layer.separateCollections_eq_ok (Draft.plan_eq_select hplan) with
    ⟨rfl, -⟩ | ⟨hsplit, -, -, -, -, hreaches⟩
  · cases hregular.hasMany.symm.trans hmany
  · refine Layer.shape_split hsplit ?_ hb
    rcases hreaches with hbinds | hincludes
    · exact Layer.binds_of_bindsCollection hbinds
    · -- paths are loaded with whole rows only, which bind nothing
      exfalso
      by_cases hnone : d.finished.includes = []
      · cases (Layer.includesCollection_of_nil hnone).symm.trans hincludes
      · obtain ⟨_, _, hselect⟩ := Expr.eq_object_of_binding? hb
        cases hselect.symm.trans (hregular.normal_finished.includes_whole hnone)

def Schema.totals : Schema :=
  .sales [⟨"Total", .column (.new "total" .int)⟩]

/-- Orders with their lines as items, and with their totals under the name of the lines. -/
def Log.itemizedOrders : Log :=
  [.getSource "Order", .select ⟨["o"], .object none
    [⟨"Items", .member (.param "o") "Lines"⟩, ⟨"Lines", .member (.param "o") "Total"⟩]⟩]

/-- The halves of the itemized orders. The total is exported as `Lines`. -/
def Layer.itemizedOrders : Layer :=
  { ofLayer (some "Order") { ofSource "Order" with
      select := .object none
        [⟨"Id", .member (.source 0) "Id"⟩, ⟨"Lines", .member (.source 0) "Total"⟩] } with
    hasMany := true
    select := .object none
      [⟨"Items", .member (.source 0) "Lines"⟩, ⟨"Lines", .member (.source 0) "Lines"⟩] }

/-- The items and totals are found again above the split. -/
theorem Plan.shape_ofLog_itemizedOrders :
    Plan.ofLog Schema.totals Log.itemizedOrders = .ok (.select Layer.itemizedOrders) ∧
      Layer.itemizedOrders.hasMany = true ∧
      ∃ d, Draft.ofLog Schema.totals Log.itemizedOrders = .ok d ∧
        ∀ path b, d.finished.select.binding? path = some b → ∃ b' shape,
          Layer.itemizedOrders.select.binding? path = some b' ∧ b'.member = b.member ∧
          d.finished.shape Schema.totals b.value = .ok shape ∧
          (shape ≠ .scalar ∧ shape ≠ .row ∧
              Layer.itemizedOrders.shape Schema.totals b'.value = .ok shape ∨
            (shape = .scalar ∨ shape = .row) ∧ ∃ entity c,
              Layer.itemizedOrders.ReadsColumn Schema.totals entity c b.value b'.value ∧
              (Layer.itemizedOrders.shape Schema.totals b'.value = .ok .scalar ↔
                entity.navigation? c.member = none)) := by
  have hp : Plan.ofLog Schema.totals Log.itemizedOrders =
      .ok (.select Layer.itemizedOrders) := by cbv
  exact ⟨hp, rfl, Plan.shape_ofLog hp rfl⟩

/-- The total of an itemized order is a scalar below the split and the lines of the order above. -/
theorem Plan.collection_itemizedOrders :
    Plan.ofLog Schema.totals Log.itemizedOrders = .ok (.select Layer.itemizedOrders) ∧
      Layer.itemizedOrders.hasMany = true ∧
      ∃ d b b', Draft.ofLog Schema.totals Log.itemizedOrders = .ok d ∧
        d.finished.select.binding? [1] = some b ∧
        d.finished.shape Schema.totals b.value = .ok .scalar ∧
        Layer.itemizedOrders.select.binding? [1] = some b' ∧
        Layer.itemizedOrders.shape Schema.totals b'.value = .ok (.collection "Line") := by
  refine ⟨by cbv, rfl, { Draft.ofSource "Order" with
    row := .object none
      [⟨"Items", .member (.source 0) "Lines"⟩, ⟨"Lines", .member (.source 0) "Total"⟩]
    applied := 1 }, _, _, by cbv, rfl, ?_, rfl, ?_⟩
  · cbv
  · cbv

end QueryCompiler

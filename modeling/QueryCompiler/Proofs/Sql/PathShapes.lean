import QueryCompiler.Proofs.Plan.Columns
import QueryCompiler.Proofs.Sql.AliasScope
import QueryCompiler.Proofs.Sql.OutputNames
/-!
# Shapes of paths

What a path of members leads to is worked out twice. A plan goes by the shape of the path
(`Layer.shape`), one member after the other and without regard to rows. A statement is written with
what the path is resolved to (`Context.resolve`), which joins the rows behind navigations on its way
and looks at the last member apart from the others.

The two agree on every path that is resolved (`Context.shape_of_resolve`). A path has no shape only
where the rows of a join are an entity and come from a query, and the one member asked of them is
not declared: the statement takes it for a column that the query returns.
-/

namespace QueryCompiler

open Compiled (bind_eq_ok ok_bind)

open Sql

variable {e : Expr} {name ty : String}

def Sql.Resolved.shape : Resolved → Shape
  | .column _ _ => .scalar
  | .row next many =>
    match next.ty with
    | some ty => if many then .collection ty else .entity ty
    | none => .row

namespace Sql.Context

variable {ctx : Context} {row : Row}

theorem shape_hop {declared : String} {nav : Navigation} {fk : ForeignKey} {target : Entity}
    (he : ctx.layer.shape ctx.schema e = .ok (.entity ty))
    (hop : ctx.schema.Hop ty name declared nav fk target) :
    ctx.layer.shape ctx.schema (.member e name) = .ok (.ofMember (.navigation nav)) := by
  obtain ⟨owner, howner, hmember⟩ := hop.declared
  rw [Layer.shape, he, ok_bind]
  dsimp only
  rw [howner, ok_bind, hmember]

theorem shape_of_column {found : ColumnRef × Option DbType}
    (he : ctx.layer.shape ctx.schema e = .ok (row.ty.elim .row .entity))
    (h : ctx.column row name = .ok found) :
    ctx.layer.shape ctx.schema (.member e name) = .ok .scalar ∨
      (ctx.layer.isDerived && e.isRoot) = false ∧ row.derived = true ∧ ∃ ty, row.ty = some ty ∧
        ctx.layer.shape ctx.schema (.member e name) = .error (.unknownMember ty name) := by
  rw [Layer.shape, he, ok_bind]
  unfold column at h
  split at h
  · rename_i hty
    rw [hty]
    exact .inl rfl
  · rename_i ty hty
    obtain ⟨entity, hentity, h⟩ := bind_eq_ok.1 h
    rw [hty]
    dsimp only [Option.elim]
    rw [hentity, ok_bind]
    split at h
    · rename_i hmember
      rw [hmember]
      exact .inl rfl
    · cases h
    · rename_i hmember
      rw [hmember]
      dsimp only
      split at h
      · rename_i hderived
        by_cases hroot : (ctx.layer.isDerived && e.isRoot) = true
        · exact .inl (if_pos hroot)
        · exact .inr ⟨by simpa using hroot, hderived, ty, rfl, if_neg hroot⟩
      · cases h

/-- **A path has the shape of what it leads to.** The induction is on the path, and what is kept
along it is that `e` has the shape of the row. Behind a navigation rows are those of a table, so a
member that is not declared can only be the first. -/
theorem gives_shape {path : List String}
    (he : ctx.layer.shape ctx.schema e = .ok (row.ty.elim .row .entity)) :
    Gives (ctx.walk row path) fun r =>
      ctx.layer.shape ctx.schema (e.follow path) = .ok r.shape ∨
        (ctx.layer.isDerived && e.isRoot) = false ∧ row.derived = true ∧ ∃ ty name,
          row.ty = some ty ∧ path = [name] ∧
          ctx.layer.shape ctx.schema (e.follow path) = .error (.unknownMember ty name) := by
  induction path generalizing e row with
  | nil =>
    refine .pure (.inl (he.trans ?_))
    rw [Resolved.shape]
    cases row.ty <;> rfl
  | cons hop hops ih =>
    cases hops with
    | nil =>
      unfold walk
      refine .seq fun isNavigation => ?_
      split
      · refine .bind gives_navigation ?_
        rintro - ⟨ty, name, nav, fk, target, number, on, hty, hop, -, rfl⟩
        rw [hty] at he
        exact .pure (.inl (shape_hop he hop))
      · refine .bind (.lift fun _ h => h) fun found hcolumn => .pure ?_
        rcases shape_of_column he hcolumn with hscalar | ⟨hroot, hderived, ty, hty, hunknown⟩
        · exact .inl hscalar
        · exact .inr ⟨hroot, hderived, ty, hop, hty, rfl, hunknown⟩
    | cons second hops =>
      unfold walk
      refine .bind gives_navigation ?_
      rintro - ⟨ty, name, nav, fk, target, number, on, hty, hhop, -, rfl⟩
      dsimp only
      split
      · exact .throw_bind
      · rename_i hmany
        rw [hty] at he
        have hnext : ctx.layer.shape ctx.schema (.member e hop) = .ok (.entity nav.target) := by
          rw [shape_hop he hhop, Shape.ofMember, if_neg hmany]
        refine (ih hnext).imp fun r hr => .inl (hr.resolve_right ?_)
        exact fun h => Bool.noConfusion h.2.1

theorem gives_resolve {id : Nat} {path : List String} (hpath : e.memberPath? = some (id, path)) :
    Gives (ctx.resolve id path) fun r =>
      ctx.layer.shape ctx.schema e = .ok r.shape ∨ ∃ j ty name, ctx.layer.join? id = some j ∧
        j.target.isSubquery = true ∧ j.rowType = some ty ∧ path = [name] ∧
        ctx.layer.shape ctx.schema e = .error (.unknownMember ty name) := by
  obtain rfl := Expr.eq_follow_of_memberPath? hpath
  refine .bind gives_source fun row ⟨hty, hderived⟩ => ?_
  have hsource : ctx.layer.shape ctx.schema (.source id) = .ok (row.ty.elim .row .entity) := by
    rw [hty, Layer.shape]
    cases ctx.layer.sourceType? id <;> rfl
  refine (gives_shape hsource).imp fun r hr => hr.imp_right ?_
  rintro ⟨hroot, htrue, ty, name, hrow, rfl, hunknown⟩
  rw [htrue] at hderived
  by_cases hid : id = 0
  · -- a member of the root that is not declared is a column of the layer below
    subst hid
    have hlayer : ctx.layer.isDerived = true := by simpa [isDerived?] using hderived
    simp [hlayer, Expr.isRoot] at hroot
  · rw [isDerived?, if_neg hid] at hderived
    obtain ⟨j, hj, hsubquery⟩ := Option.map_eq_some_iff.1 hderived
    rw [hty, Layer.sourceType?, if_neg hid, hj] at hrow
    exact ⟨j, ty, name, hj, hsubquery, hrow, rfl, hunknown⟩

/-- **The shape of a path is that of what it leads to.** If a path of members is resolved, from
whatever state of the scope, and the path has a shape, then a scalar leads to a column, an entity to
one row of its type, a collection to the rows of its type, and a row without a type to such a row.
And a path that is resolved has a shape, unless it is one member of joined rows that a query
returns, and the member is not declared by their type. -/
theorem shape_of_resolve (ctx : Context) (e : Expr) (id : Nat) (path : List String)
    (scope scope' : Scope) (r : Resolved) (hpath : e.memberPath? = some (id, path))
    (hrun : (ctx.resolve id path).run scope = .ok (r, scope')) :
    (∀ shape, ctx.layer.shape ctx.schema e = .ok shape → shape = r.shape) ∧
      ∀ err, ctx.layer.shape ctx.schema e = .error err → ∃ j ty name, ctx.layer.join? id = some j ∧
        j.target.isSubquery = true ∧ j.rowType = some ty ∧ path = [name] ∧
        err = .unknownMember ty name := by
  rcases gives_resolve hpath scope r scope' hrun with
    hshape | ⟨j, ty, name, hj, hsubquery, hty, hname, hunknown⟩
  · rw [hshape]
    exact ⟨fun shape h => (Except.ok.inj h).symm, fun err h => (by cases h)⟩
  · rw [hunknown]
    refine ⟨fun shape h => (by cases h), fun err h => ?_⟩
    exact ⟨j, ty, name, hj, hsubquery, hty, hname, (Except.error.inj h).symm⟩

/-- The customer of an order is one row, and the name of that customer's region is a column. -/
theorem shape_of_resolve_orders :
    let ctx : Context := ⟨Schema.orders, .sqlServer, .ofSource "Order"⟩
    let customer : Expr := .member (.source 0) "Customer"
    let region : Expr := .member (.member customer "Region") "Name"
    (∃ r scope, (ctx.resolve 0 ["Customer"]).run {} = .ok (r, scope) ∧
      ctx.layer.shape ctx.schema customer = .ok (.entity "Customer") ∧
      Shape.entity "Customer" = r.shape) ∧
    ∃ r scope, (ctx.resolve 0 ["Customer", "Region", "Name"]).run {} = .ok (r, scope) ∧
      ctx.layer.shape ctx.schema region = .ok .scalar ∧ Shape.scalar = r.shape := by
  intro ctx customer region
  have hcustomer : ctx.layer.shape ctx.schema customer = .ok (.entity "Customer") := by decide
  have hregion : ctx.layer.shape ctx.schema region = .ok .scalar := by decide
  refine ⟨⟨_, _, rfl, hcustomer, ?_⟩, ⟨_, _, rfl, hregion, ?_⟩⟩
  · exact (shape_of_resolve ctx customer 0 _ {} _ _ rfl rfl).1 _ hcustomer
  · exact (shape_of_resolve ctx region 0 _ {} _ _ rfl rfl).1 _ hregion

end Sql.Context

end QueryCompiler

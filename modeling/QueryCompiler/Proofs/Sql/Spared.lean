import QueryCompiler.Proofs.Plan.Scoped
import QueryCompiler.Proofs.Refusals
import QueryCompiler.Sql.OfPlan
/-!
# Plans without cause for a refusal

While a layer is read, a query is refused for want of rows in one place, where rows are looked up by
their number, and for want of an ordering in another, where the rows of a layer are written. So a
layer gives cause for a refusal if it shows rows of a number that it does not have
(`Layer.FindsIn`), or if it passes over rows without an ordering (`Layer.Safe`).
-/

namespace QueryCompiler

variable {r : Refusal}

/-! ## Rows that a layer has -/

namespace Layer

variable {schema : Schema} {l : Layer} {e p : Expr}

/-- A layer has rows of a number, if the want of them is the refusal. -/
def Finds (l : Layer) (r : Refusal) (id : Nat) : Prop :=
  r = .source → id = 0 ∨ (l.join? id).isSome = true

/-- A layer has the rows of every number that an expression shows. -/
def FindsIn (l : Layer) (r : Refusal) (e : Expr) : Prop :=
  ∀ id, (Expr.source id).Shown e → l.Finds r id

theorem FindsIn.part (h : l.FindsIn r e) (he : e.isLambda = false) (hp : p ∈ e.parts) :
    l.FindsIn r p :=
  fun id hid => h id (.part (.inr he) hp hid)

theorem FindsIn.of_memberPath? {id : Nat} {path : List String} (h : l.FindsIn r e)
    (hpath : e.memberPath? = some (id, path)) : l.Finds r id := by
  induction e using Expr.induction_parts generalizing path with
  | h e ih =>
    cases e with
    | source =>
      cases hpath
      exact h _ .refl
    | member target name =>
      obtain ⟨⟨id', path'⟩, hpath', heq⟩ := Option.map_eq_some_iff.1 hpath
      cases heq
      exact ih target (by simp) (h.part rfl (by simp)) hpath'
    | _ => cases hpath

theorem FindsIn.of_mem_paths {path : Nat × List String} (h : l.FindsIn r e)
    (hpath : path ∈ e.paths) : l.Finds r path.1 := by
  induction e using Expr.induction_parts with
  | h e ih =>
    have hparts (he : e.isLambda = false) (hcomposed : e.isComposed = true) :
        l.Finds r path.1 := by
      obtain ⟨part, hpart, hpath⟩ := Expr.mem_paths_of_isComposed hcomposed hpath
      exact ih part hpart (h.part he hpart) hpath
    cases e with
    | source id =>
      obtain rfl : path = (id, []) := by simpa [Expr.paths] using hpath
      exact h id .refl
    | member target name =>
      rw [Expr.paths, List.mem_append, Option.mem_toList] at hpath
      rcases hpath with hpath | hpath
      · exact h.of_memberPath? hpath
      · exact ih target (by simp) (h.part rfl (by simp)) hpath
    | query | lambda => simp [Expr.paths] at hpath
    | _ => exact hparts rfl rfl

theorem FindsIn.follow (h : l.FindsIn r e) (path : List String) :
    l.FindsIn r (e.follow path) := by
  induction path generalizing e with
  | nil => exact h
  | cons name path ih =>
    refine ih (e := .member e name) fun id hid => ?_
    rcases Expr.standsIn_iff.1 hid with heq | ⟨-, q, hq, hshown⟩
    · cases heq
    · obtain rfl : q = e := by simpa using hq
      exact h id hshown

/-! ## Safe layers -/

/-- A layer by itself gives no cause for a refusal. -/
structure Safe (r : Refusal) (l : Layer) : Prop where
  skip_ordered : r = .order → 0 < l.skip → l.orders ≠ []
  exprs_found : ∀ e ∈ l.exprs, l.FindsIn r e

theorem effectiveOrders_of_orders (h : l.orders ≠ []) : l.effectiveOrders schema = l.orders := by
  simp [effectiveOrders, h]

theorem effectiveOrders_cases {o : Order} (ho : o ∈ l.effectiveOrders schema) :
    o ∈ l.orders ∨ ∃ orders, l.inheritedOrders schema = some orders ∧ o ∈ orders := by
  unfold effectiveOrders at ho
  split at ho
  · exact .inl ho
  · split at ho
    · cases ho
    · cases h : l.inheritedOrders schema with
      | none => simp [h] at ho
      | some orders => exact .inr ⟨orders, rfl, by simpa [h] using ho⟩

theorem finds_of_mem_joins {j : Join} (hj : j ∈ l.joins) : l.Finds r j.source :=
  fun _ => .inr (List.find?_isSome.2 ⟨j, hj, by simp⟩)

theorem findsIn_root (path : List String) : l.FindsIn r ((Expr.source 0).follow path) := by
  refine FindsIn.follow (fun id hid _ => ?_) path
  rcases Expr.standsIn_iff.1 hid with heq | ⟨-, q, hq, -⟩
  · cases heq
    exact .inl rfl
  · cases hq

theorem Safe.effectiveOrders (h : l.Safe r) :
    ∀ o ∈ l.effectiveOrders schema, l.FindsIn r o.expr := by
  intro o ho
  rcases effectiveOrders_cases ho with ho | ⟨orders, horders, ho⟩
  · exact h.exprs_found _ (mem_exprs.2 (.inr (.inr (.inr (.inr (.inl ⟨o, ho, rfl⟩))))))
  · obtain ⟨_, _, _, _, hexported⟩ := mem_inheritedOrders horders ho
    obtain ⟨name, hname, -⟩ := exported?_cases hexported
    rw [hname]
    exact findsIn_root [name]

end Layer

namespace Plan

variable {p : Plan}

/-- No layer of a plan gives cause for a refusal, nor does the construction of an update. -/
structure Safe (r : Refusal) (p : Plan) : Prop where
  layers : p.All (Layer.Safe r)
  construction : ∀ scope e, p.construction? = some (scope, e) → scope.FindsIn r e

theorem safe_group : p.Safe .group where
  layers _ _ _ _ := ⟨nofun, fun _ _ _ _ => nofun⟩
  construction _ _ _ _ _ := nofun

end Plan

end QueryCompiler

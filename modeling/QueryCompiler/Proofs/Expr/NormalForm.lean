import QueryCompiler.Proofs.Expr.Capture
/-!
# Normal forms

An expression is in normal form if it shows nothing that reduction acts on (`Expr.Normal`). These are
the expressions that reduction gives back as they are (`Expr.reduce_eq_self_iff`), and all that it
ever gives: folding a member uncovers a part of a target that has been reduced already, and an
aggregate is made from elements that have been reduced and from a bound lambda.
-/

namespace QueryCompiler

namespace Expr

variable {e : Expr}

/-- Outside the bodies of lambdas there is no parameter, no member of an object construction, no key
of a grouping and no method of one. The logs of nested queries hold expressions in the bodies of
lambdas only. -/
structure Normal (e : Expr) : Prop where
  param : ∀ name, ¬ (param name).Shown e
  object : ∀ ty bindings name, ¬ (member (object ty bindings) name).Shown e
  key : ∀ key element, ¬ (member (grouping key element) "Key").Shown e
  method : ∀ method key element args, ¬ (call method (some (grouping key element)) args).Shown e

theorem normal_iff_reduced : e.Normal ↔ e.Reduced := by
  constructor
  · intro h p hp
    cases p with
    | param name => exact absurd hp (h.param name)
    | member target name =>
      cases target with
      | object ty bindings => exact absurd hp (h.object ty bindings name)
      | grouping key element =>
        by_cases hname : name = "Key"
        · subst hname
          exact absurd hp (h.key key element)
        · simpa [isRedex] using hname
      | _ => rfl
    | call method target args =>
      cases target with
      | none => rfl
      | some target =>
        cases target with
        | grouping key element => exact absurd hp (h.method method key element args)
        | _ => rfl
    | _ => rfl
  · intro h
    refine ⟨fun name hp => ?_, fun ty bindings name hp => ?_, fun key element hp => ?_,
      fun method key element args hp => ?_⟩
    all_goals
      have hredex := h _ hp
      simp [isRedex] at hredex

/-- **Reduction is the binding of a lambda without parameters.** -/
theorem bind_nil (e : Expr) : Lambda.bind ⟨[], e⟩ [] = e.reduce := by
  rw [Lambda.bind_eq]
  change (e.substitute []).reduce = e.reduce
  rw [substitute_of_not_free (by simp)]

/-- **The normal forms are what reduction gives back as it is.** -/
theorem reduce_eq_self_iff : e.reduce = .ok e ↔ e.Normal := by
  rw [normal_iff_reduced]
  refine ⟨fun h => ?_, fun h => h.reduceWith_eq _⟩
  rw [← bind_nil] at h
  exact Lambda.reduced_bind h

end Expr

/-- **Bound expressions are in normal form**, and reducing what has been reduced gives it back. -/
theorem Lambda.normal_bind :
    (∀ (l : Lambda) (args : List Expr) (e : Expr), l.bind args = .ok e → e.Normal) ∧
      ∀ x e : Expr, x.reduce = .ok e → e.reduce = .ok e := by
  have hbind (l : Lambda) (args : List Expr) (e : Expr) (h : l.bind args = .ok e) : e.Normal :=
    Expr.normal_iff_reduced.2 (reduced_bind h)
  refine ⟨hbind, fun x e h => Expr.reduce_eq_self_iff.2 ?_⟩
  rw [← Expr.bind_nil] at h
  exact hbind _ _ e h

/-- In `g => new { City = g.Key, Total = g.Sum(o => new { Net = o.Price }.Net) }`, the member that is
folded stands in a lambda that is bound while the method of the group is reduced. -/
theorem Lambda.normal_bind_totals :
    let net : Expr := .object none [⟨"Net", .member (.param "o") "Price"⟩]
    let l : Lambda := ⟨["g"], .object none [⟨"City", .member (.param "g") "Key"⟩,
      ⟨"Total", .call "Sum" (some (.param "g")) [.lambda ⟨["o"], .member net "Net"⟩]⟩]⟩
    let e : Expr := .object none [⟨"City", .member (.source 0) "City"⟩,
      ⟨"Total", .aggregate .sum (some (.member (.source 0) "Price"))⟩]
    l.bind [.grouping (.member (.source 0) "City") (.source 0)] = .ok e ∧ e.Normal ∧
      e.reduce = .ok e := by
  intro net l e
  have hbind : l.bind [.grouping (.member (.source 0) "City") (.source 0)] = .ok e := by rfl
  have hreduce : (Expr.member (.object none [⟨"Row", e⟩]) "Row").reduce = .ok e := by rfl
  exact ⟨hbind, normal_bind.1 l _ e hbind, normal_bind.2 _ e hreduce⟩

end QueryCompiler

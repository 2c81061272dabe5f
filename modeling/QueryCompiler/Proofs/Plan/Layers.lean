import QueryCompiler.Plan.OfLog
import QueryCompiler.Proofs.Outcome
/-!
# The layers of a plan

A layer holds other layers: the one it reads, those of the queries it joins, and those united with
it. What is said of every layer of a plan is said along this tree (`Layer.All`), and is shown for a
layer once it is shown for the layers it holds (`Layer.induction_parts`).

Nested queries are planned before the query that holds them. So what every plan has if the plans of
the queries nested in it have it, every plan of a log has (`Plan.ofLogAt_induction`).
-/

namespace QueryCompiler

variable {schema : Schema}

def JoinTarget.layer? : JoinTarget → Option Layer
  | table _ => none
  | subquery l => some l

namespace Layer

variable {l m p q : Layer} {P Q : Layer → Prop}

/-- The layers that a layer holds: the one it reads, those it joins, those united with it. -/
def parts (l : Layer) : List Layer :=
  l.subquery.toList ++ l.joins.filterMap (·.target.layer?) ++ l.unions

theorem mem_parts : m ∈ l.parts ↔
    l.subquery = some m ∨ (∃ j ∈ l.joins, j.target.layer? = some m) ∨ m ∈ l.unions := by
  simp [parts]

/-- `p` is `q` or a layer inside it. -/
inductive Within (p : Layer) : Layer → Prop where
  | refl : Within p p
  | part {q m : Layer} (hm : m ∈ q.parts) (h : Within p m) : Within p q

/-- `P` holds of a layer and of all layers inside it. -/
def All (P : Layer → Prop) (l : Layer) : Prop := ∀ p, p.Within l → P p

theorem All.self (h : l.All P) : P l := h l .refl

theorem All.part (h : l.All P) (hm : m ∈ l.parts) : m.All P :=
  fun p hp => h p (.part hm hp)

theorem all_of_parts (h : P l) (hparts : ∀ m ∈ l.parts, m.All P) : l.All P := by
  intro p hp
  cases hp with
  | refl => exact h
  | part hm hp => exact hparts _ hm p hp

/-- What every layer has is kept when the outermost one changes and holds the same layers. -/
theorem All.with_parts (h : l.All P) (hq : P q) (hparts : q.parts = l.parts) : q.All P :=
  all_of_parts hq fun _ hm => h.part (hparts ▸ hm)

theorem sizeOf_lt_of_mem_parts (hm : m ∈ l.parts) : sizeOf m < sizeOf l := by
  obtain ⟨clauses, subquery, joins, unions⟩ := l
  rw [mk.sizeOf_spec]
  rcases mem_parts.1 hm with rfl | ⟨j, hj, hm⟩ | hm
  · rw [Option.some.sizeOf_spec]
    omega
  · obtain ⟨index, inner, target, on⟩ := j
    cases target with
    | table type => cases hm
    | subquery l =>
      obtain rfl : l = m := Option.some.inj hm
      have hlt := List.sizeOf_lt_of_mem hj
      simp only [Join.mk.sizeOf_spec, JoinTarget.subquery.sizeOf_spec] at hlt
      omega
  · have hlt := List.sizeOf_lt_of_mem hm
    simp only at hlt
    omega

/-- **Induction along the layers inside a layer.** -/
theorem induction_parts {motive : Layer → Prop}
    (h : ∀ l : Layer, (∀ m ∈ l.parts, motive m) → motive l) (l : Layer) : motive l :=
  h l fun m hm =>
    have : sizeOf m < sizeOf l := sizeOf_lt_of_mem_parts hm
    induction_parts h m
termination_by sizeOf l

/-- The expressions in the clauses of a layer, and the keys of its joins. -/
def exprs (l : Layer) : List Expr :=
  l.select :: (l.predicate.toList ++ l.having.toList ++ l.groupBy.toList ++
    l.orders.map (·.expr) ++ (l.aggregate.bind (·.selector)).toList ++
    l.joins.flatMap fun j => j.outerKeys ++ j.innerKeys)

theorem mem_exprs {e : Expr} : e ∈ l.exprs ↔ e = l.select ∨ e ∈ l.predicate ∨ e ∈ l.having ∨
    e ∈ l.groupBy ∨ (∃ o ∈ l.orders, o.expr = e) ∨ (∃ a ∈ l.aggregate, e ∈ a.selector) ∨
    ∃ j ∈ l.joins, e ∈ j.outerKeys ++ j.innerKeys := by
  simp only [exprs, List.mem_cons, List.mem_append, Option.mem_toList, List.mem_map,
    Option.mem_def, Option.bind_eq_some_iff, List.mem_flatMap, or_assoc]

end Layer

/-! ## Plans of logs -/

namespace Plan

/-- The outermost layer of a plan: its query, or the scope of its modification. Rows given as values
have none. -/
def scope? : Plan → Option Layer
  | select l => some l
  | insert _ (.query l) => some l
  | insert _ _ => none
  | update _ _ scope => some scope
  | delete _ _ scope => some scope

/-- What a plan writes beside its layers: the construction of an update, over its scope. -/
def construction? : Plan → Option (Layer × Expr)
  | update _ (.assignments construction) scope => some (scope, construction)
  | _ => none

/-- `P` holds of every layer of a plan. -/
def All (P : Layer → Prop) (p : Plan) : Prop := ∀ l, p.scope? = some l → l.All P

def HasLayer (p : Plan) (l : Layer) : Prop := ∃ scope, p.scope? = some scope ∧ l.Within scope

/-- The layers of nested queries, with queries nested in them at most so deep. -/
def nestedAt (schema : Schema) (depth : Nat) (log : Log) : Compiled Layer := do
  (← ofLogAt schema depth log).nestedLayer

theorem nestedAt_eq_ok {depth : Nat} {log : Log} {l : Layer}
    (h : nestedAt schema depth log = .ok l) : ofLogAt schema depth log = .ok (.select l) := by
  obtain ⟨p, hp, hl⟩ := Compiled.bind_eq_ok.1 h
  cases p with
  | select q =>
    cases hl
    exact hp
  | _ => cases hl

/-- **What a plan has once the plans of the queries nested in it have it, every plan has.** -/
theorem ofLogAt_induction {motive : Plan → Prop}
    (h : ∀ (nested : Log → Compiled Layer), (∀ log l, nested log = .ok l → motive (.select l)) →
      ∀ log p, ofLogWith schema nested log = .ok p → motive p)
    {depth : Nat} {log : Log} {p : Plan} (hp : ofLogAt schema depth log = .ok p) : motive p := by
  induction depth generalizing log p with
  | zero => cases hp
  | succ depth ih => exact h (nestedAt schema depth) (fun _ _ hl => ih (nestedAt_eq_ok hl)) log p hp

end Plan

/-- The draft that the operators of a log leave. -/
def Draft.ofLog (schema : Schema) (log : Log) : Compiled Draft := do
  log.validate
  let (draft, ops) ← start schema log
  ops.foldlM (step schema (Plan.nestedAt schema log.nesting)) draft

theorem Draft.ofLog_eq_ok {log : Log} {d : Draft} (h : ofLog schema log = .ok d) :
    ∃ d₀ ops, start schema log = .ok (d₀, ops) ∧
      ops.foldlM (step schema (Plan.nestedAt schema log.nesting)) d₀ = .ok d := by
  simp only [ofLog, Compiled.bind_eq_ok] at h
  obtain ⟨⟨⟩, -, ⟨d₀, ops⟩, hstart, hrun⟩ := h
  exact ⟨d₀, ops, hstart, hrun⟩

theorem Plan.ofLog_eq_bind (log : Log) :
    Plan.ofLog schema log = Draft.ofLog schema log >>= Draft.plan schema := by
  simp only [ofLog, ofLogAt, ofLogWith, Draft.ofLog, bind_assoc]
  rfl

theorem Plan.ofLog_eq_ok {log : Log} {p : Plan} :
    Plan.ofLog schema log = .ok p ↔
      ∃ d, Draft.ofLog schema log = .ok d ∧ d.plan schema = .ok p := by
  rw [ofLog_eq_bind, Compiled.bind_eq_ok]

end QueryCompiler

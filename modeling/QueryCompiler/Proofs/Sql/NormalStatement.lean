import QueryCompiler.Proofs.Sql.TermByTerm
/-!
# Statements of normal plans

The rows of a layer are refused only if the layer passes over some and has no ordering, so no
statement is refused for it whose layers are normal (`Plan.safe_order`). Neither does a
statement take an aggregate over finished rows (`Plan.all_isDirect`): a normal layer with an
aggregate has no clause that would finish them. As the layers of a log are normal,
`Plan.normal_ofLog` has both for all logs.
-/

namespace QueryCompiler

open Sql

section Layers

variable {schema : Schema} {dialect : Dialect}

/-! ## Orderings -/

theorem Layer.Normal.safe {l : Layer} (h : l.Normal) : l.Safe .order where
  skip_ordered _ hskip := h.skip_ordered hskip
  exprs_found _ _ _ _ hsource := by cases hsource

theorem Plan.safe_order {p : Plan} (h : p.All Layer.Normal) : p.Safe .order where
  layers l hl m hm := (h l hl m hm).safe
  construction _ _ _ _ _ hsource := by cases hsource

/-! ## Aggregates -/

/-- An aggregate over the rows of a layer as they are read. -/
def Sql.Context.aggregatedAsRead (ctx : Context) (inner : Inner) (a : Aggregation) :
    Reading Query := do
  let (value, block, _) ← ctx.block inner true
    (do Typed.aggregate a.func (← ctx.readOption a.selector)) []
  return .aggregate value.term block

theorem Layer.Normal.plain_of_aggregate {l : Layer} (h : l.Normal) (ha : l.aggregate ≠ none) :
    l.finishesRows = false := by
  obtain ⟨hdistinct, hgroup, hskip, htake⟩ := h.aggregate_bare ha
  simp [isPaginated, hdistinct, hgroup, hskip, htake]

theorem Layer.Normal.aggregated_eq {l : Layer} (h : l.Normal) {a : Aggregation}
    (ha : l.aggregate = some a) (inner : Inner) :
    Context.aggregated ⟨schema, dialect, l⟩ inner a =
      Context.aggregatedAsRead ⟨schema, dialect, l⟩ inner a := by
  have hplain := h.plain_of_aggregate (by simp [ha])
  unfold Context.aggregated
  rw [if_neg (by simp [hplain])]
  rfl

/-- A query that is no aggregate over the finished rows of another. -/
def Sql.Query.IsDirect (q : Query) : Prop := ∀ func column p, q ≠ .aggregateOver func column p

theorem Layer.Operand.isDirect {l : Layer} {nested : Bool} {q : Query} (hl : l.Normal)
    (h : l.Operand schema dialect nested q) : q.IsDirect := by
  rintro func column p rfl
  cases h with
  | aggregateOver ha hfinished =>
    rw [hl.plain_of_aggregate (by simp [ha])] at hfinished
    cases hfinished

/-- **The statement of a normal plan aggregates rows as they are read.** -/
theorem Plan.all_isDirect {p : Plan} (h : p.All Layer.Normal) :
    Gives (p.statement schema dialect) (Statement.All Query.IsDirect) := by
  refine all_of_statement (fun l hl => hl.plain_of_aggregate) ?_ h
  intro l nested first q hl hfirst happends
  have hdirect := hfirst.isDirect hl.self
  refine ⟨hdirect, ?_⟩
  rcases happends with ⟨-, rfl⟩ | ⟨-, branches, rfl, -⟩
  · exact hdirect
  · rintro func column p ⟨⟩

/-- **Plans of logs are normal, and so are their statements.** Every layer of the plan of a log is
in normal form. Under no configuration is its command refused for want of an ordering, and no
aggregate is taken over finished rows, neither while a layer is read nor in the statement. -/
theorem Plan.normal_ofLog {log : Log} {p : Plan} (h : Plan.ofLog schema log = .ok p) :
    p.All Layer.Normal ∧
      (∀ config n, p.command schema config ≠ .error (.missingOrder n)) ∧
      p.All (fun l => ∀ a, l.aggregate = some a → ∀ dialect inner,
        Context.aggregated ⟨schema, dialect, l⟩ inner a =
          Context.aggregatedAsRead ⟨schema, dialect, l⟩ inner a) ∧
      ∀ dialect statement constants,
        p.numberedStatement schema dialect = .ok (statement, constants) →
        statement.All Query.IsDirect := by
  have hp := Plan.all_normal h
  refine ⟨hp, fun config n hn => ?_, fun l hl m hm a ha dialect => ?_, ?_⟩
  · exact spares_command (safe_order hp) config _ hn rfl
  · exact (hp l hl m hm).aggregated_eq ha
  · intro dialect statement constants hstatement
    obtain ⟨⟨s, scope⟩, hrun, hpure⟩ := Compiled.bind_eq_ok.1 hstatement
    cases hpure
    exact all_isDirect hp _ _ _ hrun

end Layers

/-- How many books there are behind the first five, together with all distinct books. -/
def Log.laterBooks : Log :=
  [.getSource "Book", .orderBy ⟨["b"], .member (.param "b") "Id"⟩, .skip 5,
    .union [.getSource "Book", .distinct], .terminal .count none]

/-- The plan of that number: rows are counted above the union, and united above those that are
passed over. -/
def Layer.laterBooks : Layer :=
  { ofLayer (some "Book") { ofLayer (some "Book")
      { ofSource "Book" with orders := [⟨.member (.source 0) "Id", false⟩], skip := 5 } with
      unions := [{ ofSource "Book" with distinct := true }] } with
    aggregate := some ⟨.count, none⟩ }

/-- The plan of that number is normal, and so is its statement. -/
theorem Plan.normal_ofLog_laterBooks :
    Plan.ofLog Schema.books Log.laterBooks = .ok (.select Layer.laterBooks) ∧
      Layer.laterBooks.All Layer.Normal ∧
      ∀ config n, (Plan.select Layer.laterBooks).command Schema.books config ≠
        .error (.missingOrder n) := by
  have hp : Plan.ofLog Schema.books Log.laterBooks = .ok (.select Layer.laterBooks) := by cbv
  obtain ⟨hnormal, horderly, -⟩ := Plan.normal_ofLog hp
  exact ⟨hp, hnormal _ rfl, horderly⟩

end QueryCompiler

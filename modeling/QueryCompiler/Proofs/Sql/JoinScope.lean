import QueryCompiler.Proofs.Sql.AliasScope
/-!
# What joins are matched on

The `FROM` of a block introduces the root, then the joins that the log asks for, then the joins of
navigations. A navigation is joined on aliases that stand ahead of it. A join of the log is matched
on keys, and these may pass navigations too: `Plan.join_scope` says that an alias in its `ON` has
been introduced exactly if the path it stands for passes none. The key of a join that does pass one
stands ahead of the join it needs (`Log.compile_regionsOfOrders`).
-/

namespace QueryCompiler

open Sql

/-- The joins of navigations are matched on their own alias and on ones introduced ahead of them. -/
def Sql.Block.NavigationsScoped (b : Block) : Prop :=
  ∀ i n, b.navigations[i]? = some n →
    ∀ ref ∈ n.refs, ref.row ∈ b.rows.take (b.joins.length + 2 + i)

/-- A join is matched on columns that the paths of its keys denote. Their alias is the root's, the
join's own or one introduced ahead of it exactly if the path passes no navigation and starts at such
a source, as it does if the log has only expressions that a caller writes. -/
def Layer.KeysScoped (schema : Schema) (log : Log) (l : Layer) (b : Block) : Prop :=
  ∀ i r, b.joins[i]? = some r → ∃ j : Join, l.joins[i]? = some j ∧
    ∀ ref ∈ r.refs, ∃ id path names,
      (id, path) ∈ (j.outerKeys ++ j.innerKeys).flatMap Expr.paths ∧
      schema.passed (l.sourceType? id) path = some names ∧
      (ref.row ∈ b.rows.take (i + 2) ↔ names = [] ∧ id ≤ i + 1) ∧
      (log.isSurface = true → id ≤ i + 1)

namespace Sql.Context

variable {ctx : Context} {allows : Nat × List String → Prop} {A : Aliases NavigationJoin}
  {b : Block}

theorem Renders.navigationsScoped (h : ctx.Renders allows b A) (hnumbered : ctx.layer.Numbered) :
    b.NavigationsScoped := by
  intro i n hn ref href
  have hlaid := h.laid hnumbered
  have hjoins : b.joins.length = ctx.layer.joins.length := h.joins.length_eq.symm
  rw [h.navigations] at hn
  have hrow := (hlaid.joins i n hn).1
  have hlt := (List.getElem?_eq_some_iff.1 hn).1
  rw [(h.rows_eq hnumbered).2, List.take_range, List.mem_range, hjoins, hlaid.length]
  rcases hlaid.row_of_refs hn href with hown | ⟨c, row, -, hsmaller, hparent⟩
  · omega
  · omega

/-- **An alias in the `ON` of a join has been introduced exactly if the path it stands for starts at
a source that has been, and passes no navigation.** -/
theorem Renders.keys_scope (h : ctx.Renders allows b A) (hnumbered : ctx.layer.Numbered) {i : Nat}
    {j : Join} {r : JoinedRelation} (hj : ctx.layer.joins[i]? = some j)
    (hr : ctx.JoinRenders A j r) :
    ∀ ref ∈ r.refs, ∃ id path names,
      (id, path) ∈ (j.outerKeys ++ j.innerKeys).flatMap Expr.paths ∧
      ctx.schema.passed (ctx.layer.sourceType? id) path = some names ∧
      (ref.row ∈ b.rows.take (i + 2) ↔ names = [] ∧ id ≤ i + 1) := by
  intro ref href
  have hlaid := h.laid hnumbered
  have hlayer := h.grows.keys_prefix
  have hlt : i < ctx.layer.joins.length := (List.getElem?_eq_some_iff.1 hj).1
  have hkeys := hr.keys.settled hlayer (settles_joinKeys fun e he p hp =>
    (show p ∈ (j.outerKeys ++ j.innerKeys).flatMap Expr.paths from List.mem_flatMap.2 ⟨e, he, hp⟩))
  obtain ⟨kind, relation, number, on⟩ := r
  cases on with
  | none => simp [JoinedRelation.refs] at href
  | some pairs =>
    obtain ⟨x, hx, href⟩ := List.mem_flatMap.1 href
    obtain ⟨⟨id, path⟩, hp, hdenotes⟩ := hkeys.2 pairs rfl x hx ref href
    obtain ⟨names, row, hpassed, hrow, hnumber, -⟩ := hdenotes.exists_row hlayer
    refine ⟨id, path, names, hp, hpassed, ?_⟩
    rw [(h.rows_eq hnumbered).2, List.take_range, List.mem_range, hnumber]
    have hknown := hrow.lt_length
    by_cases hnames : names = []
    · subst hnames
      obtain ⟨hid, -⟩ := hlaid.number_source hnumbered hrow
      simp only [true_and]
      omega
    · obtain ⟨k, _, -, -, hk⟩ := hlaid.exists_join hrow hnames
      simp only [hnames, false_and, iff_false]
      omega

end Sql.Context

def Log.regionsOfOrders : Log :=
  [.getSource "Order",
    .joinOf .join [.getSource "Region"]
      ⟨["o"], .member (.member (.param "o") "Customer") "RegionId"⟩
      ⟨["r"], .member (.param "r") "Id"⟩
      ⟨["o", "r"], .object none
        [⟨"Id", .member (.param "o") "Id"⟩, ⟨"Region", .member (.param "r") "Name"⟩]⟩]

def Layer.regionsOfOrders : Layer :=
  { ofSource "Order" with
    joins := [⟨.inner, 1, .table "Region", some "Region",
      [.member (.member (.source 0) "Customer") "RegionId"], [.member (.source 1) "Id"]⟩]
    select := .object none
      [⟨"Id", .member (.source 0) "Id"⟩, ⟨"Region", .member (.source 1) "Name"⟩] }

end QueryCompiler

import QueryCompiler.Proofs.Sql.NormalStatement
/-!
# Orderings and unions

An `ORDER BY` cannot stand ahead of `UNION ALL`. So orderings that do not serve paging are dropped
from united queries, and a branch that is still ordered or paged by itself is wrapped in a query of
its own. `Plan.appendsOrder_union` says how far this goes: the first operand of a union ends with no
`ORDER BY`, and a branch that is not wrapped ends with one exactly if its layer takes over the
ordering of the rows it reads. Whether a branch is wrapped is decided by its own clauses, while that
ordering is found when the branch is written: so it stands bare ahead of whatever follows
(`Log.compile_unitedBooks`).
-/

namespace QueryCompiler

open Sql
open Script (say parenthesized)

variable {nested : Bool}

namespace Sql

/-! ## The ordering in the text of rows -/

namespace Layout

variable (o : Layout)

def numbersRows (skip take : Nat) : Bool :=
  skip > 0 && take == 0 && (!o.dialect.offsetWithoutLimit || o.rowNumbers)

/-- The text of rows ahead of their ordering. -/
def rowsHead (body : Script) (list : SelectList) (keys : List SortKey) (distinct : Bool)
    (skip take : Nat) : Script :=
  let distinctWord := say (if distinct then "DISTINCT " else "")
  if o.numbersRows skip take then
    say ("SELECT " ++ ", ".intercalate (list.names.map fun n => "t0." ++ o.quoted n) ++ " FROM ") ++
      parenthesized (say "SELECT " ++ distinctWord ++ o.columns list ++
        say ", ROW_NUMBER() OVER (ORDER BY " ++ o.orders keys ++
        say (") AS " ++ o.rowNumber ++ " ") ++ body) ++
      say (" t0 WHERE t0." ++ o.rowNumber ++ " > " ++ toString skip)
  else
    let top := if take > 0 && skip == 0 then o.dialect.top take else none
    say "SELECT " ++ distinctWord ++ say (top.getD "") ++ o.columns list ++ say " " ++ body

/-- The `ORDER BY` of rows, if they have one. -/
def orderClause (keys : List SortKey) (skip take : Nat) (nested : Bool) : Script :=
  if o.numbersRows skip take then
    if nested then [] else say (" ORDER BY t0." ++ o.rowNumber)
  else if !keys.isEmpty && (!nested || (skip > 0 || take > 0)) then
    say " ORDER BY " ++ o.orders keys
  else []

def rowsBound (skip take : Nat) : Script :=
  if o.numbersRows skip take then []
  else
    let top := if take > 0 && skip == 0 then o.dialect.top take else none
    say (if top.isNone && (skip > 0 || take > 0) then
        o.dialect.limitOffset (if take > 0 then some take else none)
          (if skip > 0 then some skip else none)
      else "")

/-- **Rows are written with their ordering behind all other clauses** but the bound. -/
theorem rows_eq (body : Script) (list : SelectList) (keys : List SortKey) (distinct : Bool)
    (skip take : Nat) (nested : Bool) : o.rows body list keys distinct skip take nested =
      o.rowsHead body list keys distinct skip take ++ o.orderClause keys skip take nested ++
        o.rowsBound skip take := by
  have hnumbers : (decide (skip > 0) && take == 0 &&
      (!o.dialect.offsetWithoutLimit || o.rowNumbers)) = o.numbersRows skip take := rfl
  unfold rows rowsHead orderClause rowsBound
  rw [hnumbers]
  cases o.numbersRows skip take with
  | true => simp [numberedRows]
  | false => simp

end Layout

namespace Query

variable {block : Block} {list : SelectList} {distinct : Bool}

/-- The text of a query without an `ORDER BY` of its own. -/
def scriptUnordered (o : Layout) : Query → Script
  | rows block list keys distinct skip take _ =>
    o.rowsHead (block.script o) list keys distinct skip take ++ o.rowsBound skip take
  | q => q.script o

/-- The text of a query has an `ORDER BY` of its own, which no parentheses enclose. -/
def AppendsOrder (o : Layout) (q : Query) : Prop := q.script o ≠ q.scriptUnordered o

theorem appendsOrder_rows {o : Layout} {keys : List SortKey} {skip take : Nat} :
    (rows block list keys distinct skip take nested).AppendsOrder o ↔
      o.orderClause keys skip take nested ≠ [] := by
  simp [AppendsOrder, script, scriptUnordered, Layout.rows_eq]

theorem appendsOrder_unpaged {o : Layout} {keys : List SortKey} :
    (rows block list keys distinct 0 0 false).AppendsOrder o ↔ keys ≠ [] := by
  rw [appendsOrder_rows]
  cases keys <;> simp [Layout.orderClause, Layout.numbersRows, say]

theorem not_appendsOrder {o : Layout} :
    ¬ (rows block list [] distinct 0 0 nested).AppendsOrder o := by
  rw [appendsOrder_rows]
  simp [Layout.orderClause, Layout.numbersRows]

end Query

end Sql

/-! ## Operands of unions -/

variable {schema : Schema} {dialect : Dialect}

namespace Layer

variable {l : Layer} {first : Query}

/-- A layer takes over the ordering of the rows it reads: it returns rows, and has neither an
ordering nor a bound of its own. -/
structure InheritsOrder (schema : Schema) (l : Layer) : Prop where
  unions : l.unions = []
  any : l.any = false
  aggregate : l.aggregate = none
  unpaged : l.isPaginated = false
  orders : l.orders = []
  inherited : l.effectiveOrders schema ≠ []

/-- **The first operand of a union appends no ordering.** A layer with unions has none, and takes
over none. -/
theorem Operand.not_appendsOrder (h : l.Operand schema dialect nested first) (hl : l.Normal)
    (hunions : l.unions ≠ []) (o : Layout) : ¬ first.AppendsOrder o := by
  obtain ⟨horders, hskip, htake, -⟩ := hl.union_bare hunions
  cases h with
  | rows _ _ _ hkeys =>
    have heffective : l.effectiveOrders schema = [] := by
      simp [effectiveOrders, horders, hunions]
    rw [heffective, List.length_nil, List.length_eq_zero_iff] at hkeys
    subst hkeys
    rw [hskip, htake]
    exact Query.not_appendsOrder
  | _ => exact fun h => h rfl

/-- **A branch shows an ordering outside parentheses exactly if its layer takes one over.** -/
theorem appendsOrder_branch {u : Layer} {b : Branch} (hu : u.Writes schema dialect false b.query)
    (hwrapped : b.wrapped = (u.isPaginated || !u.orders.isEmpty)) (o : Layout) :
    (b.wrapped = false ∧ b.query.AppendsOrder o) ↔ u.InheritsOrder schema := by
  obtain ⟨first, hfirst, happends⟩ := writes_cases hu
  obtain ⟨wrapped, q⟩ := b
  dsimp only at hwrapped happends ⊢
  -- whether a branch stands bare is a matter of its own clauses, not of the rows it reads
  have hbare : wrapped = false ↔ u.isPaginated = false ∧ u.orders = [] := by
    rw [hwrapped, Bool.or_eq_false_iff, Bool.not_eq_false', List.isEmpty_iff]
  rcases happends with ⟨hunions, rfl⟩ | ⟨hunions, branches, rfl, -⟩
  · cases hfirst with
    | @rows block list keys hany haggregate _ hkeys =>
      have hkeys : keys = [] ↔ u.effectiveOrders schema = [] := by
        rw [← List.length_eq_zero_iff, hkeys, List.length_eq_zero_iff]
      have hshows (hpaged : u.isPaginated = false) :
          (Query.rows block list keys u.distinct u.skip u.take false).AppendsOrder o ↔
            u.effectiveOrders schema ≠ [] := by
        simp only [isPaginated, Bool.or_eq_false_iff, decide_eq_false_iff_not, Nat.not_lt,
          Nat.le_zero] at hpaged
        rw [hpaged.1, hpaged.2, Query.appendsOrder_unpaged, ne_eq, hkeys]
      rw [hbare]
      constructor
      · rintro ⟨⟨hpaged, horders⟩, happends⟩
        exact ⟨hunions, hany, haggregate, hpaged, horders, (hshows hpaged).1 happends⟩
      · intro h
        exact ⟨⟨h.unpaged, h.orders⟩, (hshows h.unpaged).2 h.inherited⟩
    | existence hany =>
      refine ⟨fun h => absurd rfl h.2, fun h => ?_⟩
      rw [h.any] at hany
      cases hany
    | aggregate haggregate | aggregateOver haggregate =>
      refine ⟨fun h => absurd rfl h.2, fun h => ?_⟩
      rw [h.aggregate] at haggregate
      cases haggregate
  · -- a branch that is a union itself ends with one of its own branches
    exact ⟨fun h => absurd rfl h.2, fun h => absurd h.unions hunions⟩

end Layer

/-- All books, then later ones of the first five, then all again. -/
def Log.unitedBooks : Log :=
  [.getSource "Book",
    .union [.getSource "Book", .orderBy ⟨["b"], .member (.param "b") "Id"⟩, .take 5,
      .filter ⟨["b"], .binary .gt (.member (.param "b") "Id") (.constant (.int 1))⟩],
    .union [.getSource "Book"]]

def Layer.laterFirstBooks : Layer :=
  { ofLayer (some "Book") firstBooks with
    predicate := some (.binary .gt (.member (.source 0) "Id") (.constant (.int 1))) }

def Layer.unitedBooks : Layer :=
  { ofSource "Book" with unions := [laterFirstBooks, ofSource "Book"] }

end QueryCompiler

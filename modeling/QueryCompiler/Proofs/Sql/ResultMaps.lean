import QueryCompiler.Proofs.Sql.AliasScope
import QueryCompiler.Proofs.Sql.ListItems
import QueryCompiler.Proofs.Sql.Spans
/-!
# Result maps

The result map of a command has a name for each column of the rows it returns, and spans for the
columns of navigations and nested objects. Rows are read by these alone. So the names are those that
stand in the text, in their order, however rows are bounded (`Layout.outputNames_rows`), no name
stands there twice, and the spans are nested within the columns (`Log.resultMap_wellFormed`).
-/

namespace QueryCompiler

namespace Sql

open Script (say)

variable {o : Layout} {write : Constant → String} {list : SelectList} {nested distinct : Bool}

namespace Layout

/-! ## Lists in the text -/

theorem isItem_column (hwrite : ∀ c, Passes o.dialect false (write c).toList) {t : Term}
    {name : String} (h : t.WellSpelled) :
    IsItem o.dialect ((o.term t ++ say (" AS " ++ o.quoted name)).text write) name := by
  have hterm : Phrase o.dialect false (o.term t) := Term.phrase_script false h
  refine ⟨((o.term t).text write).toList ++ " AS ".toList, ?_, ?_, ?_⟩
  · exact (hterm.passes hwrite).append (.words " AS " (by decide))
  · rw [List.getLast?_append_of_ne_nil _ (by decide)]
    rfl
  · rw [Script.text_append, Script.text_say, String.toList_append, String.toList_append,
      List.append_assoc]
    rfl

theorem isItem_columns (hwrite : ∀ c, Passes o.dialect false (write c).toList)
    (h : ∀ t ∈ list.terms, t.WellSpelled) :
    List.Forall₂ (IsItem o.dialect)
      ((list.columns.map fun (t, name) => o.term t ++ say (" AS " ++ o.quoted name)).map
        (Script.text write)) list.names := by
  rw [List.map_map, SelectList.names, List.forall₂_map_left_iff, List.forall₂_map_right_iff,
    List.forall₂_same]
  exact fun column hcolumn => isItem_column hwrite (h _ (List.mem_map_of_mem hcolumn))

theorem isItem_outer {name : String} : IsItem o.dialect ("t0." ++ o.quoted name) name :=
  ⟨"t0.".toList, .free (by decide), by decide, by rw [String.toList_append]; rfl⟩

theorem outputNames_numberedRows {body distinct : Script} {keys : List SortKey} {skip : Nat}
    {rest : String} :
    o.dialect.outputNames ((o.numberedRows body list keys distinct skip nested).text write ++ rest) =
      some (list.names.map some) := by
  have hitems : List.Forall₂ (IsItem o.dialect) (list.names.map fun n => "t0." ++ o.quoted n)
      list.names := by
    rw [List.forall₂_map_left_iff, List.forall₂_same]
    exact fun _ _ => isItem_outer
  have hhead : Passes o.dialect false "".toList := .nil
  have hselect (more : String) := outputNames_select more hhead (by decide) hitems
  unfold numberedRows
  simp only [Script.text_append, Script.text_say, String.append_assoc] at hselect ⊢
  simpa using hselect _

/-- The words between `SELECT` and the list. -/
def listHead (d : Dialect) (distinct bounded : Bool) (limit : Nat) : String :=
  (if distinct then "DISTINCT " else "") ++ (if bounded then d.top limit else none).getD ""

/-- The words before a list are read over, up to a blank. -/
theorem passes_listHead {d : Dialect} {bounded : Bool} {limit : Nat} :
    Passes d false (listHead d distinct bounded limit).toList ∧
      ("SELECT " ++ listHead d distinct bounded limit).toList.getLast? = some ' ' := by
  have hdistinct : Passes d false (if distinct then "DISTINCT " else "").toList := by
    cases distinct <;> exact .free (by decide)
  obtain hnone | ⟨n, hsome⟩ : (if bounded then d.top limit else none) = none ∨
      ∃ n : Nat, (if bounded then d.top limit else none) = some ("TOP(" ++ toString n ++ ") ") := by
    unfold Dialect.top
    grind
  · rw [listHead, hnone, Option.getD_none, String.append_empty]
    exact ⟨hdistinct, by cases distinct <;> decide⟩
  · have hnumber : Passes d true (toString n).toList := .numeral (Dialect.isNumeral_nat n)
    have htop : Passes d false ("TOP(" ++ toString n ++ ") ").toList := by
      simpa using (hnumber.enclosed (f := "TOP".toList) (by decide)).append
        (.words " " (by decide))
    have hblank : ("TOP(" ++ toString n ++ ") ").toList.getLast? = some ' ' := by
      rw [String.toList_append, List.getLast?_append_of_ne_nil _ (by decide)]
      rfl
    rw [listHead, hsome, Option.getD_some]
    refine ⟨by rw [String.toList_append]; exact hdistinct.append htop, ?_⟩
    rw [String.toList_append, List.getLast?_append_of_ne_nil _ (by simp), String.toList_append,
      List.getLast?_append_of_ne_nil _ (by simp), hblank]

/-- **The output names of rows are those of their select list**, however the rows are bounded. -/
theorem outputNames_rows (hwrite : ∀ c, Passes o.dialect false (write c).toList) {body : Script}
    {keys : List SortKey} {skip take : Nat} {text rest : String}
    (hlist : ∀ t ∈ list.terms, t.WellSpelled) (hbody : body.text write = "FROM " ++ text) :
    o.dialect.outputNames ((o.rows body list keys distinct skip take nested).text write ++ rest) =
      some (list.names.map some) := by
  unfold rows
  dsimp only
  split
  · exact outputNames_numberedRows
  · have hitems := isItem_columns hwrite hlist
    have hhead : Passes o.dialect false
        (listHead o.dialect distinct (take > 0 && skip == 0) take).toList ∧ _ := passes_listHead
    have hselect (more : String) := outputNames_select more hhead.1 hhead.2 hitems
    have hfrom : " FROM " = " " ++ "FROM " := rfl
    simp only [columns, listHead, Script.text_append, Script.text_say, Script.text_joined, hbody,
      String.append_assoc, hfrom] at hselect ⊢
    exact hselect _

end Layout

/-! ## Queries -/

theorem Block.text_script {b : Block} : ∃ rest, (b.script o).text write = "FROM " ++ rest := by
  obtain ⟨relation, joins, navigations, predicate, groupBy, having⟩ := b
  rw [Block.script]
  simp only [List.append_assoc]
  exact ⟨_, by rw [Script.text_append, Script.text_say]⟩

theorem Query.outputNames_rows (hwrite : ∀ c, Passes o.dialect false (write c).toList)
    {block : Block} {orders : List SortKey} {skip take : Nat}
    (h : ∀ t ∈ (Query.rows block list orders distinct skip take nested).terms, t.WellSpelled)
    (rest : String) :
    o.dialect.outputNames
        (((Query.rows block list orders distinct skip take nested).script o).text write ++ rest) =
      some (list.names.map some) := by
  simp only [Query.terms, List.forall_mem_append] at h
  obtain ⟨text, htext⟩ := @Block.text_script o write block
  rw [Query.script]
  exact Layout.outputNames_rows hwrite h.1.1 htext

end Sql

open Sql

namespace Layer

variable {schema : Schema} {config : Config} {l : Layer} {q : Query}

/-- **A layer that is read for its rows returns them under the names of its select list.** -/
theorem Writes.outputNames (h : l.Writes schema config.dialect false q) (hany : l.any = false)
    (haggregate : l.aggregate = none) (hspelled : ∀ t ∈ q.terms, t.WellSpelled) :
    config.dialect.outputNames (config.write (q.script config.layout)) =
      some (q.selectList.names.map some) := by
  obtain ⟨first, hfirst, happends⟩ := writes_cases h
  rw [← happends.selectList_eq]
  cases hfirst with
  | rows =>
    rw [Query.selectList]
    rcases happends with ⟨-, rfl⟩ | ⟨-, branches, rfl, -⟩
    · have hrows := Query.outputNames_rows (o := config.layout) config.passes_writeConstant
        hspelled ""
      rwa [String.append_empty] at hrows
    · -- the branches of a union stand behind its first operand
      rw [Query.terms, List.forall_mem_append] at hspelled
      rw [Query.script, Config.write, Script.text_append]
      exact Query.outputNames_rows (o := config.layout) config.passes_writeConstant hspelled.1 _
  | existence hany' => rw [hany] at hany'; cases hany'
  | aggregate ha | aggregateOver ha => rw [haggregate] at ha; cases ha

end Layer

theorem Plan.query_of_command {schema : Schema} {config : Config} {l : Layer} {c : Command}
    (h : (Plan.select l).command schema config = .ok c) :
    ∃ q, l.Writes schema config.dialect false q ∧ (∀ t ∈ q.terms, t.WellSpelled) ∧
      c.sql = config.write (q.script config.layout) ∧
      c.resultMap = some ⟨q.selectList.names, q.selectList.spans⟩ := by
  simp only [command, numberedStatement, Compiled.bind_eq_ok] at h
  obtain ⟨⟨st, constants⟩, ⟨⟨st', scope⟩, hrun, hst⟩, hc⟩ := h
  cases hst
  have hspelled := Plan.spells_statement _ _ _ hrun
  obtain ⟨⟨q, scope'⟩, hq, hst⟩ := Compiled.bind_eq_ok.1 hrun
  cases hst
  cases hc
  exact ⟨q, ⟨_, _, hq⟩, hspelled, rfl, rfl⟩

/-- **The result map of rows is well formed.** Its columns are the names in the list that the text
starts with, in their order, and no two of them are the same. Its spans lie among the columns, any
two of them apart or one within the other. -/
theorem Log.resultMap_wellFormed {schema : Schema} {config : Config} {log : Log} {l : Layer}
    {command : Command} (hl : Plan.ofLog schema log = .ok (.select l)) (hany : l.any = false)
    (haggregate : l.aggregate = none) (h : log.compile schema config = .ok command) :
    ∃ map, command.resultMap = some map ∧
      config.dialect.outputNames command.sql = some (map.columns.map some) ∧
      map.columns.Nodup ∧
      (∀ s ∈ map.navigations, s.start + s.length ≤ map.columns.length) ∧
      ∀ s ∈ map.navigations, ∀ t ∈ map.navigations, s.Laminar t := by
  rw [compile, hl, Compiled.ok_bind] at h
  obtain ⟨q, hwrites, hspelled, hsql, hmap⟩ := Plan.query_of_command h
  have hlist : q.selectList.WellFormed := hwrites.wellFormed hany haggregate
  refine ⟨_, hmap, ?_, hlist.names, fun s hs => ?_, hlist.laminar⟩
  · rw [hsql, hwrites.outputNames hany haggregate hspelled]
  · rw [SelectList.names, List.length_map]
    exact hlist.stop_le s hs

/-- All orders but the first two, each in an object with its customer and next to the number of the
next order. -/
def Log.orderObjects : Log :=
  [.getSource "Order", .orderBy ⟨["o"], .member (.param "o") "Id"⟩, .skip 2,
    .select ⟨["o"], .object none
      [⟨"Order", .object none
          [⟨"Id", .member (.param "o") "Id"⟩, ⟨"Customer", .member (.param "o") "Customer"⟩]⟩,
        ⟨"Id", .binary .add (.member (.param "o") "Id") (.constant (.int 1))⟩]⟩]

set_option maxRecDepth 2000 in
/-- The span of the customer lies within that of the object, and numbers get names of their own. -/
theorem Log.resultMap_wellFormed_orderObjects :
    ∃ command, Log.orderObjects.compile .orders { dialect := .mySql } = .ok command ∧
      ∃ map, command.resultMap = some map ∧
        map.columns = ["Id", "Customer", "Id1", "Name", "RegionId", "Id2"] ∧
        map.navigations = [⟨"Order.Customer", 1, 4⟩, ⟨"Order", 0, 5⟩] ∧
        Dialect.mySql.outputNames command.sql = some (map.columns.map some) := by
  obtain ⟨l, hl, hany, haggregate⟩ : ∃ l, Plan.ofLog .orders Log.orderObjects = .ok (.select l) ∧
      l.any = false ∧ l.aggregate = none := ⟨_, by cbv, by cbv, by cbv⟩
  obtain ⟨command, hcommand, map, hmap, hcolumns, hspans⟩ :
      ∃ command, Log.orderObjects.compile .orders { dialect := .mySql } = .ok command ∧
      ∃ map, command.resultMap = some map ∧
        map.columns = ["Id", "Customer", "Id1", "Name", "RegionId", "Id2"] ∧
        map.navigations = [⟨"Order.Customer", 1, 4⟩, ⟨"Order", 0, 5⟩] :=
    ⟨_, by cbv, _, by cbv, by cbv, by cbv⟩
  obtain ⟨map', hmap', hnames, -⟩ := Log.resultMap_wellFormed hl hany haggregate hcommand
  cases hmap.symm.trans hmap'
  exact ⟨command, hcommand, map, hmap, hcolumns, hspans, hnames⟩

end QueryCompiler

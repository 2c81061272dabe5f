import QueryCompiler.Proofs.Sql.Constants
import QueryCompiler.Proofs.Sql.Spelling
import QueryCompiler.Proofs.Sql.TermByTerm
/-!
# Layouts

However a statement is laid out, its script is made of texts that are tidy and of its terms.
`Layout.Lays` says so of a script, and it holds of every statement, clause by clause
(`Statement.lays_script`). So what is to be known of the script of a statement need only be shown of
tidy texts and of terms: the constants that occur in it, for one, are those of its terms
(`Layout.Lays.occurs`).
-/

namespace QueryCompiler

namespace Sql

open Dialect

/-- **A script that is laid out** of tidy texts and of terms with a property. -/
inductive Layout.Lays (o : Layout) (P : Term → Prop) : Script → Prop where
  | nil : Lays o P []
  | say {t : String} (h : o.dialect.Tidy t) : Lays o P (Script.say t)
  | term {t : Term} (h : P t) : Lays o P (o.term t)
  | append {s s' : Script} (h : Lays o P s) (h' : Lays o P s') : Lays o P (s ++ s')

open Layout (Lays)

variable {o : Layout} {P : Term → Prop} {d : Dialect}

namespace Layout.Lays

theorem word {t : String} (h : t.toList.all isInert = true) : o.Lays P (Script.say t) :=
  say (tidy_word h)

theorem parenthesized {s : Script} (h : o.Lays P s) : o.Lays P (Script.parenthesized s) :=
  ((word (by decide)).append h).append (word (by decide))

theorem joined {separator : String} {ss : List Script} (hsep : o.dialect.Tidy separator)
    (h : ∀ s ∈ ss, o.Lays P s) : o.Lays P (Script.joined separator ss) :=
  Script.joined_induction nil (say hsep) append h

theorem occurs {s : Script} {c : Constant} (h : o.Lays P s) (hc : c ∈ s.constants) :
    ∃ t, P t ∧ Occurs c t := by
  induction h with
  | nil | say _ => simp at hc
  | term h => exact ⟨_, h, Term.mentions_of_script hc⟩
  | append _ _ ih ih' =>
    rw [Script.constants_append, List.mem_append] at hc
    rcases hc with hc | hc
    · exact ih hc
    · exact ih' hc

end Layout.Lays

/-! ## Clauses -/

namespace Layout

variable {list : SelectList} {keys : List SortKey}

theorem tidy_quoted {name : String} : o.dialect.Tidy (o.quoted name) := tidy_quote

theorem lays_columns (h : ∀ t ∈ list.terms, P t) : o.Lays P (o.columns list) := by
  refine .joined (tidy_word (by decide)) fun s hs => ?_
  obtain ⟨⟨t, name⟩, hcolumn, rfl⟩ := List.mem_map.1 hs
  have ht : P t := h t (List.mem_map.2 ⟨_, hcolumn, rfl⟩)
  exact (Lays.term ht).append (.say (.append (tidy_word (by decide)) tidy_quoted))

theorem lays_orders (h : ∀ k ∈ keys, P k.term) : o.Lays P (o.orders keys) := by
  refine .joined (tidy_word (by decide)) fun s hs => ?_
  obtain ⟨k, hk, rfl⟩ := List.mem_map.1 hs
  refine (Lays.term (h k hk)).append ?_
  cases k.descending <;> exact .word (by decide)

theorem lays_terms {ts : List Term} (h : ∀ t ∈ ts, P t) : o.Lays P (o.terms ts) := by
  refine .joined (tidy_word (by decide)) fun s hs => ?_
  obtain ⟨t, ht, rfl⟩ := List.mem_map.1 hs
  exact .term (h t ht)

theorem lays_assignments {row : Option String} {as : List Assignment} {separator : String}
    (hsep : o.dialect.Tidy separator) (hrow : ∀ name ∈ row, o.dialect.Tidy name)
    (h : ∀ a ∈ as, P a.value) :
    o.Lays P (Script.joined separator (o.assignments row as)) := by
  refine .joined hsep fun s hs => ?_
  obtain ⟨a, ha, rfl⟩ := List.mem_map.1 hs
  have howner : o.dialect.Tidy ((row.map (· ++ ".")).getD "") := by
    cases row with
    | none => exact .empty
    | some name => exact (hrow name rfl).append (tidy_word (by decide))
  exact .append (.say ((howner.append tidy_quoted).append (tidy_word (by decide)))) (.term (h a ha))

theorem lays_join {kind : JoinKind} {target : Script} {row : Nat}
    {on : Option (List (Term × Term))} (htarget : o.Lays P target)
    (hon : ∀ t ∈ keyTerms on, P t) : o.Lays P (o.join kind target row on) := by
  have hkeyword : (" " ++ kind.keyword ++ " ").toList.all isInert = true := by
    cases kind <;> decide
  have hrow : o.dialect.Tidy (" " ++ rowName row) := .append (tidy_word (by decide)) tidy_rowName
  refine (((Lays.word hkeyword).append htarget).append (.say hrow)).append ?_
  cases on with
  | none => exact .nil
  | some pairs =>
    refine .append (.word (by decide)) (.joined (tidy_word (by decide)) fun s hs => ?_)
    obtain ⟨⟨l, r⟩, hpair, rfl⟩ := List.mem_map.1 hs
    have hterms : P l ∧ P r :=
      ⟨hon l (List.mem_flatMap.2 ⟨_, hpair, by simp⟩),
        hon r (List.mem_flatMap.2 ⟨_, hpair, by simp⟩)⟩
    exact ((Lays.term hterms.1).append (.word (by decide))).append (.term hterms.2)

theorem tidy_navigations {ns : List NavigationJoin} : o.dialect.Tidy (o.navigations ns) := by
  refine .join fun s hs => ?_
  obtain ⟨n, -, rfl⟩ := List.mem_map.1 hs
  have hon : o.dialect.Tidy (" AND ".intercalate (n.on.map fun pair =>
      pair.1.text o.dialect ++ " = " ++ pair.2.text o.dialect)) := by
    refine .intercalate (tidy_word (by decide)) fun s hs => ?_
    obtain ⟨pair, -, rfl⟩ := List.mem_map.1 hs
    exact (tidy_columnRef.append (tidy_word (by decide))).append tidy_columnRef
  exact ((((Tidy.append (tidy_word (by decide)) tidy_quoted).append (tidy_word (by decide))).append
    tidy_rowName).append (tidy_word (by decide))).append hon

theorem lays_clauses {predicate having : Option Term} {groupBy : Option (List Term)}
    (h : ∀ t ∈ clauseTerms predicate groupBy having, P t) :
    o.Lays P (o.clauses predicate groupBy having) := by
  simp only [clauseTerms, List.mem_append, Option.mem_toList] at h
  refine .append (.append ?_ ?_) ?_
  · cases predicate with
    | none => exact .nil
    | some t => exact .append (.word (by decide)) (.term (h t (.inl rfl)))
  · cases groupBy with
    | none => exact .nil
    | some ts =>
      exact .append (.word (by decide)) (lays_terms fun t ht => h t (.inr (.inl ht)))
  · cases having with
    | none => exact .nil
    | some t => exact .append (.word (by decide)) (.term (h t (.inr (.inr rfl))))

theorem tidy_limitOffset {limit offset : Option Nat} : d.Tidy (d.limitOffset limit offset) := by
  have hcount {w : String} {n : Nat} (h : w.toList.all isInert = true) : d.Tidy (w ++ toString n) :=
    (tidy_word h).append tidy_nat
  cases d with
  | sqlServer =>
    cases limit with
    | none =>
      cases offset with
      | none => exact .empty
      | some n =>
        show sqlServer.Tidy (" OFFSET " ++ toString n ++ " ROWS")
        exact (hcount (by decide)).append (tidy_word (by decide))
    | some m =>
      show sqlServer.Tidy (" OFFSET " ++ toString (offset.getD 0) ++ " ROWS FETCH NEXT " ++
        toString m ++ " ROWS ONLY")
      exact (((hcount (by decide)).append (tidy_word (by decide))).append tidy_nat).append
        (tidy_word (by decide))
  | mySql =>
    refine .append ?_ ?_
    · cases limit with
      | none => exact .empty
      | some n => exact hcount (by decide)
    · cases offset with
      | none => exact .empty
      | some n => exact hcount (by decide)

theorem tidy_top {limit : Nat} {text : String} (h : text ∈ d.top limit) : d.Tidy text := by
  cases d with
  | sqlServer =>
    cases h
    exact (Tidy.append (tidy_word (by decide)) tidy_nat).append (tidy_word (by decide))
  | mySql => cases h

/-- The columns of numbered rows, by the names that an inner query gives them. -/
theorem tidy_outerColumns : o.dialect.Tidy
    ("SELECT " ++ ", ".intercalate (list.names.map fun n => "t0." ++ o.quoted n) ++ " FROM ") := by
  have hnames : o.dialect.Tidy
      (", ".intercalate (list.names.map fun n => "t0." ++ o.quoted n)) := by
    refine .intercalate (tidy_word (by decide)) fun s hs => ?_
    obtain ⟨name, -, rfl⟩ := List.mem_map.1 hs
    exact .append (tidy_word (by decide)) tidy_quoted
  exact (Tidy.append (tidy_word (by decide)) hnames).append (tidy_word (by decide))

theorem lays_numberedRows {body distinct : Script} {skip : Nat} {nested : Bool}
    (hdistinct : o.Lays P distinct) (hlist : ∀ t ∈ list.terms, P t)
    (hkeys : ∀ k ∈ keys, P k.term) (hbody : o.Lays P body) :
    o.Lays P (o.numberedRows body list keys distinct skip nested) := by
  have hnumber : o.dialect.Tidy (") AS " ++ o.rowNumber ++ " ") :=
    (Tidy.append (tidy_word (by decide)) tidy_quoted).append (tidy_word (by decide))
  have hskip : o.dialect.Tidy (" t0 WHERE t0." ++ o.rowNumber ++ " > " ++ toString skip) :=
    ((Tidy.append (tidy_word (by decide)) tidy_quoted).append (tidy_word (by decide))).append
      tidy_nat
  have hinner := ((((((Lays.word (t := "SELECT ") (by decide)).append hdistinct).append
    (lays_columns hlist)).append (.word (t := ", ROW_NUMBER() OVER (ORDER BY ") (by decide))).append
    (lays_orders hkeys)).append (.say hnumber)).append hbody
  refine (((Lays.say tidy_outerColumns).append hinner.parenthesized).append
    (.say hskip)).append ?_
  cases nested with
  | true => exact .nil
  | false => exact .say (.append (tidy_word (by decide)) tidy_quoted)

theorem lays_rows {body : Script} {distinct nested : Bool} {skip take : Nat}
    (hlist : ∀ t ∈ list.terms, P t) (hkeys : ∀ k ∈ keys, P k.term) (hbody : o.Lays P body) :
    o.Lays P (o.rows body list keys distinct skip take nested) := by
  have hdistinct : o.Lays P (Script.say (if distinct then "DISTINCT " else "")) := by
    cases distinct <;> exact .word (by decide)
  unfold rows
  dsimp only
  split
  · exact lays_numberedRows hdistinct hlist hkeys hbody
  · have htop : o.dialect.Tidy
        ((if take > 0 && skip == 0 then o.dialect.top take else none).getD "") := by
      split
      · cases htop : o.dialect.top take with
        | none => exact .empty
        | some text => exact tidy_top htop
      · exact .empty
    have hhead := ((((Lays.word (t := "SELECT ") (by decide)).append hdistinct).append
      (.say htop)).append (lays_columns hlist)).append (.word (t := " ") (by decide))
    refine .append (.append (hhead.append hbody) ?_) ?_
    · split
      · exact .append (.word (by decide)) (lays_orders hkeys)
      · exact .nil
    · have hbound (bounded : Bool) (limit offset : Option Nat) :
          o.dialect.Tidy (if bounded then o.dialect.limitOffset limit offset else "") := by
        cases bounded with
        | true => exact tidy_limitOffset
        | false => exact .empty
      exact .say (hbound _ _ _)

end Layout

/-! ## Queries -/

mutual

theorem Relation.lays_script : ∀ {r : Relation}, (∀ t ∈ r.terms, P t) → o.Lays P (r.script o)
  | .table name, _ => by
    rw [Relation.script]
    exact .say Layout.tidy_quoted
  | .derived q, h => by
    rw [Relation.terms] at h
    rw [Relation.script]
    exact (Query.lays_script h).parenthesized

theorem JoinedRelation.lays_scripts : ∀ {js : List JoinedRelation},
    (∀ t ∈ JoinedRelation.terms js, P t) → o.Lays P (JoinedRelation.scripts o js)
  | [], _ => .nil
  | ⟨kind, relation, row, on⟩ :: js, h => by
    simp only [JoinedRelation.terms, List.forall_mem_append] at h
    obtain ⟨⟨hrelation, hon⟩, hjs⟩ := h
    rw [JoinedRelation.scripts]
    exact (Layout.lays_join (Relation.lays_script hrelation) hon).append
      (JoinedRelation.lays_scripts hjs)

theorem Block.lays_script : ∀ {b : Block}, (∀ t ∈ b.terms, P t) → o.Lays P (b.script o)
  | ⟨relation, joins, navigations, predicate, groupBy, having⟩, h => by
    simp only [Block.terms, List.forall_mem_append] at h
    obtain ⟨⟨hrelation, hjoins⟩, hclauses⟩ := h
    rw [Block.script]
    have hrow : o.dialect.Tidy (" " ++ rowName 0) := .append (tidy_word (by decide)) tidy_rowName
    exact (((((Lays.word (by decide)).append (Relation.lays_script hrelation)).append
      (.say hrow)).append (JoinedRelation.lays_scripts hjoins)).append
      (.say Layout.tidy_navigations)).append (Layout.lays_clauses hclauses)

/-- **A query is laid out of its terms.** -/
theorem Query.lays_script : ∀ {q : Query}, (∀ t ∈ q.terms, P t) → o.Lays P (q.script o)
  | .rows block list orders distinct skip take nested, h => by
    simp only [Query.terms, List.forall_mem_append] at h
    obtain ⟨⟨hlist, hblock⟩, horders⟩ := h
    rw [Query.script]
    exact Layout.lays_rows hlist (List.forall_mem_map.1 horders) (Block.lays_script hblock)
  | .existence block, h => by
    rw [Query.terms] at h
    have hblock := Block.lays_script h
    rw [Query.script]
    unfold Dialect.anyQuery
    split <;> exact ((Lays.word (by decide)).append hblock).append (.word (by decide))
  | .aggregate value block, h => by
    simp only [Query.terms, List.forall_mem_append, List.forall_mem_singleton] at h
    rw [Query.script]
    exact (((Lays.word (by decide)).append (.term h.1)).append (.word (by decide))).append
      (Block.lays_script h.2)
  | .aggregateOver func column q, h => by
    rw [Query.terms] at h
    have hq := (Query.lays_script h).parenthesized
    have hname : func.sqlName.toList.all isInert = true := by cases func <;> decide
    have hhead {arg : String} (harg : o.dialect.Tidy arg) :
        o.dialect.Tidy ("SELECT " ++ func.sqlName ++ "(" ++ arg ++ ") FROM ") :=
      (((Tidy.append (tidy_word (by decide)) (tidy_word hname)).append
        (tidy_word (by decide))).append harg).append (tidy_word (by decide))
    cases column with
    | some name =>
      rw [Query.script]
      have harg : o.dialect.Tidy ("t0." ++ o.quoted name) :=
        .append (tidy_word (by decide)) Layout.tidy_quoted
      exact ((Lays.say (hhead harg)).append hq).append (.word (by decide))
    | none =>
      rw [Query.script]
      exact ((Lays.say (hhead (tidy_word (by decide)))).append hq).append (.word (by decide))
  | .union first branches, h => by
    simp only [Query.terms, List.forall_mem_append] at h
    rw [Query.script]
    exact (Query.lays_script h.1).append (Branch.lays_scripts h.2)

theorem Branch.lays_scripts : ∀ {bs : List Branch},
    (∀ t ∈ Branch.terms bs, P t) → o.Lays P (Branch.scripts o bs)
  | [], _ => .nil
  | ⟨wrapped, q⟩ :: bs, h => by
    simp only [Branch.terms, List.forall_mem_append] at h
    have hq := Query.lays_script h.1
    rw [Branch.scripts]
    refine .append (.append (.word (by decide)) ?_) (Branch.lays_scripts h.2)
    cases wrapped with
    | true => exact ((Lays.word (by decide)).append hq.parenthesized).append (.word (by decide))
    | false => exact hq

end

/-! ## Statements -/

/-- What holds of runs holds of a list with one more run ahead of them. -/
theorem chunks_induction {α : Type} {size : Nat} {motive : List α → List (List α) → Prop}
    (hsize : 0 < size) (nil : motive [] [])
    (cons : ∀ items batches, items ≠ [] → motive (items.drop size) batches →
      motive items (items.take size :: batches)) (items : List α) :
    motive items (chunks size items) := by
  have hgo : ∀ (steps : Nat) (items : List α), items.length ≤ steps →
      motive items (chunks.go size steps items) := by
    intro steps
    induction steps with
    | zero =>
      intro items hlength
      rw [List.length_eq_zero_iff.1 (by omega : items.length = 0)]
      exact nil
    | succ steps ih =>
      intro items hlength
      rw [chunks.go]
      split
      · rename_i hempty
        rw [List.isEmpty_iff.1 hempty]
        exact nil
      · rename_i hempty
        refine cons items _ (by simpa using hempty) (ih _ ?_)
        rw [List.length_drop]
        omega
  exact hgo items.length items (Nat.le_refl _)

theorem flatten_chunks {α : Type} {size : Nat} (hsize : 0 < size) (items : List α) :
    (chunks size items).flatten = items := by
  refine chunks_induction (motive := fun items batches => batches.flatten = items) hsize rfl ?_ items
  intro items batches _ ih
  rw [List.flatten_cons, ih, List.take_append_drop]

theorem lays_insertHead {table : String} {columns : List String} :
    o.Lays P (insertHead o table columns) := by
  have hcolumns : o.dialect.Tidy (", ".intercalate (columns.map o.quoted)) := by
    refine .intercalate (tidy_word (by decide)) fun s hs => ?_
    obtain ⟨name, -, rfl⟩ := List.mem_map.1 hs
    exact Layout.tidy_quoted
  exact .say ((((Tidy.append (tidy_word (by decide)) Layout.tidy_quoted).append
    (tidy_word (by decide))).append hcolumns).append (tidy_word (by decide)))

theorem lays_insertTuple {values : List (Option Term)}
    (h : ∀ t ∈ values.flatMap Option.toList, P t) : o.Lays P (insertTuple o values) := by
  refine (Lays.joined (tidy_word (by decide)) fun s hs => ?_).parenthesized
  obtain ⟨value, hvalue, rfl⟩ := List.mem_map.1 hs
  cases value with
  | none => exact .word (by decide)
  | some t => exact .term (h t (List.mem_flatMap.2 ⟨_, hvalue, by simp⟩))

theorem lays_updateStatement {table row : String} {assignments joins clauses : Script}
    (htable : o.dialect.Tidy table) (hrow : o.dialect.Tidy row)
    (hassignments : o.Lays P assignments) (hjoins : o.Lays P joins) (hclauses : o.Lays P clauses) :
    o.Lays P (o.dialect.updateStatement table row assignments joins clauses) := by
  have hnamed {w : String} (hw : w.toList.all isInert = true) :
      o.dialect.Tidy (w ++ table ++ " " ++ row) :=
    (((tidy_word hw).append htable).append (tidy_word (by decide))).append hrow
  unfold Dialect.updateStatement
  split
  · have hhead : o.dialect.Tidy ("UPDATE " ++ row ++ " SET ") :=
      (Tidy.append (tidy_word (by decide)) hrow).append (tidy_word (by decide))
    exact ((((Lays.say hhead).append hassignments).append (.say (hnamed (by decide)))).append
      hjoins).append hclauses
  · exact ((((Lays.say (hnamed (by decide))).append hjoins).append (.word (by decide))).append
      hassignments).append hclauses

/-- **A statement is laid out of its terms.** -/
theorem Statement.lays_script {st : Statement} (h : ∀ t ∈ st.terms o.dialect, P t) :
    o.Lays P (st.script o) := by
  have hrow : o.dialect.Tidy (rowName 0) := tidy_rowName
  cases st with
  | query q => exact Query.lays_script h
  | insertRows table columns rows identity =>
    have hrows : o.Lays P (Script.joined "; " ((chunks (max o.batchSize 1) rows).map fun batch =>
        insertHead o table columns ++ Script.say "VALUES " ++
          Script.joined ", " (batch.map (insertTuple o)))) := by
      refine .joined (tidy_word (by decide)) fun s hs => ?_
      obtain ⟨batch, hbatch, rfl⟩ := List.mem_map.1 hs
      refine (lays_insertHead.append (.word (by decide))).append ?_
      refine .joined (tidy_word (by decide)) fun s hs => ?_
      obtain ⟨values, hvalues, rfl⟩ := List.mem_map.1 hs
      have hmem : values ∈ rows := by
        rw [← flatten_chunks (by omega : 0 < max o.batchSize 1) rows]
        exact List.mem_flatten_of_mem hbatch hvalues
      exact lays_insertTuple fun t ht => h t (List.mem_flatMap.2 ⟨values, hmem, ht⟩)
    cases identity with
    | none => exact hrows.append .nil
    | some name =>
      have hidentity : o.dialect.Tidy o.dialect.lastIdentity := by cases o.dialect <;> decide
      exact hrows.append (.say (((Tidy.append (tidy_word (by decide)) hidentity).append
        (tidy_word (by decide))).append Layout.tidy_quoted))
  | insertQuery table columns q => exact lays_insertHead.append (Query.lays_script h)
  | update table assignments block =>
    obtain ⟨relation, joins, navigations, predicate, groupBy, having⟩ := block
    -- the assignments are read first or behind the joins, and are terms of the statement either way
    obtain ⟨hassignments, hjoins, hclauses⟩ :
        (∀ a ∈ assignments, P a.value) ∧ (∀ t ∈ JoinedRelation.terms joins, P t) ∧
        ∀ t ∈ clauseTerms predicate groupBy having, P t := by
      simp only [terms, Block.termsWith] at h
      split at h <;> simp only [Block.terms, List.forall_mem_append, List.forall_mem_map] at h
      · exact ⟨h.1, h.2.1.2, h.2.2⟩
      · exact ⟨h.1.2, h.1.1.2, h.2⟩
    refine lays_updateStatement Layout.tidy_quoted hrow ?_ ?_ (Layout.lays_clauses hclauses)
    · refine Layout.lays_assignments (tidy_word (by decide)) ?_ hassignments
      split <;> simp [hrow]
    · exact (JoinedRelation.lays_scripts hjoins).append (.say Layout.tidy_navigations)
  | updateByKey table assignments key =>
    simp only [terms, List.forall_mem_append, List.forall_mem_map] at h
    have hhead : o.dialect.Tidy ("UPDATE " ++ o.quoted table ++ " SET ") :=
      (Tidy.append (tidy_word (by decide)) Layout.tidy_quoted).append (tidy_word (by decide))
    exact (((Lays.say hhead).append (Layout.lays_assignments (tidy_word (by decide)) (by simp)
      h.1)).append (.word (by decide))).append
      (Layout.lays_assignments (tidy_word (by decide)) (by simp) h.2)
  | delete block =>
    have hhead : o.dialect.Tidy ("DELETE " ++ rowName 0 ++ " ") :=
      (Tidy.append (tidy_word (by decide)) hrow).append (tidy_word (by decide))
    exact (Lays.say hhead).append (Block.lays_script h)
  | deleteByKey table key =>
    simp only [terms, List.forall_mem_map] at h
    have hhead : o.dialect.Tidy ("DELETE FROM " ++ o.quoted table ++ " WHERE ") :=
      (Tidy.append (tidy_word (by decide)) Layout.tidy_quoted).append (tidy_word (by decide))
    exact (Lays.say hhead).append (Layout.lays_assignments (tidy_word (by decide)) (by simp) h)


end Sql

end QueryCompiler

import QueryCompiler.Proofs.Sql.Layouts
import QueryCompiler.Proofs.Sql.TextOrder
import QueryCompiler.Proofs.Sql.Unions
/-!
# Places of ordering keys

The clauses of a statement are read in the order in which they are written, with one exception: the
keys of an ordering are read last, but they are not written at all in a nested query that is not
paged, and before the block in one whose rows are numbered. `Query.terms` is the order of reading,
and `Query.keysInPlace` tells whether no constant is read in one place and written in another. It is
exact: the constants of terms that are numbered as they are read are written in the order of their
numbers if and only if it holds (`Query.segment_of_tally`).
-/

namespace QueryCompiler.Sql

variable {n k m : Nat} {cs ds : List Constant} {P Q : Prop} {list : SelectList}
  {keys : List SortKey} {body : Script} {distinct nested : Bool}

/-! ## Segments -/

theorem Counts.eq_iff (h : Counts n cs m) : n = m ↔ cs = [] := by
  obtain ⟨hle, hdups⟩ := h
  constructor
  · rintro rfl
    refine List.eq_nil_iff_forall_not_mem.2 fun c hc => ?_
    have hi : c.index ∈ (cs.map (·.index)).eraseDups :=
      List.mem_eraseDups.2 (List.mem_map_of_mem hc)
    rw [hdups] at hi
    simp at hi
  · rintro rfl
    have hempty : List.range' (n + 1) (m - n) = [] := by rw [← hdups]; rfl
    rw [List.range'_eq_nil_iff] at hempty
    omega

/-- Constants with numbers behind `n` and up to `m`, which are met in order exactly if `P` holds. -/
structure Segment (n : Nat) (cs : List Constant) (m : Nat) (P : Prop) : Prop where
  le : n ≤ m
  bounds : ∀ c ∈ cs, n < c.index ∧ c.index ≤ m
  counts_iff : Counts n cs m ↔ P

namespace Segment

theorem of_counts (h : Counts n cs m) : Segment n cs m True :=
  ⟨h.1, fun _ hc => h.bounds hc, iff_true_intro h⟩

theorem congr (h : Segment n cs m P) (hpq : P ↔ Q) : Segment n cs m Q :=
  ⟨h.le, h.bounds, h.counts_iff.trans hpq⟩

theorem omitted (h : Counts n ds m) : Segment n [] m (ds = []) := by
  refine ⟨h.1, by simp, ?_⟩
  rw [← h.eq_iff]
  constructor
  · exact fun hnil => hnil.eq_iff.2 rfl
  · rintro rfl
    exact Counts.nil

theorem eq_nil (h : Segment n cs m P) (hnm : n = m) : cs = [] := by
  refine List.eq_nil_iff_forall_not_mem.2 fun c hc => ?_
  have := h.bounds c hc
  omega

/-- The numbers up to `k` among those of constants up to `k` and of others behind. -/
theorem filter_index (hcs : ∀ c ∈ cs, c.index ≤ k) (hds : ∀ c ∈ ds, k < c.index) :
    ((cs ++ ds).map (·.index)).eraseDups =
      (cs.map (·.index)).eraseDups ++ (ds.map (·.index)).eraseDups ∧
    ((cs.map (·.index)).eraseDups ++ (ds.map (·.index)).eraseDups).filter (· ≤ k) =
      (cs.map (·.index)).eraseDups := by
  have hnew : (ds.map (·.index)).removeAll (cs.map (·.index)) = ds.map (·.index) := by
    refine List.filter_eq_self.2 fun i hi => ?_
    obtain ⟨d, hd, rfl⟩ := List.mem_map.1 hi
    have hold : d.index ∉ cs.map (·.index) := fun hold => by
      obtain ⟨c, hc, hcd⟩ := List.mem_map.1 hold
      have := hcs c hc
      have := hds d hd
      omega
    simpa using hold
  refine ⟨by rw [List.map_append, List.eraseDups_append, hnew], ?_⟩
  rw [List.filter_append, List.filter_eq_self.2, List.filter_eq_nil_iff.2, List.append_nil]
  · intro i hi
    obtain ⟨d, hd, rfl⟩ := List.mem_map.1 (List.mem_eraseDups.1 hi)
    simpa using hds d hd
  · intro i hi
    obtain ⟨c, hc, rfl⟩ := List.mem_map.1 (List.mem_eraseDups.1 hi)
    simpa using hcs c hc

/-- **A segment behind another is in order if both are.** -/
theorem append (h : Segment n cs k P) (h' : Segment k ds m Q) :
    Segment n (cs ++ ds) m (P ∧ Q) := by
  have hnk := h.le
  have hkm := h'.le
  refine ⟨by omega, fun c hc => ?_, ?_⟩
  · rcases List.mem_append.1 hc with hc | hc
    · have := h.bounds c hc
      omega
    · have := h'.bounds c hc
      omega
  · rw [← h.counts_iff, ← h'.counts_iff]
    refine ⟨fun hcounts => ?_, fun ⟨hcs, hds⟩ => hcs.append hds⟩
    -- the numbers up to `k` are those of the first segment, and the others those of the second
    obtain ⟨hdups, hfilter⟩ := filter_index (fun c hc => (h.bounds c hc).2)
      fun d hd => (h'.bounds d hd).1
    have hrange : List.range' (n + 1) (m - n) =
        List.range' (n + 1) (k - n) ++ List.range' (k + 1) (m - k) := by
      have hstart : k + 1 = n + 1 + (k - n) := by omega
      rw [hstart, List.range'_append_1]
      congr 1
      omega
    have hboth : (cs.map (·.index)).eraseDups ++ (ds.map (·.index)).eraseDups =
        List.range' (n + 1) (k - n) ++ List.range' (k + 1) (m - k) := by
      rw [← hdups, ← hrange]
      exact hcounts.2
    have hfirst : (cs.map (·.index)).eraseDups = List.range' (n + 1) (k - n) := by
      rw [← hfilter, hboth, List.filter_append, List.filter_eq_self.2, List.filter_eq_nil_iff.2,
        List.append_nil]
      · intro i hi
        have := List.mem_range'_1.1 hi
        simp only [decide_eq_true_eq]
        omega
      · intro i hi
        have := List.mem_range'_1.1 hi
        simp only [decide_eq_true_eq]
        omega
    rw [hfirst] at hboth
    exact ⟨⟨hnk, hfirst⟩, hkm, List.append_cancel_left hboth⟩

/-- **Constants that are moved before a segment** are in order only if they or the segment are
none. -/
theorem moved (h : Segment n cs k P) (hds : Counts k ds m) :
    Segment n (ds ++ cs) m (P ∧ (ds = [] ∨ n = k)) := by
  have hnk := h.le
  have hkm := hds.1
  refine ⟨by omega, fun c hc => ?_, fun hcounts => ?_, ?_⟩
  · rcases List.mem_append.1 hc with hc | hc
    · have := hds.bounds hc
      omega
    · have := h.bounds c hc
      omega
  · cases ds with
    | nil =>
      obtain rfl : k = m := hds.eq_iff.2 rfl
      exact ⟨h.counts_iff.1 hcounts, .inl rfl⟩
    | cons d ds =>
      -- the first number of all is that of `d`, so nothing is numbered before it
      have hd := hds.bounds (c := d) (by simp)
      have hfirst : d.index = n + 1 := by
        have hhead := congrArg List.head? hcounts.2
        rw [List.cons_append, List.map_cons, List.eraseDups_cons] at hhead
        have hpos : m - n = m - n - 1 + 1 := by omega
        rw [hpos, List.range'_succ] at hhead
        exact Option.some.inj hhead
      have hk : n = k := by omega
      obtain rfl : cs = [] := h.eq_nil hk
      subst hk
      exact ⟨h.counts_iff.1 Counts.nil, .inr rfl⟩
  · rintro ⟨hp, rfl | rfl⟩
    · obtain rfl : k = m := hds.eq_iff.2 rfl
      exact h.counts_iff.2 hp
    · obtain rfl : cs = [] := h.eq_nil rfl
      simpa using hds

end Segment

/-! ## Terms in the order of reading -/

/-- Terms one after the other, with the constants of each numbered behind those of the one before. -/
def Tally (style : Style) (n : Nat) : List Term → Nat → Prop
  | [], m => n = m
  | t :: ts, m => ∃ k, Counts n (t.constants style) k ∧ Tally style k ts m

namespace Tally

variable {style : Style} {ts us : List Term}

theorem append_iff : ∀ {n m : Nat} {ts : List Term},
    Tally style n (ts ++ us) m ↔ ∃ k, Tally style n ts k ∧ Tally style k us m
  | n, m, [] => by simp [Tally]
  | n, m, t :: ts => by
    simp only [List.cons_append, Tally, append_iff]
    constructor
    · rintro ⟨k, ht, j, hts, hus⟩
      exact ⟨j, ⟨k, ht, hts⟩, hus⟩
    · rintro ⟨j, ⟨k, ht, hts⟩, hus⟩
      exact ⟨k, ht, j, hts, hus⟩

theorem counts : ∀ {n m : Nat} {ts : List Term}, Tally style n ts m →
    Counts n (ts.flatMap (Term.constants style)) m
  | n, m, [], h => by
    obtain rfl : n = m := h
    exact Counts.nil
  | n, m, t :: ts, ⟨k, ht, hts⟩ => by
    rw [List.flatMap_cons]
    exact ht.append hts.counts

theorem segment (h : Tally style n ts m) :
    Segment n (ts.flatMap (Term.constants style)) m True :=
  Segment.of_counts h.counts

end Tally

/-! ## Keys in place -/

namespace Layout

variable (o : Layout)

def constantFree (ts : List Term) : Bool := (ts.flatMap (Term.constants o.toStyle)).isEmpty

/-- Whether no constant of ordering keys is left out, or moved before one of the block. -/
def keysInPlace (block keys : List Term) (skip take : Nat) (nested : Bool) : Bool :=
  if o.numbersRows skip take then o.constantFree keys || o.constantFree block
  else !nested || skip > 0 || take > 0 || o.constantFree keys

variable {o}

theorem constantFree_iff {ts : List Term} :
    o.constantFree ts = true ↔ ts.flatMap (Term.constants o.toStyle) = [] :=
  List.isEmpty_iff

@[simp] theorem constants_term {t : Term} : (o.term t).constants = t.constants o.toStyle := rfl

theorem constants_columns :
    (o.columns list).constants = list.terms.flatMap (Term.constants o.toStyle) := by
  simp [columns, SelectList.terms, List.flatMap_map]

theorem constants_orders :
    (o.orders keys).constants = (keys.map (·.term)).flatMap (Term.constants o.toStyle) := by
  simp [orders, List.flatMap_map]

theorem constants_join {kind : JoinKind} {target : Script} {row : Nat}
    {on : Option (List (Term × Term))} : (o.join kind target row on).constants =
      target.constants ++ (keyTerms on).flatMap (Term.constants o.toStyle) := by
  cases on with
  | none => simp [join, keyTerms]
  | some pairs =>
    simp [join, keyTerms, List.flatMap_map, List.flatMap_assoc]

theorem constants_clauses {predicate having : Option Term} {groupBy : Option (List Term)} :
    (o.clauses predicate groupBy having).constants =
      (clauseTerms predicate groupBy having).flatMap (Term.constants o.toStyle) := by
  cases predicate <;> cases groupBy <;> cases having <;>
    simp [clauses, clauseTerms, terms, List.flatMap_map]

/-- Numbered rows are written with the ordering before the block. -/
theorem constants_rows_of_numbers {skip take : Nat} (h : o.numbersRows skip take) :
    (o.rows body list keys distinct skip take nested).constants =
      (o.columns list).constants ++ ((o.orders keys).constants ++ body.constants) := by
  rw [rows_eq, rowsHead, orderClause, rowsBound]
  cases nested <;> simp [h]

/-- Other rows are written with the ordering behind the block, if with any. -/
theorem constants_rows {skip take : Nat} (h : o.numbersRows skip take = false) :
    (o.rows body list keys distinct skip take nested).constants =
      (o.columns list).constants ++ (body.constants ++
        if !nested || skip > 0 || take > 0 then (o.orders keys).constants else []) := by
  rw [rows_eq, rowsHead, orderClause, rowsBound]
  cases keys with
  | nil => simp [h, orders, Script.joined]
  | cons key keys =>
    simp only [h, Bool.false_eq_true, if_false, Script.constants_append, Script.constants_say,
      List.append_nil, List.nil_append, List.isEmpty_cons, Bool.not_false, Bool.true_and,
      List.append_assoc, Bool.or_assoc]
    split <;> simp

end Layout

mutual

def Relation.keysInPlace (o : Layout) : Relation → Bool
  | .table _ => true
  | .derived q => q.keysInPlace o

def JoinedRelation.keysInPlace (o : Layout) : List JoinedRelation → Bool
  | [] => true
  | ⟨_, relation, _, _⟩ :: js => relation.keysInPlace o && JoinedRelation.keysInPlace o js

def Block.keysInPlace (o : Layout) : Block → Bool
  | ⟨relation, joins, _, _, _, _⟩ => relation.keysInPlace o && JoinedRelation.keysInPlace o joins

def Query.keysInPlace (o : Layout) : Query → Bool
  | .rows block _ orders _ skip take nested =>
    block.keysInPlace o && o.keysInPlace block.terms (orders.map (·.term)) skip take nested
  | .existence block | .aggregate _ block => block.keysInPlace o
  | .aggregateOver _ _ q => q.keysInPlace o
  | .union first branches => first.keysInPlace o && Branch.keysInPlace o branches

def Branch.keysInPlace (o : Layout) : List Branch → Bool
  | [] => true
  | ⟨_, q⟩ :: bs => q.keysInPlace o && Branch.keysInPlace o bs

end

section Written

variable {o : Layout}

theorem Layout.segment_rows {skip take : Nat} {block : List Term}
    (hlist : Tally o.toStyle n list.terms k)
    (hblock : ∀ n m, Tally o.toStyle n block m → Segment n body.constants m P)
    (hrest : Tally o.toStyle k (block ++ keys.map (·.term)) m) :
    Segment n (o.rows body list keys distinct skip take nested).constants m
      (P ∧ o.keysInPlace block (keys.map (·.term)) skip take nested = true) := by
  obtain ⟨j, htally, hkeys⟩ := Tally.append_iff.1 hrest
  have hbody := hblock k j htally
  have hblockFree : k = j ↔ o.constantFree block = true :=
    htally.counts.eq_iff.trans constantFree_iff.symm
  have hkeysFree : o.constantFree (keys.map (·.term)) = true ↔ _ := constantFree_iff
  unfold keysInPlace
  cases hnumbers : o.numbersRows skip take with
  | true =>
    rw [constants_rows_of_numbers hnumbers, constants_columns, constants_orders]
    refine (hlist.segment.append (hbody.moved hkeys.counts)).congr ?_
    rw [true_and, hblockFree, ← hkeysFree]
    simp
  | false =>
    rw [constants_rows hnumbers, constants_columns, constants_orders]
    cases hwritten : (!nested || skip > 0 || take > 0) with
    | true =>
      refine (hlist.segment.append (hbody.append hkeys.segment)).congr ?_
      simp
    | false =>
      refine (hlist.segment.append (hbody.append (Segment.omitted hkeys.counts))).congr ?_
      rw [← hkeysFree]
      simp

mutual

theorem Relation.segment_of_tally : ∀ {r : Relation} {n m : Nat},
    Tally o.toStyle n r.terms m → Segment n (r.script o).constants m (r.keysInPlace o = true)
  | .table name, n, m, h => by
    rw [Relation.terms] at h
    simpa [Relation.script, Relation.keysInPlace, Layout.named] using h.segment
  | .derived q, n, m, h => by
    rw [Relation.terms] at h
    simpa [Relation.script, Relation.keysInPlace] using Query.segment_of_tally h

theorem JoinedRelation.segment_of_tally : ∀ {js : List JoinedRelation} {n m : Nat},
    Tally o.toStyle n (JoinedRelation.terms js) m →
      Segment n (JoinedRelation.scripts o js).constants m (JoinedRelation.keysInPlace o js = true)
  | [], n, m, h => by
    rw [JoinedRelation.terms] at h
    simpa [JoinedRelation.scripts, JoinedRelation.keysInPlace] using h.segment
  | ⟨kind, relation, row, on⟩ :: js, n, m, h => by
    rw [JoinedRelation.terms, List.append_assoc] at h
    obtain ⟨k, hrelation, h⟩ := Tally.append_iff.1 h
    obtain ⟨j, hon, hjs⟩ := Tally.append_iff.1 h
    rw [JoinedRelation.scripts, Script.constants_append, Layout.constants_join,
      List.append_assoc]
    refine ((Relation.segment_of_tally hrelation).append
      (hon.segment.append (JoinedRelation.segment_of_tally hjs))).congr ?_
    simp [JoinedRelation.keysInPlace]

theorem Block.segment_of_tally : ∀ {b : Block} {n m : Nat},
    Tally o.toStyle n b.terms m → Segment n (b.script o).constants m (b.keysInPlace o = true)
  | ⟨relation, joins, navigations, predicate, groupBy, having⟩, n, m, h => by
    rw [Block.terms, List.append_assoc] at h
    obtain ⟨k, hrelation, h⟩ := Tally.append_iff.1 h
    obtain ⟨j, hjoins, hclauses⟩ := Tally.append_iff.1 h
    have hparts := (Relation.segment_of_tally hrelation).append
      ((JoinedRelation.segment_of_tally hjoins).append hclauses.segment)
    rw [Block.script]
    simpa [Block.keysInPlace, Layout.constants_clauses] using hparts

/-- **A query is written in the order of its numbers exactly if its ordering keys are in place.** -/
theorem Query.segment_of_tally : ∀ {q : Query} {n m : Nat},
    Tally o.toStyle n q.terms m → Segment n (q.script o).constants m (q.keysInPlace o = true)
  | .rows block list orders distinct skip take nested, n, m, h => by
    rw [Query.terms, List.append_assoc] at h
    obtain ⟨k, hlist, hrest⟩ := Tally.append_iff.1 h
    rw [Query.script]
    refine (Layout.segment_rows hlist (fun _ _ => Block.segment_of_tally) hrest).congr ?_
    simp [Query.keysInPlace]
  | .existence block, n, m, h => by
    rw [Query.terms] at h
    have hblock := Block.segment_of_tally h
    rw [Query.script, Query.keysInPlace]
    cases hd : o.dialect <;> simpa [Dialect.anyQuery] using hblock
  | .aggregate value block, n, m, h => by
    rw [Query.terms] at h
    obtain ⟨k, hvalue, hblock⟩ := Tally.append_iff.1 h
    have hparts := hvalue.segment.append (Block.segment_of_tally hblock)
    rw [Query.script, Query.keysInPlace]
    simpa using hparts
  | .aggregateOver func column q, n, m, h => by
    rw [Query.terms] at h
    have hq := Query.segment_of_tally h
    cases column <;> rw [Query.script, Query.keysInPlace] <;> simpa using hq
  | .union first branches, n, m, h => by
    rw [Query.terms] at h
    obtain ⟨k, hfirst, hbranches⟩ := Tally.append_iff.1 h
    have hparts := (Query.segment_of_tally hfirst).append (Branch.segment_of_tally hbranches)
    rw [Query.script, Query.keysInPlace]
    simpa using hparts

theorem Branch.segment_of_tally : ∀ {bs : List Branch} {n m : Nat},
    Tally o.toStyle n (Branch.terms bs) m →
      Segment n (Branch.scripts o bs).constants m (Branch.keysInPlace o bs = true)
  | [], n, m, h => by
    rw [Branch.terms] at h
    simpa [Branch.scripts, Branch.keysInPlace] using h.segment
  | ⟨wrapped, q⟩ :: bs, n, m, h => by
    rw [Branch.terms] at h
    obtain ⟨k, hq, hbs⟩ := Tally.append_iff.1 h
    have hparts := (Query.segment_of_tally hq).append (Branch.segment_of_tally hbs)
    rw [Branch.scripts, Branch.keysInPlace]
    cases wrapped <;> simpa using hparts

end

end Written

/-! ## Statements -/

namespace Statement

/-- Whether the ordering keys of a statement are in place. What is updated is named as a table, so
that what its rows are read from is not written. -/
def keysInPlace (o : Layout) : Statement → Bool
  | query q | insertQuery _ _ q => q.keysInPlace o
  | update _ _ block =>
    o.constantFree block.relation.terms && JoinedRelation.keysInPlace o block.joins
  | delete block => block.keysInPlace o
  | insertRows _ _ _ _ | updateByKey _ _ _ | deleteByKey _ _ => true

end Statement

section Written

variable {o : Layout}

theorem Layout.constants_assignments {row : Option String} {as : List Assignment} :
    (o.assignments row as).flatMap Script.constants =
      (as.map (·.value)).flatMap (Term.constants o.toStyle) := by
  simp [assignments, List.flatMap_map]

theorem constants_insertTuple {values : List (Option Term)} :
    (insertTuple o values).constants =
      (values.flatMap Option.toList).flatMap (Term.constants o.toStyle) := by
  simp only [insertTuple, Script.constants_parenthesized, Script.constants_joined,
    List.flatMap_map, List.flatMap_assoc]
  refine List.flatMap_congr fun value _ => ?_
  cases value <;> simp

/-- However rows are put into batches, they are written one after the other. -/
theorem constants_insertRows {table : String} {columns : List String}
    {rows : List (List (Option Term))} {identity : Option String} :
    ((Statement.insertRows table columns rows identity).script o).constants =
      (rows.flatMap fun row => row.flatMap Option.toList).flatMap
        (Term.constants o.toStyle) := by
  have hrows : (chunks (max o.batchSize 1) rows).flatten = rows :=
    flatten_chunks (by omega) rows
  conv_rhs => rw [← hrows]
  cases identity <;>
    simp only [Statement.script, insertHead, Script.constants_append, Script.constants_joined,
      List.flatMap_map, Script.constants_say, List.nil_append,
      constants_insertTuple, List.append_nil, List.flatMap_assoc, List.flatten_eq_flatMap, id]

/-- **A statement is written in the order of its numbers exactly if its ordering keys are in
place.** -/
theorem Statement.segment_of_tally {statement : Statement}
    (h : Tally o.toStyle n (statement.terms o.dialect) m) :
    Segment n (statement.script o).constants m (statement.keysInPlace o = true) := by
  cases statement with
  | query q => exact Query.segment_of_tally h
  | insertRows table columns rows identity =>
    rw [constants_insertRows]
    exact h.segment.congr (by simp [keysInPlace])
  | insertQuery table columns q =>
    have hq := Query.segment_of_tally h
    rw [script]
    simpa [insertHead, keysInPlace] using hq
  | update table assignments block =>
    obtain ⟨relation, joins, navigations, predicate, groupBy, having⟩ := block
    unfold terms Block.termsWith at h
    rw [script]
    -- the relation is read between the assignments and the joins, or before both
    cases hd : o.dialect with
    | sqlServer =>
      simp only [hd, Dialect.assignmentsFirst, if_true, Block.terms, List.append_assoc] at h
      obtain ⟨k₁, hassignments, h⟩ := Tally.append_iff.1 h
      obtain ⟨k₂, hrelation, h⟩ := Tally.append_iff.1 h
      obtain ⟨k₃, hjoins, hclauses⟩ := Tally.append_iff.1 h
      have hparts := hassignments.segment.append ((Segment.omitted hrelation.counts).append
        ((JoinedRelation.segment_of_tally hjoins).append hclauses.segment))
      simpa [Dialect.updateStatement, Layout.constants_assignments, Layout.constants_clauses,
        keysInPlace, Layout.constantFree_iff] using hparts
    | mySql =>
      simp only [hd, Dialect.assignmentsFirst, List.append_assoc, Bool.false_eq_true,
        if_false] at h
      obtain ⟨k₁, hrelation, h⟩ := Tally.append_iff.1 h
      obtain ⟨k₂, hjoins, h⟩ := Tally.append_iff.1 h
      obtain ⟨k₃, hassignments, hclauses⟩ := Tally.append_iff.1 h
      have hparts := (Segment.omitted hrelation.counts).append
        ((JoinedRelation.segment_of_tally hjoins).append
          (hassignments.segment.append hclauses.segment))
      simpa [Dialect.updateStatement, Layout.constants_assignments, Layout.constants_clauses,
        keysInPlace, Layout.constantFree_iff] using hparts
  | updateByKey table assignments key =>
    rw [script]
    have hparts := h.segment
    simpa [terms, Layout.constants_assignments, keysInPlace] using hparts
  | delete block =>
    have hblock := Block.segment_of_tally h
    rw [script]
    simpa [keysInPlace] using hblock
  | deleteByKey table key =>
    rw [script]
    have hkey := h.segment
    simpa [terms, Layout.constants_assignments, keysInPlace] using hkey

end Written

end QueryCompiler.Sql

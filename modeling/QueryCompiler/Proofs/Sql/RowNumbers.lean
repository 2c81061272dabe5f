import QueryCompiler.Proofs.Sql.Rendered
/-!
# The numbers of rows

In the block of a layer whose joins are numbered by their place, the number of a source is its own,
and the rows behind navigations have the numbers that follow (`Laid.number_source`,
`Laid.exists_join`). So the rows of a block are numbered in the order in which its `FROM` introduces
them (`Renders.rows_eq`).

A key tells which chain it belongs to, as long as no name on the way has a dot in it
(`Chain.key_inj`); that it belongs to a source at all it always tells.
-/

namespace QueryCompiler

open Sql

/-! ## Keys -/

theorem Nat.toString_inj {m n : Nat} (h : toString m = toString n) : m = n := by
  rw [Nat.toString_eq_ofList_toDigits, Nat.toString_eq_ofList_toDigits, String.ofList_inj] at h
  rw [← Nat.ofDigitChars_ten_toDigits (n := m), h, Nat.ofDigitChars_ten_toDigits]

namespace Sql

theorem rowName_injective : Function.Injective rowName := fun _ _ h =>
  Nat.toString_inj ((String.append_right_inj _).1 h)

theorem sourceKey_injective : Function.Injective sourceKey := fun _ _ h =>
  Nat.toString_inj ((String.append_right_inj _).1 h)

theorem notMem_numbered {c : Char} {start : String} (hstart : c ∉ start.toList)
    (hc : ¬ c.isDigit) (n : Nat) : c ∉ (start ++ toString n).toList := by
  simp only [Nat.toString_eq_ofList_toDigits, String.toList_append, String.toList_ofList,
    List.mem_append, not_or]
  exact ⟨hstart, fun h => hc (Nat.isDigit_of_mem_toDigits (by decide) (by decide) h)⟩

theorem dot_notMem_sourceKey (id : Nat) : '.' ∉ (sourceKey id).toList :=
  notMem_numbered (by decide) (by decide) id

namespace Chain

variable {c c' : Chain} {name : String}

theorem key_eq : c.key.toList =
    ['.'].intercalate ((sourceKey c.source).toList :: c.names.map String.toList) := by
  have hfold : ∀ (names : List String) (key : String),
      (names.foldl (fun key name => key ++ "." ++ name) key).toList =
        ['.'].intercalate (key.toList :: names.map String.toList) := by
    intro names
    induction names with
    | nil => simp
    | cons name names ih =>
      intro key
      rw [List.foldl_cons, ih, List.map_cons, List.intercalate_cons_cons]
      cases names <;> simp [List.intercalate_cons_cons]
  exact hfold c.names (sourceKey c.source)

/-- **A key belongs to one chain**, if no name on the way has a dot in it. -/
theorem key_inj (hc : ∀ n ∈ c.names, '.' ∉ n.toList) (hc' : ∀ n ∈ c'.names, '.' ∉ n.toList) :
    c.key = c'.key ↔ c = c' := by
  refine ⟨fun h => ?_, fun h => h ▸ rfl⟩
  have hsplit : ∀ c : Chain, (∀ n ∈ c.names, '.' ∉ n.toList) →
      c.key.toList.splitOn '.' = (sourceKey c.source).toList :: c.names.map String.toList := by
    intro c hc
    rw [key_eq, List.splitOn_intercalate]
    · simpa using ⟨dot_notMem_sourceKey c.source, hc⟩
    · simp
  have hkeys := hsplit c hc
  rw [h, hsplit c' hc', List.cons.injEq, String.toList_inj] at hkeys
  obtain ⟨source, names⟩ := c
  obtain ⟨source', names'⟩ := c'
  obtain rfl := sourceKey_injective hkeys.1
  obtain rfl := (List.map_inj_right fun _ _ => String.toList_inj.1).1 hkeys.2
  rfl

theorem key_next_ne_sourceKey (id : Nat) : (c.next name).key ≠ sourceKey id := by
  intro h
  refine dot_notMem_sourceKey id ?_
  simp [← h]

end Chain

/-! ## Tables of numbered layers -/

theorem Aliases.ofLayer_eq {l : Layer} (h : l.Numbered) :
    ofLayer l = ⟨(List.range (l.joins.length + 1)).map sourceKey, []⟩ := by
  have hfold : ∀ n, (List.range n).foldl (fun a id => (a.request (sourceKey id)).2) {} =
      (⟨(List.range n).map sourceKey, []⟩ : Aliases NavigationJoin) := by
    intro n
    induction n with
    | zero => rfl
    | succ n ih =>
      have hnew : (⟨(List.range n).map sourceKey, []⟩ : Aliases NavigationJoin).get? (sourceKey n) =
          none := by
        rw [get?_eq_none_iff, List.mem_map]
        rintro ⟨k, hk, hkey⟩
        exact absurd (List.mem_range.1 hk) (by simp [sourceKey_injective hkey])
      rw [List.range_succ, List.foldl_append, ih, List.foldl_cons, List.foldl_nil, request, hnew]
      simp
  rw [ofLayer, h.sources, ← hfold, List.range_succ_eq_map]

namespace Context

variable {ctx : Context} {allows : Nat × List String → Prop} {A : Aliases NavigationJoin}
  {c : Chain} {row : Row} {id : Nat} {ref : ColumnRef}

theorem laid_ofLayer (h : ctx.layer.Numbered) : ctx.Laid allows (Aliases.ofLayer ctx.layer) := by
  rw [Aliases.ofLayer_eq h]
  refine ⟨List.prefix_rfl, ?_, by simp, fun i j hj => by cases hj⟩
  exact List.nodup_range.map sourceKey_injective

theorem Renders.laid {b : Block} (h : ctx.Renders allows b A) (hnumbered : ctx.layer.Numbered) :
    ctx.Laid allows A :=
  (laid_ofLayer hnumbered).grows h.grows

namespace Laid

theorem getElem?_source (h : ctx.Laid allows A) (hid : id ≤ ctx.layer.joins.length) :
    A.keys[id]? = some (sourceKey id) := by
  obtain ⟨more, hmore⟩ := h.sources
  rw [← hmore, List.getElem?_append_left (by simp; omega), List.getElem?_map,
    List.getElem?_range (by omega), Option.map_some]

/-- **The number of a source is its own.** -/
theorem number_source (h : ctx.Laid allows A) (hnumbered : ctx.layer.Numbered)
    (hrow : ctx.RowOf A ⟨id, []⟩ row) : row.number = id ∧ id ≤ ctx.layer.joins.length := by
  obtain ⟨derived, hderived, -⟩ := hrow.of_source
  have hid : id ≤ ctx.layer.joins.length := by
    have hmem := mem_sources_of_isDerived? hderived
    rw [hnumbered.sources] at hmem
    simp only [List.mem_cons, List.mem_map, List.mem_range] at hmem
    omega
  have hnumber := Aliases.get?_of_nodup h.nodup (h.getElem?_source hid)
  exact ⟨Option.some.inj (hrow.get?_key.symm.trans hnumber), hid⟩

/-- **Rows behind a navigation are joined once**, under a number behind those of the sources. -/
theorem exists_join (h : ctx.Laid allows A) (hrow : ctx.RowOf A c row) (hc : c.names ≠ []) :
    ∃ i j, A.joins[i]? = some j ∧ j.row = row.number ∧
      row.number = ctx.layer.joins.length + 1 + i := by
  obtain ⟨id, names⟩ := c
  obtain ⟨before, name, rfl⟩ := (List.eq_nil_or_concat' names).resolve_left hc
  change ctx.RowOf A (Chain.next ⟨id, before⟩ name) row at hrow
  have hkey := Aliases.getElem?_of_get? hrow.get?_key
  have hsource : ctx.layer.joins.length < row.number := by
    by_contra hle
    rw [h.getElem?_source (by omega), Option.some.injEq] at hkey
    exact Chain.key_next_ne_sourceKey row.number hkey.symm
  have hlt := hrow.lt_length
  rw [h.length] at hlt
  have hi : row.number - (ctx.layer.joins.length + 1) < A.joins.length := by omega
  have hj := List.getElem?_eq_getElem hi
  refine ⟨_, _, hj, ?_, by omega⟩
  have hnumber := (h.joins _ _ hj).1
  omega

end Laid

/-! ## Columns and their rows -/

/-- A chain without navigations has the rows of a source, which are never missing. -/
theorem RowOf.existence_source (h : ctx.RowOf A ⟨id, []⟩ row) : row.existence = none := by
  obtain ⟨derived, -, hrow⟩ := h.of_source
  rw [hrow]

theorem RowOf.row_existence (h : ctx.RowOf A c row) (href : row.existence = some ref) :
    ref.row = row.number := by
  cases h with
  | source => cases href
  | @navigation _ _ _ _ _ _ _ _ _ on _ _ _ _ hon =>
    obtain ⟨⟨left, right⟩, hpair, rfl⟩ := Option.map_eq_some_iff.1 href
    exact (mem_of_keyColumns hon (List.mem_of_head? hpair)).1

/-- **A column that a path denotes is one of the rows that the path leads to.** If the path passes
no navigation, it is a column of the whole source or the only member of the path. -/
theorem Denotes.exists_row {p : Nat × List String} (h : ctx.Denotes A p ref)
    (hlayer : (Aliases.ofLayer ctx.layer).keys <+: A.keys) :
    ∃ names row, ctx.schema.passed (ctx.layer.sourceType? p.1) p.2 = some names ∧
      ctx.RowOf A ⟨p.1, names⟩ row ∧ ref.row = row.number ∧ (names = [] →
        (∃ ty entity, row.ty = some ty ∧ ctx.schema.entity ty = .ok entity ∧
          ∃ c ∈ entity.columns, ref.name = if row.derived then c.1 else c.2.column) ∨
        ∃ m dbType, p.2 = [m] ∧ ctx.column row m = .ok (ref, dbType)) := by
  obtain ⟨r, hreads, hshows⟩ := h
  obtain ⟨names, hpassed, hleads⟩ := leads_of_resolve hlayer hreads
  refine ⟨names, ?_⟩
  cases r with
  | row found many =>
    refine ⟨found, hpassed, hleads, ?_, ?_⟩
    · rcases hshows with hexists | ⟨ty, entity, -, -, c, -, rfl⟩
      · exact hleads.row_existence hexists
      · rfl
    · rintro rfl
      rcases hshows with hexists | ⟨ty, entity, hty, hentity, c, hc, rfl⟩
      · rw [hleads.existence_source] at hexists
        cases hexists
      · exact .inl ⟨ty, entity, hty, hentity, c, hc, rfl⟩
  | column found dbType =>
    obtain ⟨row, last, hrow, hlast, hcolumn⟩ := hleads
    obtain rfl : ref = found := hshows
    refine ⟨row, hpassed, hrow, row_of_column hcolumn, ?_⟩
    rintro rfl
    have hlength := Schema.length_le_of_passed hpassed
    refine .inr ⟨last, dbType, ?_, hcolumn⟩
    match hp : p.2, hlength with
    | [], _ => simp [hp] at hlast
    | [m], _ =>
      rw [hp] at hlast
      simpa using hlast

theorem Laid.row_of_refs {j : NavigationJoin} (h : ctx.Laid allows A) {i : Nat}
    (hj : A.joins[i]? = some j) (href : ref ∈ j.refs) :
    ref.row = j.row ∨ ∃ c row, ctx.RowOf A c row ∧ row.number < j.row ∧ ref.row = row.number := by
  obtain ⟨-, c, row, ty, member, name, nav, fk, target, before, behind, -, -, hrow, -, -, hlt, -,
    hon⟩ := h.joins i j hj
  obtain ⟨⟨l, r⟩, hpair, href⟩ := List.mem_flatMap.1 href
  obtain ⟨hr, key, -, dbType, hl⟩ := mem_of_keyColumns hon hpair
  rcases List.mem_cons.1 href with rfl | href
  · exact .inr ⟨c, row, hrow, hlt, row_of_column hl⟩
  · rw [List.mem_singleton] at href
    exact .inl (href ▸ hr)

/-! ## The rows of a block -/

theorem JoinRenders.row_eq {j : Join} {r : JoinedRelation} (h : ctx.JoinRenders A j r)
    (hlaid : ctx.Laid allows A) (hnumbered : ctx.layer.Numbered)
    (hlayer : (Aliases.ofLayer ctx.layer).keys <+: A.keys) : r.row = j.source := by
  obtain ⟨⟨row, hrow, hr⟩, -⟩ := h.keys.settled hlayer (settles_joinKeys fun _ _ _ _ => trivial)
  exact hr.trans (hlaid.number_source hnumbered hrow).1

/-- **The rows of a block are numbered in the order of its `FROM`.** -/
theorem Renders.rows_eq {b : Block} (h : ctx.Renders allows b A) (hnumbered : ctx.layer.Numbered) :
    b.joins.map (·.row) = (List.range ctx.layer.joins.length).map (· + 1) ∧
      b.rows = List.range A.keys.length := by
  have hlaid := h.laid hnumbered
  have hjoins : ctx.layer.joins.map (·.source) = b.joins.map (·.row) := by
    rw [← List.forall₂_eq_eq_eq, List.forall₂_map_left_iff, List.forall₂_map_right_iff]
    exact h.joins.imp fun j r hr => (hr.row_eq hlaid hnumbered h.grows.keys_prefix).symm
  have hnavigations : b.navigations.map (·.row) =
      (List.range A.joins.length).map (ctx.layer.joins.length + 1 + ·) := by
    rw [h.navigations]
    refine List.ext_getElem (by simp) fun i hi _ => ?_
    have hlt : i < A.joins.length := by simpa using hi
    simpa using (hlaid.joins i _ (List.getElem?_eq_getElem hlt)).1
  rw [hnumbered.sources] at hjoins
  refine ⟨hjoins.symm, ?_⟩
  rw [Block.rows, ← hjoins, hnavigations, hlaid.length, List.range_add, List.range_succ_eq_map]
  simp

end Context

end Sql

end QueryCompiler

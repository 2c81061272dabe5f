import QueryCompiler.Proofs.Plan.Layers
import QueryCompiler.Proofs.Plan.Terminator
/-!
# The normal form of layers

The clauses of a layer can contradict each other: rows passed over in no order, a bound on rows that
are still united with others, an aggregate over groups. `Layer.Normal` says that they do not, and
every layer of the plan of a log is normal (`Plan.all_normal`).

What keeps it is that an operator which cannot join the clauses of a layer starts a new one. A draft
remembers in flags what its layer has, and `Draft.Regular` says that the flags tell the truth. So an
operator that need not start a layer finds one whose rows are neither bounded, reduced nor united
(`Regular.isOpen`; to take rows after some are passed over and to unite further rows are the
exceptions), and adds its own clause to it.
-/

namespace QueryCompiler

open Compiled (bind_eq_ok pure_eq_ok)

variable {schema : Schema} {nested : Log → Compiled Layer} {log : Log} {p : Plan}

theorem Expr.eq_source_of_isRoot {e : Expr} (h : e.isRoot) : e = .source 0 := by
  unfold isRoot at h
  split at h
  · rfl
  · cases h

theorem OpKind.leavesGrouping_of_aggregate? {kind : OpKind} {func : AggregateFunc}
    (h : kind.aggregate? = some func) : kind.leavesGrouping = true := by
  cases kind <;> first | rfl | cases h

namespace Layer

/-- Nothing bounds, reduces or unites the rows of a layer. -/
structure Open (l : Layer) : Prop where
  skip : l.skip = 0
  take : l.take = 0
  distinct : l.distinct = false
  any : l.any = false
  aggregate : l.aggregate = none
  unions : l.unions = []

/-- What bounds, reduces and unites the rows of a layer goes together. -/
structure Agrees (l : Layer) : Prop where
  /-- rows are passed over in an order -/
  skip_ordered : 0 < l.skip → l.orders ≠ []
  /-- united rows are neither ordered, bounded nor reduced -/
  union_bare : l.unions ≠ [] → l.orders = [] ∧ l.skip = 0 ∧ l.take = 0 ∧ l.distinct = false ∧
    l.any = false ∧ l.aggregate = none
  /-- distinct rows are neither bounded nor reduced -/
  distinct_whole : l.distinct = true →
    l.skip = 0 ∧ l.take = 0 ∧ l.any = false ∧ l.aggregate = none
  /-- what is aggregated are the rows as they are read -/
  aggregate_bare : l.aggregate ≠ none →
    l.distinct = false ∧ l.groupBy = none ∧ l.skip = 0 ∧ l.take = 0

/-- The normal form of a layer. -/
structure Normal (l : Layer) : Prop extends Agrees l where
  /-- only groups have a test of their own -/
  having_grouped : l.having ≠ none → l.groupBy ≠ none
  /-- paths are loaded with whole rows -/
  includes_whole : l.includes ≠ [] → l.select = .source 0
  /-- only the outermost of a chain of layers loads paths -/
  inner_includes : ∀ inner, l.subquery = some inner → inner.includes = []

variable {l q : Layer}

/-! Rows may be paged, made distinct, aggregated or united, one at a time. -/

theorem Agrees.of_paged (hskip : 0 < l.skip → l.orders ≠ []) (hdistinct : l.distinct = false)
    (haggregate : l.aggregate = none) (hunions : l.unions = []) : l.Agrees where
  skip_ordered := hskip
  union_bare hne := absurd hunions hne
  distinct_whole h := by rw [hdistinct] at h; cases h
  aggregate_bare hne := absurd haggregate hne

theorem Agrees.of_distinct (hskip : l.skip = 0) (htake : l.take = 0) (hany : l.any = false)
    (haggregate : l.aggregate = none) (hunions : l.unions = []) : l.Agrees where
  skip_ordered h := by rw [hskip] at h; cases h
  union_bare hne := absurd hunions hne
  distinct_whole _ := ⟨hskip, htake, hany, haggregate⟩
  aggregate_bare hne := absurd haggregate hne

theorem Agrees.of_aggregate (hskip : l.skip = 0) (htake : l.take = 0)
    (hdistinct : l.distinct = false) (hgroup : l.groupBy = none) (hunions : l.unions = []) :
    l.Agrees where
  skip_ordered h := by rw [hskip] at h; cases h
  union_bare hne := absurd hunions hne
  distinct_whole h := by rw [hdistinct] at h; cases h
  aggregate_bare _ := ⟨hdistinct, hgroup, hskip, htake⟩

theorem Agrees.of_union (horders : l.orders = []) (hskip : l.skip = 0) (htake : l.take = 0)
    (hdistinct : l.distinct = false) (hany : l.any = false) (haggregate : l.aggregate = none) :
    l.Agrees where
  skip_ordered h := by rw [hskip] at h; cases h
  union_bare _ := ⟨horders, hskip, htake, hdistinct, hany, haggregate⟩
  distinct_whole h := by rw [hdistinct] at h; cases h
  aggregate_bare hne := absurd haggregate hne

theorem Open.agrees (h : l.Open) : l.Agrees :=
  .of_paged (fun hskip => by rw [h.skip] at hskip; cases hskip) h.distinct h.aggregate h.unions

/-- A layer without an ordering that does not serve paging. -/
def unordered (l : Layer) : Layer :=
  { l with orders := if l.isPaginated then l.orders else [] }

/-- **What every layer has is kept by a split** if it holds of both halves. -/
theorem All.separateCollections {P : Layer → Prop} (h : l.All P)
    (hq : l.separateCollections schema = .ok q)
    (hhalves : ∀ select orders columns,
      (splitOuter schema l ⟨schema, l.source, l.isIdentity⟩ l.innerHalf).run [] =
        .ok ((select, orders), columns) →
      ∀ inner, inner = { l.innerHalf with
          select := if l.isIdentity then .source 0 else .object none columns } →
        P inner ∧ P { ofLayer l.source inner with
          hasMany := true, includes := l.includes, orders, select }) :
    q.All P := by
  rcases separateCollections_eq_ok hq with ⟨rfl, -⟩ | ⟨hsplit, -⟩
  · exact h
  obtain ⟨select, orders, columns, -, hrun, rfl⟩ := split_eq_ok hsplit
  obtain ⟨hinner, houter⟩ := hhalves select orders columns hrun _ rfl
  refine all_of_parts houter fun m hm => ?_
  rcases mem_parts.1 hm with hm | ⟨j, hj, -⟩ | hm
  · cases hm
    exact h.with_parts hinner rfl
  · cases hj
  · cases hm

/-- The outer half of a split layer that returns whole rows returns them too. -/
theorem select_of_splitOuter {b : Boundary} {inner : Layer} (hwhole : b.whole) :
    Yields (fun _ => True) (splitOuter schema l b inner) fun r _ => r.1 = .source 0 := by
  simp only [splitOuter, if_pos hwhole, pure_bind]
  exact .bind .trivial fun _ => .bind .trivial fun _ => .pure fun _ _ => rfl

theorem isPaginated_of_skip (h : 0 < l.skip) : l.isPaginated = true := by
  simp only [isPaginated, Bool.or_eq_true, decide_eq_true_eq]
  exact .inl h

theorem Normal.unordered (h : l.Normal) : l.unordered.Normal where
  skip_ordered hskip := by
    have hpaged : l.isPaginated = true := isPaginated_of_skip hskip
    simp only [Layer.unordered, hpaged, if_pos]
    exact h.skip_ordered hskip
  union_bare hne := by
    obtain ⟨horders, hrest⟩ := h.union_bare hne
    refine ⟨?_, hrest⟩
    simp only [Layer.unordered, horders, ite_self]
  distinct_whole := h.distinct_whole
  aggregate_bare := h.aggregate_bare
  having_grouped := h.having_grouped
  includes_whole := h.includes_whole
  inner_includes := h.inner_includes

theorem Normal.innerHalf (h : l.Normal) (select : Expr) :
    Normal { l.innerHalf with select } :=
  { h.unordered with includes_whole := fun hne => absurd rfl hne }

/-- **A split leaves normal layers.** The inner half keeps its ordering if it pages by it, and the
outer half neither bounds, reduces nor unites its rows. -/
theorem all_normal_separateCollections (h : l.All Normal)
    (hq : l.separateCollections schema = .ok q) : q.All Normal := by
  refine h.separateCollections hq ?_
  rintro select orders columns hrun _ rfl
  -- the outer half has no clauses but its ordering and the paths it loads
  refine ⟨h.self.innerHalf _, Open.agrees ⟨rfl, rfl, rfl, rfl, rfl, rfl⟩, fun hne => absurd rfl hne,
    fun hincludes => ?_, ?_⟩
  · have hwhole : l.isIdentity = true := by
      rw [isIdentity, h.self.includes_whole hincludes]
      rfl
    exact select_of_splitOuter hwhole _ _ _ trivial hrun
  · rintro inner ⟨⟩
    rfl

end Layer

namespace Draft

variable {d d' : Draft} {op : Operator} {m : Layer}

/-- What holds of a draft whatever comes next. -/
structure Founded (d : Draft) : Prop where
  grouped : d.grouped = d.layer.groupBy.isSome
  havings : d.havings ≠ [] → d.grouped = true
  hasMany : d.layer.hasMany = false
  inner_includes : ∀ inner, d.layer.subquery = some inner → inner.includes = []
  parts : ∀ m ∈ d.layer.parts, m.All Layer.Normal

/-- What a draft remembers of its layer is so. -/
structure Regular (d : Draft) : Prop extends Founded d where
  agrees : d.layer.Agrees
  skipped : d.skipped = false → d.layer.skip = 0
  taken : d.taken = false → d.terminal = none → d.layer.take = 0
  closed : d.closed = false → d.layer.distinct = false
  ended : d.terminal = none → d.layer.any = false ∧ d.layer.aggregate = none ∧ d.modification = none
  /-- only rows of a table are modified, and all that pass the tests -/
  modified : ∀ m, d.modification = some m →
    d.layer.subquery = none ∧ d.layer.Open ∧ ∀ target l, m ≠ .insert target (some (.query l))

theorem founded_ofSource (ty : String) : (ofSource ty).Founded where
  grouped := rfl
  havings hne := absurd rfl hne
  hasMany := rfl
  inner_includes _ h := by cases h
  parts m hm := by simp [Layer.parts, ofSource, Layer.ofSource, Layer.empty] at hm

/-- A draft that modifies nothing and reduces no rows is regular if its flags tell the truth. -/
theorem Founded.regular_of_flags (h : d.Founded) (hagrees : d.layer.Agrees)
    (hskipped : d.skipped = false → d.layer.skip = 0) (htaken : d.taken = false → d.layer.take = 0)
    (hclosed : d.closed = false → d.layer.distinct = false) (hany : d.layer.any = false)
    (haggregate : d.layer.aggregate = none) (hm : d.modification = none) : d.Regular where
  toFounded := h
  agrees := hagrees
  skipped := hskipped
  taken hnot _ := htaken hnot
  closed := hclosed
  ended _ := ⟨hany, haggregate, hm⟩
  modified m h := by cases hm.symm.trans h

theorem Founded.regular (h : d.Founded) (hopen : d.layer.Open) (hm : d.modification = none) :
    d.Regular :=
  h.regular_of_flags hopen.agrees (fun _ => hopen.skip) (fun _ => hopen.take)
    (fun _ => hopen.distinct) hopen.any hopen.aggregate hm

theorem regular_ofSource (ty : String) : (ofSource ty).Regular :=
  (founded_ofSource ty).regular ⟨rfl, rfl, rfl, rfl, rfl, rfl⟩ rfl

/-! ## Finished layers -/

theorem conjoin_ne_none {es : List Expr} (h : Expr.conjoin es ≠ none) : es ≠ [] := by
  rintro rfl
  exact h rfl

theorem Regular.normal_finished (h : d.Regular) : d.finished.Normal where
  toAgrees := { h.agrees with }
  having_grouped hne := by
    have hgrouped := h.havings (conjoin_ne_none hne)
    rw [h.grouped] at hgrouped
    exact Option.isSome_iff_ne_none.1 hgrouped
  includes_whole hne := by
    have hincludes : d.finished.includes =
        if d.finished.select.isRoot then d.layer.includes else [] := rfl
    rw [hincludes] at hne
    split at hne
    · rename_i hroot
      exact Expr.eq_source_of_isRoot hroot
    · exact absurd rfl hne
  inner_includes := h.inner_includes

theorem Regular.all_normal_finished (h : d.Regular) : d.finished.All Layer.Normal :=
  Layer.all_of_parts h.normal_finished h.parts

/-- **A draft over the rows of a regular one is regular.** -/
theorem Regular.wrap (h : d.Regular) (hd : d.wrap schema = .ok d') :
    d'.Regular ∧ ∀ kind, d'.mustClose kind = false := by
  obtain ⟨row, source, -, rfl⟩ := wrap_eq_ok hd
  have hinner : Layer.All Layer.Normal { d.finished with includes := [] } :=
    h.all_normal_finished.with_parts
      { h.normal_finished with includes_whole := fun hne => absurd rfl hne } rfl
  refine ⟨Founded.regular ?_ ⟨rfl, rfl, rfl, rfl, rfl, rfl⟩ rfl, fun kind => rfl⟩
  refine ⟨rfl, fun hne => absurd rfl hne, rfl, ?_, fun m hm => ?_⟩
  · rintro inner ⟨⟩
    rfl
  · rcases Layer.mem_parts.1 hm with hm | ⟨j, hj, -⟩ | hm
    · cases hm
      exact hinner
    · cases hj
    · cases hm

/-! ## One operator -/

/-- **An operator that starts no layer finds one open to it.** -/
theorem Regular.isOpen (h : d.Regular) (ht : d.terminal = none)
    (hk : d.mustClose op.kind = false) :
    d.layer.take = 0 ∧ d.layer.distinct = false ∧ d.layer.any = false ∧
      d.layer.aggregate = none ∧ d.modification = none ∧
      (op.kind ≠ .take → d.layer.skip = 0) ∧ (op.kind ≠ .union → d.layer.unions = []) ∧
      (op.kind.leavesGrouping = true → d.layer.groupBy = none) := by
  simp only [mustClose, Bool.or_eq_false_iff, Bool.and_eq_false_iff, Bool.not_eq_false',
    bne_eq_false_iff_eq, List.isEmpty_iff] at hk
  obtain ⟨⟨⟨⟨htaken, hclosed⟩, hskipped⟩, hunions⟩, hgrouped⟩ := hk
  obtain ⟨hany, haggregate, hmod⟩ := h.ended ht
  refine ⟨h.taken htaken ht, h.closed hclosed, hany, haggregate, hmod, fun hne => ?_,
    fun hne => hunions.resolve_right hne, fun hleaves => ?_⟩
  · exact h.skipped (hskipped.resolve_right hne)
  · have hnot : d.grouped = false := hgrouped.resolve_right (by simp [hleaves])
    rw [h.grouped] at hnot
    exact Option.isNone_iff_eq_none.1 (by simpa using hnot)

theorem Regular.layer_open (h : d.Regular) (ht : d.terminal = none)
    (hk : d.mustClose op.kind = false) (htake : op.kind ≠ .take) (hunion : op.kind ≠ .union) :
    d.layer.Open := by
  obtain ⟨hzero, hdistinct, hany, haggregate, -, hskip, hunions, -⟩ := h.isOpen ht hk
  exact ⟨hskip htake, hzero, hdistinct, hany, haggregate, hunions hunion⟩

theorem layer?_of_joinTarget {source : Nat} {target : JoinTarget} {row : Expr}
    {rowType : Option String} (h : joinTarget schema nested log source = .ok (target, row, rowType))
    (hm : target.layer? = some m) : nested log = .ok m := by
  unfold joinTarget at h
  split at h
  · simp only [bind_eq_ok, pure_eq_ok, Prod.mk.injEq] at h
    obtain ⟨_, -, rfl, -⟩ := h
    cases hm
  · simp only [bind_eq_ok, pure_eq_ok, Prod.mk.injEq] at h
    obtain ⟨layer, hlayer, _, -, rfl, -⟩ := h
    cases hm
    exact hlayer

theorem mem_parts_addJoin {j : Join} (hm : m ∈ (d.addJoin j).layer.parts) :
    m ∈ d.layer.parts ∨ j.target.layer? = some m := by
  simp only [Layer.mem_parts, addJoin, List.mem_append, List.mem_singleton] at hm ⊢
  rcases hm with hm | ⟨j', hj | rfl, hm⟩ | hm
  · exact .inl (.inl hm)
  · exact .inl (.inr (.inl ⟨j', hj, hm⟩))
  · exact .inr hm
  · exact .inl (.inr (.inr hm))

theorem mem_parts_retagged {l : Layer} {i : Nat} {j : Join} {kind : JoinKind}
    (hj : l.joins[i]? = some j)
    (hm : m ∈ Layer.parts { l with joins := l.joins.set i { j with kind } }) : m ∈ l.parts := by
  simp only [Layer.mem_parts] at hm ⊢
  refine hm.imp_right (Or.imp_left ?_)
  rintro ⟨j', hj', hm⟩
  rcases List.mem_or_eq_of_mem_set hj' with hj' | rfl
  · exact ⟨j', hj', hm⟩
  · exact ⟨j, List.mem_of_getElem? hj, hm⟩

theorem Flattened.mem_parts {collection element : Expr} {unmatched : Unmatched}
    (h : Flattened schema nested d unmatched collection d' element) (hm : m ∈ d'.layer.parts) :
    m ∈ d.layer.parts ∨ ∃ log, collection = .query log ∧ nested log = .ok m := by
  cases h with
  | group hj => exact .inl (mem_parts_retagged hj hm)
  | cross ht =>
    exact (mem_parts_addJoin hm).imp_right fun hm => ⟨_, rfl, layer?_of_joinTarget ht hm⟩
  | navigation => exact (mem_parts_addJoin hm).imp_right fun hm => by cases hm

theorem union_eq (branch : Layer) : d.union branch =
    { d with layer := { d.layer.unordered with
        unions := d.layer.unions ++ [branch.unordered] } } := by
  have hunordered (l : Layer) :
      (if l.isPaginated then l else { l with orders := [] }) = l.unordered := by
    obtain ⟨clauses, subquery, joins, unions⟩ := l
    unfold Layer.unordered
    split <;> rfl
  simp only [union, hunordered]
  rfl

/-- A query that an operator has planned: its operand, or the collection that it flattens. -/
def Nests (d : Draft) (op : Operator) (log : Log) : Prop :=
  op.query? 0 = some log ∨ ∃ l collection, op.lambda 0 = .ok l ∧ d.bindRow l = .ok collection ∧
    (Unmatched.strip collection).1 = .query log

/-- **The layers that an operator adds are those of nested queries.** -/
theorem Applied.mem_parts (h : Applied schema nested d op d') (hm : m ∈ d'.layer.parts) :
    m ∈ d.layer.parts ∨
      ∃ log l, d.Nests op log ∧ nested log = .ok l ∧ (m = l ∨ m = l.unordered) := by
  cases h with
  | filter => rw [restrict_layer] at hm; exact .inl hm
  | selectMany _ hl hb hf =>
    refine (hf.mem_parts hm).imp_right fun ⟨log, hquery, hlog⟩ => ?_
    exact ⟨log, m, .inr ⟨_, _, hl, hb, hquery⟩, hlog, .inl rfl⟩
  | join _ hq ht =>
    refine (mem_parts_addJoin hm).imp_right fun hm => ?_
    exact ⟨_, m, .inl hq, layer?_of_joinTarget ht hm, .inl rfl⟩
  | any _ hr | first _ hr => exact .inl (layer_restrictBy hr ▸ hm)
  | aggregate _ hs =>
    rcases hs with ⟨-, hr, -⟩ | ⟨-, rfl, -⟩
    · exact .inl (layer_restrictBy hr ▸ hm)
    · exact .inl hm
  | @union log branch _ hq hb =>
    rw [union_eq] at hm
    simp only [Layer.mem_parts, List.mem_append, List.mem_singleton] at hm ⊢
    rcases hm with hm | hm | hm | rfl
    · exact .inl (.inl hm)
    · exact .inl (.inr (.inl hm))
    · exact .inl (.inr (.inr hm))
    · exact .inr ⟨log, branch, .inl hq, hb, .inr rfl⟩
  | _ => exact .inl hm

theorem Founded.restrict (h : d.Founded) (test : Expr) : (d.restrict test).Founded := by
  unfold Draft.restrict
  split
  · rename_i hgrouped
    exact { h with havings := fun _ => hgrouped }
  · exact { h with }

theorem Founded.restrictBy (h : d.Founded) (hr : d.restrictBy op = .ok d') : d'.Founded := by
  rcases restrictBy_eq_ok hr with ⟨-, rfl⟩ | ⟨l, test, -, -, rfl⟩
  · exact h
  · exact h.restrict test

/-- **An operator leaves a draft founded.** -/
theorem Applied.founded (h : Applied schema nested d op d') (hd : d.Founded)
    (hnested : ∀ log l, nested log = .ok l → l.All Layer.Normal) : d'.Founded := by
  have hincludes : ∀ inner, d'.layer.subquery = some inner → inner.includes = [] := by
    intro inner hinner
    exact hd.inner_includes inner (h.subquery_eq ▸ hinner)
  have hparts : ∀ m ∈ d'.layer.parts, m.All Layer.Normal := by
    intro m hm
    rcases h.mem_parts hm with hm | ⟨log, l, -, hl, rfl | rfl⟩
    · exact hd.parts m hm
    · exact hnested log m hl
    · exact (hnested log l hl).with_parts (hnested log l hl).self.unordered rfl
  cases h with
  | filter => exact hd.restrict _
  | selectMany _ _ _ hf =>
    obtain ⟨joins, rfl⟩ := hf.frame
    exact ⟨hd.grouped, hd.havings, hd.hasMany, hincludes, hparts⟩
  | group => exact ⟨rfl, fun _ => rfl, hd.hasMany, hincludes, hparts⟩
  | any _ hr | first _ hr =>
    have hd := hd.restrictBy hr
    exact ⟨hd.grouped, hd.havings, hd.hasMany, hincludes, hparts⟩
  | aggregate _ hs =>
    rcases hs with ⟨-, hr, -⟩ | ⟨-, rfl, -⟩
    · have hd := hd.restrictBy hr
      exact ⟨hd.grouped, hd.havings, hd.hasMany, hincludes, hparts⟩
    · exact ⟨hd.grouped, hd.havings, hd.hasMany, hincludes, hparts⟩
  | union =>
    rw [union_eq] at hincludes hparts ⊢
    exact ⟨hd.grouped, hd.havings, hd.hasMany, hincludes, hparts⟩
  | _ => exact ⟨hd.grouped, hd.havings, hd.hasMany, hincludes, hparts⟩

@[simp] theorem restrict_modification (test : Expr) :
    (d.restrict test).modification = d.modification := by
  unfold restrict
  split <;> rfl

theorem modification_restrictBy (h : d.restrictBy op = .ok d') :
    d'.modification = d.modification := by
  rcases restrictBy_eq_ok h with ⟨-, rfl⟩ | ⟨l, test, -, -, rfl⟩
  · rfl
  · exact restrict_modification test

theorem modificationOf_ne_query {source : String} {m : Modification}
    (h : d.modificationOf schema op source = .ok m) (target : String) (l : Layer) :
    m ≠ .insert target (some (.query l)) := by
  rintro rfl
  simp only [modificationOf] at h
  split at h
  case h_1 | h_2 | h_4 | h_6 =>
    obtain ⟨_, -, h⟩ := bind_eq_ok.1 h
    cases h
  case h_3 =>
    obtain ⟨_, -, h⟩ := bind_eq_ok.1 h
    split at h <;> cases h
  case h_5 =>
    split at h
    · cases h
    · obtain ⟨_, -, h⟩ := bind_eq_ok.1 h
      split at h <;> cases h
  case h_7 | h_8 => cases h

theorem Founded.regular_ended (h : d.Founded) (hagrees : d.layer.Agrees)
    (hskip : d.layer.skip = 0) (hdistinct : d.layer.distinct = false) (ht : d.terminal ≠ none)
    (hm : d.modification = none) : d.Regular where
  toFounded := h
  agrees := hagrees
  skipped _ := hskip
  taken _ hnone := absurd hnone ht
  closed _ := hdistinct
  ended hnone := absurd hnone ht
  modified m h := by cases hm.symm.trans h

/-- **An operator that starts no layer leaves a regular draft.** -/
theorem Applied.regular (h : Applied schema nested d op d') (hd : d.Regular)
    (ht : d.terminal = none) (hk : d.mustClose op.kind = false)
    (hnested : ∀ log l, nested log = .ok l → l.All Layer.Normal) : d'.Regular := by
  have hf := h.founded hd.toFounded hnested
  have hopen := hd.layer_open ht hk
  obtain ⟨htake, hdistinct, hany, haggregate, hmod, hskip, hunions, hgroup⟩ := hd.isOpen ht hk
  cases h with
  | filter hkind =>
    have ho := hopen (by simp [hkind]) (by simp [hkind])
    exact hf.regular (by rwa [restrict_layer]) ((restrict_modification _).trans hmod)
  | selectMany hkind _ _ hflat =>
    have ho := hopen (by simp [hkind]) (by simp [hkind])
    obtain ⟨joins, rfl⟩ := hflat.frame
    exact hf.regular { ho with } hmod
  | join hkind =>
    have ho := hopen (by rcases hkind with h | h | h <;> simp [h])
      (by rcases hkind with h | h | h <;> simp [h])
    exact hf.regular { ho with } hmod
  | select hkind | group hkind | includePath hkind | asSubquery hkind =>
    have ho := hopen (by simp [hkind]) (by simp [hkind])
    exact hf.regular { ho with } hmod
  | @order _ _ descending hkind | @refineOrder _ _ descending hkind =>
    have ho := hopen (by cases descending <;> simp [hkind]) (by cases descending <;> simp [hkind])
    exact hf.regular { ho with } hmod
  | modify hkind _ hderived hm =>
    have ho := hopen (by rcases hkind with h | h | h <;> simp [h])
      (by rcases hkind with h | h | h <;> simp [h])
    exact { hf with
      agrees := ho.agrees
      skipped := fun _ => ho.skip
      taken := fun _ _ => ho.take
      closed := fun _ => ho.distinct
      ended := fun h => by cases h
      modified := fun m h => by
        cases h
        refine ⟨?_, { ho with }, modificationOf_ne_query hm⟩
        exact Option.isNone_iff_eq_none.1 (by simpa [Layer.isDerived] using hderived) }
  -- the next four bound, reduce or unite rows and set the flag for it
  | skip hkind _ _ hne =>
    have ho := hopen (by simp [hkind]) (by simp [hkind])
    exact hf.regular_of_flags (.of_paged hne hdistinct haggregate ho.unions)
      (fun h => by simpa using h) (fun _ => htake) (fun _ => hdistinct) hany haggregate hmod
  | take hkind =>
    have hunions := hunions (by simp [hkind])
    exact hf.regular_of_flags (.of_paged hd.agrees.skip_ordered hdistinct haggregate hunions)
      hd.skipped (fun h => Nat.eq_zero_of_not_pos (of_decide_eq_false h)) (fun _ => hdistinct) hany
      haggregate hmod
  | distinct hkind =>
    have ho := hopen (by simp [hkind]) (by simp [hkind])
    exact hf.regular_of_flags (.of_distinct ho.skip htake hany haggregate ho.unions)
      (fun _ => ho.skip) (fun _ => htake) (fun h => by cases h) hany haggregate hmod
  | union hkind =>
    have hskip := hskip (by simp [hkind])
    rw [union_eq] at hf ⊢
    have horders : d.layer.unordered.orders = [] := by
      simp [Layer.unordered, Layer.isPaginated, hskip, htake]
    exact hf.regular_of_flags (.of_union horders hskip htake hdistinct hany haggregate)
      (fun _ => hskip) (fun _ => htake) (fun _ => hdistinct) hany haggregate hmod
  -- the last three end the log
  | any hkind hr =>
    have ho := hopen (by simp [hkind]) (by simp [hkind])
    rw [← layer_restrictBy hr] at ho
    exact hf.regular_ended (.of_paged ho.agrees.skip_ordered ho.distinct ho.aggregate ho.unions)
      ho.skip ho.distinct (by simp [finishWith]) ((modification_restrictBy hr).trans hmod)
  | first hkind hr =>
    have ho := hopen (by rintro h; rw [h] at hkind; cases hkind)
      (by rintro h; rw [h] at hkind; cases hkind)
    rw [← layer_restrictBy hr] at ho
    exact hf.regular_ended (.of_paged ho.agrees.skip_ordered ho.distinct ho.aggregate ho.unions)
      ho.skip ho.distinct (by simp [finishWith]) ((modification_restrictBy hr).trans hmod)
  | @aggregate _ d₁ _ hkind hs =>
    have ho := hopen (by rintro h; rw [h] at hkind; cases hkind)
      (by rintro h; rw [h] at hkind; cases hkind)
    have hd₁ : d₁.layer = d.layer ∧ d₁.modification = d.modification := by
      rcases hs with ⟨-, hr, -⟩ | ⟨-, rfl, -⟩
      · exact ⟨layer_restrictBy hr, modification_restrictBy hr⟩
      · exact ⟨rfl, rfl⟩
    have hgroup := hgroup (OpKind.leavesGrouping_of_aggregate? hkind)
    rw [← hd₁.1] at ho hgroup
    exact hf.regular_ended (.of_aggregate ho.skip ho.take ho.distinct hgroup ho.unions)
      ho.skip ho.distinct (by simp [finishWith]) (hd₁.2.trans hmod)

/-- **A step leaves a regular draft.** -/
theorem Regular.step (h : d.Regular) (hstep : d.step schema nested op = .ok d')
    (hnested : ∀ log l, nested log = .ok l → l.All Layer.Normal) : d'.Regular := by
  obtain ⟨ht, d₁, d₂, hd₁, happlied, rfl⟩ := step_eq_ok hstep
  have h₁ : d₁.Regular ∧ d₁.terminal = none ∧ d₁.mustClose op.kind = false := by
    rcases hd₁ with ⟨-, hwrap⟩ | ⟨hopen, rfl⟩
    · obtain ⟨hregular, hopen⟩ := h.wrap hwrap
      obtain ⟨row, source, -, rfl⟩ := wrap_eq_ok hwrap
      exact ⟨hregular, rfl, hopen op.kind⟩
    · exact ⟨h, ht, hopen⟩
  have h₂ : d₂.Regular := happlied.regular h₁.1 h₁.2.1 h₁.2.2 hnested
  exact { h₂ with }

/-- **The operators of a log leave a regular draft.** -/
theorem regular_run {ops : Log} {d₀ : Draft} (hstart : start schema log = .ok (d₀, ops))
    (hrun : ops.foldlM (Draft.step schema nested) d₀ = .ok d)
    (hnested : ∀ log l, nested log = .ok l → l.All Layer.Normal) : d.Regular := by
  have hd₀ : d₀.Regular := by
    obtain ⟨ty, rfl, -⟩ := start_eq_ok hstart
    exact regular_ofSource ty
  exact Compiled.foldlM_induction (fun _ _ _ _ h hstep => h.step hstep hnested) hd₀ hrun

/-- A draft is planned as a query, split if need be, or is the scope of a modification. -/
theorem Regular.scope?_of_plan {l : Layer} (h : d.Regular) (hp : d.plan schema = .ok p)
    (hl : p.scope? = some l) :
    (p = .select l ∧ d.finished.separateCollections schema = .ok l) ∨
      (d.modification ≠ none ∧ l = d.finished) := by
  unfold plan at hp
  split at hp
  · obtain ⟨layer, hlayer, hp⟩ := bind_eq_ok.1 hp
    cases hp
    cases hl
    exact .inl ⟨rfl, hlayer⟩
  · rename_i target payload hm
    refine .inr ⟨by simp [hm], ?_⟩
    cases hp
    rcases payload with _ | payload | payload | payload
    · exact (Option.some.inj hl).symm
    · cases hl
    · cases hl
    · exact absurd rfl ((h.modified _ hm).2.2 target payload)
  · rename_i payload hm
    obtain ⟨target, -, hp⟩ := bind_eq_ok.1 hp
    cases hp
    exact .inr ⟨by simp [hm], (Option.some.inj hl).symm⟩
  · rename_i payload hm
    obtain ⟨target, -, hp⟩ := bind_eq_ok.1 hp
    cases hp
    exact .inr ⟨by simp [hm], (Option.some.inj hl).symm⟩

theorem Regular.all_normal_plan (h : d.Regular) (hp : d.plan schema = .ok p) :
    p.All Layer.Normal := by
  intro l hl
  rcases h.scope?_of_plan hp hl with ⟨-, hq⟩ | ⟨-, rfl⟩
  · exact Layer.all_normal_separateCollections h.all_normal_finished hq
  · exact h.all_normal_finished

end Draft

/-- **Every layer of the plan of a log is normal.** -/
theorem Plan.all_normal {depth : Nat} (h : ofLogAt schema depth log = .ok p) :
    p.All Layer.Normal := by
  refine ofLogAt_induction (fun nested hnested log p hp => ?_) h
  simp only [ofLogWith, bind_eq_ok] at hp
  obtain ⟨⟨⟩, -, ⟨d₀, ops⟩, hstart, d, hrun, hp⟩ := hp
  have hregular : d.Regular :=
    Draft.regular_run hstart hrun fun log l hl => hnested log l hl l rfl
  exact hregular.all_normal_plan hp

theorem Draft.regular_ofLog {d : Draft} (h : ofLog schema log = .ok d) : d.Regular := by
  obtain ⟨d₀, ops, hstart, hrun⟩ := ofLog_eq_ok h
  exact regular_run hstart hrun fun _ l hl => Plan.all_normal (Plan.nestedAt_eq_ok hl) l rfl

end QueryCompiler

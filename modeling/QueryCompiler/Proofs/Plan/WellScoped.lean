import QueryCompiler.Proofs.Plan.InScope
/-!
# Plans in scope

Plans of logs that have only the expressions a caller writes are well scoped
(`Plan.wellScoped_ofLogAt`), and so are the drafts of such a log. What a draft mentions is the
caller's, or put there by the draft itself; bound expressions are reduced, so that no parameter is
left; and the keys of a join are bound to the row before it and to the rows that are joined.
-/

namespace QueryCompiler

variable {schema : Schema} {nested : Log → Compiled Layer}

/-! ## Joins -/

/-- A join in order whose keys are in the scope of the joins up to it. -/
structure Join.Keyed (place : Nat) (j : Join) : Prop extends Join.InOrder place j where
  keys : ∀ e ∈ j.outerKeys ++ j.innerKeys, e.InScope (place + 1)

/-- The joins of a layer are so at their places. -/
def Join.AllKeyed (joins : List Join) : Prop := ∀ i (j : Join), joins[i]? = some j → j.Keyed i

theorem Join.key_cases {kind : OpKind} {outer inner : Expr} {outerKeys innerKeys : List Expr}
    (h : keys kind outer inner = .ok (outerKeys, innerKeys)) :
    (∀ e ∈ outerKeys, e = outer ∨ outer.isLambda = false ∧ e ∈ outer.parts) ∧
      ∀ e ∈ innerKeys, e = inner ∨ inner.isLambda = false ∧ e ∈ inner.parts := by
  have hobject {e : Expr} {bs : List Binding} (hbs : e.bindings? = some bs) :
      ∀ k ∈ bs.map (·.value), k = e ∨ e.isLambda = false ∧ k ∈ e.parts := by
    cases e with
    | object ty bindings =>
      cases hbs
      exact fun k hk => .inr ⟨rfl, hk⟩
    | _ => cases hbs
  unfold keys at h
  split at h
  · rename_i os is hos his
    split at h
    · cases h
      exact ⟨hobject hos, hobject his⟩
    · cases h
  · cases h
    exact ⟨by simp, by simp⟩
  · cases h

theorem Draft.Rejoins.keyed_added {joins : List Join} {j : Join}
    (h : Join.AllKeyed joins) (hj : j.Keyed joins.length) :
    Join.AllKeyed (joins ++ [j]) := by
  intro i j' hj'
  rw [List.getElem?_append] at hj'
  split at hj'
  · exact h i j' hj'
  · rename_i hi
    obtain ⟨hzero, rfl⟩ : i - joins.length = 0 ∧ j = j' := by
      simpa [List.getElem?_singleton] using hj'
    obtain rfl : i = joins.length := by omega
    exact hj

theorem Draft.Rejoins.keyed_retagged {joins : List Join} {k : Nat} {j : Join} {kind : JoinKind}
    (h : Join.AllKeyed joins) (hj : joins[k]? = some j) :
    Join.AllKeyed (joins.set k { j with kind }) := by
  intro i j' hj'
  rw [List.getElem?_set] at hj'
  split at hj'
  · rename_i hik
    subst hik
    split at hj'
    · cases hj'
      exact ⟨⟨(h k j hj).source, (h k j hj).outerKeys, (h k j hj).innerKeys⟩, (h k j hj).keys⟩
    · cases hj'
  · exact h i j' hj'

/-! ## Drafts -/

namespace Draft

variable {d d' : Draft} {op : Operator} {n : Nat} {e : Expr}

/-- The expressions of a draft are those of a caller, bound; its joins are in order, and the layers
that it holds are well scoped. -/
structure WellScoped (d : Draft) : Prop where
  marked : d.Marked Expr.Mark.IsCallers
  reduced : ∀ e ∈ d.exprs, e.Reduced
  joins : Join.AllKeyed d.layer.joins
  parts : ∀ m ∈ d.layer.parts, m.All Layer.WellScoped

theorem wellScoped_ofSource (ty : String) : (ofSource ty).WellScoped where
  marked := marked_ofSource _ ty
  reduced := reduced_ofSource ty
  joins i j hj := by cases hj
  parts m hm := by simp [Layer.parts, ofSource, Layer.ofSource, Layer.empty] at hm

theorem WellScoped.inScope (h : d.WellScoped) (he : e ∈ d.exprs) :
    e.InScope d.layer.joins.length :=
  Expr.inScope_of_reduced (h.reduced e he) (h.marked e he)

/-- **A finished draft is a well-scoped layer.** -/
theorem WellScoped.finished (h : d.WellScoped) : d.finished.WellScoped where
  joins i j hj := (h.joins i j hj).toInOrder
  exprs e he := by
    have hclause : e ∈ d.exprs → e.InScope d.layer.joins.length := h.inScope
    have hrow : d.row.InScope d.layer.joins.length := h.inScope row_mem_exprs
    rw [Layer.mem_exprs] at he
    rw [mem_exprs] at hclause
    rcases he with rfl | he | he | he | he | he | ⟨j, hj, he⟩
    · unfold Draft.finished
      dsimp only
      split
      · rename_i key element hgrouping
        rw [hgrouping] at hrow
        exact hrow.part rfl (by simp)
      · exact hrow
    · refine Expr.inScope_conjoin (fun e he => h.inScope ?_) e he
      exact mem_exprs.2 (.inr (.inl he))
    · refine Expr.inScope_conjoin (fun e he => h.inScope ?_) e he
      exact mem_exprs.2 (.inr (.inr (.inl he)))
    · exact hclause (.inr (.inr (.inr (.inl he))))
    · exact hclause (.inr (.inr (.inr (.inr (.inl he)))))
    · exact hclause (.inr (.inr (.inr (.inr (.inr (.inl he))))))
    · obtain ⟨i, hi⟩ := List.mem_iff_getElem?.1 hj
      exact ((h.joins i j hi).keys e he).mono (List.getElem?_eq_some_iff.1 hi).1

theorem WellScoped.all_finished (h : d.WellScoped) : d.finished.All Layer.WellScoped :=
  Layer.all_of_parts h.finished h.parts

theorem WellScoped.wrap (h : d.WellScoped) (hd : d.wrap schema = .ok d') : d'.WellScoped where
  marked e he m hm := by
    rw [(exprs_wrap hd he).2 m hm]
    exact .inr (Nat.zero_le _)
  reduced e he := (exprs_wrap hd he).1
  joins i j hj := by
    obtain ⟨row, source, -, rfl⟩ := wrap_eq_ok hd
    cases hj
  parts m hm := by
    obtain ⟨row, source, -, rfl⟩ := wrap_eq_ok hd
    rcases Layer.mem_parts.1 hm with hm | ⟨j, hj, -⟩ | hm
    · cases hm
      have hfinished := h.all_finished
      refine Layer.all_of_parts ?_ fun m hm => hfinished.part hm
      exact ⟨hfinished.self.joins, hfinished.self.exprs⟩
    · cases hj
    · cases hm

section Surface

variable (hd : d.WellScoped) (hop : Expr.isSurfaceOperands op.operands = true)

include hop

theorem isCallers_of_mentions {m : Expr.Mark} (hm : op.Mentions m) : m.IsCallers := by
  obtain ⟨i, l, hl, hm⟩ := hm
  exact Expr.isCallers_of_isSurface (Operator.isSurface_lambda? hop hl) hm

include hd

theorem Made.isCallers_or (h : Made d op n e) (hle : d.layer.joins.length ≤ n) :
    ∀ m, e.Mentions m → m.IsCallers ∨ m.InScope n :=
  h.marked hd.marked (fun _ hm => isCallers_of_mentions hop hm) hle

theorem Made.inScope (h : Made d op n e) (hle : d.layer.joins.length ≤ n) : e.InScope n :=
  Expr.inScope_of_reduced (h.reduced hd.reduced) (h.isCallers_or hd hop hle)

theorem Made.source_le (h : Made d op n e) (hle : d.layer.joins.length ≤ n) {id : Nat}
    (hm : e.Mentions (.source id)) : id ≤ n :=
  (h.isCallers_or hd hop hle _ hm).resolve_left fun hcaller => hcaller

theorem isSurface_of_nests {log : Log} (h : d.Nests op log) : log.isSurface = true := by
  rcases h with hq | ⟨l, collection, hl, hb, hquery⟩
  · exact Operator.isSurface_query? hop hq
  · have hmade : Made d op d.layer.joins.length (.query log) := by
      rw [← hquery]
      exact made_strip (made_bindRow (lambda?_of_lambda hl) hb)
    have hmark : (Expr.query log).Mentions (.query log) := ⟨_, .refl, rfl⟩
    exact (hmade.isCallers_or hd hop (Nat.le_refl _) _ hmark).resolve_right fun hscope => hscope

/-- **The keys of a new join are in order**: the outer ones read what is there, the inner ones the
rows that are joined. -/
theorem keyed_join {log : Log} {target : JoinTarget} {joined outer inner : Expr}
    {rowType : Option String} {lo li : Lambda} {outerKeys innerKeys : List Expr} {kind : JoinKind}
    (ht : joinTarget schema nested log d.nextSource = .ok (target, joined, rowType))
    (hlo : op.lambda 1 = .ok lo) (ho : d.bindRow lo = .ok outer)
    (hli : op.lambda 2 = .ok li) (hi : li.bind [joined] = .ok inner)
    (hkeys : Join.keys op.kind outer inner = .ok (outerKeys, innerKeys)) :
    Join.Keyed d.layer.joins.length
      ⟨kind, d.nextSource, target, rowType, outerKeys, innerKeys⟩ := by
  obtain ⟨houter, hinner⟩ := Join.key_cases hkeys
  have houter : ∀ e ∈ outerKeys, Made d op d.layer.joins.length e := by
    have hmade : Made d op d.layer.joins.length outer := made_bindRow (lambda?_of_lambda hlo) ho
    intro e he
    rcases houter e he with rfl | ⟨hlambda, hpart⟩
    · exact hmade
    · exact hmade.part hlambda hpart
  have hinner : ∀ e ∈ innerKeys, Made d op d.nextSource e ∧ ∀ m, e.Mentions m → inner.Mentions m := by
    have hjoined : Made d op d.nextSource joined := made_joined ht rfl
    have hmade : Made d op d.nextSource inner :=
      made_bind (lambda?_of_lambda hli) (by simpa using hjoined) hi
    intro e he
    rcases hinner e he with rfl | ⟨hlambda, hpart⟩
    · exact ⟨hmade, fun m hm => hm⟩
    · exact ⟨hmade.part hlambda hpart, fun m hm => hm.part hpart⟩
  refine ⟨⟨rfl, fun e he id => ?_, fun e he id hm => ?_⟩, fun e he => ?_⟩
  · exact (houter e he).source_le hd hop (Nat.le_refl _)
  · -- a source in an inner key is not the caller's, so that it is one of the joined rows
    rcases Lambda.mentions_bind hi ((hinner e he).2 _ hm) with hm | ⟨a, ha, hm⟩
    · exact (isCallers_of_mentions hop ⟨2, li, lambda?_of_lambda hli, hm⟩).elim
    · obtain rfl := List.mem_singleton.1 ha
      cases mentions_joined ht hm
      rfl
  · rcases List.mem_append.1 he with he | he
    · exact ((houter e he).inScope hd hop (Nat.le_refl _)).mono (Nat.le_succ _)
    · exact (hinner e he).1.inScope hd hop (Nat.le_succ _)

theorem Flattened.keyed {collection element : Expr} {unmatched : Unmatched}
    (h : Flattened schema nested d unmatched collection d' element)
    (hcollection : Made d op d.layer.joins.length collection) :
    Join.AllKeyed d'.layer.joins := by
  cases h with
  | group hj => exact Rejoins.keyed_retagged hd.joins hj
  | cross ht =>
    exact Rejoins.keyed_added hd.joins
      ⟨⟨rfl, fun e he => (by cases he), fun e he => by cases he⟩, fun e he => by cases he⟩
  | @navigation owner name target ty entity nav fk hshape howner hentity hnav hfk _ =>
    have howner : Made d op d.layer.joins.length owner := hcollection.part rfl (by simp)
    refine Rejoins.keyed_added hd.joins ⟨⟨rfl, fun e he id hm => ?_, fun e he id hm => ?_⟩, ?_⟩
    · obtain ⟨key, -, rfl⟩ := List.mem_map.1 he
      exact howner.source_le hd hop (Nat.le_refl _) (Expr.mentions_member.1 hm)
    · obtain ⟨key, -, rfl⟩ := List.mem_map.1 he
      cases Expr.mentions_source.1 (Expr.mentions_member.1 hm)
      rfl
    · intro e he
      simp only [List.mem_append, List.mem_map] at he
      rcases he with ⟨key, -, rfl⟩ | ⟨key, -, rfl⟩
      · exact ((howner.inScope hd hop (Nat.le_refl _)).mono (Nat.le_succ _)).member key
      · exact (Expr.inScope_source (Nat.le_refl _)).member key

/-- **An operator leaves the joins in order.** -/
theorem Applied.keyed (h : Applied schema nested d op d') :
    Join.AllKeyed d'.layer.joins := by
  have hrestricted {d₁ : Draft} (hr : d.restrictBy op = .ok d₁) :
      Join.AllKeyed d₁.layer.joins := by
    rw [layer_restrictBy hr]
    exact hd.joins
  cases h with
  | filter => rw [restrict_layer]; exact hd.joins
  | selectMany _ hl hb hf =>
    have hkeyed := hf.keyed hd hop (made_strip (made_bindRow (lambda?_of_lambda hl) hb))
    exact hkeyed
  | join _ _ ht hlo ho hli hi hkeys =>
    exact Rejoins.keyed_added hd.joins (keyed_join hd hop ht hlo ho hli hi hkeys)
  | any _ hr | first _ hr =>
    have hkeyed := hrestricted hr
    exact hkeyed
  | aggregate _ hs =>
    rcases hs with ⟨-, hr, -⟩ | ⟨-, rfl, -⟩
    · have hkeyed := hrestricted hr
      exact hkeyed
    · exact hd.joins
  | union => rw [union_eq]; exact hd.joins
  | _ => exact hd.joins

/-- **A step leaves a draft well scoped.** -/
theorem WellScoped.step
    (hnested : ∀ log l, log.isSurface = true → nested log = .ok l → l.All Layer.WellScoped)
    (h : d.step schema nested op = .ok d') : d'.WellScoped := by
  have hmarked := hd.marked.step (fun _ hm => isCallers_of_mentions hop hm) h
  have hreduced := reduced_step h hd.reduced
  obtain ⟨-, d₁, d₂, hd₁, happlied, rfl⟩ := step_eq_ok h
  have hd₁ : d₁.WellScoped := by
    rcases hd₁ with ⟨-, hwrap⟩ | ⟨-, rfl⟩
    · exact hd.wrap hwrap
    · exact hd
  have hkeyed := happlied.keyed hd₁ hop
  refine ⟨hmarked, hreduced, hkeyed, fun m hm => ?_⟩
  rcases happlied.mem_parts hm with hm | ⟨log, l, hnests, hl, hm⟩
  · exact hd₁.parts m hm
  · have hall := hnested log l (isSurface_of_nests hd₁ hop hnests) hl
    rcases hm with rfl | rfl
    · exact hall
    · exact hall.with_parts hall.self.unordered rfl

end Surface

end Draft

namespace Plan

/-- The layers of a plan are well scoped, and so is the construction of an update. -/
structure WellScoped (p : Plan) : Prop where
  layers : p.All Layer.WellScoped
  construction : ∀ scope e, p.construction? = some (scope, e) → e.InScope scope.joins.length

theorem construction_mem_exprs {d : Draft} {p : Plan} {scope : Layer} {e : Expr}
    (h : d.plan schema = .ok p) (he : p.construction? = some (scope, e)) :
    scope = d.finished ∧ e ∈ d.exprs := by
  unfold Draft.plan at h
  split at h
  · obtain ⟨layer, -, h⟩ := Compiled.bind_eq_ok.1 h
    cases h
    cases he
  · cases h
    cases he
  · rename_i payload hm
    obtain ⟨target, -, h⟩ := Compiled.bind_eq_ok.1 h
    cases h
    cases payload with
    | entity value => cases he
    | assignments construction =>
      cases he
      refine ⟨rfl, Draft.mem_exprs.2 ?_⟩
      simp [hm, Modification.construction?]
  · obtain ⟨target, -, h⟩ := Compiled.bind_eq_ok.1 h
    cases h
    cases he

/-- **Plans of logs are well scoped**, if their expressions are those a caller writes. -/
theorem wellScoped_ofLogAt {depth : Nat} {log : Log} {p : Plan}
    (h : ofLogAt schema depth log = .ok p) (hlog : log.isSurface) : p.WellScoped := by
  have hstep : ∀ (nested : Log → Compiled Layer) (log : Log), log.isSurface = true →
      (∀ log l, log.isSurface = true → nested log = .ok l → l.All Layer.WellScoped) →
      ∀ op ∈ log, ∀ d d' : Draft, d.Regular → d.WellScoped →
      d.step schema nested op = .ok d' → d'.WellScoped :=
    fun nested log hlog hnested op hop d d' _ hd hstep =>
      hd.step (Log.isSurface_of_mem hlog hop) hnested hstep
  have hfinish : ∀ (d : Draft) l, d.Regular → d.WellScoped →
      (l = d.finished ∨ d.finished.separateCollections schema = .ok l) →
      l.All Layer.WellScoped := by
    rintro d l - hd (rfl | hsplit)
    · exact hd.all_finished
    · exact Layer.all_wellScoped_separateCollections hd.all_finished hsplit
  refine ⟨fun l hl => ?_, fun scope e he => ?_⟩
  · exact ofLogAt_drafts (fun log => log.isSurface = true) Draft.WellScoped
      Draft.wellScoped_ofSource hstep hfinish h hlog hl
  · obtain ⟨d, -, hd, hp⟩ := exists_draft (fun log => log.isSurface = true) Draft.WellScoped
      Draft.wellScoped_ofSource hstep hfinish h hlog
    obtain ⟨rfl, hmem⟩ := construction_mem_exprs hp he
    exact hd.inScope hmem

end Plan

end QueryCompiler

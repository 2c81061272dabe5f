import QueryCompiler.Proofs.Plan.Recast
/-!
# Joins of another kind

A join is of a kind, and no operator asks for it but the one that flattens its group. So two logs
that leave drafts which differ in the kind of one join have plans that differ in it and in nothing
else, as long as no later operator has a group of this join at hand (`Draft.Rekinds.foldlM_step`,
`Draft.Rekinds.plan`). The join is found by its place in the layer that reads certain rows, however
many layers are put around that later.
-/

namespace QueryCompiler

open Compiled (bind_eq_ok ok_bind)

variable {schema : Schema} {nested : Log → Compiled Layer}

/-- `q` is `l` but for the kind of one join: the join `j` at place `n` of the layer that reads
`inner`. -/
inductive Layer.Rekinded (inner : Option Layer) (n : Nat) (j : Join) (kind : JoinKind) :
    Layer → Layer → Prop where
  | here {l : Layer} (hsubquery : l.subquery = inner) (hj : l.joins[n]? = some j) :
    Rekinded inner n j kind l { l with joins := l.joins.set n { j with kind } }
  | deeper {l m m' : Layer} (hsubquery : l.subquery = some m) (h : Rekinded inner n j kind m m') :
    Rekinded inner n j kind l { l with subquery := some m' }

/-- `p'` is `p` but for the kind of one join. Rows that are given as values have no layer. -/
inductive Plan.Rekinded (inner : Option Layer) (n : Nat) (j : Join) (kind : JoinKind) :
    Plan → Plan → Prop where
  | select {l q : Layer} (h : l.Rekinded inner n j kind q) :
    Rekinded inner n j kind (.select l) (.select q)
  | insert (target : String) {l q : Layer} (h : l.Rekinded inner n j kind q) :
    Rekinded inner n j kind (.insert target (.query l)) (.insert target (.query q))
  | values (target : String) {payload : InsertPayload} (h : ∀ l, payload ≠ .query l) :
    Rekinded inner n j kind (.insert target payload) (.insert target payload)
  | update (target : String) (payload : UpdatePayload) {l q : Layer}
    (h : l.Rekinded inner n j kind q) :
    Rekinded inner n j kind (.update target payload l) (.update target payload q)
  | delete (target : String) (payload : DeletePayload) {l q : Layer}
    (h : l.Rekinded inner n j kind q) :
    Rekinded inner n j kind (.delete target payload l) (.delete target payload q)

namespace Layer

variable {l q : Layer} {inner : Option Layer} {n : Nat} {j : Join} {kind : JoinKind}
  {s : Option Layer → Option Layer} {t : List Join → List Join}

theorem rowType_rekind {joins : List Join} (hj : joins[n]? = some j) (id : Nat) :
    ((joins.set n { j with kind }).find? (·.source == id)).bind (·.rowType) =
      (joins.find? (·.source == id)).bind (·.rowType) := by
  induction joins generalizing n with
  | nil => cases hj
  | cons j₀ joins ih =>
    cases n with
    | zero =>
      obtain rfl : j₀ = j := by simpa using hj
      simp only [List.set_cons_zero, List.find?_cons]
      split <;> rfl
    | succ n =>
      simp only [List.set_cons_succ, List.find?_cons]
      split
      · rfl
      · exact ih (by simpa using hj)

/-- The kind of a join makes no difference to the operators. -/
theorem recasts_rekind (hj : l.joins[n]? = some j) :
    l.Recasts schema id (·.set n { j with kind }) where
  derived := rfl
  orders := rfl
  length := List.length_set
  types id := by
    simp only [sourceType?, join?, Layer.recast, rowType_rekind hj]

/-- The changes of a layer that give one join another kind: those of its joins, or of the layer that
it reads. -/
inductive Rekinds (inner : Option Layer) (n : Nat) (j : Join) (kind : JoinKind) :
    Layer → (Option Layer → Option Layer) → (List Join → List Join) → Prop where
  | here {l : Layer} (hsubquery : l.subquery = inner) (hj : l.joins[n]? = some j) :
    Rekinds inner n j kind l id (·.set n { j with kind })
  | deeper {l m : Layer} {s : Option Layer → Option Layer} {t : List Join → List Join}
    (hsubquery : l.subquery = some m) (h : Rekinds inner n j kind m s t) :
    Rekinds inner n j kind l (fun _ => some (m.recast s t)) id

theorem Rekinds.rekinded (h : l.Rekinds inner n j kind s t) :
    l.Rekinded inner n j kind (l.recast s t) := by
  induction h with
  | here hsubquery hj => exact .here hsubquery hj
  | deeper hsubquery _ ih => exact .deeper hsubquery ih

theorem Rekinds.recasts (h : l.Rekinds inner n j kind s t) : l.Recasts schema s t := by
  cases h with
  | here _ hj => exact recasts_rekind hj
  | deeper hsubquery _ => exact recasts_below hsubquery

theorem Rekinds.congr (h : l.Rekinds inner n j kind s t) {l' : Layer}
    (hsubquery : l'.subquery = l.subquery) (hjoins : l'.joins = l.joins) :
    l'.Rekinds inner n j kind s t := by
  cases h with
  | here hsub hj => exact .here (hsubquery.trans hsub) (by rw [hjoins, hj])
  | deeper hsub hm => exact .deeper (hsubquery.trans hsub) hm

theorem Rekinds.separateCollections {q : Layer} (h : l.Rekinds inner n j kind s t)
    (hq : l.separateCollections schema = .ok q) :
    ∃ s' t', q.Rekinds inner n j kind s' t' ∧
      (l.recast s t).separateCollections schema = .ok (q.recast s' t') := by
  rw [separateCollections_eq] at hq ⊢
  rw [h.recasts.separates]
  obtain ⟨found, hfound, hq⟩ := bind_eq_ok.1 hq
  rw [hfound, ok_bind]
  cases found with
  | false =>
    cases hq
    exact ⟨s, t, h, rfl⟩
  | true =>
    obtain ⟨m, hm, hsubquery, hjoins, hsplit⟩ := h.recasts.split hq
    exact ⟨_, id, .deeper hm (h.congr hsubquery hjoins), hsplit⟩

end Layer

namespace Draft

variable {d e : Draft} {op : Operator} {inner : Option Layer} {n : Nat} {j : Join}
  {kind : JoinKind} {s : Option Layer → Option Layer} {t : List Join → List Join} {k : Nat}

/-- An operator leaves a join alone whose group it does not flatten. -/
theorem Applied.join_kept (h : Applied schema nested d op e)
    (hrow : ¬ d.row.Mentions (.joinGroup n)) (hop : ¬ op.Mentions (.joinGroup n))
    (hj : d.layer.joins[n]? = some j) : e.layer.joins[n]? = some j := by
  have hadded (j' : Join) : (d.layer.joins ++ [j'])[n]? = some j := by
    rw [List.getElem?_append_left (List.getElem?_eq_some_iff.1 hj).1, hj]
  cases h with
  | filter => rwa [restrict_layer]
  | @selectMany l collection _ _ _ _ hl hb hf =>
    have hcollection : ¬ (Unmatched.strip collection).1.Mentions (.joinGroup n) := by
      intro hm
      rcases mentions_bindRow hb (mentions_strip hm) with hm | hm
      · exact hop ⟨0, l, lambda?_of_lambda hl, hm⟩
      · exact hrow hm
    generalize (Unmatched.strip collection).1 = group at hf hcollection
    cases hf with
    | @group index element _ _ =>
      have hne : index ≠ n := by
        rintro rfl
        exact hcollection (Expr.mentions_iff.2 (.inl rfl))
      simpa [List.getElem?_set_ne hne] using hj
    | cross | navigation => exact hadded _
  | join => exact hadded _
  | any _ hr | first _ hr => rwa [← layer_restrictBy hr] at hj
  | aggregate _ hs =>
    rcases hs with ⟨-, hr, -⟩ | ⟨-, rfl, -⟩
    · rwa [← layer_restrictBy hr] at hj
    · exact hj
  | union => rwa [union_eq]
  | _ => exact hj

/-- The changes of a draft that give one join another kind. A group of that join is not at hand. -/
inductive Rekinds (inner : Option Layer) (n : Nat) (j : Join) (kind : JoinKind) (k : Nat) :
    Draft → (Option Layer → Option Layer) → (List Join → List Join) → Prop where
  | here {d : Draft} (hsubquery : d.layer.subquery = inner) (hj : d.layer.joins[n]? = some j)
    (hk : 0 < k ↔ 0 < d.applied) (hgroups : ∀ e ∈ d.exprs, ¬ e.Mentions (.joinGroup n)) :
    Rekinds inner n j kind k d id (·.set n { j with kind })
  | deeper {d : Draft} {m : Layer} {s : Option Layer → Option Layer} {t : List Join → List Join}
    (hsubquery : d.layer.subquery = some m) (hk : 0 < k ↔ 0 < d.applied)
    (h : m.Rekinds inner n j kind s t) :
    Rekinds inner n j kind k d (fun _ => some (m.recast s t)) id

theorem Rekinds.layer (h : d.Rekinds inner n j kind k s t) : d.layer.Rekinds inner n j kind s t := by
  cases h with
  | here hsubquery hj => exact .here hsubquery hj
  | deeper hsubquery _ hm => exact .deeper hsubquery hm

theorem recasts_rekind (hj : d.layer.joins[n]? = some j) (hk : 0 < k ↔ 0 < d.applied)
    (hgroups : ∀ e ∈ d.exprs, ¬ e.Mentions (.joinGroup n)) :
    d.Recasts schema (· ≠ n) id (·.set n { j with kind }) k where
  toRecasts := Layer.recasts_rekind hj
  append j' := List.set_append_left _ _ (List.getElem?_eq_some_iff.1 hj).1
  retag i j' kind' hne hj' := by
    refine ⟨by rwa [List.getElem?_set_ne (Ne.symm hne)], ?_⟩
    rw [List.set_comm _ _ hne]
  groups i hm := by
    rintro rfl
    exact hgroups d.row row_mem_exprs hm
  started := hk

/-- **A step keeps the difference in the kind of a join.** -/
theorem Rekinds.step (h : d.Rekinds inner n j kind k s t) (hstep : d.step schema nested op = .ok e)
    (hop : ¬ op.Mentions (.joinGroup n)) :
    ∃ k' s' t', e.Rekinds inner n j kind k' s' t' ∧
      (d.recast s t k).step schema nested op = .ok (e.recast s' t' k') := by
  have hpos : 0 < e.applied := by
    obtain ⟨-, _, d₂, -, -, rfl⟩ := step_eq_ok hstep
    exact Nat.succ_pos _
  have hclosed : d.closedLayer.Rekinds inner n j kind s t := h.layer.congr rfl rfl
  cases h with
  | here hsubquery hj hk hgroups =>
    have hrecasts : d.Recasts schema (· ≠ n) id (·.set n { j with kind }) k :=
      recasts_rekind hj hk hgroups
    have hallowed : ∀ i, op.Mentions (.joinGroup i) → i ≠ n := by
      rintro i hm rfl
      exact hop hm
    rcases step_recast hstep hrecasts hallowed with ⟨⟨d₂, happlied, rfl⟩, hstep'⟩ | ⟨hbelow, hstep'⟩
    · refine ⟨_, _, _, .here (happlied.subquery_eq.trans hsubquery)
        (happlied.join_kept (hgroups d.row row_mem_exprs) hop hj) (by omega) ?_, hstep'⟩
      intro e he hm
      rcases (happlied.made e he).mentions _ hm with ⟨e₀, he₀, hm⟩ | hm | hm
      · exact hgroups e₀ he₀ hm
      · exact hop hm
      · have hlt := (List.getElem?_eq_some_iff.1 hj).1
        generalize hmark : Expr.Mark.joinGroup n = mark at hm
        cases hm with
        | group =>
          cases hmark
          exact absurd hlt (Nat.lt_irrefl _)
        | _ => cases hmark
    · exact ⟨1, _, _, .deeper hbelow (by omega) hclosed, hstep'⟩
  | @deeper m s t hsubquery hk hm =>
    have hrecasts : d.Recasts schema (fun _ => True) (fun _ => some (m.recast s t)) id k :=
      recasts_below hsubquery hk
    rcases step_recast hstep hrecasts (fun _ _ => trivial) with
      ⟨⟨d₂, happlied, rfl⟩, hstep'⟩ | ⟨hbelow, hstep'⟩
    · exact ⟨_, _, _, .deeper (happlied.subquery_eq.trans hsubquery) (by omega) hm, hstep'⟩
    · exact ⟨1, _, _, .deeper hbelow (by omega) hclosed, hstep'⟩

/-- **A run keeps the difference in the kind of a join.** -/
theorem Rekinds.foldlM_step {ops : Log} (h : d.Rekinds inner n j kind k s t)
    (hrun : ops.foldlM (Draft.step schema nested) d = .ok e)
    (hops : ∀ op ∈ ops, ¬ op.Mentions (.joinGroup n)) :
    ∃ k' s' t', e.Rekinds inner n j kind k' s' t' ∧
      ops.foldlM (Draft.step schema nested) (d.recast s t k) = .ok (e.recast s' t' k') := by
  induction ops generalizing d k s t with
  | nil =>
    cases hrun
    exact ⟨k, s, t, h, rfl⟩
  | cons op ops ih =>
    simp only [List.foldlM_cons] at hrun ⊢
    obtain ⟨d₁, hstep, hrun⟩ := bind_eq_ok.1 hrun
    obtain ⟨k₁, s₁, t₁, h₁, hstep'⟩ := h.step hstep (hops op (by simp))
    rw [hstep', ok_bind]
    exact ih h₁ hrun fun op hop => hops op (by simp [hop])

/-! ## Plans -/

/-- **A plan differs as its draft does.** -/
theorem Rekinds.plan {p : Plan} (h : d.Rekinds inner n j kind k s t) (hd : d.Regular)
    (hp : d.plan schema = .ok p) :
    ∃ p', (d.recast s t k).plan schema = .ok p' ∧ p.Rekinded inner n j kind p' := by
  have hfinished : d.finished.Rekinds inner n j kind s t := h.layer.congr rfl rfl
  unfold Draft.plan at hp ⊢
  have hmod : (d.recast s t k).modification = d.modification := rfl
  rw [hmod]
  cases hm : d.modification with
  | none =>
    rw [hm] at hp
    obtain ⟨q, hq, hp⟩ := bind_eq_ok.1 hp
    cases hp
    obtain ⟨s', t', hq', hsplit⟩ := hfinished.separateCollections hq
    exact ⟨.select (q.recast s' t'), bind_eq_ok.2 ⟨_, hsplit, rfl⟩,
      .select hq'.rekinded⟩
  | some m =>
    rw [hm] at hp
    cases m with
    | insert target payload =>
      cases payload with
      | some payload =>
        cases hp
        refine ⟨_, rfl, .values target fun l hl => ?_⟩
        have hvalues := (hd.modified _ hm).2.2 target l
        cases hl
        exact hvalues rfl
      | none =>
        cases hp
        exact ⟨_, rfl, .insert target hfinished.rekinded⟩
    | update payload =>
      obtain ⟨ty, hty, hp⟩ := bind_eq_ok.1 hp
      cases hp
      exact ⟨_, bind_eq_ok.2 ⟨ty, hty, rfl⟩, .update ty payload hfinished.rekinded⟩
    | delete payload =>
      obtain ⟨ty, hty, hp⟩ := bind_eq_ok.1 hp
      cases hp
      exact ⟨_, bind_eq_ok.2 ⟨ty, hty, rfl⟩, .delete ty payload hfinished.rekinded⟩

end Draft

end QueryCompiler

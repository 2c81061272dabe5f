import QueryCompiler.Proofs.Plan.Nesting
/-!
# Drafts that differ in what they read

Operators hardly look at the rows that a layer reads and at the joins it has: they ask for the types
of these rows, for their ordering, and for the number of joins. So a draft over other rows and with
other joins that agree in this takes every operator as the draft itself does, and what is left
differs in the same places (`Applied.recast`). A draft that starts a layer leaves the difference
below it.

A draft also counts its operators, for the sake of modifications that must come first. How many
have been applied makes no difference once there is one.
-/

namespace QueryCompiler

open Compiled (bind_eq_ok ok_bind)

variable {schema : Schema} {nested : Log → Compiled Layer}

/-! ## Layers -/

namespace Layer

variable {l : Layer} {s : Option Layer → Option Layer} {t : List Join → List Join}

def recast (s : Option Layer → Option Layer) (t : List Join → List Join) (l : Layer) : Layer :=
  { l with subquery := s l.subquery, joins := t l.joins }

/-- The rows that a layer reads and joins can be changed without a difference to its operators. -/
structure Recasts (schema : Schema) (s : Option Layer → Option Layer)
    (t : List Join → List Join) (l : Layer) : Prop where
  derived : (s l.subquery).isSome = l.subquery.isSome
  orders : (l.recast s t).inheritedOrders schema = l.inheritedOrders schema
  length : (t l.joins).length = l.joins.length
  types : ∀ id, (l.recast s t).sourceType? id = l.sourceType? id

theorem Recasts.shape (h : l.Recasts schema s t) (e : Expr) :
    (l.recast s t).shape schema e = l.shape schema e :=
  shape_congr h.types h.derived e

theorem Recasts.derivedRow (h : l.Recasts schema s t) (id : Nat) :
    (l.recast s t).derivedRow schema id = l.derivedRow schema id := by
  unfold Layer.derivedRow
  simp only [h.shape, h.types]
  rfl

theorem Recasts.congr {l' : Layer} (h : l.Recasts schema s t) (hsource : l'.source = l.source)
    (hsubquery : l'.subquery = l.subquery) (hjoins : l'.joins = l.joins) :
    l'.Recasts schema s t where
  derived := by rw [hsubquery, h.derived]
  orders := by
    have horders := h.orders
    simp only [inheritedOrders, recast] at horders ⊢
    rw [hsubquery, horders]
  length := by rw [hjoins, h.length]
  types id := by
    have htypes := h.types id
    simp only [sourceType?, join?, recast] at htypes ⊢
    rw [hjoins, hsource, htypes]

theorem recasts_below {m : Layer} (hsubquery : l.subquery = some m) :
    l.Recasts schema (fun _ => some (m.recast s t)) id where
  derived := by rw [hsubquery]; rfl
  orders := by
    have hexported (e : Expr) : (m.recast s t).exported? schema e = m.exported? schema e := rfl
    simp only [inheritedOrders, recast, hsubquery]
    rfl
  length := rfl
  types _ := rfl

/-! ## Splits -/

section Congruence

variable {l l' : Layer}

theorem bindsCollection_congr (h : ∀ e, l'.shape schema e = l.shape schema e) (e : Expr) :
    l'.bindsCollection schema e = l.bindsCollection schema e := by
  induction e using Expr.induction_object with
  | object ty bs ih =>
    rw [bindsCollection, bindsCollection]
    induction bs with
    | nil => rfl
    | cons c bs ihs =>
      obtain ⟨m, v⟩ := c
      rw [List.forall_mem_cons] at ih
      rw [bindsCollectionAny, bindsCollectionAny, ih.1, ihs ih.2]
  | other e he => rw [bindsCollection.eq_2 _ _ _ he, bindsCollection.eq_2 _ _ _ he, h]

theorem requireNavigationKeys_congr (h : ∀ e, l'.shape schema e = l.shape schema e)
    (b : Boundary) (e : Expr) :
    requireNavigationKeys schema l' b e = requireNavigationKeys schema l b e := by
  induction e using Expr.induction_object with
  | object ty bs ih =>
    rw [requireNavigationKeys, requireNavigationKeys]
    induction bs with
    | nil => rfl
    | cons c bs ihs =>
      obtain ⟨m, v⟩ := c
      rw [List.forall_mem_cons] at ih
      rw [requireKeysOf, requireKeysOf, h, ih.1, ihs ih.2]
  | other e he =>
    rw [requireNavigationKeys.eq_2 _ _ _ _ he, requireNavigationKeys.eq_2 _ _ _ _ he]

theorem splitProjection_congr (h : ∀ e, l'.shape schema e = l.shape schema e) (b : Boundary)
    (e : Expr) : splitProjection schema l' b e = splitProjection schema l b e := by
  induction e using Expr.induction_object with
  | object ty bs ih =>
    have hbindings : splitBindings schema l' b bs = splitBindings schema l b bs := by
      induction bs with
      | nil => rfl
      | cons c bs ihs =>
        obtain ⟨m, v⟩ := c
        rw [List.forall_mem_cons] at ih
        rw [splitBindings, splitBindings, h, ih.1, ihs ih.2]
    rw [splitProjection, splitProjection, hbindings]
  | other e he => rw [splitProjection.eq_2 _ _ _ _ he, splitProjection.eq_2 _ _ _ _ he]

end Congruence

def separates (schema : Schema) (l : Layer) : Compiled Bool := do
  if l.any || l.aggregate.isSome then return false
  if (← l.shape schema l.select).isCollection then
    throw (.ambiguous .collectionProjection)
  if !(← l.bindsCollection schema l.select) then
    if !(← l.includesCollection schema) then return false
  if !l.unions.isEmpty then throw (.ambiguous .collectionWithUnion)
  return true

theorem separateCollections_eq : l.separateCollections schema =
    l.separates schema >>= fun found => if found then l.split schema else .ok l := by
  unfold separateCollections separates
  cases l.any || l.aggregate.isSome with
  | true => rfl
  | false =>
    cases l.shape schema l.select with
    | error => rfl
    | ok shape =>
      cases hflat : shape.isCollection with
      | true => simp [hflat, bind, Except.bind, throw, throwThe,
          MonadExceptOf.throw]
      | false =>
        simp only [ok_bind, hflat]
        cases l.bindsCollection schema l.select with
        | error => rfl
        | ok binds =>
          cases binds with
          | true => cases l.unions.isEmpty <;> rfl
          | false =>
            cases l.includesCollection schema with
            | error => rfl
            | ok reaches =>
              cases reaches with
              | true => cases l.unions.isEmpty <;> rfl
              | false => rfl

theorem Recasts.separates (h : l.Recasts schema s t) :
    (l.recast s t).separates schema = l.separates schema := by
  simp only [Layer.separates, h.shape, bindsCollection_congr h.shape]
  rfl

/-- **A split of a layer over other rows** leaves the difference in its inner half. -/
theorem Recasts.split {q : Layer} (h : l.Recasts schema s t) (hq : l.split schema = .ok q) :
    ∃ m, q.subquery = some m ∧ m.subquery = l.subquery ∧ m.joins = l.joins ∧
      (l.recast s t).split schema = .ok (q.recast (fun _ => some (m.recast s t)) id) := by
  obtain ⟨select, orders, columns, hwhole, hrun, rfl⟩ := split_eq_ok hq
  refine ⟨_, rfl, rfl, rfl, ?_⟩
  have hrun' : (splitOuter schema (l.recast s t) ⟨schema, l.source, l.isIdentity⟩
      (l.recast s t).innerHalf).run [] = .ok ((select, orders), columns) := by
    have hshape (e : Expr) :
        (l.recast s t).innerHalf.shape schema e = l.innerHalf.shape schema e := by
      rw [shape_innerHalf, shape_innerHalf, h.shape]
    rw [← hrun]
    simp only [splitOuter, requireNavigationKeys_congr hshape, splitProjection_congr hshape]
    rfl
  have hidentity : (l.recast s t).isIdentity = l.isIdentity := rfl
  have hkept : (!(l.recast s t).isIdentity && (l.recast s t).select.bindings?.isNone) = false := by
    rcases hwhole with hwhole | hwhole
    · simp [hidentity, hwhole]
    · have hselect : (l.recast s t).select = l.select := rfl
      rw [hselect]
      simp [hwhole]
  unfold Layer.split
  simp only [hkept]
  exact bind_eq_ok.2 ⟨_, hrun', rfl⟩

end Layer

/-! ## Drafts -/

namespace Draft

variable {d e : Draft} {op : Operator} {s : Option Layer → Option Layer}
  {t : List Join → List Join} {k : Nat}

/-- A draft over other rows, with other joins, and with `k` operators applied. -/
def recast (s : Option Layer → Option Layer) (t : List Join → List Join) (k : Nat) (d : Draft) :
    Draft :=
  { d with layer := d.layer.recast s t, applied := k }

/-- What a draft reads and joins can be changed without a difference to its operators, if they
flatten no group that is not `allowed`. -/
structure Recasts (schema : Schema) (allowed : Nat → Prop) (s : Option Layer → Option Layer)
    (t : List Join → List Join) (k : Nat) (d : Draft) : Prop extends
    d.layer.Recasts schema s t where
  append : ∀ j, t (d.layer.joins ++ [j]) = t d.layer.joins ++ [j]
  retag : ∀ i j kind, allowed i → d.layer.joins[i]? = some j → (t d.layer.joins)[i]? = some j ∧
    t (d.layer.joins.set i { j with kind }) = (t d.layer.joins).set i { j with kind }
  groups : ∀ i, d.row.Mentions (.joinGroup i) → allowed i
  started : 0 < k ↔ 0 < d.applied

variable {allowed : Nat → Prop}

theorem recast_restrict (test : Expr) :
    (d.restrict test).recast s t k = (d.recast s t k).restrict test := by
  unfold restrict
  split <;> rename_i h
  · rw [if_pos (by exact h)]; rfl
  · rw [if_neg (by exact h)]; rfl

theorem restrictBy_recast (h : d.restrictBy op = .ok e) :
    (d.recast s t k).restrictBy op = .ok (e.recast s t k) := by
  rcases restrictBy_eq_ok h with ⟨hnone, rfl⟩ | ⟨l, test, hl, hb, rfl⟩
  · simp only [restrictBy, hnone]
  · have hb' : (d.recast s t k).bindRow l = .ok test := hb
    simp only [restrictBy, hl, hb', ok_bind, recast_restrict]
    rfl

theorem mentions_strip {e : Expr} {m : Expr.Mark} (h : (Unmatched.strip e).1.Mentions m) :
    e.Mentions m := by
  unfold Unmatched.strip at h
  split at h
  · exact h.part (by simp)
  · exact h.part (by simp)
  · exact h

theorem Recasts.nextSource (h : d.Recasts schema allowed s t k) :
    (d.recast s t k).nextSource = d.nextSource :=
  congrArg (· + 1) h.length

theorem Recasts.addJoin (h : d.Recasts schema allowed s t k) (j : Join) :
    (d.recast s t k).addJoin j = (d.addJoin j).recast s t k := by
  simp only [Draft.addJoin, recast, Layer.recast, h.append]

theorem Flattened.recast {collection element : Expr} {unmatched : Unmatched}
    (h : Flattened schema nested d unmatched collection e element)
    (hd : d.Recasts schema allowed s t k)
    (hgroups : ∀ i, collection.Mentions (.joinGroup i) → allowed i) :
    Flattened schema nested (d.recast s t k) unmatched collection (e.recast s t k) element := by
  cases h with
  | @group index element j hj =>
    have hmention : (Expr.joinGroup index element).Mentions (.joinGroup index) :=
      Expr.mentions_iff.2 (.inl rfl)
    obtain ⟨hj', hset⟩ := hd.retag index j
      (if j.kind == .right then .right else unmatched.joinKind) (hgroups index hmention) hj
    have hflat : Flattened schema nested (d.recast s t k) unmatched (.joinGroup index element) _
        element := .group hj'
    simp only [Draft.recast, Layer.recast, hset]
    exact hflat
  | @cross log target _ rowType ht =>
    rw [← hd.nextSource] at ht
    have hflat : Flattened schema nested (d.recast s t k) unmatched (.query log) _ element :=
      .cross ht
    rwa [hd.addJoin, hd.nextSource] at hflat
  | @navigation owner name target _ _ _ _ hshape howner hentity hnav hfk htarget =>
    rw [← hd.shape] at hshape howner
    have hflat : Flattened schema nested (d.recast s t k) unmatched (.member owner name) _ _ :=
      .navigation hshape howner hentity hnav hfk htarget
    rwa [hd.addJoin, hd.nextSource] at hflat

theorem Recasts.modificationOf (h : d.Recasts schema allowed s t k) (source : String) :
    (d.recast s t k).modificationOf schema op source = d.modificationOf schema op source := by
  have hcheck : (d.recast s t k).checkPayload op source = d.checkPayload op source := by
    funext e
    have hpos : (d.recast s t k).applied > 0 ↔ d.applied > 0 := h.started
    simp only [checkPayload, hpos]
  have hrow : (d.recast s t k).row = d.row := rfl
  simp only [Draft.modificationOf, hcheck, hrow]

/-- **An operator does to a draft over other rows what it does to the draft.** -/
theorem Applied.recast (h : Applied schema nested d op e) (hd : d.Recasts schema allowed s t k)
    (hop : ∀ i, op.Mentions (.joinGroup i) → allowed i) :
    Applied schema nested (d.recast s t k) op (e.recast s t k) := by
  cases h with
  | filter hk hl hb =>
    rw [recast_restrict]
    exact .filter hk hl hb
  | select hk hl hb => exact .select hk hl hb
  | @selectMany l collection element row d₁ hk hl hb hf hrow =>
    have hgroups : ∀ i, (Unmatched.strip collection).1.Mentions (.joinGroup i) → allowed i := by
      intro i hm
      rcases mentions_bindRow hb (mentions_strip hm) with hm | hm
      · exact hop i ⟨0, l, lambda?_of_lambda hl, hm⟩
      · exact hd.groups i hm
    have hb' : (d.recast s t k).bindRow l = .ok collection := hb
    exact .selectMany hk hl hb' (hf.recast hd hgroups) hrow
  | @join log target joined outer inner row rowType lo li lr outerKeys innerKeys hk hq ht hlo ho hli
      hi hkeys hlr hrow =>
    have ht' := ht
    rw [← hd.nextSource] at ht'
    have hrow' : lr.bind [(d.recast s t k).row, if op.kind == .join then joined
        else .joinGroup (d.recast s t k).layer.joins.length joined] = .ok row := by
      have hlength : (d.recast s t k).layer.joins.length = d.layer.joins.length := hd.length
      rw [hlength]
      exact hrow
    have happlied := Applied.join hk hq ht' hlo ho hli hi hkeys hlr hrow'
    simp only [hd.addJoin, hd.nextSource] at happlied
    exact happlied
  | group hk hl hb he => exact .group hk hl hb he
  | order hk hl hb => exact .order hk hl hb
  | refineOrder hk ho hl hb => exact .refineOrder hk ho hl hb
  | skip hk hn ho hne =>
    rw [← hd.orders] at ho
    exact .skip hk hn ho hne
  | take hk => exact .take hk
  | distinct hk => exact .distinct hk
  | asSubquery hk => exact .asSubquery hk
  | any hk hr => exact .any hk (restrictBy_recast hr)
  | first hk hr => exact .first hk (restrictBy_recast hr)
  | @aggregate func d₁ selector hk hs =>
    have hs' : (func = .count ∧ (d.recast s t k).restrictBy op = .ok (d₁.recast s t k) ∧
          selector = none) ∨
        (func ≠ .count ∧ d₁.recast s t k = d.recast s t k ∧
          ((∃ l e, op.lambda? 0 = some l ∧ (d.recast s t k).bindRow l = .ok e ∧
            selector = some e) ∨
          (op.lambda? 0 = none ∧ (d.recast s t k).layer.shape schema d.row = .ok .scalar ∧
            selector = some d.row))) := by
      rcases hs with ⟨hcount, hr, hselector⟩ | ⟨hne, rfl, hl | ⟨hnone, hshape, hselector⟩⟩
      · exact .inl ⟨hcount, restrictBy_recast hr, hselector⟩
      · exact .inr ⟨hne, rfl, .inl hl⟩
      · exact .inr ⟨hne, rfl, .inr ⟨hnone, (hd.shape _).trans hshape, hselector⟩⟩
    exact .aggregate hk hs'
  | @union log branch hk hq hb =>
    have happlied : Applied schema nested (d.recast s t k) op _ := .union hk hq hb
    rw [union_eq] at happlied ⊢
    exact happlied
  | includePath hk hsource hroot hl hb hpath hnav =>
    exact .includePath hk hsource hroot hl hb hpath hnav
  | modify hk hsource hderived hm =>
    have hderived' : (d.recast s t k).layer.isDerived = false := hd.derived.trans hderived
    rw [← hd.modificationOf] at hm
    exact .modify hk hsource hderived' hm

/-! ## Steps -/

/-- The layer that a draft leaves below when it is wrapped. -/
def closedLayer (d : Draft) : Layer := { d.finished with includes := [] }

theorem wrap_recast (h : d.wrap schema = .ok e) (hd : d.layer.Recasts schema s t) :
    (d.recast s t k).wrap schema =
      .ok (e.recast (fun _ => some (d.closedLayer.recast s t)) id 0) := by
  obtain ⟨row, source, hrow, rfl⟩ := wrap_eq_ok h
  have hclosed : d.closedLayer.Recasts schema s t := hd.congr rfl rfl rfl
  have hrow' := (hclosed.derivedRow 0).trans hrow
  exact bind_eq_ok.2 ⟨(row, source), hrow', rfl⟩

theorem recasts_below {m : Layer} (hsubquery : d.layer.subquery = some m)
    (hstarted : 0 < k ↔ 0 < d.applied) :
    d.Recasts schema (fun _ => True) (fun _ => some (m.recast s t)) id k where
  toRecasts := Layer.recasts_below hsubquery
  append _ := rfl
  retag _ _ _ _ hj := ⟨hj, rfl⟩
  groups _ _ := trivial
  started := hstarted

/-- **A step of a draft over other rows** leaves the difference where it was, or below the layer that
it starts. -/
theorem step_recast (h : d.step schema nested op = .ok e) (hd : d.Recasts schema allowed s t k)
    (hop : ∀ i, op.Mentions (.joinGroup i) → allowed i) :
    ((∃ d₂, Applied schema nested d op d₂ ∧ e = { d₂ with applied := d₂.applied + 1 }) ∧
      (d.recast s t k).step schema nested op = .ok (e.recast s t (k + 1))) ∨
    (e.layer.subquery = some d.closedLayer ∧ (d.recast s t k).step schema nested op =
      .ok (e.recast (fun _ => some (d.closedLayer.recast s t)) id 1)) := by
  obtain ⟨hterminal, d₁, d₂, hopened, happlied, rfl⟩ := step_eq_ok h
  have hterminal' : (d.recast s t k).terminal = none := hterminal
  have hclose : (d.recast s t k).mustClose op.kind = d.mustClose op.kind := rfl
  rw [step_of_terminal hterminal']
  rcases hopened with ⟨hmust, hwrap⟩ | ⟨hmust, rfl⟩
  · have hbelow : d₁.layer.subquery = some d.closedLayer ∧ d₁.applied = 0 := by
      obtain ⟨row, source, -, rfl⟩ := wrap_eq_ok hwrap
      exact ⟨rfl, rfl⟩
    have hopened' : (d.recast s t k).opened schema op.kind =
        .ok (d₁.recast (fun _ => some (d.closedLayer.recast s t)) id 0) := by
      rw [opened, hclose, if_pos hmust]
      exact wrap_recast hwrap hd.toRecasts
    have hrecasts : d₁.Recasts schema (fun _ => True)
        (fun _ => some (d.closedLayer.recast s t)) id 0 :=
      recasts_below hbelow.1 (by rw [hbelow.2])
    have happlied' := apply_of_applied (happlied.recast hrecasts fun _ _ => trivial)
    refine .inr ⟨happlied.subquery_eq.trans hbelow.1, ?_⟩
    rw [hopened', ok_bind, happlied']
    rfl
  · have hopened' : (d₁.recast s t k).opened schema op.kind = .ok (d₁.recast s t k) := by
      rw [opened, hclose, hmust]
      rfl
    have happlied' := apply_of_applied (happlied.recast hd hop)
    refine .inl ⟨⟨d₂, happlied, rfl⟩, ?_⟩
    rw [hopened', ok_bind, happlied']
    rfl

/-! ## The number of operators -/

theorem recast_id : d.recast id id k = { d with applied := k } := by
  have hlayer : d.layer.recast id id = d.layer := by
    cases d.layer
    rfl
  rw [recast, hlayer]

theorem recasts_applied (hk : 0 < k ↔ 0 < d.applied) :
    d.Recasts schema (fun _ => True) id id k where
  derived := rfl
  orders := rfl
  length := rfl
  types _ := rfl
  append _ := rfl
  retag _ _ _ _ hj := ⟨hj, rfl⟩
  groups _ _ := trivial
  started := hk

theorem step_applied (h : d.step schema nested op = .ok e) (hk : 0 < k ↔ 0 < d.applied) :
    ∃ k', (0 < k' ↔ 0 < e.applied) ∧
      { d with applied := k }.step schema nested op = .ok { e with applied := k' } := by
  have happlied : 0 < e.applied := by
    obtain ⟨-, _, d₂, -, -, rfl⟩ := step_eq_ok h
    exact Nat.succ_pos _
  rw [← recast_id]
  rcases step_recast h (recasts_applied hk) fun _ _ => trivial with ⟨-, hstep⟩ | ⟨hbelow, hstep⟩
  · exact ⟨k + 1, by omega, by rw [hstep, recast_id]⟩
  · refine ⟨1, by omega, ?_⟩
    have hclosed : d.closedLayer.recast id id = d.closedLayer := by
      cases d.closedLayer
      rfl
    have hlayer : e.layer.recast (fun _ => some d.closedLayer) id = e.layer := by
      cases hl : e.layer
      rw [hl] at hbelow
      simp only [Layer.recast, id_eq]
      rw [← hbelow]
    rw [hstep, hclosed, recast, hlayer]

/-- **How many operators a draft counts makes no difference to what follows**, once there is one. -/
theorem foldlM_step_applied {ops : Log} (h : ops.foldlM (step schema nested) d = .ok e)
    (hk : 0 < k ↔ 0 < d.applied) :
    ∃ k', ops.foldlM (step schema nested) { d with applied := k } =
      .ok { e with applied := k' } := by
  induction ops generalizing d k with
  | nil =>
    cases h
    exact ⟨k, rfl⟩
  | cons op ops ih =>
    simp only [List.foldlM_cons] at h ⊢
    obtain ⟨d₁, hstep, hrun⟩ := bind_eq_ok.1 h
    obtain ⟨k₁, hk₁, hstep'⟩ := step_applied hstep hk
    rw [hstep', ok_bind]
    exact ih hrun hk₁

end Draft

end QueryCompiler

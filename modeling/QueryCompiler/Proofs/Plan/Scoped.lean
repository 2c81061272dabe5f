import QueryCompiler.Proofs.Expr.Occurrences
import QueryCompiler.Proofs.Plan.Numbered
/-!
# Layers and the sources they read

A layer reads its root and its joins, by number. Those that come from another layer offer what this
returns: the members of its rows if they are whole, else the columns of its projection under their
output names. `Layer.Scoped` says that every clause of a layer keeps to that, and `Layer.Ordered`
that the keys of a join read no join behind it.

A log that has only the expressions a caller writes is planned as layers of this kind
(`Plan.sound_ofLogAt`); only the outer half of a split is left out of the first.
-/

namespace QueryCompiler

variable {schema : Schema} {nested : Log → Compiled Layer} {row e : Expr}
  {sees : Nat → Option String → Prop} {log : Log}

namespace Layer

variable {l q : Layer} {id : Nat} {asked : Option String}

/-- The names of what a layer returns, unless it returns whole rows. -/
def outputs (l : Layer) : List String :=
  match l.select.bindings? with
  | some bindings => bindings.map (·.member)
  | none => [l.select.outputName]

/-- What the layer above may ask of the rows of a layer: anything if they are whole, else one of
their columns. -/
def Offers (l : Layer) (asked : Option String) : Prop :=
  (∃ k, l.select = .source k) ∨ ∃ m ∈ asked, m ∈ l.outputs

/-- The layer that the rows of a number come from. -/
def inner? (l : Layer) : Nat → Option Layer
  | 0 => l.subquery
  | i + 1 => (l.joins[i]?).bind (·.target.layer?)

/-- The entity type of the rows of a number, by the place of their join. -/
def rowType? (l : Layer) : Nat → Option String
  | 0 => l.source
  | i + 1 => (l.joins[i]?).bind (·.rowType)

def Sees (l : Layer) (id : Nat) (asked : Option String) : Prop :=
  id ≤ l.joins.length ∧ ∀ inner, l.inner? id = some inner → inner.Offers asked

theorem Sees.ask (id : Nat) (m : String) (h : l.Sees id none) : l.Sees id (some m) := by
  refine ⟨h.1, fun inner hinner => ?_⟩
  rcases h.2 inner hinner with hwhole | ⟨_, hnone, -⟩
  · exact .inl hwhole
  · cases hnone

theorem Numbered.sourceType?_eq (h : l.Numbered) (id : Nat) : l.sourceType? id = l.rowType? id := by
  cases id with
  | zero => rfl
  | succ i => simp only [sourceType?, Nat.add_one_ne_zero, if_false, h.join?_succ, rowType?]

theorem reads_derivedRow {ty : Option String} (h : l.derivedRow schema id = .ok (row, ty))
    (hsees : ∀ asked, l.Offers asked → sees id asked) : row.Reads sees none := by
  rcases derivedRow_cases h with ⟨k, hk, rfl, -⟩ | ⟨name, bindings, hs, -, rfl, -⟩ |
    ⟨hsource, hobject, rfl, -⟩
  · exact .source (hsees none (.inl ⟨k, hk⟩))
  · refine .composed rfl fun p hp => ?_
    simp only [Expr.parts, List.map_map, List.mem_map, Function.comp_apply] at hp
    obtain ⟨b, hb, rfl⟩ := hp
    refine .member (.source (hsees _ (.inr ⟨b.member, rfl, ?_⟩)))
    simpa [outputs, hs, Expr.bindings?] using ⟨b, hb, rfl⟩
  · exact .member (.source (hsees _ (.inr ⟨_, rfl, by simp [outputs, hobject]⟩)))

theorem whole_of_derivedRow {ty : String} (h : l.derivedRow schema id = .ok (row, some ty)) :
    ∃ k, l.select = .source k ∧ l.sourceType? k = some ty := by
  rcases derivedRow_cases h with ⟨k, hk, -, hty⟩ | ⟨name, bindings, -, -, -, hty⟩ | ⟨-, -, -, hty⟩
  · exact ⟨k, hk, hty.symm⟩
  · cases hty
  · cases hty

/-! ## Scoped layers -/

/-- The clauses of a layer that are settled before it is finished read what it sees. -/
structure Grounded (schema : Schema) (l : Layer) : Prop where
  numbered : l.Numbered
  /-- rows that come from another layer are as it offers them -/
  derived : ∀ id inner, l.inner? id = some inner →
    ∃ row, inner.derivedRow schema id = .ok (row, l.rowType? id)
  /-- the inner layer is read for its rows -/
  rows : ∀ inner, l.subquery = some inner → inner.any = false ∧ inner.aggregate = none
  /-- keys read their own join and those ahead of it -/
  joins : ∀ i (j : Join), l.joins[i]? = some j → ∀ e ∈ j.outerKeys ++ j.innerKeys,
    e.Reads (fun id asked => id ≤ i + 1 ∧ l.Sees id asked) none
  groupBy : ∀ e ∈ l.groupBy, e.Reads l.Sees none
  orders : ∀ o ∈ l.orders, o.expr.Reads l.Sees none
  aggregate : ∀ a ∈ l.aggregate, ∀ e ∈ a.selector, e.Reads l.Sees none

theorem grounded_of_root (hjoins : l.joins = []) (hgroup : l.groupBy = none)
    (horders : l.orders = []) (haggregate : l.aggregate = none) (hroot : ∀ inner, l.subquery = some inner →
      (∃ row, inner.derivedRow schema 0 = .ok (row, l.source)) ∧ inner.any = false ∧
        inner.aggregate = none) : l.Grounded schema where
  numbered i j hj := by simp [hjoins] at hj
  derived id inner hinner := by
    cases id with
    | zero => exact (hroot inner hinner).1
    | succ i => simp [inner?, hjoins] at hinner
  rows inner hinner := (hroot inner hinner).2
  joins i j hj := by simp [hjoins] at hj
  groupBy e he := by simp [hgroup] at he
  orders o ho := by simp [horders] at ho
  aggregate a ha := by simp [haggregate] at ha

/-- Every clause of a layer reads what it sees. -/
structure Scoped (schema : Schema) (l : Layer) : Prop extends Grounded schema l where
  select : l.select.Reads l.Sees none
  predicate : ∀ e ∈ l.predicate, e.Reads l.Sees none
  having : ∀ e ∈ l.having, e.Reads l.Sees none

/-- The keys of a join read no join behind it. -/
def Ordered (l : Layer) : Prop :=
  ∀ i (j : Join), l.joins[i]? = some j → ∀ e ∈ j.outerKeys ++ j.innerKeys,
    e.Reads (fun id _ => id ≤ i + 1) none

theorem Grounded.ordered (h : l.Grounded schema) : l.Ordered :=
  fun i j hj e he => (h.joins i j hj e he).mono fun _ _ hsees => hsees.1

/-- A layer is not the outer half of a split. -/
def Unsplit (l : Layer) : Prop := l.hasMany = false

/-- Joins are in order in every layer, and every clause reads what its layer sees if none has been
split. -/
def Sound (schema : Schema) (l : Layer) : Prop :=
  l.All Ordered ∧ (l.All Unsplit → l.All (Scoped schema))

theorem sound_of_parts (h : l.Scoped schema) (hparts : ∀ m ∈ l.parts, m.Sound schema) :
    l.Sound schema :=
  ⟨all_of_parts h.ordered fun m hm => (hparts m hm).1,
    fun hall => all_of_parts h fun m hm => (hparts m hm).2 (hall.part hm)⟩

theorem Scoped.unordered (h : l.Scoped schema) : l.unordered.Scoped schema := by
  refine { h with orders := fun o ho => h.orders o ?_ }
  simp only [Layer.unordered] at ho
  split at ho
  · exact ho
  · cases ho

theorem Sound.unordered (h : l.Sound schema) : l.unordered.Sound schema := by
  refine ⟨h.1.with_parts h.1.self rfl, fun hall => ?_⟩
  have hscoped := h.2 (hall.with_parts hall.self rfl)
  exact hscoped.with_parts hscoped.self.unordered rfl

/-- A split leaves the joins in the inner half, and an outer half. -/
theorem Sound.separateCollections (h : l.Sound schema)
    (hq : l.separateCollections schema = .ok q) : q.Sound schema := by
  rcases separateCollections_eq_ok hq with ⟨rfl, -⟩ | ⟨hsplit, -⟩
  · exact h
  obtain ⟨select, orders, columns, -, -, rfl⟩ := split_eq_ok hsplit
  refine ⟨h.1.separateCollections hq ?_, fun hall => by cases hall.self⟩
  rintro _ _ _ - _ rfl
  exact ⟨h.1.self, fun i j hj => by cases hj⟩

/-! ## Inherited orderings -/

/-- **The layer above reads an exported expression as a member of its root**: a column of the
projection, or a column of whole rows. Whole joined rows count as a column of their own. -/
theorem exported?_cases {e' : Expr} (h : l.exported? schema e = some e') :
    ∃ name, e' = .member (.source 0) name ∧
      (((∀ k, l.select ≠ .source k) ∧ name ∈ l.outputs) ∨
        (l.select = .source 0 ∧ e.memberPath? = some (0, [name]) ∧ ∃ ty entity,
          l.source = some ty ∧ schema.get? ty = some entity ∧
          ((entity.member? name).bind Member.column?).isSome = true) ∨
        ∃ k, l.select = .source k ∧ e = .source k) := by
  unfold exported? at h
  split at h
  · rename_i ty bindings hs
    obtain ⟨b, hb, rfl⟩ := Option.map_eq_some_iff.1 h
    refine ⟨b.member, rfl, .inl ⟨by simp [hs], ?_⟩⟩
    simpa [outputs, hs, Expr.bindings?] using ⟨b, List.mem_of_find?_eq_some hb, rfl⟩
  · rename_i hs
    simp only [Option.bind_eq_bind, Option.bind_eq_some_iff] at h
    obtain ⟨⟨id, path⟩, hpath, h⟩ := h
    split at h
    · rename_i column heq
      cases heq
      simp only [Option.bind_eq_some_iff] at h
      obtain ⟨ty, hty, entity, hentity, h⟩ := h
      split at h
      · rename_i hcolumn
        cases h
        exact ⟨column, rfl, .inr (.inl ⟨hs, hpath, ty, entity, hty, hentity, hcolumn⟩)⟩
      · cases h
    · cases h
  · rename_i hobject hroot
    split at h
    · rename_i hsame
      cases h
      refine ⟨_, rfl, ?_⟩
      cases hs : l.select with
      | source k =>
        refine .inr (.inr ⟨k, rfl, ?_⟩)
        rw [hs] at hsame
        cases e with
        | source k' =>
          have hk : k = k' := by simpa [BEq.beq, Expr.same] using hsame
          rw [hk]
        | _ => simp [BEq.beq, Expr.same] at hsame
      | object ty bindings => exact absurd hs (hobject ty bindings)
      | _ => exact .inl ⟨by simp, by simp [outputs, hs, Expr.bindings?]⟩
    · cases h

/-- The keys of an ordering that a layer takes over are keys of the layer it reads. -/
theorem mem_inheritedOrders {orders : List Order} (h : l.inheritedOrders schema = some orders)
    {o : Order} (ho : o ∈ orders) : ∃ inner o₀, l.subquery = some inner ∧ o₀ ∈ inner.orders ∧
      inner.exported? schema o₀.expr = some o.expr := by
  simp only [inheritedOrders, Option.bind_eq_bind, Option.bind_eq_some_iff] at h
  obtain ⟨inner, hinner, h⟩ := h
  suffices ∃ o₀ ∈ inner.orders, inner.exported? schema o₀.expr = some o.expr by
    obtain ⟨o₀, ho₀, hexported⟩ := this
    exact ⟨inner, o₀, hinner, ho₀, hexported⟩
  generalize inner.orders = keys at h
  induction keys generalizing orders with
  | nil =>
    cases h
    cases ho
  | cons key keys ih =>
    simp only [List.mapM_cons, Option.bind_eq_bind, Option.bind_eq_some_iff, Option.pure_def,
      Option.some.injEq, Option.map_eq_some_iff] at h
    obtain ⟨_, ⟨e, he, rfl⟩, rest, hrest, rfl⟩ := h
    rcases List.mem_cons.1 ho with rfl | ho
    · exact ⟨key, List.mem_cons_self, he⟩
    · obtain ⟨o₀, ho₀, hexported⟩ := ih ho hrest
      exact ⟨o₀, List.mem_cons_of_mem _ ho₀, hexported⟩

theorem reads_inheritedOrders {orders : List Order} (h : l.inheritedOrders schema = some orders) :
    ∀ o ∈ orders, o.expr.Reads l.Sees none := by
  intro o ho
  obtain ⟨inner, o₀, hinner, -, hexported⟩ := mem_inheritedOrders h ho
  obtain ⟨name, hname, hcases⟩ := exported?_cases hexported
  rw [hname]
  refine .member (.source ⟨Nat.zero_le _, fun inner' hinner' => ?_⟩)
  cases hinner.symm.trans hinner'
  rcases hcases with ⟨-, houtput⟩ | ⟨hs, -⟩ | ⟨k, hs, -⟩
  · exact .inr ⟨name, rfl, houtput⟩
  · exact .inl ⟨0, hs⟩
  · exact .inl ⟨k, hs⟩

/-! ## Joins -/

theorem Sees.append {j : Join} (h : l.Sees id asked) :
    Sees { l with joins := l.joins ++ [j] } id asked := by
  refine ⟨h.1.trans (by simp), fun inner hinner => h.2 inner ?_⟩
  cases id with
  | zero => exact hinner
  | succ i =>
    have hlt : i < l.joins.length := h.1
    simpa only [inner?, List.getElem?_append_left hlt] using hinner

theorem sees_last {j : Join} (h : ∀ inner, j.target.layer? = some inner → inner.Offers asked) :
    Sees { l with joins := l.joins ++ [j] } (l.joins.length + 1) asked := by
  refine ⟨by simp, fun inner hinner => h inner ?_⟩
  simpa [inner?] using hinner

theorem Grounded.append {j : Join} (h : l.Grounded schema) (hsource : j.source = l.joins.length + 1)
    (hderived : ∀ inner, j.target.layer? = some inner →
      ∃ row, inner.derivedRow schema (l.joins.length + 1) = .ok (row, j.rowType))
    (hkeys : ∀ e ∈ j.outerKeys ++ j.innerKeys,
      e.Reads (Sees { l with joins := l.joins ++ [j] }) none) :
    Grounded schema { l with joins := l.joins ++ [j] } where
  numbered := (Draft.Rejoins.added hsource).numbered h.numbered
  derived id inner hinner := by
    cases id with
    | zero => exact h.derived 0 inner hinner
    | succ i =>
      by_cases hi : i < l.joins.length
      · have hold := h.derived (i + 1) inner
        simp only [inner?, rowType?, List.getElem?_append_left hi] at hinner hold ⊢
        exact hold hinner
      · have hi' : i = l.joins.length := by
          obtain ⟨j', hj', -⟩ := Option.bind_eq_some_iff.1 hinner
          have hlt := (List.getElem?_eq_some_iff.1 hj').1
          simp at hlt
          omega
        subst hi'
        simpa [inner?, rowType?] using hderived inner (by simpa [inner?] using hinner)
  rows := h.rows
  joins i j' hj' e he := by
    dsimp only at hj'
    rw [List.getElem?_append] at hj'
    split at hj'
    · exact (h.joins i j' hj' e he).mono fun _ _ hsees => ⟨hsees.1, hsees.2.append⟩
    · rename_i hi
      obtain ⟨hzero, rfl⟩ : i - l.joins.length = 0 ∧ j = j' := by
        simpa [List.getElem?_singleton] using hj'
      refine (hkeys e he).mono fun _ _ hsees => ⟨?_, hsees⟩
      have hle := hsees.1
      simp at hle
      omega
  groupBy e he := (h.groupBy e he).mono fun _ _ hsees => hsees.append
  orders o ho := (h.orders o ho).mono fun _ _ hsees => hsees.append
  aggregate a ha e he := (h.aggregate a ha e he).mono fun _ _ hsees => hsees.append

section Retagged

variable {i : Nat} {j : Join} {kind : JoinKind}

theorem bind_retagged {β : Type} {f : Join → Option β} (hf : f { j with kind } = f j)
    (hj : l.joins[i]? = some j) (k : Nat) :
    ((l.joins.set i { j with kind })[k]?).bind f = (l.joins[k]?).bind f := by
  rw [List.getElem?_set]
  split
  · rename_i hik
    subst hik
    rw [if_pos (List.getElem?_eq_some_iff.1 hj).1, hj]
    exact hf
  · rfl

theorem inner?_retagged (hj : l.joins[i]? = some j) (id : Nat) :
    inner? { l with joins := l.joins.set i { j with kind } } id = l.inner? id := by
  cases id with
  | zero => rfl
  | succ k => exact bind_retagged rfl hj k

theorem rowType?_retagged (hj : l.joins[i]? = some j) (id : Nat) :
    rowType? { l with joins := l.joins.set i { j with kind } } id = l.rowType? id := by
  cases id with
  | zero => rfl
  | succ k => exact bind_retagged rfl hj k

theorem Sees.retagged (hj : l.joins[i]? = some j) (h : l.Sees id asked) :
    Sees { l with joins := l.joins.set i { j with kind } } id asked := by
  refine ⟨by simpa using h.1, fun inner hinner => h.2 inner ?_⟩
  rwa [inner?_retagged hj] at hinner

theorem Grounded.retagged (hj : l.joins[i]? = some j) (h : l.Grounded schema) :
    Grounded schema { l with joins := l.joins.set i { j with kind } } where
  numbered := (Draft.Rejoins.retagged hj).numbered h.numbered
  derived id inner hinner := by
    rw [inner?_retagged hj] at hinner
    rw [rowType?_retagged hj]
    exact h.derived id inner hinner
  rows := h.rows
  joins k j' hj' e he := by
    have hkeys : ∃ j₀, l.joins[k]? = some j₀ ∧
        j'.outerKeys ++ j'.innerKeys = j₀.outerKeys ++ j₀.innerKeys := by
      rw [List.getElem?_set] at hj'
      split at hj'
      · rename_i hik
        subst hik
        split at hj'
        · cases hj'
          exact ⟨j, hj, rfl⟩
        · cases hj'
      · exact ⟨j', hj', rfl⟩
    obtain ⟨j₀, hj₀, hkeys⟩ := hkeys
    refine (h.joins k j₀ hj₀ e (hkeys ▸ he)).mono fun _ _ hsees => ⟨hsees.1, hsees.2.retagged hj⟩
  groupBy e he := (h.groupBy e he).mono fun _ _ hsees => hsees.retagged hj
  orders o ho := (h.orders o ho).mono fun _ _ hsees => hsees.retagged hj
  aggregate a ha e he := (h.aggregate a ha e he).mono fun _ _ hsees => hsees.retagged hj

end Retagged

/-- **An entity may be asked for any member**: it is no row that another layer offers in part. -/
theorem Grounded.reads_entity (h : l.Grounded schema) {ty : String} {m : String}
    (hshape : l.shape schema e = .ok (.entity ty)) (he : e.Reads l.Sees asked) :
    e.Reads l.Sees (some m) := by
  cases he with
  | @source id _ hsees =>
    refine .source ⟨hsees.1, fun inner hinner => ?_⟩
    obtain ⟨row, hrow⟩ := h.derived id inner hinner
    rw [← h.numbered.sourceType?_eq] at hrow
    simp only [shape] at hshape
    split at hshape
    · rename_i ty' hty
      rw [hty] at hrow
      obtain ⟨k, hk, -⟩ := whole_of_derivedRow hrow
      exact .inl ⟨k, hk⟩
    · cases hshape
  | member he => exact .member he
  | query => cases hshape
  | composed hcomposed he => exact .composed hcomposed he

end Layer

/-! ## Drafts -/

theorem Unmatched.reads_strip (h : e.Reads sees none) : (strip e).1.Reads sees none := by
  unfold strip
  split
  · exact (Expr.reads_iff rfl).1 h _ (by simp)
  · exact (Expr.reads_iff rfl).1 h _ (by simp)
  · exact h

theorem Join.reads_keys {kind : OpKind} {outer inner : Expr} {outerKeys innerKeys : List Expr}
    (h : keys kind outer inner = .ok (outerKeys, innerKeys)) (houter : outer.Reads sees none)
    (hinner : inner.Reads sees none) : ∀ e ∈ outerKeys ++ innerKeys, e.Reads sees none := by
  have hobject {e : Expr} {bs : List Binding} (hbs : e.bindings? = some bs)
      (he : e.Reads sees none) : ∀ k ∈ bs.map (·.value), k.Reads sees none := by
    cases e with
    | object ty bindings =>
      cases hbs
      exact (Expr.reads_iff rfl).1 he
    | _ => cases hbs
  unfold keys at h
  intro e he
  split at h
  · rename_i os is hos his
    split at h
    · cases h
      rcases List.mem_append.1 he with he | he
      · exact hobject hos houter e he
      · exact hobject his hinner e he
    · cases h
  · cases h
    simp only [List.mem_append, List.mem_singleton] at he
    rcases he with rfl | rfl
    · exact houter
    · exact hinner
  · cases h

namespace Draft

variable {d d' : Draft} {op : Operator} {target : JoinTarget} {rowType : Option String}

/-- Every clause of a draft reads what its layer sees, and the row too that the next lambda ranges
over. -/
structure Scoped (schema : Schema) (d : Draft) : Prop where
  grounded : d.layer.Grounded schema
  row : d.row.Reads d.layer.Sees none
  filters : ∀ e ∈ d.filters, e.Reads d.layer.Sees none
  havings : ∀ e ∈ d.havings, e.Reads d.layer.Sees none
  parts : ∀ m ∈ d.layer.parts, m.Sound schema

theorem scoped_ofSource (ty : String) : (ofSource ty).Scoped schema where
  grounded := Layer.grounded_of_root rfl rfl rfl rfl fun inner hinner => by cases hinner
  row := .source ⟨Nat.le_refl 0, fun inner hinner => by cases hinner⟩
  filters e he := by cases he
  havings e he := by cases he
  parts m hm := by simp [Layer.parts, ofSource, Layer.ofSource, Layer.empty] at hm

theorem reads_conjoin {es : List Expr} (h : ∀ e ∈ es, e.Reads sees none)
    (he : e ∈ Expr.conjoin es) :
    e.Reads sees none := by
  cases es with
  | nil => cases he
  | cons first rest =>
    obtain rfl : _ = e := Option.some.inj he
    have hfold : ∀ (rest : List Expr) (first : Expr), first.Reads sees none →
        (∀ e ∈ rest, e.Reads sees none) → (rest.foldl (.binary .and) first).Reads sees none := by
      intro rest
      induction rest with
      | nil => exact fun first hfirst _ => hfirst
      | cons second rest ih =>
        intro first hfirst hrest
        refine ih _ (.composed rfl ?_) fun e he => hrest e (List.mem_cons_of_mem _ he)
        simpa using ⟨hfirst, hrest second List.mem_cons_self⟩
    exact hfold rest first (h first List.mem_cons_self) fun e he => h e (List.mem_cons_of_mem _ he)

/-- **A finished draft is a scoped layer.** -/
theorem Scoped.finished (h : d.Scoped schema) : d.finished.Scoped schema where
  toGrounded := { h.grounded with }
  select := by
    have hrow := h.row
    unfold Draft.finished
    dsimp only
    split
    · rename_i key element hgrouping
      rw [hgrouping] at hrow
      exact (Expr.reads_iff rfl).1 hrow key (by simp)
    · exact hrow
  predicate e he := reads_conjoin h.filters he
  having e he := reads_conjoin h.havings he

theorem Scoped.sound_finished (h : d.Scoped schema) : d.finished.Sound schema :=
  Layer.sound_of_parts h.finished h.parts

/-- **A draft over the rows of a scoped one is scoped.** -/
theorem Scoped.wrap (h : d.Scoped schema) (hregular : d.Regular) (ht : d.terminal = none)
    (hd : d.wrap schema = .ok d') : d'.Scoped schema := by
  obtain ⟨row, source, hrow, rfl⟩ := wrap_eq_ok hd
  have hinner : Layer.Scoped schema { d.finished with includes := [] } := { h.finished with }
  obtain ⟨hany, haggregate, -⟩ := hregular.ended ht
  refine ⟨Layer.grounded_of_root rfl rfl rfl rfl ?_, ?_, fun e he => (by cases he),
    fun e he => (by cases he), fun m hm => ?_⟩
  · rintro inner ⟨⟩
    exact ⟨⟨row, hrow⟩, hany, haggregate⟩
  · refine Layer.reads_derivedRow hrow fun asked hoffers => ⟨Nat.le_refl 0, fun inner hid => ?_⟩
    cases hid
    exact hoffers
  · rcases Layer.mem_parts.1 hm with hm | ⟨j, hj, -⟩ | hm
    · cases hm
      exact Layer.sound_of_parts hinner h.parts
    · cases hj
    · cases hm

theorem joinTarget_cases {source : Nat}
    (h : joinTarget schema nested log source = .ok (target, row, rowType)) :
    (∃ ty, target = .table ty ∧ row = .source source) ∨
      ∃ layer, nested log = .ok layer ∧ target = .subquery layer ∧
        layer.derivedRow schema source = .ok (row, rowType) := by
  unfold joinTarget at h
  split at h
  · simp only [Compiled.bind_eq_ok, Compiled.pure_eq_ok, Prod.mk.injEq] at h
    obtain ⟨_, -, rfl, rfl, -⟩ := h
    exact .inl ⟨_, rfl, rfl⟩
  · simp only [Compiled.bind_eq_ok, Compiled.pure_eq_ok, Prod.mk.injEq] at h
    obtain ⟨layer, hlayer, ⟨_, _⟩, hrow, rfl, rfl, rfl⟩ := h
    exact .inr ⟨layer, hlayer, rfl, hrow⟩

/-- **A join on keys that are seen leaves a scoped draft**, with a row that is seen. -/
theorem Scoped.addJoin (h : d.Scoped schema) {j : Join} (hsource : j.source = d.nextSource)
    (hderived : ∀ inner, j.target.layer? = some inner → inner.Sound schema ∧
      ∃ row, inner.derivedRow schema d.nextSource = .ok (row, j.rowType))
    (hkeys : ∀ e ∈ j.outerKeys ++ j.innerKeys, e.Reads (d.addJoin j).layer.Sees none)
    (hrow : row.Reads (d.addJoin j).layer.Sees none) :
    ({ d.addJoin j with row } : Draft).Scoped schema where
  grounded := h.grounded.append hsource (fun inner hinner => (hderived inner hinner).2) hkeys
  row := hrow
  filters e he := (h.filters e he).mono fun _ _ hsees => hsees.append
  havings e he := (h.havings e he).mono fun _ _ hsees => hsees.append
  parts m hm := by
    rcases mem_parts_addJoin hm with hm | hm
    · exact h.parts m hm
    · exact (hderived m hm).1

theorem reads_joined (ht : joinTarget schema nested log d.nextSource = .ok (target, row, rowType))
    {j : Join} (hj : j.target = target) : row.Reads (d.addJoin j).layer.Sees none := by
  rcases joinTarget_cases ht with ⟨ty, rfl, rfl⟩ | ⟨layer, -, rfl, hrow⟩
  · refine .source (Layer.sees_last fun inner hinner => ?_)
    rw [hj] at hinner
    cases hinner
  · refine Layer.reads_derivedRow hrow fun asked hoffers => Layer.sees_last fun inner hinner => ?_
    rw [hj] at hinner
    cases hinner
    exact hoffers

theorem sound_joined (hnested : ∀ log l, log.isSurface = true → nested log = .ok l → l.Sound schema)
    {source : Nat} (hlog : log.isSurface)
    (ht : joinTarget schema nested log source = .ok (target, row, rowType)) :
    ∀ inner, target.layer? = some inner → inner.Sound schema ∧
      ∃ row, inner.derivedRow schema source = .ok (row, rowType) := by
  intro inner hinner
  rcases joinTarget_cases ht with ⟨ty, rfl, -⟩ | ⟨layer, hlayer, rfl, hrow⟩
  · cases hinner
  · cases hinner
    exact ⟨hnested log _ hlog hlayer, row, hrow⟩

/-- **Joining a collection that is seen leaves a scoped draft**, with an element that is seen. -/
theorem Flattened.scoped {collection element : Expr} {unmatched : Unmatched}
    (h : Flattened schema nested d unmatched collection d' element) (hd : d.Scoped schema)
    (hnested : ∀ log l, log.isSurface = true → nested log = .ok l → l.Sound schema)
    (hcollection : collection.Reads d.layer.Sees none) :
    d'.Scoped schema ∧ element.Reads d'.layer.Sees none := by
  have hrow {j : Join} : d.row.Reads (d.addJoin j).layer.Sees none :=
    hd.row.mono fun _ _ hsees => hsees.append
  cases h with
  | @group index element j hj =>
    have helement := (Expr.reads_iff rfl).1 hcollection element (by simp)
    refine ⟨⟨hd.grounded.retagged hj, ?_, ?_, ?_, ?_⟩, ?_⟩
    · exact hd.row.mono fun _ _ hsees => hsees.retagged hj
    · exact fun e he => (hd.filters e he).mono fun _ _ hsees => hsees.retagged hj
    · exact fun e he => (hd.havings e he).mono fun _ _ hsees => hsees.retagged hj
    · exact fun m hm => hd.parts m (mem_parts_retagged hj hm)
    · exact helement.mono fun _ _ hsees => hsees.retagged hj
  | @cross log target row rowType ht =>
    have hlog : log.isSurface = true := by
      cases hcollection with
      | query h => exact h
      | composed he => cases he
    exact ⟨hd.addJoin rfl (sound_joined hnested hlog ht) (by simp) hrow, reads_joined ht rfl⟩
  | @navigation owner name target ty entity nav fk hshape howner hentity hnav hfk _ =>
    have hread : owner.Reads d.layer.Sees (some name) := by
      cases hcollection with
      | member h => exact h
      | composed he => cases he
    have hsource (j : Join) (hj : j.target = .table target) {asked : Option String} :
        (d.addJoin j).layer.Sees d.nextSource asked := by
      refine Layer.sees_last fun inner hinner => ?_
      rw [hj] at hinner
      cases hinner
    refine ⟨hd.addJoin rfl (fun inner hinner => by cases hinner) ?_ hrow, .source (hsource _ rfl)⟩
    intro e he
    simp only [List.mem_append, List.mem_map] at he
    rcases he with ⟨key, -, rfl⟩ | ⟨key, -, rfl⟩
    · -- the owner is an entity, so that its keys may be asked for as the navigation was
      exact .member ((hd.grounded.reads_entity howner hread).mono fun _ _ hsees => hsees.append)
    · exact .member (.source (hsource _ rfl))

/-- A lambda that a caller writes, bound to the current row, reads what is seen. -/
theorem Scoped.bindRow (h : d.Scoped schema) {l : Lambda} (hl : l.body.isSurface)
    (he : d.bindRow l = .ok e) : e.Reads d.layer.Sees none :=
  Lambda.reads_bind Layer.Sees.ask hl (by simpa using h.row) he

theorem Scoped.restrict (h : d.Scoped schema) {test : Expr} (ht : test.Reads d.layer.Sees none) :
    (d.restrict test).Scoped schema := by
  have hadd {es : List Expr} (hes : ∀ e ∈ es, e.Reads d.layer.Sees none) :
      ∀ e ∈ es ++ [test], e.Reads d.layer.Sees none := by
    intro e he
    rcases List.mem_append.1 he with he | he
    · exact hes e he
    · rwa [List.mem_singleton.1 he]
  unfold Draft.restrict
  split
  · exact { h with havings := hadd h.havings }
  · exact { h with filters := hadd h.filters }

theorem Scoped.restrictBy (h : d.Scoped schema) (hop : Expr.isSurfaceOperands op.operands)
    (hr : d.restrictBy op = .ok d') : d'.Scoped schema := by
  rcases restrictBy_eq_ok hr with ⟨-, rfl⟩ | ⟨l, test, hl, hb, rfl⟩
  · exact h
  · exact h.restrict (h.bindRow (Operator.isSurface_lambda? hop hl) hb)

theorem lambda?_of_lambda {i : Nat} {l : Lambda} (h : op.lambda i = .ok l) :
    op.lambda? i = some l := by
  unfold Operator.lambda at h
  split at h
  · rename_i hl
    cases h
    exact hl
  · cases h

theorem reads_orderKeys (descending : Bool) {key : Expr} (h : key.Reads sees none) :
    ∀ o ∈ orderKeys descending key, o.expr.Reads sees none := by
  unfold orderKeys
  split
  · rename_i ty bindings
    intro o ho
    obtain ⟨b, hb, rfl⟩ := List.mem_map.1 ho
    exact (Expr.reads_iff rfl).1 h b.value (List.mem_map_of_mem hb)
  · simpa using h

/-- **An operator with the expressions of a caller leaves a scoped draft.** -/
theorem Applied.scoped (h : Applied schema nested d op d') (hd : d.Scoped schema)
    (hop : Expr.isSurfaceOperands op.operands)
    (hnested : ∀ log l, log.isSurface = true → nested log = .ok l → l.Sound schema) :
    d'.Scoped schema := by
  have hsurface {i : Nat} {l : Lambda} (hl : op.lambda i = .ok l) : l.body.isSurface = true :=
    Operator.isSurface_lambda? hop (lambda?_of_lambda hl)
  have hsurface? {i : Nat} {l : Lambda} (hl : op.lambda? i = some l) : l.body.isSurface = true :=
    Operator.isSurface_lambda? hop hl
  cases h with
  | filter _ hl hb => exact hd.restrict (hd.bindRow (hsurface hl) hb)
  | select _ hl hb => exact { hd with row := hd.bindRow (hsurface hl) hb }
  | @selectMany l collection element row d₁ _ hl hb hf hrow =>
    have hcollection := Unmatched.reads_strip (hd.bindRow (hsurface hl) hb)
    obtain ⟨hd₁, helement⟩ := hf.scoped hd hnested hcollection
    refine { hd₁ with row := ?_ }
    rcases hrow with ⟨r, hr, hbind⟩ | ⟨-, rfl⟩
    · have hrow : d.row.Reads d₁.layer.Sees none := by
        obtain ⟨joins, rfl⟩ := hf.frame
        exact hd₁.row
      exact Lambda.reads_bind Layer.Sees.ask (hsurface? hr) (by simpa using ⟨hrow, helement⟩) hbind
    · exact helement
  | @join log target joined outer inner row rowType lo li lr outerKeys innerKeys _ hq ht hlo ho hli
      hi hkeys hlr hrow =>
    have hlog := Operator.isSurface_query? hop hq
    have hcurrent (j : Join) : d.row.Reads (d.addJoin j).layer.Sees none :=
      hd.row.mono fun _ _ hsees => hsees.append
    have hsecond (j : Join) (hj : j.target = target) : (if op.kind == .join then joined
        else .joinGroup d.layer.joins.length joined).Reads (d.addJoin j).layer.Sees none := by
      have hjoined := reads_joined ht hj
      split
      · exact hjoined
      · exact .composed rfl (by simpa using hjoined)
    refine hd.addJoin rfl (sound_joined hnested hlog ht) ?_ ?_
    · refine Join.reads_keys hkeys ?_ ?_
      · exact Lambda.reads_bind Layer.Sees.ask (hsurface hlo) (by simpa using hcurrent _) ho
      · exact Lambda.reads_bind Layer.Sees.ask (hsurface hli)
          (by simpa using reads_joined ht rfl) hi
    · refine Lambda.reads_bind Layer.Sees.ask (hsurface hlr) ?_ hrow
      exact List.forall_mem_cons.2 ⟨hcurrent _, List.forall_mem_singleton.2 (hsecond _ rfl)⟩
  | @group l key element _ hl hb he =>
    have hkey := hd.bindRow (hsurface hl) hb
    have helement : element.Reads d.layer.Sees none := by
      rcases he with ⟨l', hl', hb'⟩ | ⟨-, rfl⟩
      · exact hd.bindRow (hsurface? hl') hb'
      · exact hd.row
    refine { hd with
      grounded := { hd.grounded with groupBy := fun e he => ?_ }
      row := .composed rfl (by simpa using ⟨hkey, helement⟩) }
    cases he
    exact hkey
  | @order l key descending _ hl hb =>
    have hkeys := reads_orderKeys descending (hd.bindRow (hsurface hl) hb)
    exact { hd with grounded := { hd.grounded with orders := hkeys } }
  | @refineOrder l key descending _ _ hl hb =>
    have hkeys := reads_orderKeys descending (hd.bindRow (hsurface hl) hb)
    refine { hd with grounded := { hd.grounded with orders := fun o ho => ?_ } }
    rcases List.mem_append.1 ho with ho | ho
    · exact hd.grounded.orders o ho
    · exact hkeys o ho
  | @skip n orders _ _ ho =>
    refine { hd with grounded := { hd.grounded with orders := fun o hmem => ?_ } }
    dsimp only at hmem
    rw [ho] at hmem
    split at hmem
    · cases hinherited : d.layer.inheritedOrders schema with
      | none => simp [hinherited] at hmem
      | some inherited =>
        rw [hinherited] at hmem
        exact Layer.reads_inheritedOrders hinherited o hmem
    · exact hd.grounded.orders o hmem
  | take | distinct | asSubquery | includePath | modify =>
    exact { hd with grounded := { hd.grounded with } }
  | any _ hr | first _ hr =>
    have hd₁ := hd.restrictBy hop hr
    exact { hd₁ with grounded := { hd₁.grounded with } }
  | @aggregate func d₁ selector _ hs =>
    have hd₁ : d₁.Scoped schema ∧ ∀ e ∈ selector, e.Reads d₁.layer.Sees none := by
      rcases hs with ⟨-, hr, rfl⟩ | ⟨-, rfl, ⟨l, e, hl, hb, rfl⟩ | ⟨-, -, rfl⟩⟩
      · exact ⟨hd.restrictBy hop hr, by simp⟩
      · exact ⟨hd, by simpa using hd.bindRow (hsurface? hl) hb⟩
      · exact ⟨hd, by simpa using hd.row⟩
    refine { hd₁.1 with grounded := { hd₁.1.grounded with aggregate := fun a ha => ?_ } }
    cases ha
    exact hd₁.2
  | @union log branch _ hq hb =>
    have hbranch := (hnested log branch (Operator.isSurface_query? hop hq) hb).unordered
    rw [union_eq]
    refine { hd with
      grounded := { hd.grounded with orders := fun o ho => hd.grounded.orders o ?_ }
      parts := fun m hm => ?_ }
    · simp only [Layer.unordered] at ho
      split at ho
      · exact ho
      · cases ho
    · simp only [Layer.mem_parts, List.mem_append, List.mem_singleton] at hm
      rcases hm with hm | hm | hm | rfl
      · exact hd.parts m (Layer.mem_parts.2 (.inl hm))
      · exact hd.parts m (Layer.mem_parts.2 (.inr (.inl hm)))
      · exact hd.parts m (Layer.mem_parts.2 (.inr (.inr hm)))
      · exact hbranch

/-- **A step leaves a scoped draft.** -/
theorem Scoped.step (h : d.Scoped schema) (hregular : d.Regular)
    (hop : Expr.isSurfaceOperands op.operands)
    (hnested : ∀ log l, log.isSurface = true → nested log = .ok l → l.Sound schema)
    (hstep : d.step schema nested op = .ok d') : d'.Scoped schema := by
  obtain ⟨ht, d₁, d₂, hd₁, happlied, rfl⟩ := step_eq_ok hstep
  have h₁ : d₁.Scoped schema := by
    rcases hd₁ with ⟨-, hwrap⟩ | ⟨-, rfl⟩
    · exact h.wrap hregular ht hwrap
    · exact h
  exact { happlied.scoped h₁ hop hnested with }

end Draft

/-- **The layers of a log keep to the sources they see**, if its expressions are those a caller
writes. -/
theorem Plan.sound_ofLogAt {depth : Nat} {p : Plan} {l : Layer}
    (h : ofLogAt schema depth log = .ok p) (hlog : log.isSurface) (hl : p.scope? = some l) :
    l.Sound schema := by
  refine ofLogAt_drafts (fun log => log.isSurface = true) (Draft.Scoped schema)
    Draft.scoped_ofSource ?_ ?_ h hlog hl
  · intro nested log hlog hnested op hop d d' hregular hd hstep
    exact hd.step hregular (Log.isSurface_of_mem hlog hop) hnested hstep
  · rintro d l - hd (rfl | hsplit)
    · exact hd.sound_finished
    · exact hd.sound_finished.separateCollections hsplit

end QueryCompiler

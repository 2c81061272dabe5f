import QueryCompiler.Proofs.Plan.Scoped
/-!
# The expressions of a draft

Whatever a draft holds, it has made by binding the lambdas of its operators to its row. So what its
expressions mention is found in those lambdas already, but for a few marks that the draft puts there
itself: the number of the root, the number of a join that is added and the group it makes
(`Draft.Adds`). `Applied.mentions` says this of one operator, and what all drafts of a log mention
follows from it. The expressions are reduced throughout (`Applied.reduced`).
-/

namespace QueryCompiler

variable {schema : Schema} {nested : Log → Compiled Layer} {m : Expr.Mark} {id : Nat} {row : Expr}

def Operator.Mentions (op : Operator) (m : Expr.Mark) : Prop :=
  ∃ i l, op.lambda? i = some l ∧ l.body.Mentions m

/-- The construction that an update writes. -/
def Modification.construction? : Modification → Option Expr
  | update (.assignments construction) => some construction
  | _ => none

/-! ## Rows -/

theorem Expr.mentions_source : (Expr.source id).Mentions m ↔ m = .source id := by
  rw [Expr.mentions_iff]
  simp [Expr.mark?, eq_comm]

theorem Expr.mentions_member {target : Expr} {name : String} :
    (Expr.member target name).Mentions m ↔ target.Mentions m := by
  rw [Expr.mentions_iff]
  simp [Expr.mark?]

/-- The row of a finished layer mentions the number it is read under, and nothing else. -/
theorem Layer.mentions_derivedRow {l : Layer} {ty : Option String}
    (h : l.derivedRow schema id = .ok (row, ty)) (hm : row.Mentions m) : m = .source id := by
  rcases derivedRow_cases h with ⟨_, -, rfl, -⟩ | ⟨name, bindings, -, -, rfl, -⟩ | ⟨-, -, rfl, -⟩
  · exact Expr.mentions_source.1 hm
  · rcases Expr.mentions_iff.1 hm with hm | ⟨p, hp, hm⟩
    · cases hm
    · simp only [Expr.parts, List.map_map, List.mem_map, Function.comp_apply] at hp
      obtain ⟨b, -, rfl⟩ := hp
      exact Expr.mentions_source.1 (Expr.mentions_member.1 hm)
  · exact Expr.mentions_source.1 (Expr.mentions_member.1 hm)

theorem Expr.reduced_member_source (id : Nat) (name : String) :
    (Expr.member (.source id) name).Reduced :=
  reduced_of_parts rfl fun _ p hp => by
    obtain rfl := List.mem_singleton.1 hp
    exact reduced_source id

theorem Layer.reduced_derivedRow {l : Layer} {ty : Option String}
    (h : l.derivedRow schema id = .ok (row, ty)) : row.Reduced := by
  rcases derivedRow_cases h with ⟨_, -, rfl, -⟩ | ⟨name, bindings, -, -, rfl, -⟩ | ⟨-, -, rfl, -⟩
  · exact Expr.reduced_source id
  · refine Expr.reduced_of_parts rfl fun _ p hp => ?_
    simp only [Expr.parts, List.map_map, List.mem_map, Function.comp_apply] at hp
    obtain ⟨b, -, rfl⟩ := hp
    exact Expr.reduced_member_source id b.member
  · exact Expr.reduced_member_source id _

/-- A mark that a layer with so many joins puts into its expressions by itself. -/
def Expr.Mark.InScope (joins : Nat) : Expr.Mark → Prop
  | source id => id ≤ joins
  | joinGroup index => index < joins
  | grouping => True
  | _ => False

namespace Draft

variable {d d' : Draft} {op : Operator} {joins : Nat} {log : Log} {target : JoinTarget}
  {rowType : Option String} {l : Lambda} {e element : Expr}

theorem mentions_joined {source : Nat}
    (h : joinTarget schema nested log source = .ok (target, row, rowType)) (hm : row.Mentions m) :
    m = .source source := by
  rcases joinTarget_cases h with ⟨ty, -, rfl⟩ | ⟨layer, -, -, hrow⟩
  · exact Expr.mentions_source.1 hm
  · exact Layer.mentions_derivedRow hrow hm

theorem reduced_joined {source : Nat}
    (h : joinTarget schema nested log source = .ok (target, row, rowType)) : row.Reduced := by
  rcases joinTarget_cases h with ⟨ty, -, rfl⟩ | ⟨layer, -, -, hrow⟩
  · exact Expr.reduced_source source
  · exact Layer.reduced_derivedRow hrow

theorem mentions_bindRow (h : d.bindRow l = .ok e) (hm : e.Mentions m) :
    l.body.Mentions m ∨ d.row.Mentions m := by
  rcases Lambda.mentions_bind h hm with hm | ⟨a, ha, hm⟩
  · exact .inl hm
  · obtain rfl := List.mem_singleton.1 ha
    exact .inr hm

/-! ## One operator -/

/-- The expressions that a draft holds, but for the keys of its joins. -/
def exprs (d : Draft) : List Expr :=
  d.row :: (d.filters ++ d.havings ++ d.layer.groupBy.toList ++ d.layer.orders.map (·.expr) ++
    (d.layer.aggregate.bind (·.selector)).toList ++
    (d.modification.bind Modification.construction?).toList)

/-- The marks that an operator puts into a draft by itself: the number of the root, and that rows
are grouped; if it leaves one join more, the number of this join and the group it makes. -/
inductive Adds (d : Draft) (joins : Nat) : Expr.Mark → Prop where
  | root : Adds d joins (.source 0)
  | joined (h : joins = d.nextSource) : Adds d joins (.source d.nextSource)
  | group (h : joins = d.nextSource) : Adds d joins (.joinGroup d.layer.joins.length)
  | grouping : Adds d joins .grouping

theorem mem_exprs : e ∈ d.exprs ↔ e = d.row ∨ e ∈ d.filters ∨ e ∈ d.havings ∨
    e ∈ d.layer.groupBy ∨ (∃ o ∈ d.layer.orders, o.expr = e) ∨
    (∃ a ∈ d.layer.aggregate, e ∈ a.selector) ∨
    ∃ m ∈ d.modification, e ∈ m.construction? := by
  simp only [exprs, List.mem_cons, List.mem_append, Option.mem_toList, List.mem_map,
    Option.mem_def, Option.bind_eq_some_iff, or_assoc]

/-- An expression that an operator can make of a draft, leaving so many joins: it mentions what the
draft or the operator mentions, or a mark that is added, and is reduced if those of the draft
are. -/
structure Made (d : Draft) (op : Operator) (joins : Nat) (e : Expr) : Prop where
  mentions : ∀ m, e.Mentions m →
    (∃ e₀ ∈ d.exprs, e₀.Mentions m) ∨ op.Mentions m ∨ Adds d joins m
  reduced : (∀ e₀ ∈ d.exprs, e₀.Reduced) → e.Reduced

theorem made_of_mem (he : e ∈ d.exprs) : Made d op joins e where
  mentions _ hm := .inl ⟨e, he, hm⟩
  reduced h := h e he

theorem row_mem_exprs : d.row ∈ d.exprs := mem_exprs.2 (.inl rfl)

theorem Made.part {p : Expr} (h : Made d op joins e) (he : e.isLambda = false) (hp : p ∈ e.parts) :
    Made d op joins p where
  mentions m hm := h.mentions m (hm.part hp)
  reduced hd := (h.reduced hd).part he hp

theorem made_bind {i : Nat} {args : List Expr} (hl : op.lambda? i = some l)
    (hargs : ∀ a ∈ args, Made d op joins a) (h : l.bind args = .ok e) : Made d op joins e where
  mentions m hm := by
    rcases Lambda.mentions_bind h hm with hm | ⟨a, ha, hm⟩
    · exact .inr (.inl ⟨i, l, hl, hm⟩)
    · exact (hargs a ha).mentions m hm
  reduced _ := Lambda.reduced_bind h

theorem made_bindRow {i : Nat} (hl : op.lambda? i = some l) (h : d.bindRow l = .ok e) :
    Made d op joins e :=
  made_bind hl (by simpa using made_of_mem row_mem_exprs) h

theorem made_orderKeys (h : Made d op joins e) (descending : Bool) :
    ∀ o ∈ orderKeys descending e, Made d op joins o.expr := by
  unfold orderKeys
  split
  · rename_i ty bindings
    intro o ho
    obtain ⟨b, hb, rfl⟩ := List.mem_map.1 ho
    exact h.part rfl (List.mem_map_of_mem hb)
  · simpa using h

theorem made_joined (ht : joinTarget schema nested log d.nextSource = .ok (target, row, rowType))
    (hlength : joins = d.nextSource) : Made d op joins row where
  mentions m hm := by
    rw [mentions_joined ht hm]
    exact .inr (.inr (.joined hlength))
  reduced _ := reduced_joined ht

theorem made_joinGroup (hlength : joins = d.nextSource) (h : Made d op joins element) :
    Made d op joins (.joinGroup d.layer.joins.length element) where
  mentions m hm := by
    rcases Expr.mentions_iff.1 hm with hmark | ⟨p, hp, hpart⟩
    · cases hmark
      exact .inr (.inr (.group hlength))
    · obtain rfl := List.mem_singleton.1 hp
      exact h.mentions m hpart
  reduced hd := Expr.reduced_of_parts rfl (by simpa using fun _ => h.reduced hd)

theorem made_grouping {key : Expr} (hkey : Made d op joins key)
    (helement : Made d op joins element) :
    Made d op joins (.grouping key element) where
  mentions m hm := by
    rcases Expr.mentions_iff.1 hm with hmark | ⟨p, hp, hpart⟩
    · cases hmark
      exact .inr (.inr .grouping)
    · simp only [Expr.parts, List.mem_cons, List.not_mem_nil, or_false] at hp
      rcases hp with rfl | rfl
      · exact hkey.mentions m hpart
      · exact helement.mentions m hpart
  reduced hd := Expr.reduced_of_parts rfl
    (by simpa using fun _ => ⟨hkey.reduced hd, helement.reduced hd⟩)

theorem mem_exprs_restrict {test : Expr} (h : e ∈ (d.restrict test).exprs) :
    e ∈ d.exprs ∨ e = test := by
  unfold restrict at h
  rw [mem_exprs] at h ⊢
  split at h <;> simp only [List.mem_append, List.mem_singleton] at h <;> grind

theorem mem_exprs_reordered (orders : List Order)
    (h : e ∈ exprs { d with layer := { d.layer with orders } }) :
    e ∈ d.exprs ∨ ∃ o ∈ orders, o.expr = e := by
  rw [mem_exprs] at h ⊢
  grind

theorem order_mem_exprs {o : Order} (h : o ∈ d.layer.orders) : o.expr ∈ d.exprs :=
  mem_exprs.2 (.inr (.inr (.inr (.inr (.inl ⟨o, h, rfl⟩)))))

theorem mem_exprs_aggregated (func : AggregateFunc) (selector : Option Expr)
    (h : e ∈ exprs { d with layer := { d.layer with aggregate := some ⟨func, selector⟩ } }) :
    e ∈ d.exprs ∨ e ∈ selector := by
  rw [mem_exprs] at h ⊢
  grind

theorem mem_exprs_modified (m : Modification) (h : e ∈ exprs { d with modification := some m }) :
    e ∈ d.exprs ∨ e ∈ m.construction? := by
  rw [mem_exprs] at h ⊢
  grind

theorem made_restrictBy {d₁ : Draft} (hr : d.restrictBy op = .ok d₁) (he : e ∈ d₁.exprs) :
    Made d op joins e := by
  rcases restrictBy_eq_ok hr with ⟨-, rfl⟩ | ⟨l, test, hl, hb, rfl⟩
  · exact made_of_mem he
  · rcases mem_exprs_restrict he with he | rfl
    · exact made_of_mem he
    · exact made_bindRow hl hb

theorem Flattened.made {collection : Expr} {unmatched : Unmatched}
    (h : Flattened schema nested d unmatched collection d' element)
    (hcollection : Made d op d'.layer.joins.length collection) :
    Made d op d'.layer.joins.length element := by
  cases h with
  | group => exact hcollection.part rfl (by simp)
  | cross ht => exact made_joined ht (by simp [addJoin, nextSource])
  | navigation =>
    refine ⟨fun m hm => ?_, fun _ => Expr.reduced_source _⟩
    rw [Expr.mentions_source.1 hm]
    exact .inr (.inr (.joined (by simp [addJoin, nextSource])))

theorem made_strip (h : Made d op joins e) : Made d op joins (Unmatched.strip e).1 := by
  unfold Unmatched.strip
  split
  · exact h.part rfl (by simp)
  · exact h.part rfl (by simp)
  · exact h

theorem made_modificationOf {source : String} {m : Modification}
    (h : d.modificationOf schema op source = .ok m) (he : e ∈ m.construction?) :
    Made d op joins e := by
  simp only [modificationOf] at h
  split at h
  case h_5 l hk hhead =>
    split at h
    · cases h
    · rename_i hroot
      obtain ⟨construction, hb, h⟩ := Compiled.bind_eq_ok.1 h
      split at h
      · cases h
      · cases h
        cases he
        have hrow : d.row = .source 0 := Expr.eq_source_of_isRoot (by simpa using hroot)
        have hl : op.lambda? 0 = some l := by
          simp only [Operator.lambda?, ← List.head?_eq_getElem?, hhead]
        exact made_bindRow (d := d) hl (by rw [bindRow, hrow]; exact hb)
  case h_1 | h_2 | h_4 | h_6 =>
    obtain ⟨_, -, h⟩ := Compiled.bind_eq_ok.1 h
    cases h
    cases he
  case h_3 =>
    obtain ⟨_, -, h⟩ := Compiled.bind_eq_ok.1 h
    split at h
    · cases h
    · cases h
      cases he
  case h_7 =>
    cases h
    cases he
  case h_8 => cases h

theorem made_inherited {orders : List Order} {o : Order}
    (h : d.layer.inheritedOrders schema = some orders) (ho : o ∈ orders) :
    Made d op joins o.expr := by
  obtain ⟨inner, o₀, -, -, hexported⟩ := Layer.mem_inheritedOrders h ho
  obtain ⟨name, hname, -⟩ := Layer.exported?_cases hexported
  rw [hname]
  refine ⟨fun m hm => ?_, fun _ => Expr.reduced_member_source 0 name⟩
  rw [Expr.mentions_source.1 (Expr.mentions_member.1 hm)]
  exact .inr (.inr .root)

/-- **The expressions of a draft are made by the operator that leaves it.** -/
theorem Applied.made (h : Applied schema nested d op d') :
    ∀ e ∈ d'.exprs, Made d op d'.layer.joins.length e := by
  have hlambda {i : Nat} {l : Lambda} (hl : op.lambda i = .ok l) : op.lambda? i = some l :=
    lambda?_of_lambda hl
  intro e he
  -- an expression that is not new stands in the draft before
  have hold {joins : Nat} (he : e ∈ d.exprs) : Made d op joins e := made_of_mem he
  rw [mem_exprs] at hold
  cases h with
  | filter _ hl hb =>
    rcases mem_exprs_restrict he with he | rfl
    · exact made_of_mem he
    · exact made_bindRow (hlambda hl) hb
  | select _ hl hb =>
    rcases mem_exprs.1 he with rfl | he
    · exact made_bindRow (hlambda hl) hb
    · exact hold (.inr he)
  | @selectMany l collection element row d₁ _ hl hb hf hrow =>
    have helement := hf.made (made_strip (made_bindRow (hlambda hl) hb))
    rcases mem_exprs.1 he with rfl | he
    · rcases hrow with ⟨r, hr, hbind⟩ | ⟨-, rfl⟩
      · refine made_bind hr ?_ hbind
        simpa using ⟨made_of_mem row_mem_exprs, helement⟩
      · exact helement
    · obtain ⟨joins, rfl⟩ := hf.frame
      exact hold (.inr he)
  | @join log target joined outer inner row rowType lo li lr outerKeys innerKeys _ hq ht hlo ho hli
      hi hkeys hlr hrow =>
    rcases mem_exprs.1 he with rfl | he
    · suffices hmade : ∀ joins, joins = d.nextSource → Made d op joins e from
        hmade _ (by simp [addJoin, nextSource])
      intro joins hlength
      have hjoined : Made d op joins joined := made_joined ht hlength
      refine made_bind (hlambda hlr) ?_ hrow
      refine List.forall_mem_cons.2 ⟨made_of_mem row_mem_exprs, List.forall_mem_singleton.2 ?_⟩
      split
      · exact hjoined
      · exact made_joinGroup hlength hjoined
    · exact hold (.inr he)
  | @group l key element _ hl hb helement =>
    have hkey {joins : Nat} : Made d op joins key := made_bindRow (hlambda hl) hb
    have helement {joins : Nat} : Made d op joins element := by
      rcases helement with ⟨l', hl', hb'⟩ | ⟨-, rfl⟩
      · exact made_bindRow hl' hb'
      · exact made_of_mem row_mem_exprs
    rcases mem_exprs.1 he with rfl | he | he | he | he
    · exact made_grouping hkey helement
    · exact hold (.inr (.inl he))
    · exact hold (.inr (.inr (.inl he)))
    · cases he
      exact hkey
    · exact hold (.inr (.inr (.inr (.inr he))))
  | @order l key descending _ hl hb =>
    rcases mem_exprs_reordered _ he with he | ⟨o, ho, rfl⟩
    · exact made_of_mem he
    · exact made_orderKeys (made_bindRow (hlambda hl) hb) descending o ho
  | @refineOrder l key descending _ _ hl hb =>
    rcases mem_exprs_reordered _ he with he | ⟨o, ho, rfl⟩
    · exact made_of_mem he
    · rcases List.mem_append.1 ho with ho | ho
      · exact made_of_mem (order_mem_exprs ho)
      · exact made_orderKeys (made_bindRow (hlambda hl) hb) descending o ho
  | @skip n orders _ _ horders =>
    rcases mem_exprs_reordered orders he with he | ⟨o, ho, rfl⟩
    · exact made_of_mem he
    rw [horders] at ho
    split at ho
    · cases hinherited : d.layer.inheritedOrders schema with
      | none => simp [hinherited] at ho
      | some inherited =>
        rw [hinherited] at ho
        exact made_inherited hinherited ho
    · exact made_of_mem (order_mem_exprs ho)
  | take | distinct | asSubquery | includePath => exact made_of_mem he
  | any _ hr | first _ hr => exact made_restrictBy hr he
  | @aggregate func d₁ selector _ hs =>
    rcases mem_exprs_aggregated (d := d₁) func selector he with he | he
    · rcases hs with ⟨-, hr, -⟩ | ⟨-, rfl, -⟩
      · exact made_restrictBy hr he
      · exact made_of_mem he
    · rcases hs with ⟨-, -, rfl⟩ | ⟨-, rfl, ⟨l, e', hl, hb, rfl⟩ | ⟨-, -, rfl⟩⟩
      · cases he
      · cases he
        exact made_bindRow hl hb
      · cases he
        exact made_of_mem row_mem_exprs
  | @union log branch _ hq hb =>
    rw [union_eq] at he
    rcases mem_exprs_reordered d.layer.unordered.orders he with he | ⟨o, ho, rfl⟩
    · exact made_of_mem he
    · simp only [Layer.unordered] at ho
      split at ho
      · exact made_of_mem (order_mem_exprs ho)
      · cases ho
  | modify hk hsource hderived hm =>
    rcases mem_exprs_modified (d := d) _ he with he | he
    · exact made_of_mem he
    · exact made_modificationOf hm he

/-- A draft over the rows of another holds their row and nothing else. -/
theorem exprs_wrap (h : d.wrap schema = .ok d') (he : e ∈ d'.exprs) :
    e.Reduced ∧ ∀ m, e.Mentions m → m = .source 0 := by
  obtain ⟨row, source, hrow, rfl⟩ := wrap_eq_ok h
  obtain rfl : e = row := by simpa [exprs, Layer.ofLayer, Layer.empty] using he
  exact ⟨Layer.reduced_derivedRow hrow, fun m hm => Layer.mentions_derivedRow hrow hm⟩

/-- **A step makes the expressions of a draft of those before**, on a draft that has no join if it
starts a layer. -/
theorem made_step (h : d.step schema nested op = .ok d') :
    ∃ d₁ : Draft, (d₁ = d ∨ d₁.layer.joins = [] ∧
        ∀ e ∈ d₁.exprs, e.Reduced ∧ ∀ m, e.Mentions m → m = .source 0) ∧
      Rejoins d₁.layer.joins d'.layer.joins ∧
      ∀ e ∈ d'.exprs, Made d₁ op d'.layer.joins.length e := by
  obtain ⟨-, d₁, d₂, hd₁, happlied, rfl⟩ := step_eq_ok h
  refine ⟨d₁, ?_, happlied.rejoins, happlied.made⟩
  rcases hd₁ with ⟨-, hwrap⟩ | ⟨-, rfl⟩
  · refine .inr ⟨?_, fun e he => exprs_wrap hwrap he⟩
    obtain ⟨row, source, -, rfl⟩ := wrap_eq_ok hwrap
    rfl
  · exact .inl rfl

/-- **The expressions of a draft are reduced.** -/
theorem reduced_step (h : d.step schema nested op = .ok d') (hd : ∀ e ∈ d.exprs, e.Reduced) :
    ∀ e ∈ d'.exprs, e.Reduced := by
  obtain ⟨d₁, hd₁, -, hmade⟩ := made_step h
  intro e he
  refine (hmade e he).reduced fun e₀ he₀ => ?_
  rcases hd₁ with rfl | ⟨-, hd₁⟩
  · exact hd e₀ he₀
  · exact (hd₁ e₀ he₀).1

/-- The marks of a draft are in scope or `given`. -/
def Marked (given : Expr.Mark → Prop) (d : Draft) : Prop :=
  ∀ e ∈ d.exprs, ∀ m, e.Mentions m → given m ∨ m.InScope d.layer.joins.length

theorem Rejoins.length_le {joins joins' : List Join} (h : Rejoins joins joins') :
    joins.length ≤ joins'.length := by
  cases h with
  | kept => exact Nat.le_refl _
  | added => simp
  | retagged => simp

theorem InScope.mono {n n' : Nat} (h : m.InScope n) (hle : n ≤ n') : m.InScope n' := by
  cases m with
  | source id => exact Nat.le_trans h hle
  | joinGroup index => exact Nat.lt_of_lt_of_le h hle
  | grouping => exact trivial
  | _ => exact h

theorem Adds.inScope (h : Adds d joins m) : m.InScope joins := by
  cases h with
  | root => exact Nat.zero_le _
  | joined h => exact Nat.le_of_eq h.symm
  | group h => rw [h]; exact Nat.lt_succ_self _
  | grouping => exact trivial

theorem Made.marked {given : Expr.Mark → Prop} (h : Made d op joins e) (hd : d.Marked given)
    (hop : ∀ m, op.Mentions m → given m) (hle : d.layer.joins.length ≤ joins) :
    ∀ m, e.Mentions m → given m ∨ m.InScope joins := by
  intro m hm
  rcases h.mentions m hm with ⟨e₀, he₀, hm⟩ | hm | hm
  · exact (hd e₀ he₀ m hm).imp_right fun hscope => InScope.mono hscope hle
  · exact .inl (hop m hm)
  · exact .inr hm.inScope

/-- **A step adds no marks but those of its operator**, and those that are in scope. -/
theorem Marked.step {given : Expr.Mark → Prop} (hd : d.Marked given)
    (hop : ∀ m, op.Mentions m → given m) (h : d.step schema nested op = .ok d') :
    d'.Marked given := by
  obtain ⟨d₁, hd₁, hrejoins, hmade⟩ := made_step h
  have hmarked : d₁.Marked given := by
    rcases hd₁ with rfl | ⟨-, hd₁⟩
    · exact hd
    · intro e he m hm
      rw [(hd₁ e he).2 m hm]
      exact .inr (Nat.zero_le _)
  exact fun e he => (hmade e he).marked hmarked hop hrejoins.length_le

theorem marked_ofSource (given : Expr.Mark → Prop) (ty : String) : (ofSource ty).Marked given := by
  intro e he m hm
  obtain rfl : e = .source 0 := by
    simpa [exprs, ofSource, Layer.ofSource, Layer.empty] using he
  rw [Expr.mentions_source.1 hm]
  exact .inr (Nat.zero_le _)

theorem reduced_ofSource (ty : String) : ∀ e ∈ (ofSource ty).exprs, e.Reduced := by
  intro e he
  obtain rfl : e = .source 0 := by
    simpa [exprs, ofSource, Layer.ofSource, Layer.empty] using he
  exact Expr.reduced_source 0

end Draft

end QueryCompiler

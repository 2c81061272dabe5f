import QueryCompiler.Proofs.Plan.Expressions
import QueryCompiler.Proofs.Refusals
/-!
# Layers in scope

An expression of a layer is in scope if, outside the bodies of lambdas, it has no parameter left and
reads no source and no group of a join that the layer does not have (`Expr.InScope`). A layer is well
scoped (`Layer.WellScoped`) if all its expressions are, its joins have the numbers of their places,
and the keys of a join read on one side what comes before it and on the other side its own rows.

A split restates the expressions of a layer over the columns of its inner half, so that the outer
half reads only its root and the columns stay in scope (`Layer.all_wellScoped_separateCollections`).
-/

namespace QueryCompiler

variable {schema : Schema}

/-! ## Expressions in scope -/

namespace Expr

variable {e p : Expr} {m : Mark} {n n' : Nat}

/-- What a layer with so many joins can show: no parameter, and only its own sources and groups. -/
def Fits (joins : Nat) : Expr → Prop
  | param _ => False
  | source id => id ≤ joins
  | joinGroup index _ => index < joins
  | _ => True

/-- Everything that an expression shows fits a layer with so many joins. -/
def InScope (joins : Nat) (e : Expr) : Prop := ∀ p : Expr, p.Shown e → p.Fits joins

theorem InScope.part (h : e.InScope n) (he : e.isLambda = false) (hp : p ∈ e.parts) :
    p.InScope n :=
  fun q hq => h q (.part (.inr he) hp hq)

theorem inScope_of_parts (he : e.Fits n)
    (hparts : e.isLambda = false → ∀ p ∈ e.parts, p.InScope n) : e.InScope n := by
  intro p hp
  rcases standsIn_iff.1 hp with rfl | ⟨hdeep, q, hq, hp⟩
  · exact he
  · exact hparts (hdeep.resolve_left (by simp)) q hq p hp

theorem Fits.mono (h : e.Fits n) (hle : n ≤ n') : e.Fits n' := by
  cases e with
  | param => exact h
  | source => exact Nat.le_trans h hle
  | joinGroup => exact Nat.lt_of_lt_of_le h hle
  | _ => exact trivial

theorem InScope.mono (h : e.InScope n) (hle : n ≤ n') : e.InScope n' :=
  fun p hp => (h p hp).mono hle

theorem inScope_source {id : Nat} (h : id ≤ n) : (source id).InScope n :=
  inScope_of_parts h fun _ p hp => by cases hp

theorem InScope.member (h : e.InScope n) (name : String) : (e.member name).InScope n :=
  inScope_of_parts trivial fun _ p hp => by
    obtain rfl := List.mem_singleton.1 hp
    exact h

theorem InScope.follow (h : e.InScope n) (path : List String) : (e.follow path).InScope n := by
  induction path generalizing e with
  | nil => exact h
  | cons name path ih => exact ih (h.member name)

theorem inScope_conjoin {es : List Expr} (h : ∀ e ∈ es, e.InScope n) :
    ∀ e ∈ conjoin es, e.InScope n := by
  cases es with
  | nil => exact fun e he => by cases he
  | cons first rest =>
    rintro _ ⟨⟩
    have hfirst := h first List.mem_cons_self
    have hrest := fun e he => h e (List.mem_cons_of_mem first he)
    clear h
    induction rest generalizing first with
    | nil => exact hfirst
    | cons second rest ih =>
      refine ih _ (inScope_of_parts trivial fun _ => ?_) fun e he => hrest e (by simp [he])
      simpa [parts] using ⟨hfirst, hrest second List.mem_cons_self⟩

/-! ## The expressions of a caller -/

def Mark.IsCallers : Mark → Prop
  | query log => log.isSurface = true
  | lambda => True
  | _ => False

theorem isCallers_of_isSurface (h : e.isSurface) (hm : e.Mentions m) : m.IsCallers := by
  induction e using induction_parts with
  | h e ih =>
    rcases mentions_iff.1 hm with hmark | ⟨p, hp, hm⟩
    · cases e with
      | query log =>
        cases hmark
        exact h
      | lambda l =>
        cases hmark
        exact trivial
      | source | grouping | joinGroup => simp [isSurface] at h
      | _ => cases hmark
    · exact ih p hp (isSurface_of_mem_parts h hp) hm

/-- **A reduced expression is in scope**, if its marks are those of a caller or in scope. -/
theorem inScope_of_reduced (h : e.Reduced)
    (hmarks : ∀ m, e.Mentions m → m.IsCallers ∨ m.InScope n) : e.InScope n := by
  intro p hp
  cases p with
  | param name => cases h _ hp
  | source number => exact (hmarks (.source number) ⟨_, hp.within, rfl⟩).resolve_left id
  | joinGroup index element => exact (hmarks (.joinGroup index) ⟨_, hp.within, rfl⟩).resolve_left id
  | _ => exact trivial

end Expr

/-! ## Layers in scope -/

/-- A join at a place of its layer: it has the number of the place, its outer keys read what comes
before it, and its inner keys its own rows. -/
structure Join.InOrder (place : Nat) (j : Join) : Prop where
  source : j.source = place + 1
  outerKeys : ∀ e ∈ j.outerKeys, ∀ id, e.Mentions (.source id) → id ≤ place
  innerKeys : ∀ e ∈ j.innerKeys, ∀ id, e.Mentions (.source id) → id = place + 1

/-- The joins of a layer are in order, and its expressions are in scope. -/
structure Layer.WellScoped (l : Layer) : Prop where
  joins : ∀ i (j : Join), l.joins[i]? = some j → j.InOrder i
  exprs : ∀ e ∈ l.exprs, e.InScope l.joins.length

/-! ## Splits -/

/-- Expressions with `P` may be restated by expressions with `Q`: both hold of paths from the root,
`P` of the parts of an expression, and `Q` of what is put together from parts. -/
structure Expr.Restatable (P Q : Expr → Prop) : Prop where
  part {e p : Expr} (h : P e) (he : e.isLambda = false) (hp : p ∈ e.parts) : P p
  path (path : List String) : P ((source 0).follow path) ∧ Q ((source 0).follow path)
  param {name : String} (h : P (.param name)) : Q (.param name)
  whole {e : Expr} (he : ∀ n, e.Fits n) (hparts : e.isLambda = false → ∀ p ∈ e.parts, Q p) : Q e

theorem Expr.Restatable.inScope (n : Nat) : Restatable (InScope n) (InScope 0) where
  part := InScope.part
  path path := ⟨(inScope_source (Nat.zero_le n)).follow path, (inScope_source le_rfl).follow path⟩
  param h := (h _ .refl).elim
  whole he := inScope_of_parts (he 0)

namespace Boundary

variable {b : Boundary} {e : Expr} {P Q : Expr → Prop}

/-- The values of columns have `P`. -/
def InnerScope (P : Expr → Prop) (columns : List Binding) : Prop := ∀ c ∈ columns, P c.value

theorem InnerScope.append {columns : List Binding} {value : Expr} (h : InnerScope P columns)
    (hvalue : P value) (name : String) : InnerScope P (columns ++ [⟨name, value⟩]) := by
  intro c hc
  rcases List.mem_append.1 hc with hc | hc
  · exact h c hc
  · rw [List.mem_singleton.1 hc]
    exact hvalue

theorem keeps_require {name : String} (he : P e) :
    Keeps (InnerScope P) (b.require name e) fun _ => True := by
  unfold require
  split
  · exact .pure trivial
  · refine .get_bind fun columns hcolumns => ?_
    split
    · split
      · exact .pure trivial
      · exact .throw rfl
    · exact .write (hcolumns.append he name)

variable (S : Expr.Restatable P Q)

include S

theorem keeps_requireMember {name : String} :
    Keeps (InnerScope P) (b.requireMember name) fun _ => True :=
  keeps_require (S.path [name]).1

theorem keeps_requireAll : Keeps (InnerScope P) b.requireAll fun _ => True := by
  unfold requireAll
  split
  · exact .throw rfl
  · exact .lift_bind (fun _ => Schema.spares_entity) fun entity _ => .forM fun _ _ => keeps_requireMember S

theorem keeps_requireKeys {entity : Entity} {ty name : String} {nav : Navigation} :
    Keeps (InnerScope P) (b.requireKeys entity ty name nav) fun _ => True := by
  unfold requireKeys
  split
  · exact .throw rfl
  · refine .forM fun key _ => ?_
    split
    · exact keeps_requireMember S
    · exact .throw rfl

theorem keeps_rebasePath (path : List String) :
    Keeps (InnerScope P) (b.rebasePath path) Q := by
  cases path with
  | nil => exact .bind (keeps_requireAll S) fun _ _ => .pure (S.path []).2
  | cons first rest =>
    have hmember (name : String) : Keeps (InnerScope P)
        (pure ((Expr.member (.source 0) name).follow rest)) Q := .pure (S.path (name :: rest)).2
    simp only [rebasePath]
    split
    · exact .bind (keeps_requireMember S) fun _ _ => hmember _
    · refine .lift_bind (fun _ => Schema.spares_entity) fun entity _ => ?_
      split
      · exact .throw rfl
      · exact .bind (keeps_requireMember S) fun _ _ => hmember _
      · exact .bind (keeps_requireKeys S) fun _ _ => hmember _

theorem keeps_rebaseFrom {shown : Expr} {id : Nat} {path : List String} :
    Keeps (InnerScope P) (b.rebaseFrom shown id path) Q := by
  unfold rebaseFrom
  split
  · exact keeps_rebasePath S path
  · exact .throw rfl

omit S

mutual

/-- **What is restated has `Q`**, and the columns that it takes have `P`. -/
theorem keeps_rebase (S : Expr.Restatable P Q) : ∀ {e : Expr}, P e →
    Keeps (InnerScope P) (b.rebase e) Q
  | .source id, _ => by
    unfold rebase
    exact keeps_rebaseFrom S
  | .member target name, h => by
    unfold rebase
    split
    · exact keeps_rebaseFrom S
    · refine .bind (keeps_rebase S (S.part (p := target) h rfl (by simp))) fun t ht => ?_
      exact .pure (S.whole (fun _ => trivial) fun _ => by simpa using ht)
  | .aggregate _ _, _ | .grouping _ _, _ | .joinGroup _ _, _ => by
    unfold rebase
    exact .throw rfl
  | .binary _ x y, h => by
    unfold rebase
    refine .bind (keeps_rebase S (S.part (p := x) h rfl (by simp))) fun x' hx => ?_
    refine .bind (keeps_rebase S (S.part (p := y) h rfl (by simp))) fun y' hy => ?_
    exact .pure (S.whole (fun _ => trivial) fun _ => by simpa using ⟨hx, hy⟩)
  | .unary _ x, h => by
    unfold rebase
    refine .bind (keeps_rebase S (S.part (p := x) h rfl (by simp))) fun x' hx => ?_
    exact .pure (S.whole (fun _ => trivial) fun _ => by simpa using hx)
  | .call _ target args, h => by
    unfold rebase
    refine .bind (keeps_rebaseOption S fun x hx => S.part h rfl ?_) fun target' htarget => ?_
    · simp [Option.mem_def.1 hx]
    refine .bind (keeps_rebaseList S fun x hx => S.part h rfl ?_) fun args' hargs => ?_
    · simp [hx]
    refine .pure (S.whole (fun _ => trivial) fun _ p hp => ?_)
    rcases List.mem_append.1 hp with hp | hp
    · exact htarget p (by simpa using hp)
    · exact hargs p hp
  | .object _ bindings, h => by
    unfold rebase
    have hbindings : ∀ c ∈ bindings, P c.value :=
      fun c hc => S.part h rfl (List.mem_map_of_mem hc)
    refine .bind (keeps_rebaseBindings S hbindings) fun bs hbs => ?_
    refine .pure (S.whole (fun _ => trivial) fun _ p hp => ?_)
    obtain ⟨c, hc, rfl⟩ := List.mem_map.1 hp
    exact hbs c hc
  | .conditional t x y, h => by
    unfold rebase
    refine .bind (keeps_rebase S (S.part (p := t) h rfl (by simp))) fun t' ht => ?_
    refine .bind (keeps_rebase S (S.part (p := x) h rfl (by simp))) fun x' hx => ?_
    refine .bind (keeps_rebase S (S.part (p := y) h rfl (by simp))) fun y' hy => ?_
    exact .pure (S.whole (fun _ => trivial) fun _ => by simpa using ⟨ht, hx, hy⟩)
  | .param name, h => by
    unfold rebase
    exact .pure (S.param h)
  | .constant _, _ | .query _, _ => by
    unfold rebase
    exact .pure (S.whole (fun _ => trivial) fun _ p hp => by cases hp)
  | .lambda _, _ => by
    unfold rebase
    exact .pure (S.whole (fun _ => trivial) fun h => by cases h)

theorem keeps_rebaseOption (S : Expr.Restatable P Q) : ∀ {o : Option Expr}, (∀ e ∈ o, P e) →
    Keeps (InnerScope P) (b.rebaseOption o) fun o' => ∀ e ∈ o', Q e
  | none, _ => .pure (by simp)
  | some e, h => by
    unfold rebaseOption
    exact .bind (keeps_rebase S (h e rfl)) fun _ he => .pure (by simpa using he)

theorem keeps_rebaseList (S : Expr.Restatable P Q) : ∀ {es : List Expr}, (∀ e ∈ es, P e) →
    Keeps (InnerScope P) (b.rebaseList es) fun es' => ∀ e ∈ es', Q e
  | [], _ => .pure (by simp)
  | e :: es, h => by
    unfold rebaseList
    refine .bind (keeps_rebase S (h e (by simp))) fun _ he => ?_
    refine .bind (keeps_rebaseList S fun e he => h e (by simp [he])) fun _ hes => ?_
    exact .pure (List.forall_mem_cons.2 ⟨he, hes⟩)

theorem keeps_rebaseBindings (S : Expr.Restatable P Q) : ∀ {bs : List Binding},
    (∀ c ∈ bs, P c.value) → Keeps (InnerScope P) (b.rebaseBindings bs) fun bs' => ∀ c ∈ bs', Q c.value
  | [], _ => .pure (by simp)
  | ⟨m, v⟩ :: bs, h => by
    unfold rebaseBindings
    refine .bind (keeps_rebase S (h ⟨m, v⟩ (by simp))) fun _ hv => ?_
    refine .bind (keeps_rebaseBindings S fun c hc => h c (by simp [hc])) fun _ hbs => ?_
    exact .pure (List.forall_mem_cons.2 ⟨hv, hbs⟩)

end

include S

theorem keeps_keep {preferred : String} (he : P e) :
    Keeps (InnerScope P) (b.keep preferred e) Q := by
  have hcolumn (name : String) : Q (.member (.source 0) name) := (S.path [name]).2
  unfold keep
  split
  · exact keeps_rebase S he
  · refine .get_bind fun columns hcolumns => ?_
    split
    · exact .pure (hcolumn _)
    · exact .bind (.write (hcolumns.append he _)) fun _ _ => .pure (hcolumn _)

end Boundary

namespace Layer

variable {l q : Layer} {b : Boundary}

section Restated

variable {P Q : Expr → Prop} (S : Expr.Restatable P Q)

include S

theorem keeps_requireNavigationKeys {e : Expr} (h : P e) :
    Keeps (Boundary.InnerScope P) (requireNavigationKeys schema l b e) fun _ => True :=
  requireNavigationKeys_induction (P := P)
    (C := fun x => Keeps (Boundary.InnerScope P) x fun _ => True)
    (fun h _ hc => S.part h rfl (List.mem_map_of_mem hc)) (.pure trivial)
    (fun hx hy => .bind hx fun _ _ => hy) (fun h => .lift_bind (fun _ => spares_shape _) h)
    (fun hv _ _ _ _ => .discard (Boundary.keeps_rebase S hv)) e h

theorem keeps_splitProjection {e : Expr} (h : P e) :
    Keeps (Boundary.InnerScope P) (splitProjection schema l b e) Q := by
  induction e using Expr.induction_object with
  | object ty bs ih =>
    have hparts : ∀ c ∈ bs, P c.value := fun c hc => S.part h rfl (List.mem_map_of_mem hc)
    have hbindings : Keeps (Boundary.InnerScope P) (splitBindings schema l b bs)
        fun bs' => ∀ c ∈ bs', Q c.value := by
      clear h
      induction bs with
      | nil => exact .pure (by simp)
      | cons c bs ihs =>
        obtain ⟨m, v⟩ := c
        obtain ⟨hsplit, hsplits⟩ := List.forall_mem_cons.1 ih
        obtain ⟨hv, hbs⟩ := List.forall_mem_cons.1 hparts
        have hrest (value : Expr) (hvalue : Q value) : Keeps (Boundary.InnerScope P)
            (do return (⟨m, value⟩ :: (← splitBindings schema l b bs) : List Binding))
            fun bs' => ∀ c ∈ bs', Q c.value :=
          .bind (ihs hsplits hbs) fun _ hbs => .pure (List.forall_mem_cons.2 ⟨hvalue, hbs⟩)
        rw [splitBindings]
        refine .lift_bind (fun _ => spares_shape v) fun shape _ => ?_
        cases shape with
        | scalar | row => exact .bind (Boundary.keeps_keep S hv) hrest
        | object => exact .bind (hsplit hv) hrest
        | entity ty | collection ty => exact .bind (Boundary.keeps_rebase S hv) hrest
    rw [splitProjection]
    refine .bind hbindings fun bs' hbs' => .pure (S.whole (fun _ => trivial) fun _ p hp => ?_)
    obtain ⟨c, hc, rfl⟩ := List.mem_map.1 hp
    exact hbs' c hc
  | other e he =>
    rw [splitProjection.eq_2 _ _ _ _ he]
    exact Boundary.keeps_rebase S h

/-- **The outer half of a projection and an ordering has `Q`.** -/
theorem keeps_splitOuter {inner : Layer} (hselect : P l.select)
    (horders : ∀ o ∈ l.orders, P o.expr) :
    Keeps (Boundary.InnerScope P) (splitOuter schema l b inner)
      fun r => Q r.1 ∧ ∀ o ∈ r.2, Q o.expr := by
  have hkeys (select : Expr) (hselect : Q select) : Keeps (Boundary.InnerScope P)
      (do
        let orders ← l.orders.mapM fun o => do
          return (⟨← b.keep o.expr.outputName o.expr, o.descending⟩ : Order)
        return (select, orders))
      fun r => Q r.1 ∧ ∀ o ∈ r.2, Q o.expr := by
    have hkey (o : Order) (ho : o ∈ l.orders) : Keeps (Boundary.InnerScope P)
        (do return (⟨← b.keep o.expr.outputName o.expr, o.descending⟩ : Order))
        fun o' => Q o'.expr :=
      .bind (Boundary.keeps_keep S (horders o ho)) fun _ he => .pure he
    exact .bind (.mapM hkey) fun orders horders => .pure ⟨hselect, horders⟩
  unfold splitOuter
  refine .bind (.forM fun path _ => .discard (Boundary.keeps_rebase S (S.path path).1)) fun _ _ => ?_
  split
  · exact .bind (.pure (S.path []).2) hkeys
  · refine .bind (keeps_requireNavigationKeys S hselect) fun _ _ => ?_
    exact .bind (keeps_splitProjection S hselect) hkeys

end Restated

theorem WellScoped.order (h : l.WellScoped) {o : Order} (ho : o ∈ l.orders) :
    o.expr.InScope l.joins.length :=
  h.exprs _ (mem_exprs.2 (.inr (.inr (.inr (.inr (.inl ⟨o, ho, rfl⟩))))))

theorem WellScoped.restated (h : l.WellScoped) {select : Expr} {orders : List Order}
    {includes : List (List String)} (hselect : select.InScope l.joins.length)
    (horders : ∀ o ∈ orders, o.expr.InScope l.joins.length) :
    WellScoped { l with select, orders, includes } where
  joins := h.joins
  exprs e he := by
    have hclause : e ∈ l.exprs → e.InScope l.joins.length := h.exprs e
    rw [mem_exprs] at he hclause
    rcases he with rfl | he | he | he | ⟨o, ho, rfl⟩ | he | he
    · exact hselect
    · exact hclause (.inr (.inl he))
    · exact hclause (.inr (.inr (.inl he)))
    · exact hclause (.inr (.inr (.inr (.inl he))))
    · exact horders o ho
    · exact hclause (.inr (.inr (.inr (.inr (.inr (.inl he))))))
    · exact hclause (.inr (.inr (.inr (.inr (.inr (.inr he))))))

theorem WellScoped.pagedOrders (h : l.WellScoped) :
    ∀ o ∈ (if l.isPaginated then l.orders else []), o.expr.InScope l.joins.length := by
  intro o ho
  split at ho
  · exact h.order ho
  · cases ho

theorem WellScoped.unordered (h : l.WellScoped) : l.unordered.WellScoped :=
  h.restated (h.exprs _ (mem_exprs.2 (.inl rfl))) h.pagedOrders

theorem wellScoped_of_root {l : Layer} (hjoins : l.joins = []) (hpredicate : l.predicate = none)
    (hhaving : l.having = none) (hgroup : l.groupBy = none) (haggregate : l.aggregate = none)
    (hselect : l.select.InScope 0) (horders : ∀ o ∈ l.orders, o.expr.InScope 0) :
    l.WellScoped where
  joins i j hj := by simp [hjoins] at hj
  exprs e he := by
    rw [mem_exprs] at he
    simp only [hjoins, hpredicate, hhaving, hgroup, haggregate] at he ⊢
    rcases he with rfl | he | he | he | ⟨o, ho, rfl⟩ | ⟨a, ha, -⟩ | ⟨j, hj, -⟩
    · exact hselect
    · cases he
    · cases he
    · cases he
    · exact horders o ho
    · cases ha
    · cases hj

/-- **A split leaves well-scoped halves.** -/
theorem all_wellScoped_separateCollections (h : l.All WellScoped)
    (hq : l.separateCollections schema = .ok q) : q.All WellScoped := by
  refine h.separateCollections hq ?_
  rintro select orders columns hrun _ rfl
  have hselect : l.select.InScope l.joins.length := h.self.exprs _ (mem_exprs.2 (.inl rfl))
  obtain ⟨hcolumns, houter⟩ := (keeps_splitOuter (.inScope _) hselect
    fun o ho => h.self.order ho).yields [] _ _
    (fun c hc => by cases hc) hrun
  refine ⟨h.self.restated ?_ h.self.pagedOrders,
    wellScoped_of_root rfl rfl rfl rfl rfl houter.1 houter.2⟩
  split
  · exact Expr.inScope_source (Nat.zero_le _)
  · refine Expr.inScope_of_parts trivial fun _ p hp => ?_
    obtain ⟨c, hc, rfl⟩ := List.mem_map.1 hp
    exact hcolumns c hc

end Layer

end QueryCompiler

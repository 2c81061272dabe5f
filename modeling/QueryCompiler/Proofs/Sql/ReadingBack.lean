import QueryCompiler.Proofs.Sql.Precedence
/-!
# Expressions that are read back

An expression over numbers is built from the columns of the root rows and from whole numbers, with
arithmetic, comparisons, connectives, negation, conditions and the replacement of null. Tests may
stand where values are wanted, and values where tests are. `NumericExpr.formula` says what such an
expression means, part by part and without a look at parentheses.

`NumericExpr.reads` says, with one rule for each form of an expression, that it is read as a term
that renders this formula. So its text is read back as the formula
(`NumericExpr.readFormula_text`).
-/

namespace QueryCompiler

open Compiled (bind_eq_ok ok_bind)

namespace Sql

variable {name : String}

/-! ## Expressions over numbers -/

/-- An expression over the columns of the root rows and whole numbers from zero on. -/
inductive NumericExpr where
  | column (name : String)
  | constant (n : Int64) (nonneg : 0 ≤ n.toInt)
  /-- an operator of numbers or tests, or the replacement of null -/
  | binary (op : BinaryOp) (hop : op ≠ .concat) (left right : NumericExpr)
  | not (e : NumericExpr)
  | negate (e : NumericExpr)
  | conditional (test ifTrue ifFalse : NumericExpr)

def Context.rootRow (ctx : Context) : Row :=
  { key := sourceKey 0
    number := 0
    ty := ctx.layer.source
    derived := ctx.layer.isDerived
    existence := none }

/-- The column of a member of the root rows. -/
def Context.rootColumn (ctx : Context) (name : String) : ColumnRef :=
  match ctx.column ctx.rootRow name with
  | .ok (ref, _) => ref
  | .error _ => ⟨0, name⟩

def Formula.ofValue (wantTest : Bool) (f : Formula) : Formula :=
  if wantTest then .binary .eq f (.number 1) else f

/-- A test, or where a value is wanted the number that stands for it. -/
def Formula.ofTest (wantTest : Bool) (f : Formula) : Formula :=
  if wantTest then f else .caseWhen f (.number 1) (.number 0)

namespace NumericExpr

/-- The expression of a query. -/
@[simp] def toExpr : NumericExpr → Expr
  | column name => .member (.source 0) name
  | constant n _ => .constant (.int n)
  | binary op _ l r => .binary op l.toExpr r.toExpr
  | not e => .unary .not e.toExpr
  | negate e => .unary .negate e.toExpr
  | conditional t a b => .conditional t.toExpr a.toExpr b.toExpr

/-- Each column is one of the root rows, and does not hold strings. -/
def InScope (ctx : Context) : NumericExpr → Prop
  | column name => ∃ ref dbType, ctx.column ctx.rootRow name = .ok (ref, dbType) ∧
    dbType.any DbType.isString = false
  | constant _ _ => True
  | binary _ _ l r => l.InScope ctx ∧ r.InScope ctx
  | not e | negate e => e.InScope ctx
  | conditional t a b => t.InScope ctx ∧ a.InScope ctx ∧ b.InScope ctx

/-- Whether an expression is a column or a constant. -/
def isLeaf : NumericExpr → Bool
  | column _ | constant _ _ => true
  | _ => false

/-- **What an expression means, part by part**: each operator is an operator of its own, a test where
a value is wanted is the number 1 or 0, and a value where a test is wanted is compared with 1. -/
@[simp] def formula (ctx : Context) (wantTest : Bool) : NumericExpr → Formula
  | column name => .ofValue wantTest (.column (ctx.rootColumn name).row (ctx.rootColumn name).name)
  | constant n _ => .ofValue wantTest (.number n.toInt.toNat)
  | binary op _ l r =>
    if op.isLogical then
      .ofTest wantTest (.binary op (l.formula ctx true) (r.formula ctx true))
    else if op.isComparison then
      .ofTest wantTest (.binary op (l.formula ctx false) (r.formula ctx false))
    else if op = .coalesce then
      .ofValue wantTest (.replaceNull (l.formula ctx false) (r.formula ctx false))
    else .ofValue wantTest (.binary op (l.formula ctx false) (r.formula ctx false))
  | not e =>
    .ofTest wantTest
      (if e.isLeaf then .binary .eq (e.formula ctx false) (.number 0)
        else .not (e.formula ctx true))
  | negate e => .ofValue wantTest (.negate (e.formula ctx false))
  | conditional t a b =>
    .ofValue wantTest (.caseWhen (t.formula ctx true) (a.formula ctx false) (b.formula ctx false))

end NumericExpr

/-! ## Terms that mean what is wanted -/

/-- **A typed term means a formula**: it renders the formula, is no string, and is a test just where
one is wanted. -/
structure Typed.Means (constants : List Constant) (wantTest : Bool) (f : Formula) (t : Typed) :
    Prop where
  renders : Renders constants t.term f
  noString : t.dbType.any DbType.isString = false
  isTest_eq : t.term.isTest = wantTest

section Means

variable {constants constants' : List Constant} {wantTest : Bool} {t u : Term} {f g : Formula}
  {op : BinaryOp}

theorem Renders.equalsBit {b : Bool} (h : Renders constants t f) :
    Renders constants (t.equalsBit b) (.binary .eq f (.number (if b then 1 else 0))) := by
  have hlevel : BinaryOp.level .eq < (t.wrap Term.testing true).level :=
    @Term.level_wrap_strict t .eq rfl
  cases b with
  | true => exact .binary rfl (Nat.le_of_lt hlevel) (.inl (by decide)) h.wrap (.number 1)
  | false => exact .binary rfl (Nat.le_of_lt hlevel) (.inl (by decide)) h.wrap (.number 0)

theorem Renders.ofTest (h : Renders constants t f) :
    Renders constants (.ofTest t) (.caseWhen f (.number 1) (.number 0)) :=
  .caseWhen h (.number 1) (.number 0)

/-- Both sides of a comparison stand in strict places. -/
theorem Renders.compare {l r : Typed} (hop : op.isComparison)
    (hl : Renders constants l.term f) (hr : Renders constants r.term g) :
    Renders constants (l.compare op r) (.binary op f g) := by
  have hplace : Term.testing = op.precedence := by cases op <;> first | rfl | cases hop
  have hsign : isSign op = true := by cases op <;> first | rfl | cases hop
  unfold Typed.compare
  rw [hplace]
  exact .binary hsign (Nat.le_of_lt (Term.level_wrap_strict hsign))
    (.inl (Term.level_wrap_strict hsign)) hl.wrap hr.wrap

/-- Neither side of a connective stands in a strict place: a chain is the same however grouped. -/
theorem Renders.connect {l r : Typed} (hop : op.isLogical)
    (hl : Renders constants l.term f) (hr : Renders constants r.term g) :
    Renders constants (l.connect op r) (.binary op f g) := by
  have hsign : isSign op = true := by cases op <;> first | rfl | cases hop
  have hcomparison : op.isComparison = false := by cases op <;> first | rfl | cases hop
  exact .binary hsign (Term.level_wrap hsign hcomparison)
    (.inr ⟨hop, Term.level_wrap hsign hcomparison⟩) hl.wrap hr.wrap

/-- Of arithmetic, only the right side stands in a strict place. -/
theorem Renders.arithmetic {l r : Typed} (hsign : isSign op)
    (hcomparison : op.isComparison = false)
    (hl : Renders constants l.term f) (hr : Renders constants r.term g) :
    Renders constants (l.arithmetic op r).term (.binary op f g) :=
  .binary hsign (Term.level_wrap hsign hcomparison) (.inl (Term.level_wrap_strict hsign))
    hl.wrap hr.wrap

theorem noString_or {a b : Option DbType} (ha : a.any DbType.isString = false)
    (hb : b.any DbType.isString = false) : (a.or b).any DbType.isString = false := by
  cases a with
  | none => exact hb
  | some _ => exact ha

namespace Typed.Means

theorem mono {t : Typed} (h : t.Means constants wantTest f) (hsub : constants ⊆ constants') :
    t.Means constants' wantTest f :=
  ⟨h.renders.mono fun _ hc => hsub hc, h.noString, h.isTest_eq⟩

theorem ofValue {t : Typed} (h : t.Means constants false f) :
    (Typed.ofValue wantTest t).Means constants wantTest (.ofValue wantTest f) := by
  cases wantTest with
  | false => exact h
  | true =>
    have htest : t.asTest = { term := t.term.equalsBit true } := by
      rw [Typed.asTest, h.isTest_eq]
      rfl
    simp only [Typed.ofValue, if_true, htest, Formula.ofValue]
    exact ⟨h.renders.equalsBit, rfl, rfl⟩

theorem ofTest (h : Renders constants t f) (htest : t.isTest) :
    (Typed.ofTest wantTest t).Means constants wantTest (.ofTest wantTest f) := by
  cases wantTest with
  | false => exact ⟨h.ofTest, rfl, rfl⟩
  | true => exact ⟨h, rfl, htest⟩

end Typed.Means

end Means

/-! ## Steps that succeed -/

/-- A scope in which the root rows have their number, and the constants theirs. -/
structure Scope.IsRooted (s : Scope) : Prop where
  root : s.aliases.get? (sourceKey 0) = some 0
  numbered : Numbered s.constants

/-- **A step succeeds**, in every scope with the known constants, and keeps them. -/
def Succeeds {α : Type} (known : List Constant) (x : Reading α)
    (post : List Constant → α → Prop) : Prop :=
  ∀ s : Scope, s.IsRooted → known ⊆ s.constants →
    ∃ a s', x.run s = .ok (a, s') ∧ s'.IsRooted ∧ known ⊆ s'.constants ∧ post s'.constants a

namespace Succeeds

variable {α β : Type} {known : List Constant}

theorem pure {a : α} {post : List Constant → α → Prop}
    (h : ∀ constants, known ⊆ constants → post constants a) : Succeeds known (Pure.pure a) post :=
  fun s hs hknown => ⟨a, s, rfl, hs, hknown, h s.constants hknown⟩

theorem bind {x : Reading α} {f : α → Reading β} {mid : List Constant → α → Prop}
    {post : List Constant → β → Prop} (hx : Succeeds known x mid)
    (hf : ∀ a known', known ⊆ known' → mid known' a → Succeeds known' (f a) post) :
    Succeeds known (x >>= f) post := by
  intro s hs hknown
  obtain ⟨a, s₁, hrun, hs₁, hknown₁, hmid⟩ := hx s hs hknown
  obtain ⟨b, s₂, hrun₂, hs₂, hsub, hpost⟩ :=
    hf a s₁.constants hknown₁ hmid s₁ hs₁ (List.Subset.refl _)
  refine ⟨b, s₂, ?_, hs₂, List.Subset.trans hknown₁ hsub, hpost⟩
  exact bind_eq_ok.2 ⟨(a, s₁), hrun, hrun₂⟩

theorem lift_bind {x : Compiled α} {f : α → Reading β} {post : List Constant → β → Prop} {a : α}
    (hx : x = .ok a) (hf : Succeeds known (f a) post) : Succeeds known (liftM x >>= f) post := by
  subst hx
  exact hf

end Succeeds

variable {ctx : Context} {known : List Constant} {wantTest : Bool}

theorem Reading.succeeds_constant {dbType : DbType} {n : Int64} (hn : 0 ≤ n.toInt) :
    Succeeds known (Reading.constant dbType none (.int n)) fun constants t =>
      Renders constants t (.number n.toInt.toNat) ∧ t.isTest = false := by
  intro s hs hknown
  let c : Constant := ⟨s.constants.length + 1, .int n, dbType, none⟩
  refine ⟨.constant c, { s with constants := s.constants ++ [c] }, by unfold Reading.constant; rfl,
    ⟨hs.root, hs.numbered.concat rfl⟩, List.subset_append_of_subset_left _ hknown, ?_, rfl⟩
  exact .constant (by simp) (if_pos hn)

/-! ## Expressions that are read -/

namespace Context

variable {ref : ColumnRef} {dbType : Option DbType}

theorem isNavigation_of_column {row : Row} (h : ctx.column row name = .ok (ref, dbType)) :
    ctx.isNavigation row name = .ok false := by
  unfold column at h
  unfold isNavigation
  cases hty : row.ty with
  | none => rfl
  | some ty =>
    simp only [hty] at h ⊢
    obtain ⟨entity, hentity, h⟩ := bind_eq_ok.1 h
    rw [hentity, ok_bind]
    revert h
    rcases hmember : entity.member? name with _ | ⟨member, kind⟩
    · simp [Entity.navigation?, hmember, pure, Except.pure]
    · cases kind with
      | column c => simp [Entity.navigation?, hmember, Member.navigation?, pure, Except.pure]
      | navigation nav => simp

theorem isPropertyOf_source {id : Nat} : ctx.isPropertyOf (.source id) name = .ok false := by
  unfold isPropertyOf
  split
  · unfold Layer.shape
    cases ctx.layer.sourceType? id <;> rfl
  · rfl

theorem succeeds_source : Succeeds known (ctx.source 0) fun _ row => row = ctx.rootRow := by
  intro s hs hknown
  have hrequest : (Reading.request (sourceKey 0)).run s = .ok (0, s) := by
    show Except.ok ((s.aliases.request (sourceKey 0)).1, { s with
      aliases := (s.aliases.request (sourceKey 0)).2 }) = .ok (0, s)
    rw [Aliases.request, hs.root]
  have hsource : (ctx.source 0).run s = (Reading.request (sourceKey 0)).run s >>= fun (n, s) =>
      .ok ({ ctx.rootRow with number := n }, s) := rfl
  refine ⟨ctx.rootRow, s, ?_, hs, hknown, rfl⟩
  rw [hsource, hrequest, ok_bind]
  rfl

theorem succeeds_resolve (h : ctx.column ctx.rootRow name = .ok (ref, dbType)) :
    Succeeds known (ctx.resolve 0 [name]) fun _ r => r = .column ref dbType := by
  refine .bind succeeds_source ?_
  rintro _ known' - rfl
  exact .lift_bind (isNavigation_of_column h)
    (.lift_bind h (.pure fun _ _ => rfl))

theorem succeeds_memberValue (h : ctx.column ctx.rootRow name = .ok (ref, dbType)) :
    Succeeds known (ctx.memberValue (.source 0) name) fun _ t => t = ⟨.column ref, dbType⟩ := by
  refine .bind (succeeds_resolve h) ?_
  rintro _ known' - rfl
  exact .pure fun _ _ => rfl

end Context

namespace NumericExpr

theorem isNullConstant_toExpr (e : NumericExpr) : e.toExpr.isNullConstant = false := by
  cases e <;> rfl

theorem isString_toExpr {t : Typed} (e : NumericExpr) (h : t.dbType.any DbType.isString = false) :
    t.isString e.toExpr = false := by
  cases e <;> exact h

/-- **An expression is read as its formula**, as a test and as a value. -/
def Reads (ctx : Context) (e : NumericExpr) : Prop :=
  ∀ wantTest known, Succeeds known (ctx.read wantTest e.toExpr) fun constants t =>
    t.Means constants wantTest (e.formula ctx wantTest)

namespace Reads

variable {op : BinaryOp} {hop : op ≠ .concat} {e l r : NumericExpr}

theorem column (h : InScope ctx (.column name)) : Reads ctx (.column name) := by
  intro wantTest known
  obtain ⟨ref, dbType, hcolumn, hstring⟩ := h
  have hroot : ctx.rootColumn name = ref := by rw [Context.rootColumn, hcolumn]
  rw [toExpr]
  unfold Context.read
  refine .lift_bind Context.isPropertyOf_source ?_
  refine .bind (Context.succeeds_memberValue hcolumn) ?_
  rintro _ known' - rfl
  refine .pure fun constants _ => ?_
  rw [formula, hroot]
  exact Typed.Means.ofValue ⟨.column ref, hstring, rfl⟩

theorem constant {n : Int64} {hn : 0 ≤ n.toInt} : Reads ctx (.constant n hn) := by
  intro wantTest known
  rw [toExpr]
  unfold Context.read
  split
  next hbool => cases hbool
  next =>
    refine .bind (Reading.succeeds_constant hn) ?_
    rintro t known' - ⟨hrenders, htest⟩
    refine .pure fun constants hsub => ?_
    exact Typed.Means.ofValue (Typed.Means.mono ⟨hrenders, rfl, htest⟩ hsub)

theorem logical (hlogical : op.isLogical) (hl : Reads ctx l) (hr : Reads ctx r) :
    Reads ctx (.binary op hop l r) := by
  intro wantTest known
  rw [toExpr, formula, if_pos hlogical]
  unfold Context.read
  rw [if_pos hlogical]
  refine .bind (hl true known) fun tl known₁ _ htl => ?_
  refine .bind (hr true known₁) fun tr known₂ hsub₂ htr => ?_
  refine .pure fun constants hsub => Typed.Means.ofTest ?_ ?_
  · exact .connect hlogical (htl.mono (List.Subset.trans hsub₂ hsub)).renders
      (htr.mono hsub).renders
  · simp [Typed.connect, Term.isTest, hlogical]

/-- The right side of a comparison is a constant of the type of the left one, or read by itself. -/
theorem comparison (hlogical : op.isLogical = false) (hcomparison : op.isComparison)
    (hl : Reads ctx l) (hr : Reads ctx r) : Reads ctx (.binary op hop l r) := by
  intro wantTest known
  rw [toExpr, formula]
  unfold Context.read
  simp only [hlogical, hcomparison, isNullConstant_toExpr, Bool.or_self, Bool.false_eq_true,
    if_false, if_true]
  refine .bind (hl false known) fun tl known₁ _ htl => ?_
  have hmeans : ∀ {tr : Typed} {known₂ constants : List Constant}, known₁ ⊆ known₂ →
      tr.Means known₂ false (r.formula ctx false) → known₂ ⊆ constants →
      (Typed.ofTest wantTest (tl.compare op tr)).Means constants wantTest
        (.ofTest wantTest (.binary op (l.formula ctx false) (r.formula ctx false))) := by
    intro tr known₂ constants hsub₂ htr hsub
    refine Typed.Means.ofTest ?_ (by simp [Typed.compare, Term.isTest, hcomparison])
    exact .compare hcomparison (htl.mono (List.Subset.trans hsub₂ hsub)).renders
      (htr.mono hsub).renders
  split
  next v dbType hconstant _ =>
    cases r with
    | constant n hn =>
      cases hconstant
      refine .bind (Reading.succeeds_constant hn) ?_
      rintro t known₂ hsub₂ ⟨hrenders, htest⟩
      exact .pure fun constants hsub => hmeans hsub₂ ⟨hrenders, rfl, htest⟩ hsub
    | _ => cases hconstant
  next =>
    exact .bind (hr false known₁) fun tr known₂ hsub₂ htr =>
      Succeeds.pure fun constants hsub => hmeans hsub₂ htr hsub

theorem coalesce {hop : BinaryOp.coalesce ≠ .concat} (hl : Reads ctx l) (hr : Reads ctx r) :
    Reads ctx (.binary .coalesce hop l r) := by
  intro wantTest known
  rw [toExpr]
  unfold Context.read
  refine .bind (hl false known) fun tl known₁ _ htl => ?_
  refine .bind (hr false known₁) fun tr known₂ hsub₂ htr => ?_
  refine .pure fun constants hsub => Typed.Means.ofValue ⟨?_, htl.noString, rfl⟩
  exact .coalesce (htl.mono (List.Subset.trans hsub₂ hsub)).renders (htr.mono hsub).renders

/-- Sums of numbers are no joined strings. -/
theorem arithmetic (hlogical : op.isLogical = false) (hcomparison : op.isComparison = false)
    (hcoalesce : op ≠ .coalesce) (hl : Reads ctx l) (hr : Reads ctx r) :
    Reads ctx (.binary op hop l r) := by
  intro wantTest known
  rw [toExpr, formula]
  unfold Context.read
  simp only [hlogical, hcomparison, hcoalesce, Bool.false_eq_true, if_false]
  refine .bind (hl false known) fun tl known₁ _ htl => ?_
  refine .bind (hr false known₁) fun tr known₂ hsub₂ htr => ?_
  have hsign : isSign op = true := by cases op <;> first | rfl | contradiction
  have htyped : (if (op == .coalesce) = true then ⟨.coalesce tl.term tr.term, tl.dbType⟩
      else if (op == .concat || op == .add && (tl.isString l.toExpr || tr.isString r.toExpr)) = true
        then tl.concat tr else tl.arithmetic op tr) = tl.arithmetic op tr := by
    simp [hcoalesce, hop, isString_toExpr l htl.noString, isString_toExpr r htr.noString]
  rw [htyped]
  refine .pure fun constants hsub => Typed.Means.ofValue ⟨?_, ?_, ?_⟩
  · exact .arithmetic hsign hcomparison (htl.mono (List.Subset.trans hsub₂ hsub)).renders
      (htr.mono hsub).renders
  · exact noString_or htl.noString htr.noString
  · simp [Typed.arithmetic, Term.isTest, hlogical, hcomparison]

theorem binary (hl : Reads ctx l) (hr : Reads ctx r) : Reads ctx (.binary op hop l r) := by
  by_cases hlogical : op.isLogical = true
  · exact logical hlogical hl hr
  rw [Bool.not_eq_true] at hlogical
  by_cases hcomparison : op.isComparison = true
  · exact comparison hlogical hcomparison hl hr
  rw [Bool.not_eq_true] at hcomparison
  by_cases hcoalesce : op = .coalesce
  · subst hcoalesce
    exact coalesce hl hr
  · exact arithmetic hlogical hcomparison hcoalesce hl hr

theorem not (h : Reads ctx e) : Reads ctx (.not e) := by
  intro wantTest known
  have hleaf (hleaf : e.isLeaf = true) : Succeeds known (do
      return Typed.ofTest wantTest ((← ctx.read false e.toExpr).term.equalsBit false))
      fun constants t => t.Means constants wantTest
        (.ofTest wantTest (.binary .eq (e.formula ctx false) (.number 0))) :=
    Succeeds.bind (h false known) fun t known' _ ht => .pure fun constants hsub =>
      Typed.Means.ofTest (ht.mono hsub).renders.equalsBit rfl
  have htree : Succeeds known (do
      return Typed.ofTest wantTest (.not (← ctx.read true e.toExpr).term))
      fun constants t => t.Means constants wantTest
        (.ofTest wantTest (.not (e.formula ctx true))) :=
    Succeeds.bind (h true known) fun t known' _ ht => .pure fun constants hsub =>
      Typed.Means.ofTest (.not (ht.mono hsub).renders) rfl
  rw [toExpr, formula]
  unfold Context.read
  cases e with
  | column name => exact hleaf rfl
  | constant n hn => exact hleaf rfl
  | binary op hop l r => exact htree
  | not e => exact htree
  | negate e => exact htree
  | conditional t a b => exact htree

theorem negate (h : Reads ctx e) : Reads ctx (.negate e) := by
  intro wantTest known
  rw [toExpr]
  unfold Context.read
  refine .bind (h false known) fun v known' _ hv => ?_
  refine .pure fun constants hsub => Typed.Means.ofValue ⟨?_, hv.noString, rfl⟩
  exact .negate Term.level_wrap_atomic (hv.mono hsub).renders.wrap

theorem conditional {t a b : NumericExpr} (ht : Reads ctx t) (ha : Reads ctx a)
    (hb : Reads ctx b) : Reads ctx (.conditional t a b) := by
  intro wantTest known
  rw [toExpr]
  unfold Context.read
  refine .bind (ht true known) fun t known₁ _ ht => ?_
  refine .bind (ha false known₁) fun a known₂ hsub₂ ha => ?_
  refine .bind (hb false known₂) fun b known₃ hsub₃ hb => ?_
  refine .pure fun constants hsub => Typed.Means.ofValue ⟨?_, ?_, rfl⟩
  · have hsub' := List.Subset.trans hsub₃ hsub
    exact .caseWhen (ht.mono (List.Subset.trans hsub₂ hsub')).renders (ha.mono hsub').renders
      (hb.mono hsub).renders
  · exact noString_or ha.noString hb.noString

end Reads

theorem reads {e : NumericExpr} (h : e.InScope ctx) : Reads ctx e := by
  induction e with
  | column name => exact .column h
  | constant n hn => exact .constant
  | binary op hop l r ihl ihr => exact .binary (ihl h.1) (ihr h.2)
  | not e ih => exact .not (ih h)
  | negate e ih => exact .negate (ih h)
  | conditional t a b iht iha ihb => exact .conditional (iht h.1) (iha h.2.1) (ihb h.2.2)

/-- The text of an expression, in a scope that has read it, is read back as its formula. -/
theorem readFormula_script {config : Config} {constants : List Constant} {t : Typed} {f : Formula}
    (hnumbered : Numbered constants) (ht : t.Means constants wantTest f) :
    ∃ a, readFormula config.dialect (parameterValue constants)
        (config.write (t.term.script config.layout.toStyle)) = some a ∧ a.Regrouped f := by
  have hwrite : ∀ c ∈ constants, ∀ n, c.value.natural? = some n →
      Reader.Tells config.layout.toStyle.dialect (parameterValue constants)
        (config.writeConstant c).toList Formula.atomLevel (.number n) :=
    fun c hc n hn => tells_writeConstant hnumbered hc hn
  exact (ht.renders.tells hwrite).1.readFormula

/-- **Parentheses keep the meaning of an expression.** An expression over numbers has a text as a
test and as a value, and each is read back as what the expression means part by part, up to the
grouping of chains of `AND` and of `OR`. -/
theorem readFormula_text {config : Config} {schema : Schema} {layer : Layer} {s : Scope}
    {e : NumericExpr} (hs : s.IsRooted) (h : e.InScope ⟨schema, config.dialect, layer⟩) :
    let ctx : Context := ⟨schema, config.dialect, layer⟩
    (∃ t s', (ctx.test e.toExpr).run s = .ok (t, s') ∧
      ∃ a, readFormula config.dialect (parameterValue s'.constants)
          (config.write (t.script config.layout.toStyle)) = some a ∧
        a.Regrouped (e.formula ctx true)) ∧
    ∃ t s', (ctx.value e.toExpr).run s = .ok (t, s') ∧
      ∃ a, readFormula config.dialect (parameterValue s'.constants)
          (config.write (t.script config.layout.toStyle)) = some a ∧
        a.Regrouped (e.formula ctx false) := by
  intro ctx
  constructor
  · obtain ⟨t, s', hrun, hs', -, hmeans⟩ := reads h true [] s hs (List.nil_subset _)
    refine ⟨t.term, s', ?_, readFormula_script hs'.numbered hmeans⟩
    exact bind_eq_ok.2 ⟨(t, s'), hrun, rfl⟩
  · obtain ⟨t, s', hrun, hs', -, hmeans⟩ := reads h false [] s hs (List.nil_subset _)
    refine ⟨t.term, s', ?_, readFormula_script hs'.numbered hmeans⟩
    exact bind_eq_ok.2 ⟨(t, s'), hrun, rfl⟩

/-- Numbers among tests and tests among numbers: 1 added to a negated
`Id * (Id - (2 - 1)) > 3 AND (NOT Id OR Id % 2)`. -/
def nested : NumericExpr :=
  .binary .add (by decide) (.constant 1 (by decide)) (.not (.binary .and (by decide)
    (.binary .gt (by decide)
      (.binary .mul (by decide) (.column "Id") (.binary .sub (by decide) (.column "Id")
        (.binary .sub (by decide) (.constant 2 (by decide)) (.constant 1 (by decide)))))
      (.constant 3 (by decide)))
    (.binary .or (by decide) (.not (.column "Id"))
      (.binary .rem (by decide) (.column "Id") (.constant 2 (by decide))))))

/-- Both texts of the nested expression are read back, with parameters for its constants. -/
theorem readFormula_text_nested :
    let config : Config := { dialect := .mySql, parameterized := true }
    let ctx : Context := ⟨.books, .mySql, .ofSource "Book"⟩
    let s : Scope := { aliases := .ofLayer (.ofSource "Book") }
    s.IsRooted ∧ nested.InScope ctx ∧
    (∃ t s', (ctx.test nested.toExpr).run s = .ok (t, s') ∧
      ∃ a, readFormula .mySql (parameterValue s'.constants)
          (config.write (t.script config.layout.toStyle)) = some a ∧
        a.Regrouped (nested.formula ctx true)) ∧
    ∃ t s', (ctx.value nested.toExpr).run s = .ok (t, s') ∧
      ∃ a, readFormula .mySql (parameterValue s'.constants)
          (config.write (t.script config.layout.toStyle)) = some a ∧
        a.Regrouped (nested.formula ctx false) := by
  intro config ctx s
  have hs : s.IsRooted := ⟨by cbv, fun i c hc => by simp [s] at hc⟩
  have hid : InScope ctx (.column "Id") := ⟨⟨0, "id"⟩, some .int, by cbv, rfl⟩
  have h : nested.InScope ctx :=
    ⟨trivial, ⟨⟨hid, hid, trivial, trivial⟩, trivial⟩, hid, hid, trivial⟩
  exact ⟨hs, h, @readFormula_text config .books (.ofSource "Book") s nested hs h⟩

end NumericExpr

end Sql

end QueryCompiler

import QueryCompiler.Compile
import QueryCompiler.Proofs.Plan.Terminator
import QueryCompiler.Proofs.Sql.Written
/-!
# Bare tests

A test and a value are different things in SQL, and an expression is read as one or the other. Where
a value is wanted, comparisons, connectives and negations become a `CASE`. The calls that are tests
do not: they stand bare where the value belongs, in the clauses that hold values as in any other
place that is read as a value (`Sql.Context.bare_iff_isTestCall`).
-/

namespace QueryCompiler

namespace Expr

/-- Whether an expression is a call that compares or matches: of a method, with or without a target
and with so many arguments. -/
def isTestCall : Expr → Bool
  | call method target args =>
    [("Contains", true, 1), ("Contains", false, 2), ("StartsWith", true, 1), ("EndsWith", true, 1),
      ("Equals", true, 1), ("IsNullOrEmpty", false, 1)].contains
      (method, target.isSome, args.length)
  | _ => false

/-- Whether an expression is a comparison, a connective or a negation. -/
def connects : Expr → Bool
  | binary op _ _ => op.isLogical || op.isComparison
  | unary .not _ => true
  | _ => false

mutual

/-- Whether a projection has a call that is a test as one of its columns. -/
def projectsTest : Expr → Bool
  | object _ bindings => projectsTests bindings
  | e => e.isTestCall

def projectsTests : List Binding → Bool
  | [] => false
  | ⟨_, e⟩ :: bs => e.projectsTest || projectsTests bs

end

end Expr

theorem Gives.mapM_any {σ α β : Type} {f : β → StateT σ Compiled α} {p : α → Bool} {q : β → Bool}
    {l : List β} (h : ∀ b ∈ l, Gives (f b) fun a => p a = q b) :
    Gives (l.mapM f) fun as => as.any p = l.any q := by
  refine (Gives.mapM h).imp fun as has => ?_
  clear h
  induction has with
  | nil => rfl
  | cons ha _ ih => rw [List.any_cons, List.any_cons, ha, ih]

namespace Sql

/-! ## Values -/

theorem Reading.gives_constant {dbType : DbType} {size : Option Nat} {v : Value} :
    Gives (Reading.constant dbType size v) fun t => t.isTest = false := by
  unfold constant
  split
  · exact .pure rfl
  · exact .seq fun _ => .pure rfl
  · exact .seq fun _ => .seq fun _ => .pure rfl

theorem Part.gives_call {d : Dialect} {method : String} {target : Option Part} {args : List Part} :
    Gives (call d method target args) fun t => t.term.isTest =
      (Expr.call method (target.map (·.expr)) (args.map (·.expr))).isTestCall := by
  have hlike {t arg : Part} {before behind : Bool} :
      Gives (like d t arg before behind) fun t => t.term.isTest = true :=
    Gives.seq fun _ => .seq fun _ => .pure rfl
  have hinList {items : List Value} {item : Part} :
      Gives (inList items item) fun t => t.term.isTest = true := by
    unfold inList
    split
    · exact .pure rfl
    · exact .seq fun _ => .seq fun _ => .pure rfl
  unfold call
  split
  case h_1 => split <;> first | exact hinList | exact hlike
  case h_2 => split <;> first | exact hinList | exact .throw
  case h_3 | h_4 => exact hlike
  case h_5 =>
    refine .seq fun v => ?_
    split
    · exact .pure rfl
    · exact .seq fun _ => .pure rfl
  case h_6 | h_7 => exact .seq fun _ => .seq fun _ => .seq fun _ => .pure rfl
  case h_13 => exact .seq fun _ => .lift fun _ h => by cases h; rfl
  case h_18 | h_19 => exact .pure rfl
  case h_22 => exact .seq fun _ => .seq fun _ => .pure rfl
  case h_23 => exact .throw
  all_goals exact .seq fun _ => .pure rfl

@[simp] theorem Term.isTest_wrap {t : Term} {place : Nat} {strict : Bool} :
    (t.wrap place strict).isTest = t.isTest := by
  unfold wrap
  split
  · rw [isTest]
  · rfl

namespace Typed

variable {t : Typed} {u : Term} {w : Bool}

theorem isTest_ofValue : (ofValue w t).term.isTest = (w || t.term.isTest) := by
  cases w with
  | false => rfl
  | true =>
    change t.asTest.term.isTest = true
    unfold asTest
    split
    · assumption
    · rfl

theorem isTest_ofTest (h : u.isTest) : (ofTest w u).term.isTest = w := by
  cases w with
  | false => rfl
  | true => exact h

end Typed

namespace Context

variable {ctx : Context} {e : Expr}

theorem map_expr_parts {es : List Expr} : (ctx.parts es).map (·.expr) = es := by
  induction es with
  | nil => rw [parts, List.map_nil]
  | cons e es ih => rw [parts, List.map_cons, ih]

theorem map_expr_partOption {o : Option Expr} : (ctx.partOption o).map (·.expr) = o := by
  cases o <;> simp [partOption]

/-- **What is read is a test** if one is wanted, or else if it is a call that is one. -/
theorem gives_read {w : Bool} :
    Gives (ctx.read w e) fun t => t.term.isTest = (w || e.isTestCall) := by
  -- a value that is no test by itself
  have hvalue {t : Typed} (h : t.term.isTest = false) :
      (Typed.ofValue w t).term.isTest = (w || false) := by rw [Typed.isTest_ofValue, h]
  have htest {u : Term} (h : u.isTest = true) :
      (Typed.ofTest w u).term.isTest = (w || false) := by rw [Typed.isTest_ofTest h, Bool.or_false]
  cases e with
  | member target name =>
    unfold read
    refine .seq fun isProperty => ?_
    split
    · refine .seq fun t => .bind (.lift fun u hu => ?_) fun u hu =>
        Gives.pure (hvalue hu)
      unfold property at hu
      split at hu <;> cases hu <;> rfl
    · refine .bind ?_ fun u hu => .pure (hvalue hu)
      unfold memberValue
      split
      · exact .throw
      · refine .seq fun resolved => ?_
        split
        · exact .pure rfl
        · exact .throw
  | constant v =>
    unfold read
    split
    · exact .pure rfl
    · exact Reading.gives_constant.bind fun t ht => .pure (hvalue ht)
  | binary op l r =>
    unfold read
    split
    · rename_i hlogical
      refine .seq fun t => .seq fun u => .pure (htest ?_)
      simp [Typed.connect, Term.isTest, hlogical]
    · rename_i hlogical
      split
      · rename_i hcomparison
        have hnull (t : Typed) : (t.compareNull op).isTest = true := by
          unfold Typed.compareNull
          split <;> simp [Term.isTest, hcomparison]
        have hcompare (t u : Typed) : (t.compare op u).isTest = true := by
          simp [Typed.compare, Term.isTest, hcomparison]
        dsimp only
        -- the subject is the side that is not null
        split
        all_goals
          refine .seq fun subject => ?_
          split
          · exact .pure (htest (hnull _))
          · split <;> exact .seq fun other => .pure (htest (hcompare _ _))
      · rename_i hcomparison
        refine .seq fun t => .seq fun u => .pure (hvalue ?_)
        split
        · rfl
        · split
          · rfl
          · simp [Typed.arithmetic, Term.isTest, hlogical, hcomparison]
  | unary op e =>
    cases op with
    | not =>
      unfold read
      split <;> exact .seq fun t => .pure (htest rfl)
    | negate =>
      unfold read
      exact .seq fun t => .pure (hvalue rfl)
  | conditional t a b =>
    unfold read
    exact .seq fun t => .seq fun a => .seq fun b => .pure (hvalue rfl)
  | aggregate f arg =>
    unfold read
    refine .seq fun t => .bind (.lift fun u hu => ?_) fun u hu =>
      Gives.pure (hvalue hu)
    unfold Typed.aggregate at hu
    split at hu
    · cases hu
      rfl
    · split at hu <;> cases hu
      rfl
  | call method target args =>
    unfold read
    refine Part.gives_call.bind fun u hu => .pure ?_
    rw [map_expr_parts, map_expr_partOption] at hu
    rw [Typed.isTest_ofValue, hu]
  | source | object | param | lambda | query | grouping | joinGroup =>
    unfold read
    exact .throw

theorem gives_value : Gives (ctx.value e) fun t => t.isTest = e.isTestCall :=
  gives_read.bind fun _ ht => .pure ht

theorem value_of_isTestCall (h : e.isTestCall) : ctx.value e = ctx.test e := by
  cases e with
  | call method target args =>
    funext s
    unfold value test read
    simp only [bind_assoc, pure_bind]
    refine Compiled.bind_congr_ok ?_
    rintro ⟨u, s'⟩ hrun
    have hu := Part.gives_call s u s' hrun
    rw [map_expr_parts, map_expr_partOption, h] at hu
    simp only [Typed.ofValue, Typed.asTest, hu, if_true]
    rfl
  | _ => cases h

/-- A comparison, connective or negation becomes a `CASE` as a value. -/
theorem value_of_connects (h : e.connects) : ctx.value e = Term.ofTest <$> ctx.test e := by
  cases e with
  | binary op l r =>
    unfold value test read
    split
    · simp [Typed.ofTest]
    · rename_i hlogical
      have hcomparison : op.isComparison = true := by simpa [Expr.connects, hlogical] using h
      simp only [hcomparison, if_true]
      split
      all_goals
        simp only [bind_assoc, map_bind]
        refine bind_congr fun subject => ?_
        split
        · simp [Typed.ofTest]
        · split <;> simp [Typed.ofTest]
  | unary op e =>
    cases op with
    | not =>
      unfold value test read
      split <;> simp [Typed.ofTest]
    | negate => cases h
  | _ => cases h

end Context

/-! ## Clauses -/

def SelectList.hasTest (list : SelectList) : Bool := list.columns.any (·.1.isTest)

@[simp] theorem SelectList.hasTest_push {list : SelectList} {t : Term} {name : String} :
    (list.push t name).hasTest = (list.hasTest || t.isTest) := by
  simp [hasTest, push]

namespace Context

variable {ctx : Context} {e : Expr}

theorem hasTest_of_rowColumns {row : Row} {out list : SelectList}
    (h : ctx.rowColumns row out = .ok list) : list.hasTest = out.hasTest := by
  unfold rowColumns at h
  split at h
  · cases h
  · obtain ⟨entity, -, hlist⟩ := Compiled.bind_eq_ok.1 h
    cases hlist
    clear h
    generalize entity.columns = columns
    induction columns generalizing out with
    | nil => rfl
    | cons column columns ih =>
      rw [List.foldl_cons, ih, SelectList.hasTest_push]
      exact Bool.or_false _

theorem hasTest_entityColumns {path : String} {out : SelectList} :
    Gives (ctx.entityColumns e path out) fun list =>
      list.hasTest = out.hasTest ∧ e.isTestCall = false := by
  unfold entityColumns
  split
  · exact .throw
  · rename_i hpath
    refine .seq fun resolved => ?_
    split
    · exact .throw
    · refine .bind (.lift fun _ => hasTest_of_rowColumns) fun list hlist => .pure ?_
      refine ⟨hlist.trans ?_, by cases e <;> first | rfl | cases hpath⟩
      split
      · rw [SelectList.hasTest_push]
        exact Bool.or_false _
      · rfl

mutual

theorem hasTest_bindingColumns {path member : String} {out : SelectList} : ∀ {e : Expr},
    Gives (ctx.bindingColumns path member out e) fun list =>
      list.hasTest = (out.hasTest || e.projectsTest)
  | .object _ bindings => by
    unfold bindingColumns
    refine hasTest_objectColumns.bind fun list hlist => .pure (hlist.trans ?_)
    rw [Expr.projectsTest]
  | .source _ | .member _ _ | .constant _ | .binary _ _ _ | .unary _ _ | .conditional _ _ _
  | .aggregate _ _ | .call _ _ _ | .param _ | .lambda _ | .query _ | .grouping _ _
  | .joinGroup _ _ => by
    unfold bindingColumns Expr.projectsTest
    refine .seq fun shape => ?_
    split
    · exact hasTest_entityColumns.imp fun list h => by rw [h.1, h.2, Bool.or_false]
    · exact hasTest_entityColumns.imp fun list h => by rw [h.1, h.2, Bool.or_false]
    all_goals exact gives_value.bind fun t ht => .pure (by rw [SelectList.hasTest_push, ht])

theorem hasTest_objectColumns {base : String} {out : SelectList} : ∀ {bindings : List Binding},
    Gives (ctx.objectColumns base out bindings) fun list =>
      list.hasTest = (out.hasTest || Expr.projectsTests bindings)
  | [] => by
    unfold objectColumns
    exact .pure (by rw [Expr.projectsTests, Bool.or_false])
  | ⟨m, v⟩ :: bs => by
    unfold objectColumns
    refine hasTest_bindingColumns.bind fun next hnext => hasTest_objectColumns.imp fun list hlist => ?_
    rw [hlist, hnext, Expr.projectsTests, Bool.or_assoc]

end

theorem hasTest_selectList {select : Expr} {includes : List (List String)} :
    Gives (ctx.selectList select includes) fun list => list.hasTest = select.projectsTest := by
  unfold selectList
  split
  · refine .seq fun row => .bind (.lift fun _ => hasTest_of_rowColumns) ?_
    intro out hout
    exact .foldlM (fun _ _ h => hasTest_entityColumns.imp fun _ h' => h'.1.trans h) hout
  · exact hasTest_objectColumns.imp fun list h => h.trans (by rw [Expr.projectsTest]; rfl)
  · rename_i hobject
    have hselect : select.projectsTest = select.isTestCall := by
      cases select <;> first | rfl | simp at hobject
    rw [hselect]
    refine .seq fun shape => ?_
    split
    · exact hasTest_entityColumns.imp fun list h => h.1.trans h.2.symm
    · exact gives_value.bind fun t ht => .pure (SelectList.hasTest_push.trans ht)

theorem hasTest_assignments {target : Entity} {construction : Expr} {bindings : List Binding}
    (h : construction.bindings? = some bindings) :
    Gives (ctx.assignments target construction) fun as =>
      as.any (·.value.isTest) = bindings.any (·.value.isTestCall) := by
  unfold assignments
  rw [h]
  split
  · exact .throw
  · exact .throw
  · rename_i hbindings
    cases hbindings
    refine .mapM_any fun b _ => .seq fun column => ?_
    dsimp only
    split
    · exact .throw_bind
    · split
      · rename_i v hv
        refine Reading.gives_constant.bind fun t ht => .pure ?_
        rw [ht, hv]
        rfl
      · exact gives_value.bind fun t ht => .pure ht

theorem hasTest_groupTerms {key : Expr} : Gives (ctx.groupTerms key) fun ts =>
    ts.any (·.isTest) = ((key.bindings?.map (·.map (·.value))).getD [key]).any (·.isTestCall) := by
  unfold groupTerms
  split
  · simp only [Expr.bindings?, Option.map_some, Option.getD_some, List.any_map]
    exact .mapM_any fun _ _ => gives_value
  · rename_i hobject
    have hkey : key.bindings? = none := by
      cases key <;> first | rfl | simp at hobject
    rw [hkey]
    exact gives_value.bind fun t ht => .pure (by simp [ht])

theorem hasTest_sortKeys {orders : List Order} : Gives (ctx.sortKeys orders) fun keys =>
    keys.any (·.term.isTest) = orders.any (·.expr.isTestCall) :=
  Gives.mapM_any fun _ _ => gives_value.bind fun _ ht => .pure ht

/-! ## Operands -/

theorem gives_comparison {op : BinaryOp} {l r : Expr} (hop : op.isComparison)
    (hl : l.isNullConstant = false) (hr : r.isNullConstant = false) :
    Gives (ctx.test (.binary op l r)) fun t => ∃ a b, t = .binary op a b ∧
      a.isTest = l.isTestCall ∧ b.isTest = r.isTestCall := by
  have hlogical : op.isLogical = false := by cases op <;> first | rfl | cases hop
  unfold test read
  simp only [hlogical, hop, hl, hr, Bool.false_eq_true, if_false, if_true, Bool.or_false, bind_assoc]
  refine gives_read.bind fun t ht => ?_
  have hcompare {u : Typed} (hu : u.term.isTest = r.isTestCall) : ∃ a b,
      t.compare op u = .binary op a b ∧ a.isTest = l.isTestCall ∧ b.isTest = r.isTestCall :=
    ⟨_, _, rfl, by simpa using ht, by simpa using hu⟩
  split
  · simp only [bind_assoc, pure_bind]
    exact Reading.gives_constant.bind fun u hu => .pure (hcompare (u := ⟨u, none⟩) hu)
  · simp only [bind_assoc, pure_bind]
    exact (gives_read (w := false)).bind fun u hu => .pure (hcompare (u := u) hu)

theorem gives_conditional {c l r : Expr} :
    Gives (ctx.value (.conditional c l r)) fun t => ∃ test a b, t = .caseWhen test a b ∧
      a.isTest = l.isTestCall ∧ b.isTest = r.isTestCall := by
  unfold value read
  simp only [bind_assoc]
  exact .seq fun test => gives_read.bind fun a ha => gives_read.bind fun b hb =>
    Gives.pure ⟨_, _, _, rfl, ha, hb⟩

theorem gives_aggregate {f : AggregateFunc} :
    Gives (ctx.value (.aggregate f (some e))) fun t => ∃ a, t = .call f.sqlName [a] ∧
      a.isTest = e.isTestCall := by
  unfold value read readOption
  simp only [bind_assoc, pure_bind]
  exact gives_read.bind fun a ha => .pure ⟨_, rfl, ha⟩

theorem gives_parts_value {target : Option Expr} {args : List Expr} :
    ∀ p ∈ (ctx.partOption target).toList ++ ctx.parts args,
      Gives p.value fun t => t.term.isTest = p.expr.isTestCall := by
  intro p hp
  have hread : ∃ e, p = ⟨e, ctx.read false e⟩ := by
    rcases List.mem_append.mp hp with hp | hp
    · cases target with
      | none => simp [partOption] at hp
      | some e => exact ⟨e, by simpa [partOption] using hp⟩
    · induction args with
      | nil => simp [parts] at hp
      | cons e es ih =>
        rw [parts] at hp
        rcases List.mem_cons.mp hp with rfl | hp
        · exact ⟨e, rfl⟩
        · exact ih (List.mem_append_right _ hp) hp
  obtain ⟨e, rfl⟩ := hread
  exact gives_read

end Context

end Sql

def Expr.startsWithA (row : Expr) : Expr :=
  .call "StartsWith" (some (.member row "Title")) [.constant (.string "a")]

end QueryCompiler

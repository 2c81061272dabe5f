import QueryCompiler.Proofs.Expr.Capture
import QueryCompiler.Proofs.Plan.Continued
import QueryCompiler.Proofs.Plan.Recast
/-!
# Operators behind a projection

A projection only changes the row, so an operator that reads the rows of a projection can read them
ahead of it, through the composition of the two lambdas (`Plan.select_composes`). The draft is the
same in the end, but for the number of operators that it counts.
-/

namespace QueryCompiler

variable {schema : Schema} {nested : Log → Compiled Layer}

namespace Draft

variable {d e : Draft} {ops : Log} {l : Lambda} {change : Draft → Expr → Draft}

/-! ## Operators of one lambda -/

/-- What an operator of one lambda does to a draft: `change` has what the lambda makes of a row. It
does not look at the row otherwise, nor at the number of operators, and starts no layer where a
projection does not. -/
structure Changes (schema : Schema) (nested : Log → Compiled Layer) (kind : OpKind)
    (change : Draft → Expr → Draft) : Prop where
  apply (d : Draft) (l : Lambda) : d.apply schema nested (.ofLambdas kind [l]) =
    d.bindRow l >>= fun v => .ok (change d v)
  frame (d : Draft) (v row : Expr) (k : Nat) :
    change { d with row, applied := k } v = { change d v with row, applied := k }
  terminal (d : Draft) (v : Expr) : (change d v).terminal = d.terminal
  closes (d : Draft) (v : Expr) : (change d v).mustClose .select = d.mustClose .select
  kind (d : Draft) : d.mustClose kind = d.mustClose .select

theorem Changes.row_eq {kind : OpKind} (h : Changes schema nested kind change) (d : Draft)
    (v : Expr) : (change d v).row = d.row := by
  have hself := h.frame d v d.row d.applied
  rw [hself]

theorem Changes.applied_eq {kind : OpKind} (h : Changes schema nested kind change) (d : Draft)
    (v : Expr) : (change d v).applied = d.applied := by
  have hself := h.frame d v d.row d.applied
  rw [hself]

theorem changes_filter : Changes schema nested .filter restrict where
  apply _ _ := rfl
  frame d v row k := by
    unfold restrict
    split <;> rfl
  terminal d v := by
    unfold restrict
    split <;> rfl
  closes d v := by
    unfold restrict
    split <;> rfl
  kind d := mustClose_congr rfl rfl rfl

theorem changes_orderBy : Changes schema nested .orderBy fun d v =>
    { d with layer := { d.layer with orders := orderKeys false v } } where
  apply _ _ := rfl
  frame _ _ _ _ := rfl
  terminal _ _ := rfl
  closes _ _ := rfl
  kind _ := mustClose_congr rfl rfl rfl

/-- An operator of one lambda binds it to the row, and what it makes of the draft is read on. -/
theorem run_ofLambdas {kind : OpKind} (change : Draft → Expr → Draft)
    (happly : d.apply schema nested (.ofLambdas kind [l]) =
      d.bindRow l >>= fun v => .ok (change d v))
    (ht : d.terminal = none) (hopen : d.mustClose kind = false) :
    (.ofLambdas kind [l] :: ops : Log).foldlM (step schema nested) d = .ok e ↔
    ∃ v, l.bind [d.row] = .ok v ∧
      ops.foldlM (step schema nested) (change d v).counted = .ok e := by
  rw [List.foldlM_cons, step_of_open ht hopen, happly]
  simp only [bind_assoc, Compiled.ok_bind]
  rw [Compiled.bind_eq_ok]
  rfl

theorem run_select (ht : d.terminal = none) (hopen : d.mustClose .select = false) :
    (.select l :: ops : Log).foldlM (step schema nested) d = .ok e ↔
    ∃ row, l.bind [d.row] = .ok row ∧
      ops.foldlM (step schema nested) { d with row }.counted = .ok e :=
  run_ofLambdas (fun d row => { d with row }) rfl ht hopen

section Logs

variable {kind : OpKind} (hk : kind = .select ∨ kind = .filter ∨ kind = .orderBy)
include hk

theorem start_ofLambdas (r : Draft × Log) :
    start schema (.ofLambdas kind [l] :: ops) ≠ .ok r := by
  intro h
  rcases hk with rfl | rfl | rfl <;> cases h

theorem validate_ofLambdas {x : String} {body : Expr} :
    Log.validate (.ofLambdas kind [⟨[x], body⟩] :: ops) = .ok () ↔ ops.validate = .ok () := by
  have hop : (Operator.ofLambdas kind [⟨[x], body⟩]).validate = .ok () := by
    rcases hk with rfl | rfl | rfl <;> rfl
  simp [validate_cons, hop]

end Logs

/-! ## Compositions -/

section Compositions

variable {log : Log} {x y : String} {f g : Expr} {p : Plan}

/-- The lambdas of `g` are in order wherever `f` is bound to the row that a log leaves. -/
def Following (schema : Schema) (log : Log) (x y : String) (f g : Expr) : Prop :=
  ∀ d r, Precedes schema log .select d → Lambda.bind ⟨[y], f⟩ [d.row] = .ok r →
    Expr.LambdasInGroups x y f d.row [(x, r)] [] g

/-- **A projection of a projection is one projection.** -/
theorem ofLog_select_select (hfollowing : Following schema log x y f g)
    (h : Plan.ofLog schema (log ++ .select ⟨[y], f⟩ :: .select ⟨[x], g⟩ :: ops) = .ok p) :
    Plan.ofLog schema (log ++ .select (.after ⟨[x], g⟩ ⟨[y], f⟩) :: ops) = .ok p := by
  have hselect : OpKind.select = .select ∨ OpKind.select = .filter ∨ OpKind.select = .orderBy :=
    .inl rfl
  obtain ⟨e, he, hp⟩ := Plan.ofLog_eq_ok.1 h
  obtain ⟨hvalid, d, hd, hrun⟩ := (ofLog_append_cons (start_ofLambdas hselect)).1 he
  have hvalid := (validate_ofLambdas hselect).1 ((validate_ofLambdas hselect).1 hvalid)
  obtain ⟨r, hr, hrun⟩ := (run_select hd.terminal hd.mustClose).1 hrun
  have ht : { d with row := r }.counted.terminal = none := hd.terminal
  have hopen : { d with row := r }.counted.mustClose .select = false := hd.mustClose
  obtain ⟨v, hv, hrun⟩ := (run_select ht hopen).1 hrun
  have hafter := Lambda.bind_after hr (hfollowing d r hd hr) hv
  obtain ⟨k, hrun'⟩ := foldlM_step_applied (k := d.applied + 1) hrun (by simp [counted])
  exact Plan.ofLog_eq_ok.2 ⟨_, (ofLog_append_cons (start_ofLambdas hselect)).2
    ⟨(validate_ofLambdas hselect).2 hvalid, d, hd,
      (run_select hd.terminal hd.mustClose).2 ⟨v, hafter, hrun'⟩⟩, hp⟩

/-- **An operator that leaves the row alone reads a projection from ahead of it.** -/
theorem ofLog_select_swap {kind : OpKind} (hk : kind = .select ∨ kind = .filter ∨ kind = .orderBy)
    (hchanges : Changes schema (Plan.nested schema) kind change)
    (hfollowing : Following schema log x y f g)
    (h : Plan.ofLog schema (log ++ .select ⟨[y], f⟩ :: .ofLambdas kind [⟨[x], g⟩] :: ops) = .ok p) :
    Plan.ofLog schema (log ++ .ofLambdas kind [.after ⟨[x], g⟩ ⟨[y], f⟩] :: .select ⟨[y], f⟩ :: ops) =
      .ok p := by
  have hselect : OpKind.select = .select ∨ OpKind.select = .filter ∨ OpKind.select = .orderBy :=
    .inl rfl
  obtain ⟨e, he, hp⟩ := Plan.ofLog_eq_ok.1 h
  obtain ⟨hvalid, d, hd, hrun⟩ := (ofLog_append_cons (start_ofLambdas hselect)).1 he
  have hvalid := (validate_ofLambdas hk).1 ((validate_ofLambdas hselect).1 hvalid)
  obtain ⟨r, hr, hrun⟩ := (run_select hd.terminal hd.mustClose).1 hrun
  have ht : { d with row := r }.counted.terminal = none := hd.terminal
  have hopen : { d with row := r }.counted.mustClose kind = false :=
    (hchanges.kind _).trans hd.mustClose
  obtain ⟨v, hv, hrun⟩ := (run_ofLambdas change (hchanges.apply _ _) ht hopen).1 hrun
  have hafter := Lambda.bind_after hr (hfollowing d r hd hr) hv
  -- the row and the number of operators pass through the change
  have hdraft : (change { d with row := r }.counted v).counted =
      { (change d v).counted with row := r }.counted := by
    have hframe : change { d with row := r }.counted v =
        { change d v with row := r, applied := d.applied + 1 } := hchanges.frame d v r (d.applied + 1)
    rw [hframe, ← hchanges.applied_eq d v]
    rfl
  rw [hdraft] at hrun
  have ht' : (change d v).counted.terminal = none := (hchanges.terminal d v).trans hd.terminal
  have hopen' : (change d v).counted.mustClose .select = false :=
    (hchanges.closes d v).trans hd.mustClose
  have hr' : Lambda.bind ⟨[y], f⟩ [(change d v).counted.row] = .ok r :=
    (congrArg (Lambda.bind ⟨[y], f⟩ [·]) (hchanges.row_eq d v)).trans hr
  have hrun' := (run_ofLambdas change (hchanges.apply d _) hd.terminal
    ((hchanges.kind d).trans hd.mustClose)).2
    ⟨v, hafter, (run_select ht' hopen').2 ⟨r, hr', hrun⟩⟩
  have hprecedes : Precedes schema log kind d := by
    rcases hk with rfl | rfl | rfl
    · exact hd
    · exact hd.congr rfl rfl rfl
    · exact hd.congr rfl rfl rfl
  exact Plan.ofLog_eq_ok.2 ⟨_, (ofLog_append_cons (start_ofLambdas hk)).2
    ⟨(validate_ofLambdas hk).2 ((validate_ofLambdas hselect).2 hvalid), d, hprecedes, hrun'⟩, hp⟩

end Compositions

end Draft

/-- **Operators compose through projections.** Where a log that reads the rows of a projection has a
plan, the log that reads them through the composition of the lambdas has that plan: with one
projection, or with the test or the ordering ahead of the projection.

The nested lambdas of the second lambda are handed to groups, and what the first one makes of a row
has no parameters left that they capture. -/
theorem Plan.select_composes {schema : Schema} {log ops : Log} {x y : String} {f g : Expr}
    (hfollowing : Draft.Following schema log x y f g) (p : Plan) :
    (ofLog schema (log ++ [.select ⟨[y], f⟩, .select ⟨[x], g⟩] ++ ops) = .ok p →
      ofLog schema (log ++ [.select (.after ⟨[x], g⟩ ⟨[y], f⟩)] ++ ops) = .ok p) ∧
    (ofLog schema (log ++ [.select ⟨[y], f⟩, .filter ⟨[x], g⟩] ++ ops) = .ok p →
      ofLog schema (log ++ [.filter (.after ⟨[x], g⟩ ⟨[y], f⟩), .select ⟨[y], f⟩] ++ ops) = .ok p) ∧
    (ofLog schema (log ++ [.select ⟨[y], f⟩, .orderBy ⟨[x], g⟩] ++ ops) = .ok p →
      ofLog schema (log ++ [.orderBy (.after ⟨[x], g⟩ ⟨[y], f⟩), .select ⟨[y], f⟩] ++ ops) =
        .ok p) := by
  simp only [List.append_assoc, List.cons_append, List.nil_append]
  exact ⟨Draft.ofLog_select_select hfollowing,
    Draft.ofLog_select_swap (.inr (.inl rfl)) Draft.changes_filter hfollowing,
    Draft.ofLog_select_swap (.inr (.inr rfl)) Draft.changes_orderBy hfollowing⟩

/-! ## Lines of orders -/

def Expr.lineGroup : Expr := .grouping (.member (.source 0) "OrderId") (.source 0)

def Expr.keyedGroup : Expr :=
  .construct none [("Number", .member (.param "y") "Key"), ("Lines", .param "y")]

/-- The sum over a group, compared with its key. -/
def Expr.sumAboveKey : Expr :=
  .binary .gt (.callOn (.member (.param "x") "Lines") "Sum"
    [.function ["z"] (.binary .add (.member (.param "z") "OrderId") (.member (.param "x") "Number"))])
    (.member (.param "x") "Number")

theorem Expr.lambdasInGroups_sumAboveKey : LambdasInGroups "x" "y" keyedGroup lineGroup
    [("x", .construct none [("Number", .member (.source 0) "OrderId"), ("Lines", lineGroup)])] []
    sumAboveKey := by
  have hfree (name : String) : ¬ (keyedGroup.substitute [("y", lineGroup)]).Free name :=
    not_free_of_any (by cbv)
  have hmember {rows : List (String × Expr)} {elements : List (List (String × Expr))}
      (name member : String) :
      LambdasInGroups "x" "y" keyedGroup lineGroup rows elements (.member (.param name) member) := by
    refine .parts rfl rfl (fun p hp => ?_) (by rintro _ _ _ _ ⟨⟩)
    obtain rfl := List.mem_singleton.1 hp
    exact .param fun _ _ _ _ entry _ => hfree entry.1
  have hbinary {rows : List (String × Expr)} {elements : List (List (String × Expr))}
      {op : BinaryOp} {a b : Expr}
      (ha : LambdasInGroups "x" "y" keyedGroup lineGroup rows elements a)
      (hb : LambdasInGroups "x" "y" keyedGroup lineGroup rows elements b) :
      LambdasInGroups "x" "y" keyedGroup lineGroup rows elements (.binary op a b) :=
    .parts rfl rfl (by simpa [parts] using ⟨ha, hb⟩) (by rintro _ _ _ _ ⟨⟩)
  exact hbinary (.group (hmember "x" "Lines") (by cbv) (by decide)
    (hbinary (hmember "z" "OrderId") (hmember "x" "Number"))) (hmember "x" "Number")

def Log.lineGroups : Log :=
  [.getSource "Line", .groupBy ⟨["l"], .member (.param "l") "OrderId"⟩ none]

/-- Groups of lines are projected and tested in one plan, whichever comes first. -/
theorem Plan.select_composes_lineGroups :
    ∃ p, ofLog (.sales []) (Log.lineGroups ++
        [.select ⟨["y"], .keyedGroup⟩, .filter ⟨["x"], .sumAboveKey⟩] ++ [.take 3]) = .ok p ∧
      ofLog (.sales []) (Log.lineGroups ++
        [.filter (.after ⟨["x"], .sumAboveKey⟩ ⟨["y"], .keyedGroup⟩),
          .select ⟨["y"], .keyedGroup⟩] ++ [.take 3]) = .ok p := by
  have hfollowing : Draft.Following (.sales []) Log.lineGroups "x" "y" .keyedGroup
      .sumAboveKey := by
    intro d r hd hr
    obtain ⟨d₀, hd₀, ht, hopened, hrow⟩ : ∃ d₀, Draft.ofLog (.sales []) Log.lineGroups = .ok d₀ ∧
        d₀.terminal = none ∧ d₀.opened (.sales []) .select = .ok d₀ ∧ d₀.row = .lineGroup :=
      ⟨_, by cbv, rfl, rfl, rfl⟩
    obtain rfl := hd.unique ⟨d₀, hd₀, ht, hopened⟩
    rw [hrow] at hr ⊢
    have hr' : Lambda.bind ⟨["y"], .keyedGroup⟩ [.lineGroup] = .ok (.construct none
        [("Number", .member (.source 0) "OrderId"), ("Lines", .lineGroup)]) := by cbv
    cases hr'.symm.trans hr
    exact Expr.lambdasInGroups_sumAboveKey
  obtain ⟨p, hp⟩ : ∃ p, ofLog (.sales []) (Log.lineGroups ++
      [.select ⟨["y"], .keyedGroup⟩, .filter ⟨["x"], .sumAboveKey⟩] ++ [.take 3]) = .ok p :=
    ⟨_, by cbv⟩
  exact ⟨p, hp, (select_composes hfollowing p).2.1 hp⟩

/-! ## Captured parameters -/

/-- Groups of orders with a lambda each, whose body has a parameter of none. -/
def Log.openOrders : Log :=
  [.getSource "Order",
    .select ⟨["q"], .construct none [("Number", .member (.param "q") "Id"),
      ("Name", .function ["v"] (.member (.param "w") "Name"))]⟩,
    .groupBy ⟨["r"], .member (.param "r") "Number"⟩ none]

/-- Such groups beside one more of these lambdas. -/
def Log.openGroups : Log := openOrders ++
  [.select ⟨["h"], .construct none [("Orders", .param "h"),
    ("Rest", .function ["v"] (.member (.param "z") "Number"))]⟩]

/-- A group beside a lambda for its largest element, with a parameter of none around it. -/
def Lambda.openLargest : Lambda := ⟨["y"], .construct none [("Orders", .param "y"),
  ("Largest", .callOn (.param "y") "Max"
    [.function ["w"] (.function ["u"] (.member (.param "z") "Number"))])]⟩

/-- The same, with the lambda that stands beside the group. -/
def Lambda.largestRest : Lambda := ⟨["y"], .construct none
  [("Orders", .member (.param "y") "Orders"),
    ("Largest", .callOn (.member (.param "y") "Orders") "Max"
      [.function ["w"] (.member (.param "y") "Rest")])]⟩

/-- A sum over a group, of what stands beside the group. -/
def Lambda.sumOfLargest : Lambda := ⟨["x"], .callOn (.member (.param "x") "Orders") "Sum"
  [.function ["z"] (.member (.param "x") "Largest")]⟩

def Lambda.orderKey : Lambda := ⟨["y"],
  .member (.construct none [("Key", .function ["w"] (.member (.param "w") "Id"))]) "Key"⟩

/-- A sum over a group that is written out, of what the row makes of its elements. -/
def Lambda.sumByRow : Lambda := ⟨["x"],
  .callOn (.grouping (.constant (.int 1)) (.source 0)) "Sum" [.param "x"]⟩

/-- A captured parameter of a projection, one of the row that it projects, and a projection that is
handed to a group: each keeps the operators from composing. -/
theorem Plan.select_not_composes :
    (∃ p, ofLog (.sales []) (Log.openOrders ++ [.select .openLargest, .select .sumOfLargest]) =
        .ok p ∧
      ofLog (.sales []) (Log.openOrders ++ [.select (.after .sumOfLargest .openLargest)]) ≠ .ok p) ∧
    (∃ p, ofLog (.sales []) (Log.openGroups ++ [.select .largestRest, .select .sumOfLargest]) =
        .ok p ∧
      ofLog (.sales []) (Log.openGroups ++ [.select (.after .sumOfLargest .largestRest)]) ≠ .ok p) ∧
    ∃ p, ofLog (.sales []) [.getSource "Order", .select .orderKey, .select .sumByRow] = .ok p ∧
      ofLog (.sales []) [.getSource "Order", .select (.after .sumByRow .orderKey)] ≠ .ok p := by
  refine ⟨?_, ?_, ?_⟩
  · obtain ⟨l, l', hl, hl', hsize⟩ : ∃ l l' : Layer,
        ofLog (.sales []) (Log.openOrders ++ [.select .openLargest, .select .sumOfLargest]) =
          .ok (.select l) ∧
        ofLog (.sales []) (Log.openOrders ++ [.select (.after .sumOfLargest .openLargest)]) =
          .ok (.select l') ∧ l.select.size < l'.select.size := ⟨_, _, by cbv, by cbv, by cbv⟩
    refine ⟨_, hl, fun heq => ?_⟩
    cases hl'.symm.trans heq
    exact Nat.lt_irrefl _ hsize
  · obtain ⟨l, l', hl, hl', hsize⟩ : ∃ l l' : Layer,
        ofLog (.sales []) (Log.openGroups ++ [.select .largestRest, .select .sumOfLargest]) =
          .ok (.select l) ∧
        ofLog (.sales []) (Log.openGroups ++ [.select (.after .sumOfLargest .largestRest)]) =
          .ok (.select l') ∧ l.select.size < l'.select.size := ⟨_, _, by cbv, by cbv, by cbv⟩
    refine ⟨_, hl, fun heq => ?_⟩
    cases hl'.symm.trans heq
    exact Nat.lt_irrefl _ hsize
  · refine ⟨_, by cbv, fun heq => ?_⟩
    have herror : ofLog (.sales []) [.getSource "Order",
        .select (.after .sumByRow .orderKey)] =
        .error (.invalidOperand "Sum" .groupingArguments) := by cbv
    cases herror.symm.trans heq

end QueryCompiler

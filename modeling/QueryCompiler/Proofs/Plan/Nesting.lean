import QueryCompiler.Proofs.Plan.Expressions
/-!
# The bound on nesting suffices

Nested queries are planned with a bound on how deep queries nest in a log. A query that a log meets
while it is read stands in one of its operands, so it is nested less deep than the log
(`Draft.Shallow`). So all bounds beyond the nesting of a log give it one outcome, a plan or an error
(`Plan.ofLogAt_eq`): where `Plan.ofLogAt_mono` keeps a plan for greater bounds, this finds it for
the least.
-/

namespace QueryCompiler

variable {schema : Schema} {nested nested' : Log → Compiled Layer} {n : Nat} {log : Log}

/-! ## Queries in expressions and operands -/

namespace Expr

variable {e p : Expr}

theorem nestingList_le_iff {es : List Expr} : nestingList es ≤ n ↔ ∀ e ∈ es, e.nesting ≤ n := by
  induction es with
  | nil => simp [nestingList]
  | cons e es ih => simp [nestingList, ih]

theorem nestingBindings_le_iff {bs : List Binding} :
    nestingBindings bs ≤ n ↔ ∀ b ∈ bs, b.value.nesting ≤ n := by
  induction bs with
  | nil => simp [nestingBindings]
  | cons b bs ih =>
    obtain ⟨name, v⟩ := b
    simp [nestingBindings, ih]

theorem nesting_le_of_mem_parts (hp : p ∈ e.parts) : p.nesting ≤ e.nesting := by
  cases e with
  | param | constant | query | source => cases hp
  | call method target args =>
    rw [nesting]
    rcases List.mem_append.1 hp with hp | hp
    · obtain rfl : target = some p := by simpa using hp
      exact Nat.le_max_left _ _
    · exact (nestingList_le_iff.1 (Nat.le_refl _) p hp).trans (Nat.le_max_right _ _)
  | object ty bindings =>
    obtain ⟨b, hb, rfl⟩ := List.mem_map.1 hp
    exact nestingBindings_le_iff.1 (Nat.le_refl _) b hb
  | lambda l =>
    obtain ⟨params, body⟩ := l
    obtain rfl : p = body := by simpa [parts] using hp
    exact Nat.le_refl _
  | aggregate func arg =>
    obtain rfl : arg = some p := by simpa [parts] using hp
    exact Nat.le_refl _
  | _ =>
    simp only [parts, List.mem_cons, List.not_mem_nil, or_false] at hp
    simp only [nesting]
    rcases hp with rfl | rfl | rfl <;> omega

/-- **A query in an expression is nested less deep than the expression.** -/
theorem nesting_lt_of_mentions (h : e.Mentions (.query log)) : log.nesting < e.nesting := by
  induction e using induction_parts with
  | h e ih =>
    rcases mentions_iff.1 h with h | ⟨p, hp, h⟩
    · cases e with
      | query log' =>
        cases h
        exact Nat.lt_succ_self _
      | _ => cases h
    · exact (ih p hp h).trans_le (nesting_le_of_mem_parts hp)

theorem nestingOperands_of_mem {o : Operand} {os : List Operand} (ho : o ∈ os) :
    nestingOperands [o] ≤ nestingOperands os := by
  induction os with
  | nil => cases ho
  | cons o' os ih =>
    have hparts : nestingOperands [o'] ≤ nestingOperands (o' :: os) ∧
        nestingOperands os ≤ nestingOperands (o' :: os) := by
      cases o' with
      | lambda l =>
        obtain ⟨params, body⟩ := l
        simp only [nestingOperands]
        omega
      | query log =>
        simp only [nestingOperands]
        omega
      | _ => simp [nestingOperands]
    rcases List.mem_cons.1 ho with rfl | ho
    · exact hparts.1
    · exact (ih ho).trans hparts.2

end Expr

namespace Operator

variable {op : Operator} {i : Nat}

theorem nesting_lambda? {l : Lambda} (h : op.lambda? i = some l) :
    l.body.nesting ≤ Expr.nestingOperands op.operands := by
  unfold lambda? at h
  split at h
  · rename_i l' hget
    cases h
    have hle := Expr.nestingOperands_of_mem (List.mem_of_getElem? hget)
    obtain ⟨params, body⟩ := l
    simp only [Expr.nestingOperands] at hle
    exact (Nat.le_max_left _ _).trans hle
  · cases h

theorem nesting_query? (h : op.query? i = some log) :
    log.nesting < Expr.nestingOperands op.operands := by
  unfold query? at h
  split at h
  · rename_i log' hget
    cases h
    have hle := Expr.nestingOperands_of_mem (List.mem_of_getElem? hget)
    simp only [Expr.nestingOperands] at hle
    exact Nat.lt_of_succ_le ((Nat.le_max_left _ _).trans hle)
  · cases h

/-- A query in a lambda of an operator is nested less deep than the operator. -/
theorem nesting_of_mentions (h : op.Mentions (.query log)) :
    log.nesting < Expr.nestingOperands op.operands := by
  obtain ⟨i, l, hl, hm⟩ := h
  exact (Expr.nesting_lt_of_mentions hm).trans_le (nesting_lambda? hl)

end Operator

theorem Log.nesting_of_mem {op : Operator} (h : op ∈ log) :
    Expr.nestingOperands op.operands ≤ log.nesting := by
  induction log with
  | nil => cases h
  | cons o log ih =>
    obtain ⟨kind, operands⟩ := o
    simp only [nesting, Expr.nestingLog]
    rcases List.mem_cons.1 h with rfl | h
    · exact Nat.le_max_left _ _
    · exact (ih h).trans (Nat.le_max_right _ _)

/-! ## One step -/

/-- Two ways to plan nested queries agree on those nested less deep than `n`. -/
def AgreeBelow (n : Nat) (nested nested' : Log → Compiled Layer) : Prop :=
  ∀ log : Log, log.nesting < n → nested log = nested' log

namespace Draft

variable {d d' : Draft} {op : Operator}

/-- The queries that a draft mentions are nested less deep than `n`. -/
def Shallow (n : Nat) (d : Draft) : Prop :=
  ∀ e ∈ d.exprs, ∀ log : Log, e.Mentions (.query log) → log.nesting < n

theorem joinTarget_congr {source : Nat} (h : nested log = nested' log) :
    joinTarget schema nested log source = joinTarget schema nested' log source := by
  unfold joinTarget
  rw [h]

theorem mentions_of_strip {e : Expr} (h : (Unmatched.strip e).1 = .query log) :
    e.Mentions (.query log) := by
  have hquery : (Expr.query log).Mentions (.query log) := Expr.mentions_iff.2 (.inl rfl)
  unfold Unmatched.strip at h
  split at h
  · subst h
    exact hquery.part (by simp)
  · subst h
    exact hquery.part (by simp)
  · subst h
    exact hquery

theorem selectMany_congr (hn : AgreeBelow n nested nested') (hd : d.Shallow n)
    (hop : Expr.nestingOperands op.operands ≤ n) :
    d.selectMany schema nested op = d.selectMany schema nested' op := by
  unfold selectMany
  refine Compiled.bind_congr_ok fun l hl => Compiled.bind_congr_ok fun collection hcollection => ?_
  have hflatten : d.flatten schema nested (Unmatched.strip collection).1
      (Unmatched.strip collection).2 = d.flatten schema nested' (Unmatched.strip collection).1
      (Unmatched.strip collection).2 := by
    unfold flatten
    split
    case h_2 log hlog =>
      have hlt : Log.nesting log < n := by
        rcases mentions_bindRow hcollection (mentions_of_strip hlog) with hm | hm
        · have hmention : op.Mentions (.query log) := ⟨0, l, lambda?_of_lambda hl, hm⟩
          exact (Operator.nesting_of_mentions hmention).trans_le hop
        · exact hd d.row row_mem_exprs log hm
      simp only [crossJoin, joinTarget_congr (hn log hlt)]
    all_goals rfl
  simp only [hflatten]

theorem apply_congr (hn : AgreeBelow n nested nested') (hd : d.Shallow n)
    (hop : Expr.nestingOperands op.operands ≤ n) :
    d.apply schema nested op = d.apply schema nested' op := by
  have hquery {i : Nat} {log : Log} (h : op.query? i = some log) : nested log = nested' log :=
    hn log ((Operator.nesting_query? h).trans_le hop)
  unfold apply
  split
  case h_4 => exact selectMany_congr hn hd hop
  case h_5 | h_6 | h_7 =>
    unfold join
    split
    · rfl
    · rename_i log hlog
      simp only [joinTarget_congr (hquery hlog)]
  case h_27 =>
    split
    · rfl
    · rename_i log hlog
      rw [hquery hlog]
  all_goals rfl

theorem step_congr (hn : AgreeBelow n nested nested') (hd : d.Shallow n)
    (hop : Expr.nestingOperands op.operands ≤ n) :
    d.step schema nested op = d.step schema nested' op := by
  cases ht : d.terminal with
  | some kind => simp only [step, ht]
  | none =>
    rw [step_of_terminal ht, step_of_terminal ht]
    refine Compiled.bind_congr_ok fun d₁ hd₁ => ?_
    have hshallow : d₁.Shallow n := by
      rcases opened_eq_ok hd₁ with ⟨-, hwrap⟩ | ⟨-, rfl⟩
      · intro e he log hm
        cases (exprs_wrap hwrap he).2 _ hm
      · exact hd
    rw [apply_congr hn hshallow hop]

/-- A step keeps the queries that a draft mentions below the nesting of the log. -/
theorem Shallow.step (hd : d.Shallow n) (hop : Expr.nestingOperands op.operands ≤ n)
    (hstep : d.step schema nested op = .ok d') : d'.Shallow n := by
  obtain ⟨d₁, hd₁, -, hmade⟩ := made_step hstep
  intro e he log hm
  rcases (hmade e he).mentions _ hm with ⟨e₀, he₀, hm⟩ | hm | hm
  · rcases hd₁ with rfl | ⟨-, hd₁⟩
    · exact hd e₀ he₀ log hm
    · cases (hd₁ e₀ he₀).2 _ hm
  · exact (Operator.nesting_of_mentions hm).trans_le hop
  · cases hm

/-- **A run meets no query nested as deep as its log.** -/
theorem foldlM_step_congr (hn : AgreeBelow n nested nested') {ops : Log} {d : Draft}
    (hops : ∀ op ∈ ops, Expr.nestingOperands op.operands ≤ n) (hd : d.Shallow n) :
    ops.foldlM (step schema nested) d = ops.foldlM (step schema nested') d := by
  induction ops generalizing d with
  | nil => rfl
  | cons op ops ih =>
    have hop := hops op (by simp)
    simp only [List.foldlM_cons, ← step_congr hn hd hop]
    exact Compiled.bind_congr_ok fun d' hd' =>
      ih (fun op hop => hops op (by simp [hop])) (hd.step hop hd')

theorem shallow_ofSource (ty : String) : (ofSource ty).Shallow n := by
  intro e he log hm
  obtain rfl : e = .source 0 := by
    simpa [exprs, ofSource, Layer.ofSource, Layer.empty] using he
  cases Expr.mentions_source.1 hm

end Draft

namespace Plan

theorem ofLogWith_congr (hn : AgreeBelow log.nesting nested nested') :
    ofLogWith schema nested log = ofLogWith schema nested' log := by
  unfold ofLogWith
  refine Compiled.bind_congr_ok fun _ _ => Compiled.bind_congr_ok fun ⟨d₀, ops⟩ hstart => ?_
  have hmem := Draft.mem_of_start hstart
  obtain ⟨ty, rfl, -⟩ := Draft.start_eq_ok hstart
  have hrun : ops.foldlM (Draft.step schema nested) (Draft.ofSource ty) =
      ops.foldlM (Draft.step schema nested') (Draft.ofSource ty) :=
    Draft.foldlM_step_congr hn (fun op hop => Log.nesting_of_mem (hmem op hop))
      (Draft.shallow_ofSource ty)
  simp only [hrun]

/-- **Bounds beyond the nesting of a log give it one outcome.** -/
theorem ofLogAt_eq {depth : Nat} (h : log.nesting < depth) :
    ofLogAt schema depth log = ofLog schema log := by
  induction hn : log.nesting using Nat.strong_induction_on generalizing depth log with
  | h n ih =>
    obtain ⟨depth, rfl⟩ : ∃ k, depth = k + 1 := ⟨depth - 1, by omega⟩
    rw [ofLog, ofLogAt, ofLogAt]
    refine ofLogWith_congr fun inner hinner => ?_
    have hdepth : ofLogAt schema depth inner = ofLog schema inner :=
      ih inner.nesting (by omega) (by omega) rfl
    have hleast : ofLogAt schema log.nesting inner = ofLog schema inner :=
      ih inner.nesting (by omega) (by omega) rfl
    rw [hdepth, hleast]

theorem nestedAt_eq {depth : Nat} (h : log.nesting < depth) :
    nestedAt schema depth log = ofLog schema log >>= nestedLayer := by
  rw [nestedAt, ofLogAt_eq h]

end Plan

end QueryCompiler

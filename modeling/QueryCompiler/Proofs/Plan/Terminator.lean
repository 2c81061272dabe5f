import QueryCompiler.Log.Build
import QueryCompiler.Proofs.Plan.Applied
import QueryCompiler.Proofs.Plan.Depth
import QueryCompiler.Proofs.Plan.Split
/-!
# Closed layers stay as they are

A bound on the number of rows, `Distinct` and `AsSubquery` close a layer: whatever operator comes
next is read by an outer layer. So the plan of a log that ends there is found unchanged inside the
plan of every longer log (`Plan.below_of_closes`).

The layer is made twice: at the end of the shorter log, where it could still be split, and by the
wrapping of the next operator in the longer one. Both give the finished draft, since a row that can
be wrapped binds no collection (`separateCollections_eq_self`). After that nothing reaches it: an
operator works on the outermost layer, and wrapping and splitting put that layer below a new one
(`below_step`, `below_separateCollections`).
-/

namespace QueryCompiler

open Compiled (bind_eq_ok pure_eq_ok)

variable {schema : Schema} {nested : Log → Compiled Layer}

/-- `p` is one of the layers below `q`: the one that `q` reads, the one which that reads, and so
on. -/
inductive Layer.Below (p : Layer) : Layer → Prop where
  | direct {q : Layer} (h : q.subquery = some p) : Below p q
  | deeper {q m : Layer} (h : q.subquery = some m) (hm : Below p m) : Below p q

/-- Whether an operator closes the layer to the next one. A number of rows to pass over can still
be followed by a number of rows to take. -/
def Operator.closes (op : Operator) (next : OpKind) : Bool :=
  match op.kind with
  | .distinct | .asSubquery => true
  | .take => op.rowCount?.getD 0 > 0
  | .skip => op.rowCount?.getD 0 > 0 && next != .take
  | _ => false

namespace Layer

variable {l p q : Layer}

theorem Below.of_subquery_eq (h : p.Below l) (hq : q.subquery = l.subquery) : p.Below q := by
  cases h with
  | direct h => exact .direct (hq.trans h)
  | deeper h hm => exact .deeper (hq.trans h) hm

/-- A split puts the layer below a new one, over the same rows. -/
theorem below_separateCollections (h : p.Below l) (hq : l.separateCollections schema = .ok q) :
    p.Below q := by
  rcases separateCollections_eq_ok hq with ⟨rfl, -⟩ | ⟨hsplit, -⟩
  · exact h
  · obtain ⟨select, orders, columns, -, -, rfl⟩ := split_eq_ok hsplit
    exact .deeper rfl (h.of_subquery_eq rfl)

/-- **A layer whose row can be read from above is not split**, unless it loads paths. -/
theorem separateCollections_eq_self {id : Nat} {r : Expr × Option String}
    (hrow : l.derivedRow schema id = .ok r) (hincludes : l.includes = [])
    (h : l.separateCollections schema = .ok p) : p = l := by
  rcases separateCollections_eq_ok h with ⟨rfl, -⟩ | ⟨-, -, -, -, ⟨shape, hshape, hflat⟩, hreach⟩
  · rfl
  exfalso
  have hincluded : l.includesCollection schema = .ok false := includesCollection_of_nil hincludes
  have hbound : l.bindsCollection schema l.select = .ok false := by
    rcases derivedRow_cases hrow with ⟨k, hk, -⟩ | ⟨ty, bindings, hs, hscalar, -⟩ | ⟨-, hs, -⟩
    · rw [bindsCollection_of_shape (by rw [hk]; rfl) hshape, hflat]
    · rw [hs, bindsCollection]
      exact bindsCollectionAny_of_scalar hscalar
    · rw [bindsCollection_of_shape hs hshape, hflat]
  rw [hbound, hincluded] at hreach
  simp at hreach

end Layer

namespace Draft

variable {d d' : Draft} {op : Operator} {p : Layer}

/-! ## One step -/

/-- **A step leaves the layers below alone**, and puts the current one below if it starts a new
one. -/
theorem below_step (h : p.Below d.layer) (hstep : d.step schema nested op = .ok d') :
    p.Below d'.layer := by
  obtain ⟨-, d₁, d₂, hd₁, happlied, rfl⟩ := step_eq_ok hstep
  have h₁ : p.Below d₁.layer := by
    rcases hd₁ with ⟨-, hwrap⟩ | ⟨-, rfl⟩
    · obtain ⟨row, source, -, rfl⟩ := wrap_eq_ok hwrap
      exact .deeper rfl (h.of_subquery_eq rfl)
    · exact h
  exact h₁.of_subquery_eq happlied.subquery_eq

/-- A step that starts a new layer puts the finished draft below it. -/
theorem below_of_mustClose (hclose : d.mustClose op.kind)
    (hincludes : d.layer.includes = []) (hstep : d.step schema nested op = .ok d') :
    (∃ r, d.finished.derivedRow schema 0 = .ok r) ∧ d.finished.Below d'.layer := by
  obtain ⟨-, d₁, d₂, hd₁, happlied, rfl⟩ := step_eq_ok hstep
  have hfinished : { d.finished with includes := [] } = d.finished := by
    simp [finished, hincludes]
  rcases hd₁ with ⟨-, hwrap⟩ | ⟨hopen, -⟩
  · obtain ⟨row, source, hrow, rfl⟩ := wrap_eq_ok hwrap
    rw [hfinished] at hrow happlied
    exact ⟨⟨_, hrow⟩, .direct happlied.subquery_eq⟩
  · rw [hclose] at hopen
    cases hopen

theorem includes_step (hk : op.kind ≠ .includePath) (h : d.layer.includes = [])
    (hstep : d.step schema nested op = .ok d') : d'.layer.includes = [] := by
  obtain ⟨-, d₁, d₂, hd₁, happlied, rfl⟩ := step_eq_ok hstep
  refine (happlied.includes_eq hk).trans ?_
  rcases hd₁ with ⟨-, hwrap⟩ | ⟨-, rfl⟩
  · obtain ⟨row, source, -, rfl⟩ := wrap_eq_ok hwrap
    simp [finished, h]
  · exact h

/-- An operator that closes the layer to the next one leaves a draft that must be closed. -/
theorem mustClose_of_closes {next : OpKind} (hc : op.closes next)
    (h : Applied schema nested d op d') : d'.mustClose next = true := by
  have hkind : op.kind = .distinct ∨ op.kind = .asSubquery ∨ op.kind = .take ∨ op.kind = .skip := by
    unfold Operator.closes at hc
    split at hc <;> simp_all
  cases h with
  | take hk =>
    simp only [Operator.closes, hk] at hc
    simp only [mustClose, take, hc, Bool.true_or]
  | skip hk hn =>
    simp only [Operator.closes, hk, ← hn, Bool.and_eq_true] at hc
    simp only [mustClose, hc, Bool.true_and, Bool.or_true, Bool.true_or]
  | distinct => simp [mustClose]
  | asSubquery => simp [mustClose]
  | @order _ _ descending hk | @refineOrder _ _ descending hk =>
    cases descending <;> simp [hk] at hkind
  | filter hk | select hk | selectMany hk | group hk | any hk | union hk | includePath hk =>
    simp [hk] at hkind
  | join hk | modify hk => rcases hk with hk | hk | hk <;> simp [hk] at hkind
  | first hk | aggregate hk =>
    rcases hkind with hkind | hkind | hkind | hkind <;> rw [hkind] at hk <;> cases hk

/-! ## Whole logs -/

/-- A log starts at the table of a type, with the operators behind the one that names it or with
all of them. -/
theorem start_eq_ok {log ops : Log} (h : start schema log = .ok (d, ops)) :
    ∃ ty, d = ofSource ty ∧ (ops = log ∨ ∃ op, op.kind = .getSource ∧ log = op :: ops) := by
  cases log with
  | nil => cases h
  | cons op log =>
    simp only [start] at h
    split at h
    case h_1 ty hk ho =>
      simp only [bind_eq_ok, pure_eq_ok, Prod.mk.injEq] at h
      obtain ⟨_, -, rfl, rfl⟩ := h
      exact ⟨ty, rfl, .inr ⟨op, hk, rfl⟩⟩
    case h_2 e _ _ | h_3 e _ _ | h_4 e _ _ =>
      simp only [bind_eq_ok, pure_eq_ok, Prod.mk.injEq] at h
      obtain ⟨_, -, rfl, rfl⟩ := h
      exact ⟨e.ty, rfl, .inl rfl⟩
    case h_5 =>
      split at h
      · rename_i e _
        simp only [bind_eq_ok, pure_eq_ok, Prod.mk.injEq] at h
        obtain ⟨_, -, rfl, rfl⟩ := h
        exact ⟨e.ty, rfl, .inl rfl⟩
      · cases h
    case h_6 => cases h

theorem mem_of_start {log ops : Log} (h : start schema log = .ok (d, ops)) :
    ∀ op ∈ ops, op ∈ log := by
  obtain ⟨-, -, hops⟩ := start_eq_ok h
  rcases hops with rfl | ⟨op, -, rfl⟩
  · exact fun op hop => hop
  · exact fun op hop => List.mem_cons_of_mem _ hop

theorem start_append {log ops : Log} (more : Log) (h : start schema log = .ok (d, ops)) :
    start schema (log ++ more) = .ok (d, ops ++ more) := by
  cases log with
  | nil => cases h
  | cons op log =>
    simp only [List.cons_append, start] at h ⊢
    split at h
    case h_1 | h_2 | h_3 | h_4 =>
      obtain ⟨entity, hentity, h⟩ := bind_eq_ok.1 h
      cases h
      exact bind_eq_ok.2 ⟨entity, hentity, rfl⟩
    case h_5 =>
      split at h
      · obtain ⟨entity, hentity, h⟩ := bind_eq_ok.1 h
        cases h
        exact bind_eq_ok.2 ⟨entity, hentity, rfl⟩
      · cases h
    case h_6 => cases h

theorem plan_eq_select {q : Layer} (h : d.plan schema = .ok (.select q)) :
    d.finished.separateCollections schema = .ok q := by
  unfold plan at h
  split at h
  · obtain ⟨layer, hlayer, h⟩ := bind_eq_ok.1 h
    cases h
    exact hlayer
  · cases h
  · obtain ⟨ty, -, h⟩ := bind_eq_ok.1 h
    cases h
  · obtain ⟨ty, -, h⟩ := bind_eq_ok.1 h
    cases h

/-- **Operators that come after a layer is closed leave it below.** -/
theorem below_of_closes {ops suffix : Log} {last next : Operator} {d₀ : Draft} {q : Layer}
    (hincludes : d₀.layer.includes = []) (hops : ∀ op ∈ ops, op.kind ≠ .includePath)
    (hlast : ops.getLast? = some last) (hc : last.closes next.kind)
    (hd : ops.foldlM (step schema nested) d₀ = .ok d)
    (hp : d.finished.separateCollections schema = .ok p)
    (hd' : (next :: suffix).foldlM (step schema nested) d = .ok d')
    (hq : d'.finished.separateCollections schema = .ok q) : p.Below q := by
  have hd_includes : d.layer.includes = [] :=
    Compiled.foldlM_induction (fun op hop _ _ h hstep => includes_step (hops op hop) h hstep)
      hincludes hd
  have hclose : d.mustClose next.kind = true := by
    obtain ⟨init, rfl⟩ := List.getLast?_eq_some_iff.1 hlast
    simp only [List.foldlM_append, List.foldlM_cons, List.foldlM_nil, bind_eq_ok,
      pure_eq_ok] at hd
    obtain ⟨d₁, -, _, hstep, rfl⟩ := hd
    obtain ⟨-, _, d₂, -, happlied, rfl⟩ := step_eq_ok hstep
    have hclose₂ : d₂.mustClose next.kind = true := mustClose_of_closes hc happlied
    exact hclose₂
  simp only [List.foldlM_cons, bind_eq_ok] at hd'
  obtain ⟨d₁, hstep, hsuffix⟩ := hd'
  obtain ⟨⟨r, hrow⟩, hbelow⟩ := below_of_mustClose hclose hd_includes hstep
  have hp : p = d.finished :=
    Layer.separateCollections_eq_self hrow (by simp [finished, hd_includes]) hp
  have hbelow' : p.Below d'.layer := by
    refine Compiled.foldlM_induction (fun op _ _ _ h hstep => below_step h hstep) ?_ hsuffix
    rw [hp]
    exact hbelow
  have hfinished : p.Below d'.finished := hbelow'.of_subquery_eq rfl
  exact Layer.below_separateCollections hfinished hq

end Draft

theorem Log.nesting_append (log more : Log) :
    Log.nesting (log ++ more) = max (Log.nesting log) (Log.nesting more) := by
  induction log with
  | nil => simp [Log.nesting, Expr.nestingLog]
  | cons op ops ih =>
    obtain ⟨kind, operands⟩ := op
    simp only [Log.nesting, List.cons_append, Expr.nestingLog] at ih ⊢
    rw [ih, Nat.max_assoc]

/-- **The plan of a closed prefix stays as it is.** When a log ends with an operator that closes its
layer to the next one, and loads no paths, its plan is found unchanged below the plan of any log
that goes on from there. -/
theorem Plan.below_of_closed_prefix {log suffix : Log} {last next : Operator} {p q : Layer}
    (hincludes : ∀ op ∈ log, op.kind ≠ .includePath) (hlast : log.getLast? = some last)
    (hcloses : last.closes next.kind) (hp : Plan.ofLog schema log = .ok (.select p))
    (hq : Plan.ofLog schema (log ++ next :: suffix) = .ok (.select q)) : p.Below q := by
  -- both plans are made with the depth of the longer log
  have hdepth : log.nesting + 1 ≤ Log.nesting (log ++ next :: suffix) + 1 := by
    rw [Log.nesting_append]
    omega
  have hp := ofLogAt_mono hdepth hp
  simp only [ofLog, ofLogAt, ofLogWith, bind_eq_ok] at hp hq
  obtain ⟨⟨⟩, -, ⟨d₀, ops⟩, hstart, d, hd, hp⟩ := hp
  obtain ⟨⟨⟩, -, ⟨d₀', ops'⟩, hstart', d', hd', hq⟩ := hq
  rw [Draft.start_append _ hstart] at hstart'
  cases hstart'
  obtain ⟨ty, rfl, hops⟩ := Draft.start_eq_ok hstart
  have hlast' : ops.getLast? = some last ∧ ∀ op ∈ ops, op.kind ≠ .includePath := by
    rcases hops with rfl | ⟨source, hk, rfl⟩
    · exact ⟨hlast, hincludes⟩
    · refine ⟨?_, fun op hop => hincludes op (by simp [hop])⟩
      cases ops with
      | nil =>
        -- the operator that names the source closes nothing
        cases hlast
        simp [Operator.closes, hk] at hcloses
      | cons op ops => simpa using hlast
  simp only [List.foldlM_append, bind_eq_ok] at hd'
  obtain ⟨_, hd₁, hd'⟩ := hd'
  rw [hd] at hd₁
  cases hd₁
  exact Draft.below_of_closes rfl hlast'.2 hlast'.1 hcloses hd (Draft.plan_eq_select hp) hd'
    (Draft.plan_eq_select hq)

def Schema.books : Schema :=
  Schema.empty.register ⟨"Book", "books",
    [⟨"Id", .column (.new "id" .int)⟩, ⟨"Title", .column (.new "title" .nVarChar)⟩]⟩

def Log.firstBooks : Log :=
  [.getSource "Book", .orderBy ⟨["b"], .member (.param "b") "Id"⟩, .take 5]

def Layer.firstBooks : Layer :=
  { ofSource "Book" with orders := [⟨.member (.source 0) "Id", false⟩], take := 5 }

/-- The layer of two distinct titles of the first five books. -/
def Layer.firstTitles : Layer :=
  { ofLayer none { ofLayer (some "Book") firstBooks with
      select := .member (.source 0) "Title", distinct := true } with
    select := .member (.source 0) "Title", take := 2 }

/-- The first five books stand two layers below two of their distinct titles. -/
theorem Plan.below_of_closed_prefix_books :
    Plan.ofLog Schema.books Log.firstBooks = .ok (.select Layer.firstBooks) ∧
      Plan.ofLog Schema.books (Log.firstBooks ++
        .select ⟨["b"], .member (.param "b") "Title"⟩ :: [.distinct, .take 2]) =
          .ok (.select Layer.firstTitles) ∧
      Layer.firstBooks.Below Layer.firstTitles := by
  have hp : Plan.ofLog Schema.books Log.firstBooks = .ok (.select Layer.firstBooks) := by cbv
  have hq : Plan.ofLog Schema.books (Log.firstBooks ++
      .select ⟨["b"], .member (.param "b") "Title"⟩ :: [.distinct, .take 2]) =
        .ok (.select Layer.firstTitles) := by cbv
  exact ⟨hp, hq, below_of_closed_prefix (by decide) rfl rfl hp hq⟩

end QueryCompiler

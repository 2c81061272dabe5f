import QueryCompiler.Proofs.Plan.Nesting
/-!
# Logs that continue one another

A log is read from left to right, so a longer log first leaves the draft that its beginning leaves
(`Draft.ofLog_append`). What is said of a draft here holds of every draft of a log: its expressions
are reduced, and their marks are in scope or stand in the log.

Nested queries are planned by a log with a bound on their depth. As the bound makes no difference,
all logs plan them in one way (`Plan.nested`).
-/

namespace QueryCompiler

open Compiled (bind_eq_ok pure_eq_ok ok_bind)

variable {schema : Schema}

def Plan.nested (schema : Schema) (log : Log) : Compiled Layer :=
  ofLog schema log >>= nestedLayer

namespace Draft

variable {d e : Draft} {log more : Log} {op : Operator} {kind : OpKind}

/-- **The draft of a log, without a bound on depth.** -/
theorem ofLog_eq (log : Log) : ofLog schema log = log.validate >>= fun _ =>
    start schema log >>= fun r => r.2.foldlM (step schema (Plan.nested schema)) r.1 := by
  unfold ofLog
  refine Compiled.bind_congr_ok fun _ _ => Compiled.bind_congr_ok fun ⟨d₀, ops⟩ hstart => ?_
  have hmem := mem_of_start hstart
  obtain ⟨ty, rfl, -⟩ := start_eq_ok hstart
  exact foldlM_step_congr (fun inner hinner => Plan.nestedAt_eq hinner)
    (fun op hop => Log.nesting_of_mem (hmem op hop)) (shallow_ofSource ty)

theorem ofLog_eq_ok_iff : ofLog schema log = .ok d ↔ log.validate = .ok () ∧
    ∃ d₀ ops, start schema log = .ok (d₀, ops) ∧
      ops.foldlM (step schema (Plan.nested schema)) d₀ = .ok d := by
  rw [ofLog_eq]
  simp only [bind_eq_ok]
  constructor
  · rintro ⟨⟨⟩, hvalid, ⟨d₀, ops⟩, hstart, hrun⟩
    exact ⟨hvalid, d₀, ops, hstart, hrun⟩
  · rintro ⟨hvalid, d₀, ops, hstart, hrun⟩
    exact ⟨(), hvalid, (d₀, ops), hstart, hrun⟩

/-- What holds of a draft over a table and is kept by the operators of a log holds of the draft that
the log leaves. -/
theorem ofLog_induction {motive : Draft → Prop} (h : ofLog schema log = .ok d)
    (hsource : ∀ ty, motive (ofSource ty))
    (hstep : ∀ op ∈ log, ∀ d d', motive d → d.step schema (Plan.nested schema) op = .ok d' →
      motive d') : motive d := by
  obtain ⟨-, d₀, ops, hstart, hrun⟩ := ofLog_eq_ok_iff.1 h
  have hmem := mem_of_start hstart
  obtain ⟨ty, rfl, -⟩ := start_eq_ok hstart
  exact Compiled.foldlM_induction (fun op hop d d' hd hd' => hstep op (hmem op hop) d d' hd hd')
    (hsource ty) hrun

/-! ## Beginnings -/

theorem start_append_eq (hlog : log ≠ []) (more : Log) : start schema (log ++ more) =
    start schema log >>= fun r => .ok (r.1, r.2 ++ more) := by
  cases log with
  | nil => exact absurd rfl hlog
  | cons op log =>
    simp only [List.cons_append, start]
    split
    case h_1 | h_2 | h_3 | h_4 => simp only [bind_assoc]; rfl
    case h_5 =>
      split
      · simp only [bind_assoc]; rfl
      · rfl
    case h_6 => rfl

theorem validate_append : (log ++ more).validate = .ok () ↔
    log.validate = .ok () ∧ more.validate = .ok () := by
  simp only [Log.validate, Compiled.forM_eq_ok, List.forall_mem_append]

theorem validate_cons {ops : Log} : Log.validate (op :: ops) = .ok () ↔
    op.validate = .ok () ∧ ops.validate = .ok () := by
  simp only [Log.validate, Compiled.forM_eq_ok, List.forall_mem_cons]

/-- **A log that continues another first leaves the draft of that one.** -/
theorem ofLog_append (hmore : ∀ r, start schema more ≠ .ok r) :
    ofLog schema (log ++ more) = .ok e ↔ more.validate = .ok () ∧
      ∃ d, ofLog schema log = .ok d ∧
        more.foldlM (step schema (Plan.nested schema)) d = .ok e := by
  cases log with
  | nil =>
    constructor
    · intro h
      obtain ⟨-, d₀, ops, hstart, -⟩ := ofLog_eq_ok_iff.1 h
      exact absurd hstart (hmore _)
    · rintro ⟨-, d, hd, -⟩
      obtain ⟨-, d₀, ops, hstart, -⟩ := ofLog_eq_ok_iff.1 hd
      cases hstart
  | cons op log =>
    simp only [ofLog_eq_ok_iff, validate_append, start_append_eq (List.cons_ne_nil op log)]
    constructor
    · rintro ⟨⟨hvalid, hvalid'⟩, d₀, ops, hstart, hrun⟩
      obtain ⟨⟨d₁, ops₁⟩, hstart₁, heq⟩ := bind_eq_ok.1 hstart
      cases heq
      rw [List.foldlM_append] at hrun
      obtain ⟨d, hd, hrun⟩ := bind_eq_ok.1 hrun
      exact ⟨hvalid', d, ⟨hvalid, d₁, ops₁, hstart₁, hd⟩, hrun⟩
    · rintro ⟨hvalid', d, ⟨hvalid, d₀, ops, hstart, hd⟩, hrun⟩
      refine ⟨⟨hvalid, hvalid'⟩, d₀, ops ++ more, ?_, ?_⟩
      · rw [hstart, ok_bind]
      · rw [List.foldlM_append, hd, ok_bind, hrun]

/-! ## The next operator -/

/-- `d` is the draft that an operator of a kind is applied to behind a log. -/
def Precedes (schema : Schema) (log : Log) (kind : OpKind) (d : Draft) : Prop :=
  ∃ d₀, ofLog schema log = .ok d₀ ∧ d₀.terminal = none ∧ d₀.opened schema kind = .ok d

/-- Whether an operator starts a layer is a matter of a few of its properties. -/
theorem mustClose_congr {kind' : OpKind} (htake : (kind != .take) = (kind' != .take))
    (hunion : (kind != .union) = (kind' != .union))
    (hgrouping : kind.leavesGrouping = kind'.leavesGrouping) :
    d.mustClose kind = d.mustClose kind' := by
  simp only [mustClose, htake, hunion, hgrouping]

/-- The draft that an operator is applied to need not be closed for it. -/
theorem mustClose_opened (h : d.opened schema kind = .ok e) : e.mustClose kind = false := by
  rcases opened_eq_ok h with ⟨-, hwrap⟩ | ⟨hopen, rfl⟩
  · obtain ⟨row, source, -, rfl⟩ := wrap_eq_ok hwrap
    rfl
  · exact hopen

theorem terminal_opened (h : d.opened schema kind = .ok e) (hd : d.terminal = none) :
    e.terminal = none := by
  rcases opened_eq_ok h with ⟨-, hwrap⟩ | ⟨-, rfl⟩
  · obtain ⟨row, source, -, rfl⟩ := wrap_eq_ok hwrap
    rfl
  · exact hd

def counted (d : Draft) : Draft := { d with applied := d.applied + 1 }

/-- A draft that need not be closed is stepped by applying the operator. -/
theorem step_of_open {nested : Log → Compiled Layer} (ht : d.terminal = none)
    (hopen : d.mustClose op.kind = false) : d.step schema nested op =
      d.apply schema nested op >>= fun e => .ok e.counted := by
  rw [step_of_terminal ht, opened, hopen]
  rfl

/-- **A step opens the draft for the operator and applies it.** -/
theorem step_iff {nested : Log → Compiled Layer} :
    d.step schema nested op = .ok e ↔ d.terminal = none ∧
      ∃ d₁, d.opened schema op.kind = .ok d₁ ∧ d₁.step schema nested op = .ok e := by
  constructor
  · intro h
    obtain ⟨ht, -⟩ := step_eq_ok h
    rw [step_of_terminal ht] at h
    obtain ⟨d₁, hopened, h⟩ := bind_eq_ok.1 h
    refine ⟨ht, d₁, hopened, ?_⟩
    rw [step_of_terminal (terminal_opened hopened ht), opened, mustClose_opened hopened]
    exact h
  · rintro ⟨ht, d₁, hopened, h⟩
    rw [step_of_terminal (terminal_opened hopened ht), opened, mustClose_opened hopened] at h
    rw [step_of_terminal ht, hopened]
    exact h

/-- **A log is read up to the draft that the next operator is applied to**, and on from there. -/
theorem ofLog_append_cons {ops : Log} (hstart : ∀ r, start schema (op :: ops) ≠ .ok r) :
    ofLog schema (log ++ op :: ops) = .ok e ↔ Log.validate (op :: ops) = .ok () ∧
      ∃ d, Precedes schema log op.kind d ∧
        (op :: ops).foldlM (step schema (Plan.nested schema)) d = .ok e := by
  rw [ofLog_append hstart]
  refine and_congr_right fun _ => ?_
  simp only [List.foldlM_cons, bind_eq_ok]
  constructor
  · rintro ⟨d, hd, d', hstep, hrun⟩
    obtain ⟨ht, d₁, hopened, hstep⟩ := step_iff.1 hstep
    exact ⟨d₁, ⟨d, hd, ht, hopened⟩, d', hstep, hrun⟩
  · rintro ⟨d₁, ⟨d, hd, ht, hopened⟩, d', hstep, hrun⟩
    exact ⟨d, hd, d', step_iff.2 ⟨ht, d₁, hopened, hstep⟩, hrun⟩

/-- **A modification at the end of a log modifies the rows of the query ahead of it**, which are read
from a table: the rows of an inner layer are refused, so no layer has been closed for it. -/
theorem ofLog_concat_modify (hkind : op.kind = .insert ∨ op.kind = .update ∨ op.kind = .delete)
    (hstart : ∀ r, start schema [op] ≠ .ok r) (h : ofLog schema (log ++ [op]) = .ok e) :
    ∃ d source m, ofLog schema log = .ok d ∧ d.layer.source = some source ∧
      d.layer.subquery = none ∧ d.modificationOf schema op source = .ok m ∧
      e = ({ d with modification := some m }.finishWith op.kind).counted := by
  obtain ⟨-, d, hd, hrun⟩ := (ofLog_append hstart).1 h
  simp only [List.foldlM_cons, List.foldlM_nil, bind_eq_ok, pure_eq_ok] at hrun
  obtain ⟨_, hstep, rfl⟩ := hrun
  obtain ⟨hterminal, d₁, hopened, hstep⟩ := step_iff.1 hstep
  rw [step_of_open (terminal_opened hopened hterminal) (mustClose_opened hopened)] at hstep
  obtain ⟨d₂, happly, hcounted⟩ := bind_eq_ok.1 hstep
  cases hcounted
  have hmodify : d₁.modify schema op = .ok d₂ := by
    rcases hkind with hkind | hkind | hkind <;> simpa only [apply, hkind] using happly
  unfold modify at hmodify
  split at hmodify
  · rename_i source hsource hderived
    obtain ⟨m, hm, hmodify⟩ := bind_eq_ok.1 hmodify
    cases hmodify
    rcases opened_eq_ok hopened with ⟨-, hwrap⟩ | ⟨-, rfl⟩
    · obtain ⟨row, ty, -, rfl⟩ := wrap_eq_ok hwrap
      cases hderived
    · exact ⟨d₁, source, m, hd, hsource, by simpa [Layer.isDerived] using hderived, hm, rfl⟩
  · cases hmodify

/-! ## What the drafts of a log have -/

theorem reduced_ofLog (h : ofLog schema log = .ok d) : ∀ e ∈ d.exprs, e.Reduced :=
  ofLog_induction h reduced_ofSource fun _ _ _ _ hd hstep => reduced_step hstep hd

theorem Precedes.reduced (h : Precedes schema log kind d) : ∀ e ∈ d.exprs, e.Reduced := by
  obtain ⟨d₀, hd₀, -, hopened⟩ := h
  rcases opened_eq_ok hopened with ⟨-, hwrap⟩ | ⟨-, rfl⟩
  · exact fun e he => (exprs_wrap hwrap he).1
  · exact reduced_ofLog hd₀

theorem marked_ofLog (h : ofLog schema log = .ok d) :
    d.Marked fun m => ∃ op ∈ log, op.Mentions m :=
  ofLog_induction h (marked_ofSource _) fun op hop _ _ hd hstep =>
    hd.step (fun _ hm => ⟨op, hop, hm⟩) hstep

theorem Precedes.marked (h : Precedes schema log kind d) :
    d.Marked fun m => ∃ op ∈ log, op.Mentions m := by
  obtain ⟨d₀, hd₀, -, hopened⟩ := h
  rcases opened_eq_ok hopened with ⟨-, hwrap⟩ | ⟨-, rfl⟩
  · intro e he m hm
    rw [(exprs_wrap hwrap he).2 m hm]
    exact .inr (Nat.zero_le _)
  · exact marked_ofLog hd₀

theorem Precedes.unique (h : Precedes schema log kind d) (h' : Precedes schema log kind e) :
    d = e := by
  obtain ⟨d₀, hd₀, -, hopened⟩ := h
  obtain ⟨e₀, he₀, -, hopened'⟩ := h'
  cases hd₀.symm.trans he₀
  cases hopened.symm.trans hopened'
  rfl

theorem Precedes.terminal (h : Precedes schema log kind d) : d.terminal = none := by
  obtain ⟨d₀, -, ht, hopened⟩ := h
  exact terminal_opened hopened ht

theorem Precedes.mustClose (h : Precedes schema log kind d) : d.mustClose kind = false := by
  obtain ⟨d₀, -, -, hopened⟩ := h
  exact mustClose_opened hopened

theorem Precedes.congr {kind' : OpKind} (h : Precedes schema log kind d)
    (htake : (kind != .take) = (kind' != .take)) (hunion : (kind != .union) = (kind' != .union))
    (hgrouping : kind.leavesGrouping = kind'.leavesGrouping) : Precedes schema log kind' d := by
  obtain ⟨d₀, hd₀, ht, hopened⟩ := h
  refine ⟨d₀, hd₀, ht, ?_⟩
  rwa [opened, ← mustClose_congr htake hunion hgrouping]

end Draft

end QueryCompiler

import QueryCompiler.Plan.OfLog
import QueryCompiler.Proofs.Outcome
/-!
# More depth keeps an answer

Plans of nested queries are made with a bound on how deep queries nest. The bound is there to stop,
never to decide: a log that has a plan at one bound has the same plan at every greater one
(`Plan.ofLogAt_mono`).

Nothing looks at the bound except through the layers of nested queries. So each part of a step is
shown to keep its answer when those layers come from a function that answers at least as often
(`AnsweredBy`), and the bound enters only at the end.
-/

namespace QueryCompiler

open Compiled (bind_eq_ok)

/-- What the first function answers, the second answers the same. -/
def AnsweredBy (nested nested' : Log → Compiled Layer) : Prop :=
  ∀ log layer, nested log = .ok layer → nested' log = .ok layer

variable {schema : Schema} {nested nested' : Log → Compiled Layer}

namespace Draft

variable {d d' : Draft} {op : Operator} (hn : AnsweredBy nested nested')

include hn

theorem joinTarget_mono {log : Log} {source : Nat} {target : JoinTarget × Expr × Option String}
    (h : joinTarget schema nested log source = .ok target) :
    joinTarget schema nested' log source = .ok target := by
  unfold joinTarget at h ⊢
  split at h
  · exact h
  · obtain ⟨layer, hlayer, h⟩ := bind_eq_ok.1 h
    exact bind_eq_ok.2 ⟨layer, hn log layer hlayer, h⟩

theorem join_mono (h : d.join schema nested op = .ok d') : d.join schema nested' op = .ok d' := by
  unfold join at h ⊢
  split at h
  · exact h
  · obtain ⟨target, ht, h⟩ := bind_eq_ok.1 h
    exact bind_eq_ok.2 ⟨target, joinTarget_mono hn ht, h⟩

theorem flatten_mono {collection : Expr} {unmatched : Unmatched} {r : Draft × Expr}
    (h : d.flatten schema nested collection unmatched = .ok r) :
    d.flatten schema nested' collection unmatched = .ok r := by
  unfold flatten at h ⊢
  split at h
  · exact h
  · obtain ⟨target, ht, h⟩ := bind_eq_ok.1 h
    exact bind_eq_ok.2 ⟨target, joinTarget_mono hn ht, h⟩
  · exact h
  · exact h

theorem selectMany_mono (h : d.selectMany schema nested op = .ok d') :
    d.selectMany schema nested' op = .ok d' := by
  simp only [selectMany, bind_eq_ok] at h ⊢
  obtain ⟨l, hl, collection, hb, r, hf, h⟩ := h
  exact ⟨l, hl, collection, hb, r, flatten_mono hn hf, h⟩

theorem apply_mono (h : d.apply schema nested op = .ok d') :
    d.apply schema nested' op = .ok d' := by
  unfold apply at h ⊢
  split at h
  case h_4 => exact selectMany_mono hn h
  case h_5 | h_6 | h_7 => exact join_mono hn h
  case h_27 =>
    split at h
    · exact h
    · rename_i log hq
      obtain ⟨branch, hb, h⟩ := bind_eq_ok.1 h
      exact bind_eq_ok.2 ⟨branch, hn log branch hb, h⟩
  all_goals exact h

theorem step_mono (h : d.step schema nested op = .ok d') :
    d.step schema nested' op = .ok d' := by
  unfold step at h ⊢
  split at h
  · exact h
  · by_cases hclose : d.mustClose op.kind = true
    all_goals
      simp only [hclose, if_true, Bool.false_eq_true, if_false, bind_eq_ok] at h ⊢
      obtain ⟨d₁, hd₁, d₂, hd₂, h⟩ := h
      exact ⟨d₁, hd₁, d₂, apply_mono hn hd₂, h⟩

theorem foldlM_step_mono : ∀ {ops : Log} {d d' : Draft},
    ops.foldlM (step schema nested) d = .ok d' → ops.foldlM (step schema nested') d = .ok d'
  | [], _, _, h => h
  | op :: ops, d, d', h => by
    simp only [List.foldlM_cons, bind_eq_ok] at h ⊢
    obtain ⟨d₁, hd₁, h⟩ := h
    exact ⟨d₁, step_mono hn hd₁, foldlM_step_mono h⟩

end Draft

namespace Plan

theorem ofLogWith_mono (hn : AnsweredBy nested nested') {log : Log} {plan : Plan}
    (h : ofLogWith schema nested log = .ok plan) : ofLogWith schema nested' log = .ok plan := by
  simp only [ofLogWith, bind_eq_ok] at h ⊢
  obtain ⟨u, hu, start, hs, d, hd, h⟩ := h
  exact ⟨u, hu, start, hs, d, Draft.foldlM_step_mono hn hd, h⟩

/-- **A greater bound on nesting keeps every plan.** -/
theorem ofLogAt_mono {depth depth' : Nat} (hle : depth ≤ depth') {log : Log} {plan : Plan}
    (h : ofLogAt schema depth log = .ok plan) : ofLogAt schema depth' log = .ok plan := by
  induction depth generalizing depth' log plan with
  | zero => cases h
  | succ depth ih =>
    obtain ⟨depth', rfl⟩ : ∃ k, depth' = k + 1 := ⟨depth' - 1, by omega⟩
    refine ofLogWith_mono (fun inner layer hinner => ?_) h
    obtain ⟨plan, hplan, hlayer⟩ := bind_eq_ok.1 hinner
    exact bind_eq_ok.2 ⟨plan, ih (by omega) hplan, hlayer⟩

end Plan

end QueryCompiler

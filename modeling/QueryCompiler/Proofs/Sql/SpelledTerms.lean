import QueryCompiler.Proofs.Sql.Spelling
import QueryCompiler.Proofs.Sql.TermByTerm
/-!
# Reading well spelled terms

Whatever is formed of well spelled terms is well spelled, and no bare number: the names of functions
are those of a fixed list, and the operand of a negation is put in parentheses unless it is bound
tightly. So all terms of a statement are well spelled (`Plan.spells_statement`).
-/

namespace QueryCompiler

namespace Sql

/-- A well spelled term that may be negated once it is bound tightly. -/
structure Term.Spelled (t : Term) : Prop where
  wellSpelled : t.WellSpelled
  isNumber : t.isNumber = false

namespace Term

theorem Wraps.wellSpelled {t t' : Term} (h : Wraps t t') (ht : t.WellSpelled) : t'.WellSpelled := by
  cases h with
  | same => exact ht
  | paren => rwa [WellSpelled]

theorem isWord_of_mem_functions {function : String} (h : function ∈ functions) :
    isWord function = true := by
  have hwords : functions.all isWord = true := by decide
  exact List.all_eq_true.1 hwords function h

/-- **A term that is formed of well spelled terms is well spelled**, and no bare number. -/
theorem Formed.spelled {ts : List Term} {t : Term} (h : Formed ts t) (hts : ∀ u ∈ ts, u.Spelled) :
    t.Spelled := by
  induction h with
  | same => exact hts _ (by simp)
  | trans _ _ ihu iht => exact iht fun u hu => by rw [List.mem_singleton.1 hu]; exact ihu hts
  | @wrap t place strict =>
    have ht := hts t (by simp)
    exact ⟨by simpa using ht.wellSpelled, isNumber_wrap ht.isNumber⟩
  | negate =>
    have ht := hts _ (List.mem_singleton.2 rfl)
    refine ⟨?_, rfl⟩
    rw [WellSpelled, wellSpelled_wrap]
    exact ⟨precedence_wrap_atomic, isNumber_wrap ht.isNumber, ht.wellSpelled⟩
  | @concat ts ts' h =>
    refine ⟨?_, rfl⟩
    rw [WellSpelled, allSpelled_iff]
    intro t' ht'
    obtain ⟨t, ht, hwraps⟩ := exists_of_forall₂ h t' ht'
    exact hwraps.wellSpelled (hts t ht).wellSpelled
  | @pattern t t' before behind ht =>
    have ht' := ht.wellSpelled (hts t (by simp)).wellSpelled
    cases before <;> cases behind <;> exact ⟨by simp [openEnd, WellSpelled, ht'], rfl⟩
  | @isNull t t' ht | @isNotNull t t' ht | @binaryNull op t t' ht =>
    have ht' := ht.wellSpelled (hts t (by simp)).wellSpelled
    exact ⟨by simp [WellSpelled, ht'], rfl⟩
  | @binary op l l' r r' hl hr =>
    have hl' := hl.wellSpelled (hts l (by simp)).wellSpelled
    have hr' := hr.wellSpelled (hts r (by simp)).wellSpelled
    exact ⟨by simp [WellSpelled, hl', hr'], rfl⟩
  | @like t t' p ht =>
    have ht' := ht.wellSpelled (hts t (by simp)).wellSpelled
    exact ⟨by simp [WellSpelled, ht', (hts p (by simp)).wellSpelled], rfl⟩
  | @substringFrom t start start' len h =>
    have hstart := h.wellSpelled (hts start (by simp)).wellSpelled
    have hlen : ∀ u ∈ len, u.WellSpelled := fun u hu => (hts u (by simp_all)).wellSpelled
    exact ⟨by simpa [WellSpelled, hstart, (hts t (by simp)).wellSpelled] using hlen, rfl⟩
  | call h =>
    refine ⟨?_, rfl⟩
    rw [WellSpelled, allSpelled_iff]
    exact ⟨isWord_of_mem_functions h, fun u hu => (hts u hu).wellSpelled⟩
  | @datePart part t h =>
    have hwords : ["HOUR", "MINUTE", "SECOND"].all isWord = true := by decide
    refine ⟨?_, rfl⟩
    rw [WellSpelled]
    exact ⟨List.all_eq_true.1 hwords part h, (hts t (by simp)).wellSpelled⟩
  | rowCount =>
    have hname : isWord (AggregateFunc.sqlName .count) = true := by decide
    exact ⟨by simp [WellSpelled, hname], rfl⟩
  | @round t len | @substringAt t n len =>
    have hlen : ∀ u ∈ len, u.WellSpelled := fun u hu => (hts u (by simp_all)).wellSpelled
    exact ⟨by simpa [WellSpelled, (hts t (by simp)).wellSpelled] using hlen, rfl⟩
  | tuple => exact ⟨by simpa [WellSpelled] using fun u hu => (hts u hu).wellSpelled, rfl⟩
  | equalsBit => exact ⟨by simp_all [Term.equalsBit, bit, WellSpelled, Spelled.wellSpelled], rfl⟩
  | ofTest => exact ⟨by simp_all [Term.ofTest, WellSpelled, Spelled.wellSpelled], rfl⟩
  | _ => exact ⟨by simp_all [WellSpelled, Spelled.wellSpelled], rfl⟩

end Term

/-! ## Statements -/

def TermsSpelled (ts : List Term) (_ : List Constant) : Prop := ∀ t ∈ ts, t.Spelled

theorem TermsSpelled.admits : Admits TermsSpelled where
  next h _ := List.forall_mem_append.2 ⟨h, by simpa using ⟨by rw [Term.WellSpelled]; trivial, rfl⟩⟩
  column h := List.forall_mem_append.2 ⟨h, by simpa using ⟨by rw [Term.WellSpelled]; trivial, rfl⟩⟩
  form ht h := by
    obtain ⟨hpre, hts⟩ := List.forall_mem_append.1 h
    exact List.forall_mem_append.2 ⟨hpre, by simpa using ht.spelled hts⟩

end Sql

open Sql

/-- **The terms of a statement are well spelled.** -/
theorem Plan.spells_statement {schema : Schema} {dialect : Dialect} {p : Plan} :
    Gives (p.statement schema dialect) fun st => ∀ t ∈ st.terms dialect, t.WellSpelled := by
  intro s st s' hrun
  have hstart : TermsSpelled [] s.constants := fun t ht => by simp at ht
  have hterms :=
    (Plan.follows_statement TermsSpelled.admits Plan.safe_group).yields s st s' hstart hrun
  exact fun t ht => (hterms t ht).wellSpelled

end QueryCompiler

import QueryCompiler.Proofs.Plan.Columns
import QueryCompiler.Proofs.Sql.OutputNames
/-!
# Spans of output columns

A select list is built from left to right. Columns are added under free names, and a span is closed
over the columns that were added since it was opened. What a step adds is therefore behind all that
stood there before (`SelectList.Extends`): its columns have new names, and its spans lie side by side
with the earlier ones. A span that is closed last reaches over all spans that were added within it,
so any two spans are apart or one lies within the other (`SelectList.WellFormed`).
-/

namespace QueryCompiler

open Sql

namespace Sql

namespace Span

def stop (s : Span) : Nat := s.start + s.length

/-- Two spans without a common column. -/
def Apart (s t : Span) : Prop := s.stop ≤ t.start ∨ t.stop ≤ s.start

/-- All columns of the first span are columns of the second. -/
def Within (s t : Span) : Prop := t.start ≤ s.start ∧ s.stop ≤ t.stop

/-- Two spans are apart, or one lies within the other. -/
def Laminar (s t : Span) : Prop := s.Apart t ∨ s.Within t ∨ t.Within s

instance (s t : Span) : Decidable (s.Laminar t) :=
  inferInstanceAs (Decidable ((_ ≤ _ ∨ _ ≤ _) ∨ (_ ≤ _ ∧ _ ≤ _) ∨ (_ ≤ _ ∧ _ ≤ _)))

theorem Laminar.refl (s : Span) : s.Laminar s := .inr (.inl ⟨Nat.le_refl _, Nat.le_refl _⟩)

theorem Laminar.symm {s t : Span} (h : s.Laminar t) : t.Laminar s := by
  rcases h with h | h | h
  · exact .inl h.symm
  · exact .inr (.inr h)
  · exact .inr (.inl h)

end Span

namespace SelectList

/-- **Output names are distinct, and spans lie among the columns**, any two of them apart or one
within the other. -/
structure WellFormed (list : SelectList) : Prop where
  names : list.names.Nodup
  stop_le : ∀ s ∈ list.spans, s.stop ≤ list.columns.length
  laminar : ∀ s ∈ list.spans, ∀ t ∈ list.spans, s.Laminar t

/-- What is added to a select list comes behind what is there. -/
structure Extends (out list : SelectList) : Prop where
  length_le : out.columns.length ≤ list.columns.length
  names : out.names.Nodup → list.names.Nodup
  spans : ∃ added, list.spans = out.spans ++ added ∧
    (∀ s ∈ added, out.columns.length ≤ s.start ∧ s.stop ≤ list.columns.length) ∧
    added.Pairwise Span.Laminar

namespace Extends

variable {out mid list : SelectList}

theorem refl (out : SelectList) : out.Extends out :=
  ⟨Nat.le_refl _, id, [], by simp⟩

theorem trans (h : out.Extends mid) (h' : mid.Extends list) : out.Extends list := by
  obtain ⟨first, hfirst, hbounds, hlaminar⟩ := h.spans
  obtain ⟨second, hsecond, hbounds', hlaminar'⟩ := h'.spans
  have hle := h.length_le
  have hle' := h'.length_le
  refine ⟨by omega, h'.names ∘ h.names, first ++ second, ?_, ?_, ?_⟩
  · rw [hsecond, hfirst, List.append_assoc]
  · intro s hs
    rcases List.mem_append.1 hs with hs | hs
    · have := hbounds s hs
      omega
    · have := hbounds' s hs
      omega
  · refine List.pairwise_append.2 ⟨hlaminar, hlaminar', fun s hs t ht => .inl (.inl ?_)⟩
    exact Nat.le_trans (hbounds s hs).2 (hbounds' t ht).1

/-- A column gets a name that no column before it has. -/
theorem push (t : Term) (preferred : String) : out.Extends (out.push t preferred) := by
  refine ⟨by simp [SelectList.push], fun h => ?_, [], by simp [SelectList.push]⟩
  rw [names_push]
  refine List.nodup_append.2 ⟨h, by simp, fun a ha b hb => ?_⟩
  rintro rfl
  rw [List.mem_singleton] at hb
  exact Text.freshName_notMem out.names preferred (hb ▸ ha)

theorem close (h : out.Extends list) (path : String) :
    out.Extends (list.close path out.columns.length) := by
  obtain ⟨added, hspans, hbounds, hlaminar⟩ := h.spans
  have hle := h.length_le
  have hstop : (⟨path, out.columns.length, list.columns.length - out.columns.length⟩ : Span).stop =
      list.columns.length := by
    simp only [Span.stop]
    omega
  refine ⟨hle, h.names, added ++ [⟨path, out.columns.length,
    list.columns.length - out.columns.length⟩], ?_, ?_, ?_⟩
  · rw [SelectList.close, hspans, List.append_assoc]
  · intro s hs
    rcases List.mem_append.1 hs with hs | hs
    · exact hbounds s hs
    · obtain rfl := List.mem_singleton.1 hs
      exact ⟨Nat.le_refl _, Nat.le_of_eq hstop⟩
  · refine List.pairwise_append.2 ⟨hlaminar, by simp, fun s hs t ht => .inr (.inl ?_)⟩
    obtain rfl := List.mem_singleton.1 ht
    exact ⟨(hbounds s hs).1, Nat.le_trans (hbounds s hs).2 (Nat.le_of_eq hstop.symm)⟩

theorem of_grows (h : out.Grows list) : out.Extends list := by
  induction h with
  | refl => exact refl _
  | push => exact push _ _
  | close _ path ih => exact ih.close path
  | trans _ _ ih ih' => exact ih.trans ih'

theorem wellFormed (h : Extends {} list) : list.WellFormed := by
  obtain ⟨added, hspans, hbounds, hlaminar⟩ := h.spans
  rw [List.nil_append] at hspans
  refine ⟨h.names (by simp [SelectList.names]), fun s hs => (hbounds s (hspans ▸ hs)).2, ?_⟩
  rw [hspans]
  exact hlaminar.forall_of_forall_of_flip (fun s _ => Span.Laminar.refl s)
    (hlaminar.imp Span.Laminar.symm)

end Extends

end SelectList

namespace Context

variable {ctx : Context} {out list : SelectList}

/-- **The select list of a projection is well formed.** -/
theorem wellFormed_selectList {select : Expr} {includes : List (List String)} :
    Gives (ctx.selectList select includes) SelectList.WellFormed := by
  refine Gives.imp ?_ fun list hlist => (SelectList.Extends.of_grows hlist).wellFormed
  unfold selectList
  split
  · refine Gives.seq fun row => Gives.bind (Gives.lift fun _ h => h) fun out hout => ?_
    -- each included path adds a span behind those before it
    refine .foldlM (fun out path hout => ?_) (grows_rowColumns hout)
    exact grows_entityColumns.imp fun next hnext => hout.trans hnext
  · exact grows_objectColumns
  · refine Gives.seq fun shape => ?_
    split
    · exact grows_entityColumns
    · exact Gives.seq fun t => Gives.pure (.push _ t _)

end Context

end Sql

namespace Layer

variable {schema : Schema} {dialect : Dialect} {l : Layer} {q : Query}

/-- **A layer that is read for its rows is written with a well formed select list.** -/
theorem Writes.wellFormed {nested : Bool} (h : l.Writes schema dialect nested q)
    (hany : l.any = false) (haggregate : l.aggregate = none) : q.selectList.WellFormed :=
  Context.wellFormed_selectList.of_gave (h.rows hany haggregate).1

end Layer

end QueryCompiler

import QueryCompiler.Proofs.Sql.Constants
import QueryCompiler.Proofs.Sql.TermByTerm
/-!
# Numbered statements

Every constant of the statement of a plan is in the scope that it is read in, under the number that
the scope gave it (`Plan.numbers_statement`): the constants of a statement are those of its terms, and
a term that is formed of others has only their constants.
-/

namespace QueryCompiler

namespace Sql

variable {c : Constant}

def Numbered (constants : List Constant) : Prop :=
  ∀ i c, constants[i]? = some c → c.index = i + 1

theorem Numbered.concat {constants : List Constant} (h : Numbered constants)
    (hc : c.index = constants.length + 1) : Numbered (constants ++ [c]) := by
  intro i k hk
  rw [List.getElem?_append] at hk
  split at hk
  · exact h i k hk
  · grind

/-! ## Formed terms -/

theorem Term.Wraps.mentions_iff {t t' : Term} (h : Wraps t t') : t'.Mentions c ↔ t.Mentions c := by
  cases h with
  | same => rfl
  | paren => rw [Mentions]

theorem Term.Wraps.occurs_iff {ts ts' : List Term} (h : List.Forall₂ Wraps ts ts') :
    Occurs c ts' ↔ Occurs c ts := by
  induction h with
  | nil => rfl
  | cons h _ ih => rw [occurs_cons, occurs_cons, ih, Term.occurs_iff, h.mentions_iff, Term.occurs_iff]

/-- **A formed term has only the constants of its parts.** -/
theorem Term.Formed.occurs {ts : List Term} {t : Term} (h : Formed ts t) (hc : t.Mentions c) :
    Occurs c ts := by
  induction h with
  | trans _ _ ihu iht => exact ihu (occurs_singleton.1 (iht hc))
  | concat hts => grind [Wraps.occurs_iff hts]
  | @pattern t t' before behind ht =>
    have hmark (isOpen : Bool) : ¬ Occurs c (openEnd isOpen) := by
      cases isOpen <;> grind [openEnd]
    rw [Mentions, anyMentions_iff, occurs_append, occurs_append] at hc
    grind [ht.mentions_iff]
  | isNull ht | isNotNull ht | binaryNull ht | like ht => grind [ht.mentions_iff]
  | binary hl hr => grind [hl.mentions_iff, hr.mentions_iff]
  | @round t digits => cases digits <;> grind
  | @substringAt t n len => cases len <;> grind
  | @substringFrom t start start' len hstart => cases len <;> grind [hstart.mentions_iff]
  | _ => grind

/-- The constants of the scope are numbered, and those of the terms are among them. -/
def IsNumbered (ts : List Term) (cs : List Constant) : Prop :=
  Numbered cs ∧ ∀ c, Occurs c ts → c ∈ cs

theorem IsNumbered.admits : Admits IsNumbered where
  next h hc := ⟨h.1.concat hc, fun c' hc' => by grind [h.2 c']⟩
  column h := ⟨h.1, fun c hc => h.2 c (by grind)⟩
  form ht h := ⟨h.1, fun c hc => h.2 c (by grind [ht.occurs])⟩

/-! ## Terms of a statement -/

theorem occurs_keyTerms {on : Option (List (Term × Term))} (h : Occurs c on) :
    Occurs c (keyTerms on) := by
  obtain ⟨pairs, rfl, x, hx, hc⟩ := h
  refine hc.elim (fun hc => ⟨x.1, ?_, hc⟩) fun hc => ⟨x.2, ?_, hc⟩
  all_goals exact List.mem_flatMap.2 ⟨x, hx, by simp⟩

theorem occurs_clauseTerms {predicate having : Option Term} {groupBy : Option (List Term)}
    (h : Occurs c predicate ∨ Occurs c groupBy ∨ Occurs c having) :
    Occurs c (clauseTerms predicate groupBy having) := by
  unfold clauseTerms
  cases predicate <;> cases groupBy <;> cases having <;> grind

theorem SelectList.occurs_terms {list : SelectList} (h : Occurs c list) : Occurs c list.terms := by
  obtain ⟨x, hx, hc⟩ := h
  exact ⟨x.1, List.mem_map_of_mem hx, hc⟩

theorem occurs_map {α : Type} [HasConstants α] {f : α → Term} {l : List α}
    (hf : ∀ a, Occurs c a → Occurs c (f a)) (h : Occurs c l) : Occurs c (l.map f) := by
  obtain ⟨a, ha, hc⟩ := h
  exact ⟨f a, List.mem_map_of_mem ha, hf a hc⟩

mutual

theorem Relation.occurs_terms : ∀ {r : Relation}, r.Mentions c → Occurs c r.terms
  | .table _, h => h.elim
  | .derived q, h => by
    rw [Relation.terms]
    exact q.occurs_terms h

theorem JoinedRelation.occurs_terms : ∀ {js : List JoinedRelation},
    JoinedRelation.AnyMentions c js → Occurs c (JoinedRelation.terms js)
  | [], h => h.elim
  | ⟨_, relation, _, on⟩ :: js, h => by
    rw [JoinedRelation.terms, occurs_append, occurs_append]
    exact h.imp (.imp relation.occurs_terms occurs_keyTerms) JoinedRelation.occurs_terms

theorem Block.occurs_terms : ∀ {b : Block}, b.Mentions c → Occurs c b.terms
  | ⟨relation, joins, _, predicate, groupBy, having⟩, h => by
    rw [Block.terms, occurs_append, occurs_append]
    rcases h with h | h | h
    · exact .inl (.inl (relation.occurs_terms h))
    · exact .inl (.inr (JoinedRelation.occurs_terms h))
    · exact .inr (occurs_clauseTerms h)

theorem Query.occurs_terms : ∀ {q : Query}, q.Mentions c → Occurs c q.terms
  | .rows block list orders _ _ _ _, h => by
    rw [Query.terms, occurs_append, occurs_append]
    rcases h with h | h | h
    · exact .inl (.inr (block.occurs_terms h))
    · exact .inl (.inl (SelectList.occurs_terms h))
    · exact .inr (occurs_map (fun _ hc => hc) h)
  | .existence block, h => by
    rw [Query.terms]
    exact block.occurs_terms h
  | .aggregate value block, h => by
    rw [Query.terms, occurs_append, occurs_singleton]
    exact h.imp_right block.occurs_terms
  | .aggregateOver _ _ q, h => by
    rw [Query.terms]
    exact q.occurs_terms h
  | .union first branches, h => by
    rw [Query.terms, occurs_append]
    exact h.imp first.occurs_terms Branch.occurs_terms

theorem Branch.occurs_terms : ∀ {bs : List Branch},
    Branch.AnyMentions c bs → Occurs c (Branch.terms bs)
  | [], h => h.elim
  | ⟨_, q⟩ :: bs, h => by
    rw [Branch.terms, occurs_append]
    exact h.imp q.occurs_terms Branch.occurs_terms

end

theorem Block.occurs_termsWith {b : Block} {first : Bool} {others : List Term}
    (h : Occurs c others ∨ Occurs c b) : Occurs c (b.termsWith first others) := by
  obtain ⟨relation, joins, navigations, predicate, groupBy, having⟩ := b
  have hblock := h.imp_right Block.occurs_terms
  rw [Block.terms] at hblock
  unfold termsWith
  cases first <;> grind [Block.terms]

/-- **The constants of a statement are those of its terms.** -/
theorem Statement.occurs_terms {d : Dialect} {st : Statement} (h : Occurs c st) :
    Occurs c (st.terms d) := by
  cases st with
  | query q => exact q.occurs_terms h
  | insertQuery table columns q => exact q.occurs_terms h
  | insertRows table columns rows identity =>
    obtain ⟨row, hrow, value, hvalue, t, rfl, hc⟩ := h
    exact ⟨t, List.mem_flatMap.2 ⟨row, hrow, List.mem_flatMap.2 ⟨_, hvalue, by simp⟩⟩, hc⟩
  | update table assignments block =>
    exact Block.occurs_termsWith (h.imp_left (occurs_map fun _ hc => hc))
  | updateByKey table assignments key =>
    rw [Statement.terms, occurs_append]
    exact h.imp (occurs_map fun _ hc => hc) (occurs_map fun _ hc => hc)
  | delete block => exact block.occurs_terms h
  | deleteByKey table key => exact occurs_map (fun _ hc => hc) h

end Sql

open Sql

/-- **The constants of a plan's statement are in the scope, under their numbers.** -/
theorem Plan.numbers_statement {schema : Schema} {dialect : Dialect} {p : Plan}
    {statement : Statement} {constants : List Constant}
    (h : p.numberedStatement schema dialect = .ok (statement, constants)) :
    Numbered constants ∧ ∀ c, Occurs c (statement.terms dialect) → c ∈ constants := by
  obtain ⟨⟨st, scope⟩, hrun, hst⟩ := Compiled.bind_eq_ok.1 h
  cases hst
  have hstart : IsNumbered [] ({} : Scope).constants :=
    ⟨fun i c hc => by simp at hc, fun c hc => by simp at hc⟩
  exact (Plan.follows_statement IsNumbered.admits Plan.safe_group).yields {} statement scope hstart
    hrun

end QueryCompiler

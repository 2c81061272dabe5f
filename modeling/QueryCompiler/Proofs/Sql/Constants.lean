import QueryCompiler.Sql.Printer
/-!
# Constants of a statement

Where constants occur in a statement, from terms up. However a term is written, its script has only
places for constants that occur in it (`Term.mentions_of_script`).
-/

namespace QueryCompiler

namespace Sql

variable {c : Constant}

/-- Something that constants may occur in. -/
class HasConstants (α : Type) where
  /-- Whether a constant occurs. -/
  Occurs : Constant → α → Prop

export HasConstants (Occurs)

section Containers

variable {α β : Type} [HasConstants α] [HasConstants β] {l : List α}

instance : HasConstants (List α) := ⟨fun c l => ∃ a ∈ l, Occurs c a⟩

instance : HasConstants (Option α) := ⟨fun c o => ∃ a ∈ o, Occurs c a⟩

instance : HasConstants (α × β) := ⟨fun c p => Occurs c p.1 ∨ Occurs c p.2⟩

@[simp] theorem occurs_list : Occurs c l ↔ ∃ a ∈ l, Occurs c a := .rfl

@[simp] theorem occurs_option {o : Option α} : Occurs c o ↔ ∃ a ∈ o, Occurs c a := .rfl

@[simp, grind =] theorem occurs_pair {p : α × β} : Occurs c p ↔ Occurs c p.1 ∨ Occurs c p.2 := .rfl

@[grind =] theorem occurs_nil : Occurs c ([] : List α) ↔ False := by simp

@[grind =] theorem occurs_cons {a : α} : Occurs c (a :: l) ↔ Occurs c a ∨ Occurs c l := by simp

@[grind =] theorem occurs_singleton {a : α} : Occurs c [a] ↔ Occurs c a := by simp

@[grind =] theorem occurs_append {l' : List α} : Occurs c (l ++ l') ↔ Occurs c l ∨ Occurs c l' := by
  simp only [occurs_list, List.mem_append, or_and_right, exists_or]

@[grind =] theorem occurs_none : Occurs c (none : Option α) ↔ False := by simp

@[grind =] theorem occurs_some {a : α} : Occurs c (some a) ↔ Occurs c a := by simp

end Containers

/-! ## Scripts -/

namespace Script

/-- The constants of a script, in the order of the text. -/
def constants (s : Script) : List Constant :=
  s.filterMap fun
    | .text _ => none
    | .constant c => some c

@[simp] theorem constants_nil : constants [] = [] := rfl

@[simp] theorem constants_say {t : String} : (say t).constants = [] := rfl

@[simp] theorem constants_constant : constants [.constant c] = [c] := rfl

@[simp] theorem constants_append {s t : Script} :
    (s ++ t).constants = s.constants ++ t.constants :=
  List.filterMap_append

@[simp] theorem constants_joined {sep : String} :
    ∀ {ss : List Script}, (joined sep ss).constants = ss.flatMap constants
  | [] => rfl
  | [s] => by simp [joined]
  | s :: t :: rest => by simp [joined, constants_joined]

@[simp] theorem constants_parenthesized {s : Script} :
    (parenthesized s).constants = s.constants := by
  simp [parenthesized]

@[simp] theorem constants_call {function : String} {args : List Script} :
    (call function args).constants = args.flatMap constants := by
  simp [call]

end Script

end Sql

/-! ## Wordings -/

namespace Dialect

open Sql
open Sql.Script (constants)

variable {d : Dialect} {e f : Script}

@[simp] theorem constants_concat {parts : List Script} :
    (d.concat parts).constants = parts.flatMap constants := by
  cases d <;> simp [concat]

@[simp] theorem constants_stringCast : (d.stringCast e).constants = e.constants := by
  cases d <;> simp [stringCast]

/-- A string that is cut up to its end may be written again for its length. -/
theorem constants_substring (d : Dialect) (e f : Script) (len : Option Script) :
    ∃ again, (∀ c ∈ again, c ∈ e.constants) ∧ (d.substring e f len).constants =
      e.constants ++ f.constants ++ len.toList.flatMap constants ++ again := by
  cases len with
  | some len => exact ⟨[], by simp, by simp [substring]⟩
  | none =>
    cases d with
    | sqlServer => exact ⟨_, fun c hc => hc, by simp [substring]⟩
    | mySql => exact ⟨[], by simp, by simp [substring]⟩

@[simp] theorem constants_trim : (d.trim e).constants = e.constants := by
  cases d <;> simp [trim]

@[simp] theorem constants_datePart {part : String} :
    (d.datePart part e).constants = e.constants := by
  cases d <;> simp [datePart]

@[simp] theorem constants_dateOnly : (d.dateOnly e).constants = e.constants := by
  cases d <;> simp [dateOnly]

@[simp] theorem constants_round {digits : Option Script} :
    (d.round e digits).constants = e.constants ++ digits.toList.flatMap constants := by
  cases d <;> cases digits <;> simp [round]

end Dialect

namespace Sql

variable {c : Constant} {t : Term} {list : SelectList}

/-! ## Terms -/

namespace Term

mutual

def Mentions (c : Constant) : Term → Prop
  | constant k => c = k
  | column _ | null | number _ | word _ | truth _ | now _ => False
  | tuple ts | concat ts | call _ ts => AnyMentions c ts
  | paren t | isNull t | isNotNull t | not t | negate t | length t | datePart _ t | dateOnly t
  | trim t | stringCast t => t.Mentions c
  | binary _ l r | coalesce l r | like l r | isIn l r => l.Mentions c ∨ r.Mentions c
  | caseWhen t a b => t.Mentions c ∨ a.Mentions c ∨ b.Mentions c
  | substring t start len => t.Mentions c ∨ start.Mentions c ∨ OptionMentions c len
  | round t digits => t.Mentions c ∨ OptionMentions c digits

def AnyMentions (c : Constant) : List Term → Prop
  | [] => False
  | t :: ts => t.Mentions c ∨ AnyMentions c ts

def OptionMentions (c : Constant) : Option Term → Prop
  | none => False
  | some t => t.Mentions c

end

attribute [grind =] Mentions

instance : HasConstants Term := ⟨Mentions⟩

@[grind =] theorem occurs_iff : Occurs c t ↔ t.Mentions c := .rfl

@[grind =] theorem anyMentions_iff {ts : List Term} : AnyMentions c ts ↔ Occurs c ts := by
  induction ts with
  | nil => simp [AnyMentions]
  | cons t ts ih => simp [AnyMentions, ih, occurs_iff]

@[grind =] theorem optionMentions_iff {t : Option Term} : OptionMentions c t ↔ Occurs c t := by
  cases t <;> simp [OptionMentions, occurs_iff]

@[grind =] theorem mentions_wrap {place : Nat} {strict : Bool} :
    (t.wrap place strict).Mentions c ↔ t.Mentions c := by
  unfold wrap
  split
  · rw [Mentions]
  · rfl

@[grind =] theorem mentions_equalsBit {b : Bool} : (t.equalsBit b).Mentions c ↔ t.Mentions c := by
  grind [equalsBit, bit]

@[grind =] theorem mentions_ofTest : (ofTest t).Mentions c ↔ t.Mentions c := by
  grind [ofTest]

mutual

/-- **A term is written with the constants that occur in it.** -/
theorem mentions_of_script {style : Style} :
    ∀ {t : Term}, c ∈ (t.script style).constants → t.Mentions c
  | constant k, h => by simpa [script, Mentions] using h
  | column _, h | null, h | number _, h | word _, h | truth _, h | now _, h => by
    simp [script] at h
  | tuple ts, h | concat ts, h | call _ ts, h => by
    have hts : ∃ s ∈ scripts style ts, c ∈ s.constants := by simpa [script] using h
    exact anyMentions_of_scripts hts
  | paren t, h | not t, h | isNull t, h | isNotNull t, h | negate t, h | length t, h
  | datePart _ t, h | dateOnly t, h | trim t, h | stringCast t, h => by
    have ht : c ∈ (t.script style).constants := by simpa [script] using h
    have hmentions : t.Mentions c := mentions_of_script ht
    exact hmentions
  | binary _ l r, h | coalesce l r, h | like l r, h | isIn l r, h => by
    have hlr : c ∈ (l.script style).constants ∨ c ∈ (r.script style).constants := by
      simpa [script] using h
    exact hlr.imp mentions_of_script mentions_of_script
  | caseWhen t a b, h => by
    simp only [script, Script.constants_append, Script.constants_say, List.append_nil,
      List.nil_append, List.mem_append, or_assoc] at h
    exact h.imp mentions_of_script (.imp mentions_of_script mentions_of_script)
  | substring t start len, h => by
    obtain ⟨again, hagain, heq⟩ := style.dialect.constants_substring (t.script style)
      (start.script style) (scriptOption style len)
    simp only [script, heq, List.mem_append, or_assoc] at h
    rcases h with h | h | h | h
    · exact .inl (mentions_of_script h)
    · exact .inr (.inl (mentions_of_script h))
    · exact .inr (.inr (optionMentions_of_script (by simpa using h)))
    · exact .inl (mentions_of_script (hagain c h))
  | round t digits, h => by
    simp only [script, Dialect.constants_round, List.mem_append] at h
    exact h.imp mentions_of_script fun h => optionMentions_of_script (by simpa using h)

theorem anyMentions_of_scripts {style : Style} : ∀ {ts : List Term},
    (∃ s ∈ scripts style ts, c ∈ s.constants) → AnyMentions c ts
  | [], h => by simp [scripts] at h
  | t :: ts, h => by
    simp only [scripts, List.mem_cons, exists_eq_or_imp] at h
    exact h.imp mentions_of_script anyMentions_of_scripts

theorem optionMentions_of_script {style : Style} : ∀ {t : Option Term},
    (∃ s ∈ scriptOption style t, c ∈ s.constants) → OptionMentions c t
  | none, h => by simp [scriptOption] at h
  | some t, h => by
    have ht : c ∈ (t.script style).constants := by simpa [scriptOption] using h
    exact mentions_of_script ht

end

end Term

/-! ## Clauses -/

instance : HasConstants SelectList := ⟨fun c list => ∃ x ∈ list.columns, Occurs c x.1⟩

instance : HasConstants SortKey := ⟨fun c key => Occurs c key.term⟩

instance : HasConstants Assignment := ⟨fun c a => Occurs c a.value⟩

@[grind =] theorem SelectList.occurs_iff : Occurs c list ↔ ∃ x ∈ list.columns, Occurs c x.1 := .rfl

/-! ## Queries and statements -/

mutual

def Relation.Mentions (c : Constant) : Relation → Prop
  | .table _ => False
  | .derived q => q.Mentions c

def JoinedRelation.AnyMentions (c : Constant) : List JoinedRelation → Prop
  | [] => False
  | ⟨_, relation, _, on⟩ :: js =>
    (relation.Mentions c ∨ Occurs c on) ∨ JoinedRelation.AnyMentions c js

def Block.Mentions (c : Constant) : Block → Prop
  | ⟨relation, joins, _, predicate, groupBy, having⟩ =>
    relation.Mentions c ∨ JoinedRelation.AnyMentions c joins ∨ Occurs c predicate ∨
      Occurs c groupBy ∨ Occurs c having

def Query.Mentions (c : Constant) : Query → Prop
  | .rows block list orders _ _ _ _ => block.Mentions c ∨ Occurs c list ∨ Occurs c orders
  | .existence block => block.Mentions c
  | .aggregate value block => Occurs c value ∨ block.Mentions c
  | .aggregateOver _ _ q => q.Mentions c
  | .union first branches => first.Mentions c ∨ Branch.AnyMentions c branches

def Branch.AnyMentions (c : Constant) : List Branch → Prop
  | [] => False
  | ⟨_, q⟩ :: bs => q.Mentions c ∨ Branch.AnyMentions c bs

end

instance : HasConstants Block := ⟨Block.Mentions⟩

instance : HasConstants Query := ⟨Query.Mentions⟩

instance : HasConstants Statement where
  Occurs c
    | .query q | .insertQuery _ _ q => Occurs c q
    | .insertRows _ _ rows _ => Occurs c rows
    | .update _ assignments block => Occurs c assignments ∨ Occurs c block
    | .updateByKey _ assignments key => Occurs c assignments ∨ Occurs c key
    | .delete block => Occurs c block
    | .deleteByKey _ key => Occurs c key

end Sql

end QueryCompiler

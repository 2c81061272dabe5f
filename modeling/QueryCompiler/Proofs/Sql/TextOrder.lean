import QueryCompiler.Proofs.Sql.Constants
import QueryCompiler.Proofs.Sql.TermByTerm
/-!
# Constants in the order of the text

A term is written with the constants of the terms that it is formed of, in the order in which they
are read (`Term.Formed.constants_eq`). A constant may be written more than once: of a string that is
cut up to its end, or compared with null and with the empty string. So it is the first places of the
constants that stand in the order of the numbers, which is what `Counts` says of a list.
-/

namespace QueryCompiler.Sql

variable {α β : Type} {n k m : Nat} {c : Constant} {cs ds : List Constant}

/-! ## Constants of a term -/

namespace Term

def constants (style : Style) (t : Term) : List Constant := (t.script style).constants

variable {style : Style} {t : Term} {ts : List Term}

@[simp] theorem scripts_eq_map : scripts style ts = ts.map (script style) := by
  induction ts with
  | nil => rfl
  | cons t ts ih => rw [scripts, ih, List.map_cons]

@[simp] theorem scriptOption_eq_map {t : Option Term} :
    scriptOption style t = t.map (script style) := by
  cases t <;> rfl

theorem constants_eq : constants style = fun t => (t.script style).constants := rfl

@[simp] theorem constants_tuple : (tuple ts).constants style = ts.flatMap (constants style) := by
  simp [constants_eq, script, List.flatMap_map]

@[simp] theorem constants_wrap {place : Nat} {strict : Bool} :
    ((t.wrap place strict).script style).constants = (t.script style).constants := by
  unfold wrap
  split
  · simp [script]
  · rfl

end Term

/-! ## Formed terms -/

namespace Term

variable {style : Style} {t t' : Term} {ts ts' : List Term}

theorem Wraps.constants_eq (h : Wraps t t') :
    (t'.script style).constants = (t.script style).constants := by
  cases h with
  | same => rfl
  | paren => simp [script]

theorem Wraps.flatMap_constants (h : List.Forall₂ Wraps ts ts') :
    ts'.flatMap (constants style) = ts.flatMap (constants style) := by
  induction h with
  | nil => rfl
  | cons h _ ih => rw [List.flatMap_cons, List.flatMap_cons, constants, h.constants_eq, ih, constants]

/-- **A formed term is written with the constants of its parts in their order**, and then with some
of them again. -/
theorem Formed.constants_eq (style : Style) (h : Formed ts t) :
    ∃ again, (∀ c ∈ again, c ∈ ts.flatMap (Term.constants style)) ∧
      t.constants style = ts.flatMap (Term.constants style) ++ again := by
  induction h with
  | trans _ _ ihu iht =>
    obtain ⟨again, hagain, hu⟩ := ihu
    obtain ⟨more, hmore, ht⟩ := iht
    simp only [List.flatMap_singleton, hu] at hmore ht
    refine ⟨again ++ more, fun c hc => ?_, by rw [ht, List.append_assoc]⟩
    rcases List.mem_append.1 hc with hc | hc
    · exact hagain c hc
    · exact (List.mem_append.1 (hmore c hc)).elim id (hagain c)
  | @isNullOrEmpty t => exact ⟨t.constants style, by simp, by simp [Term.constants_eq, script]⟩
  | @substringAt t n len =>
    obtain ⟨again, hagain, ht⟩ := style.dialect.constants_substring (t.script style)
      ((number n).script style) (len.map (script style))
    refine ⟨again, fun c hc => by simp [Term.constants_eq, hagain c hc], ?_⟩
    cases len <;> simpa [Term.constants_eq, script] using ht
  | @substringFrom t start start' len hstart =>
    obtain ⟨again, hagain, ht⟩ := style.dialect.constants_substring (t.script style)
      ((Term.binary .add start' (number 1)).script style) (len.map (script style))
    refine ⟨again, fun c hc => by simp [Term.constants_eq, hagain c hc], ?_⟩
    cases len <;> simpa [Term.constants_eq, script, hstart.constants_eq] using ht
  | concat hts =>
    refine ⟨[], by simp, ?_⟩
    rw [List.append_nil, ← Wraps.flatMap_constants hts]
    simp [Term.constants_eq, script, List.flatMap_map]
  | @pattern t t' before behind ht =>
    refine ⟨[], by simp, ?_⟩
    cases before <;> cases behind <;> simp [openEnd, Term.constants_eq, script, ht.constants_eq]
  | isNull ht | isNotNull ht | binaryNull ht | like ht =>
    exact ⟨[], by simp, by simp [Term.constants_eq, script, ht.constants_eq]⟩
  | binary hl hr =>
    exact ⟨[], by simp, by simp [Term.constants_eq, script, hl.constants_eq, hr.constants_eq]⟩
  | @round t digits =>
    refine ⟨[], by simp, ?_⟩
    cases digits <;> simp [Term.constants_eq, script]
  | _ =>
    exact ⟨[], by simp,
      by simp [Term.constants_eq, script, Term.equalsBit, bit, Term.ofTest, List.flatMap_map]⟩

end Term

/-! ## Lists of constants -/

/-- Constants numbered from `n` to `m`: each number behind `n` is met, for the first time after all
numbers before it. -/
def Counts (n : Nat) (cs : List Constant) (m : Nat) : Prop :=
  n ≤ m ∧ (cs.map (·.index)).eraseDups = List.range' (n + 1) (m - n)

namespace Counts

theorem nil : Counts n [] n := by simp [Counts]

theorem singleton (h : c.index = n + 1) : Counts n [c] (n + 1) := by
  simp [Counts, h, List.eraseDups_cons]

theorem mem_iff (h : Counts n cs m) {i : Nat} :
    i ∈ cs.map (·.index) ↔ n < i ∧ i ≤ m := by
  have hle := h.1
  rw [← List.mem_eraseDups, h.2, List.mem_range'_1]
  omega

theorem bounds (h : Counts n cs m) (hc : c ∈ cs) : n < c.index ∧ c.index ≤ m :=
  h.mem_iff.1 (List.mem_map_of_mem hc)

theorem append (h : Counts n cs k) (h' : Counts k ds m) : Counts n (cs ++ ds) m := by
  have hnk := h.1
  have hkm := h'.1
  have hnew : (ds.map (·.index)).removeAll (cs.map (·.index)) = ds.map (·.index) := by
    refine List.filter_eq_self.2 fun i hi => ?_
    have hlt := (h'.mem_iff.1 hi).1
    have hold : i ∉ cs.map (·.index) := fun hold => by
      have := (h.mem_iff.1 hold).2
      omega
    simpa using hold
  refine ⟨by omega, ?_⟩
  rw [List.map_append, List.eraseDups_append, hnew, h.2, h'.2]
  have hstart : k + 1 = n + 1 + (k - n) := by omega
  rw [hstart, List.range'_append_1]
  congr 1
  omega

theorem again (h : Counts n cs m) (hds : ∀ c ∈ ds, c ∈ cs) : Counts n (cs ++ ds) m := by
  have hold : (ds.map (·.index)).removeAll (cs.map (·.index)) = [] := by
    refine List.filter_eq_nil_iff.2 fun i hi => ?_
    obtain ⟨c, hc, rfl⟩ := List.mem_map.1 hi
    simpa using ⟨c, hds c hc, rfl⟩
  refine ⟨h.1, ?_⟩
  rw [List.map_append, List.eraseDups_append, hold, h.2]
  simp

end Counts

end QueryCompiler.Sql

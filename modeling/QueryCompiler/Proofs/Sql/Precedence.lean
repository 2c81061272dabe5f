import QueryCompiler.Proofs.Sql.Formula
import QueryCompiler.Proofs.Sql.Parameters
/-!
# Parentheses where they are needed

A term renders a formula if it has parentheses wherever the formula would otherwise be read in
another way: the sides of an operator bind more tightly than the operator, or as tightly on the left,
and on both sides of `AND` and `OR`. The text of such a term is read back as the formula
(`Renders.tells`).
-/

namespace QueryCompiler

/-- The natural number that a constant is, if it is one. -/
def Value.natural? : Value → Option Nat
  | int n => if 0 ≤ n.toInt then some n.toInt.toNat else none
  | _ => none

namespace Sql

/-- The natural number that a numbered parameter stands for. -/
def parameterValue (constants : List Constant) (k : Nat) : Option Nat :=
  (constants.find? (·.index == k)).bind fun c => c.value.natural?

/-- How tightly a term binds when it is read. -/
def Term.level : Term → Nat
  | binary op _ _ => op.level
  | not _ => Formula.notLevel
  | negate _ => Formula.minusLevel
  | _ => Formula.atomLevel

/-- **A term renders a formula**, with parentheses where they are needed. -/
inductive Renders (constants : List Constant) : Term → Formula → Prop
  | column (ref : ColumnRef) : Renders constants (.column ref) (.column ref.row ref.name)
  | number (n : Nat) : Renders constants (.number n) (.number n)
  | constant {c : Constant} {n : Nat} (hc : c ∈ constants) (hn : c.value.natural? = some n) :
    Renders constants (.constant c) (.number n)
  | paren {t : Term} {f : Formula} : Renders constants t f → Renders constants (.paren t) f
  | binary {op : BinaryOp} {l r : Term} {f g : Formula} (hop : isSign op = true)
    (hl : op.level ≤ l.level)
    (hr : op.level < r.level ∨ op.isLogical = true ∧ op.level ≤ r.level) :
    Renders constants l f → Renders constants r g →
      Renders constants (.binary op l r) (.binary op f g)
  | not {t : Term} {f : Formula} : Renders constants t f → Renders constants (.not t) (.not f)
  | negate {t : Term} {f : Formula} (ht : t.level = Formula.atomLevel) : Renders constants t f →
    Renders constants (.negate t) (.negate f)
  | coalesce {t u : Term} {f g : Formula} : Renders constants t f → Renders constants u g →
    Renders constants (.coalesce t u) (.replaceNull f g)
  | caseWhen {t a b : Term} {f g h : Formula} : Renders constants t f → Renders constants a g →
    Renders constants b h → Renders constants (.caseWhen t a b) (.caseWhen f g h)

namespace Renders

open Reader Formula

variable {constants constants' : List Constant} {t : Term} {f : Formula} {op : BinaryOp}

theorem mono (hsub : ∀ c ∈ constants, c ∈ constants') (h : Renders constants t f) :
    Renders constants' t f := by
  induction h with
  | column ref => exact .column ref
  | number n => exact .number n
  | constant hc hn => exact .constant (hsub _ hc) hn
  | paren _ ih => exact .paren ih
  | binary hop hl hr _ _ ihl ihr => exact .binary hop hl hr ihl ihr
  | not _ ih => exact .not ih
  | negate ht _ ih => exact .negate ht ih
  | coalesce _ _ iht ihu => exact .coalesce iht ihu
  | caseWhen _ _ _ iht iha ihb => exact .caseWhen iht iha ihb

/-! ## Placing -/

theorem wrap {place : Nat} {strict : Bool} (h : Renders constants t f) :
    Renders constants (t.wrap place strict) f := by
  unfold Term.wrap
  split
  · exact .paren h
  · exact h

end Renders

namespace Term

open Formula

variable {t : Term} {op : BinaryOp}

/-- What binds more tightly than an operator is read at a higher level. -/
theorem level_lt_of_precedence_lt (hop : isSign op) (h : op.precedence < t.precedence) :
    op.level < t.level := by
  cases t with
  | binary op' l r =>
    revert h hop
    cases op <;> cases op' <;> simp [precedence, BinaryOp.precedence, level, BinaryOp.level, isSign]
  | not t =>
    revert h hop
    cases op <;> simp [precedence, BinaryOp.precedence, level, BinaryOp.level, testing, notLevel]
  | negate t =>
    revert hop
    cases op <;> simp [level, BinaryOp.level, minusLevel, isSign]
  | _ => exact Nat.lt_succ_of_le op.level_le

theorem level_le_of_precedence_le (hop : isSign op) (hcomparison : op.isComparison = false)
    (h : op.precedence ≤ t.precedence) : op.level ≤ t.level := by
  rcases Nat.lt_or_eq_of_le h with hlt | heq
  · exact Nat.le_of_lt (level_lt_of_precedence_lt hop hlt)
  · cases t with
    | binary op' l r =>
      revert heq hop hcomparison
      cases op <;> cases op' <;>
        simp [precedence, BinaryOp.precedence, level, BinaryOp.level, isSign,
          BinaryOp.isComparison]
    | not t =>
      revert heq hop hcomparison
      cases op <;>
        simp [precedence, BinaryOp.precedence, testing, BinaryOp.isComparison, isSign]
    | negate t =>
      revert hop
      cases op <;> simp [level, BinaryOp.level, minusLevel, isSign]
    | _ => exact Nat.le_succ_of_le op.level_le

theorem level_wrap (hop : isSign op) (hcomparison : op.isComparison = false) :
    op.level ≤ (t.wrap op.precedence false).level := by
  unfold wrap
  split
  next => exact Nat.le_succ_of_le op.level_le
  next h =>
    refine level_le_of_precedence_le hop hcomparison ?_
    simpa using h

/-- The right side of an operator, and both sides of a comparison. -/
theorem level_wrap_strict (hop : isSign op) :
    op.level < (t.wrap op.precedence true).level := by
  unfold wrap
  split
  next => exact Nat.lt_succ_of_le op.level_le
  next h =>
    refine level_lt_of_precedence_lt hop ?_
    simp only [Bool.true_and, Bool.or_eq_true, decide_eq_true_eq, beq_iff_eq, not_or] at h
    omega

theorem level_wrap_atomic : (t.wrap atomic false).level = atomLevel := by
  have h : (t.wrap atomic false).precedence = atomic := precedence_wrap_atomic
  revert h
  cases t.wrap atomic false with
  | binary op l r =>
    intro h
    have := op.precedence_le
    rw [precedence, atomic] at h
    omega
  | not t | negate t => simp [precedence, atomic, testing]
  | _ => exact fun _ => rfl

end Term

/-! ## Reading back -/

namespace Renders

open Reader Formula

variable {constants : List Constant} {t : Term} {f : Formula} {style : Style}
  {values : Nat → Option Nat} {write : Constant → String}

def chars (style : Style) (write : Constant → String) (t : Term) : List Char :=
  ((t.script style).text write).toList

/-- What binds more tightly than `AND` and `OR` is a right side of both. -/
theorem both {text : List Char} {p : Nat} (h : Tells style.dialect values text p f) (hp : 3 ≤ p) :
    Tells style.dialect values text p f ∧
      ∀ op : BinaryOp, op.isLogical = true → op.level ≤ p →
        TellsRight style.dialect values text op f := by
  refine ⟨h, fun op hop _ => h.right ?_⟩
  have hlow : op.level ≤ 2 := by cases op <;> first | decide | cases hop
  omega

/-- **A term that renders a formula tells it**, and a chain of `AND` or `OR` on the right of its
operator tells it too. -/
theorem tells (hwrite : ∀ c ∈ constants, ∀ n, c.value.natural? = some n →
      Tells style.dialect values (write c).toList atomLevel (.number n))
    (h : Renders constants t f) :
    Tells style.dialect values (chars style write t) t.level f ∧
      ∀ op : BinaryOp, op.isLogical = true → op.level ≤ t.level →
        TellsRight style.dialect values (chars style write t) op f := by
  have hatom : 3 ≤ atomLevel := by decide
  induction h with
  | column ref =>
    have htext : chars style write (.column ref) = (ref.text style.dialect).toList := by
      simp [chars, Term.script]
    rw [htext]
    exact both Tells.column hatom
  | number n =>
    have htext : chars style write (.number n) = (toString n).toList := by
      rw [chars, Term.script, Script.text_say]
      rfl
    rw [htext]
    exact both (Tells.single (fun _ => tokens_nat) fun _ => rfl) hatom
  | @constant c n hc hn =>
    have htext : chars style write (.constant c) = (write c).toList := by
      simp [chars, Term.script]
    rw [htext]
    exact both (hwrite c hc n hn) hatom
  | @paren t f _ ih =>
    have htext : chars style write (.paren t) =
        "(".toList ++ chars style write t ++ ")".toList := by
      simp [chars, Term.script, Script.parenthesized, Script.text_append]
    rw [htext]
    exact both ih.1.parenthesized hatom
  | @binary op l r f g hop hl hr _ _ ihl ihr =>
    have htext : chars style write (.binary op l r) = chars style write l ++
        (" " ++ op.symbol ++ " ").toList ++ chars style write r := by
      simp [chars, Term.script, Script.text_append]
    rw [htext]
    have hright : TellsRight style.dialect values (chars style write r) op g := by
      rcases hr with hlt | ⟨hlogical, hle⟩
      · exact ihr.1.right hlt
      · exact ihr.2 op hlogical hle
    have htells := Tells.binary hop hl ihl.1 hright
    refine ⟨htells, fun op' hop' hle => ?_⟩
    rcases Nat.lt_or_eq_of_le hle with hlt | heq
    · exact htells.right hlt
    · -- of the connectives, only the same one binds as tightly
      obtain rfl : op' = op := by
        revert hop' heq
        cases op <;> cases op' <;> simp [BinaryOp.isLogical, BinaryOp.level, Term.level]
      exact (ihl.2 op' hop' hl).chain hop' hright
  | @not t f _ ih =>
    have htext : chars style write (.not t) =
        "NOT ".toList ++ ("(".toList ++ chars style write t ++ ")".toList) := by
      simp [chars, Term.script, Script.parenthesized, Script.text_append]
    rw [htext]
    exact both ih.1.not (Nat.le_refl 3)
  | @negate t f ht _ ih =>
    have htext : chars style write (.negate t) = "-".toList ++ chars style write t := by
      simp [chars, Term.script, Script.text_append]
    rw [htext]
    rw [ht] at ih
    exact both ih.1.negate (show 3 ≤ minusLevel by decide)
  | @coalesce t u f g _ _ iht ihu =>
    have htext : chars style write (.coalesce t u) = style.dialect.isnullFunction.toList ++
        "(".toList ++ chars style write t ++ ", ".toList ++ chars style write u ++ ")".toList := by
      simp [chars, Term.script, Script.call, Script.parenthesized, Script.joined,
        Script.text_append]
    rw [htext]
    exact both (iht.1.replaceNull ihu.1) hatom
  | @caseWhen t a b f g h _ _ _ iht iha ihb =>
    have htext : chars style write (.caseWhen t a b) = "CASE WHEN ".toList ++ chars style write t ++
        " THEN ".toList ++ chars style write a ++ " ELSE ".toList ++ chars style write b ++
        " END".toList := by
      simp [chars, Term.script, Script.text_append]
    rw [htext]
    exact both (Tells.caseWhen iht.1 iha.1 ihb.1) hatom

end Renders

/-! ## Constants -/

theorem natural?_eq_some {v : Value} {n : Nat} (h : v.natural? = some n) :
    ∃ i : Int64, v = .int i ∧ i.toInt = n := by
  cases v with
  | int i =>
    simp only [Value.natural?, Option.ite_none_right_eq_some, Option.some.injEq] at h
    exact ⟨i, rfl, by omega⟩
  | _ => cases h

theorem tells_writeConstant {config : Config} {constants : List Constant} {c : Constant} {n : Nat}
    (hnumbered : Numbered constants) (hc : c ∈ constants) (hn : c.value.natural? = some n) :
    Reader.Tells config.dialect (parameterValue constants) (config.writeConstant c).toList
      Formula.atomLevel (.number n) := by
  unfold Config.writeConstant
  split
  · refine Reader.Tells.single (fun _ => tokens_placeholder) fun σ => ?_
    have hfind : constants.find? (·.index == c.index) = some c := by
      obtain ⟨k, hk⟩ : ∃ k, constants.find? (·.index == c.index) = some k := by
        rw [← Option.isSome_iff_exists, List.find?_isSome]
        exact ⟨c, hc, beq_self_eq_true _⟩
      have hindex : k.index = c.index := by simpa using List.find?_some hk
      rw [hk, hnumbered.eq_of_index (List.mem_of_find?_eq_some hk) hc hindex]
    simp [Reader.shift, parameterValue, hfind, hn]
  · obtain ⟨i, hv, hi⟩ := natural?_eq_some hn
    have htext : c.value.literal config.dialect config.unicodeLiterals = toString n := by
      rw [hv, Value.literal, hi]
      rfl
    rw [htext]
    exact Reader.Tells.single (fun _ => tokens_nat) fun _ => rfl

end Sql

end QueryCompiler

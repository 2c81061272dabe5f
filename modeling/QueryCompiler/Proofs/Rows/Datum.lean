import QueryCompiler.Expr.Same
import QueryCompiler.Proofs.Expr.Binding
/-!
# What expressions denote

A value of a query is a scalar or a record of named values. An interpretation says what constants
and operators mean, over any type of scalars with a total preorder; `Expr.eval` is the value of an
expression for a row of the root and values of the parameters. What a row pipeline does not use,
such as calls and nested queries, has no meaning here.

Values are compared member by member, so that an ordering by an object construction is the ordering
by its members, one after the other.
-/

namespace QueryCompiler

/-! ## Values -/

mutual

/-- A named value of a record. -/
structure Field (V : Type) where
  name : String
  value : Datum V

/-- A scalar, or a record of named values. -/
inductive Datum (V : Type) where
  | scalar (v : V)
  | record (fields : List (Field V))

end

variable {V : Type}

namespace Datum

/-- The value of a name, the first one that has it. -/
def get? : Datum V → String → Option (Datum V)
  | scalar _, _ => none
  | record fields, name => (fields.find? (·.name == name)).map (·.value)

mutual

def decEq [DecidableEq V] : (a b : Datum V) → Decidable (a = b)
  | scalar v, scalar w => decidable_of_iff (v = w) (by simp)
  | record xs, record ys =>
    match decEqFields xs ys with
    | isTrue h => isTrue (h ▸ rfl)
    | isFalse h => isFalse fun heq => h (by cases heq; rfl)
  | scalar _, record _ => isFalse (by simp)
  | record _, scalar _ => isFalse (by simp)

/-- Equality of named values, decided. -/
def decEqFields [DecidableEq V] : (xs ys : List (Field V)) → Decidable (xs = ys)
  | [], [] => isTrue rfl
  | [], _ :: _ => isFalse (by simp)
  | _ :: _, [] => isFalse (by simp)
  | ⟨m, a⟩ :: xs, ⟨n, b⟩ :: ys =>
    if hn : m = n then
      match decEq a b, decEqFields xs ys with
      | isTrue ha, isTrue hxs => isTrue (by rw [hn, ha, hxs])
      | isFalse ha, _ => isFalse fun heq => ha (by cases heq; rfl)
      | _, isFalse hxs => isFalse fun heq => hxs (by cases heq; rfl)
    else isFalse fun heq => hn (by cases heq; rfl)

end

instance [DecidableEq V] : DecidableEq (Datum V) := decEq

/-- The order of two scalars under a preorder. -/
def order (le : V → V → Bool) (v w : V) : Ordering :=
  if le v w then if le w v then .eq else .lt else .gt

mutual

/-- Compares values: scalars come before records, and records are compared member by member, from
the first on. -/
def compare (le : V → V → Bool) : Datum V → Datum V → Ordering
  | scalar v, scalar w => order le v w
  | scalar _, record _ => .lt
  | record _, scalar _ => .gt
  | record xs, record ys => compareFields le xs ys

/-- Compares named values by the values, from the first on. -/
def compareFields (le : V → V → Bool) : List (Field V) → List (Field V) → Ordering
  | [], [] => .eq
  | [], _ :: _ => .lt
  | _ :: _, [] => .gt
  | ⟨_, a⟩ :: xs, ⟨_, b⟩ :: ys => (compare le a b).then (compareFields le xs ys)

end

/-! ### A total preorder -/

variable {le : V → V → Bool}

theorem order_swap (total : ∀ v w, le v w || le w v) (v w : V) :
    order le w v = (order le v w).swap := by
  have h := total v w
  unfold order
  cases hvw : le v w <;> cases hwv : le w v <;> simp_all

theorem order_then (trans : ∀ u v w, le u v → le v w → le u w) (u v w : V)
    (huv : order le u v ≠ .gt) (hvw : order le v w ≠ .gt) :
    order le u w = (order le u v).then (order le v w) := by
  have huvw := trans u v w
  have hwvu := trans w v u
  have hwuv := trans w u v
  have hvwu := trans v w u
  unfold order at huv hvw ⊢
  grind

mutual

theorem compare_swap (total : ∀ v w, le v w || le w v) :
    ∀ a b : Datum V, compare le b a = (compare le a b).swap
  | scalar v, scalar w => order_swap total v w
  | scalar _, record _ => rfl
  | record _, scalar _ => rfl
  | record xs, record ys => compareFields_swap total xs ys

theorem compareFields_swap (total : ∀ v w, le v w || le w v) :
    ∀ xs ys : List (Field V), compareFields le ys xs = (compareFields le xs ys).swap
  | [], [] => rfl
  | [], _ :: _ => rfl
  | _ :: _, [] => rfl
  | ⟨_, a⟩ :: xs, ⟨_, b⟩ :: ys => by
    simp only [compareFields]
    rw [compare_swap total a b, compareFields_swap total xs ys, Ordering.swap_then]

end

/-- Comparisons that do not fall are composed: a step that rises makes the whole rise. -/
theorem then_ne_gt {o p : Ordering} (h : o.then p ≠ .gt) :
    o ≠ .gt ∧ (o = .eq → p ≠ .gt) := by
  cases o <;> simp_all [Ordering.then]

mutual

theorem compare_then (trans : ∀ u v w, le u v → le v w → le u w) :
    ∀ a b c : Datum V, compare le a b ≠ .gt → compare le b c ≠ .gt →
      compare le a c = (compare le a b).then (compare le b c)
  | scalar u, scalar v, scalar w, hab, hbc => order_then trans u v w hab hbc
  | scalar _, scalar v, record _, hab, _ => by
    simp only [compare] at hab ⊢
    cases h : order le _ v <;> simp_all [Ordering.then]
  | scalar _, record _, record _, _, _ => rfl
  | record xs, record ys, record zs, hab, hbc => compareFields_then trans xs ys zs hab hbc
  | _, record _, scalar _, _, hbc => absurd rfl hbc
  | record _, scalar _, _, hab, _ => absurd rfl hab

theorem compareFields_then (trans : ∀ u v w, le u v → le v w → le u w) :
    ∀ xs ys zs : List (Field V), compareFields le xs ys ≠ .gt → compareFields le ys zs ≠ .gt →
      compareFields le xs zs = (compareFields le xs ys).then (compareFields le ys zs)
  | [], [], _, _, _ => rfl
  | [], _ :: _, _ :: _, _, _ => rfl
  | ⟨_, a⟩ :: xs, ⟨_, b⟩ :: ys, ⟨_, c⟩ :: zs, hxy, hyz => by
    simp only [compareFields] at hxy hyz ⊢
    have hab := then_ne_gt hxy
    have hbc := then_ne_gt hyz
    rw [compare_then trans a b c hab.1 hbc.1]
    cases h₁ : compare le a b with
    | lt => rfl
    | gt => exact absurd h₁ hab.1
    | eq =>
      cases h₂ : compare le b c with
      | lt =>
        cases h₃ : compareFields le xs ys with
        | lt | eq => rfl
        | gt => exact absurd h₃ (hab.2 h₁)
      | gt => exact absurd h₂ hbc.1
      | eq => exact compareFields_then trans xs ys zs (hab.2 h₁) (hbc.2 h₂)
  | _, _ :: _, [], _, hyz => absurd rfl hyz
  | _ :: _, [], _, hxy, _ => absurd rfl hxy

end

end Datum

/-! ## Interpretations -/

/-- What constants and operators mean. -/
structure Interpretation (V : Type) where
  constant : Value → Datum V
  binary : BinaryOp → Datum V → Datum V → Datum V
  unary : UnaryOp → Datum V → Datum V
  conditional : Datum V → Datum V → Datum V → Datum V
  /-- when a test holds -/
  holds : Datum V → Bool
  /-- the order of scalars as keys -/
  le : V → V → Bool
  /-- what has no meaning otherwise -/
  missing : Datum V
  /-- a conjunction holds when both sides do -/
  holds_and : ∀ a b, holds (binary .and a b) = (holds a && holds b)
  le_total : ∀ v w, le v w || le w v
  le_trans : ∀ u v w, le u v → le v w → le u w

/-- Constants that are the same denote the same: decimals are read by amount, and zero has no
sign. -/
def Interpretation.RespectsSame (I : Interpretation V) : Prop :=
  ∀ v w : Value, v == w → I.constant v = I.constant w

namespace Expr

variable (I : Interpretation V) (env : List (String × Datum V)) (root : Datum V)

mutual

/-- The value of an expression. -/
def eval : Expr → Datum V
  | param name => (env.lookup name).getD I.missing
  | member target name => ((eval target).get? name).getD I.missing
  | constant v => I.constant v
  | binary op l r => I.binary op (eval l) (eval r)
  | unary op e => I.unary op (eval e)
  | conditional t a b => I.conditional (eval t) (eval a) (eval b)
  | object _ bindings => .record (evalBindings bindings)
  | source 0 => root
  | _ => I.missing

def evalBindings : List Binding → List (Field V)
  | [] => []
  | ⟨m, v⟩ :: bs => ⟨m, eval v⟩ :: evalBindings bs

end

mutual

/-- **Expressions that are the same denote the same**, if their constants do. -/
theorem eval_same {I : Interpretation V} (hI : I.RespectsSame) : ∀ {e f : Expr}, e.same f = true →
    e.eval I env root = f.eval I env root
  | param _, f, h => by
    cases f with
    | param =>
      simp only [same, beq_iff_eq] at h
      rw [h]
    | _ => simp [same] at h
  | member t _, f, h => by
    cases f with
    | member u =>
      simp only [same, Bool.and_eq_true, beq_iff_eq] at h
      rw [eval, eval, eval_same hI h.1, h.2]
    | _ => simp [same] at h
  | constant v, f, h => by
    cases f with
    | constant w => exact hI v w (by simpa only [same] using h)
    | _ => simp [same] at h
  | binary _ l r, f, h => by
    cases f with
    | binary =>
      simp only [same, Bool.and_eq_true, beq_iff_eq] at h
      rw [eval, eval, h.1.1, eval_same hI h.1.2, eval_same hI h.2]
    | _ => simp [same] at h
  | unary _ e, f, h => by
    cases f with
    | unary =>
      simp only [same, Bool.and_eq_true, beq_iff_eq] at h
      rw [eval, eval, h.1, eval_same hI h.2]
    | _ => simp [same] at h
  | conditional t a b, f, h => by
    cases f with
    | conditional =>
      simp only [same, Bool.and_eq_true] at h
      rw [eval, eval, eval_same hI h.1.1, eval_same hI h.1.2, eval_same hI h.2]
    | _ => simp [same] at h
  | object _ bs, f, h => by
    cases f with
    | object =>
      simp only [same, Bool.and_eq_true] at h
      rw [eval, eval, evalBindings_same hI h.2]
    | _ => simp [same] at h
  | source i, f, h => by
    cases f with
    | source =>
      simp only [same, beq_iff_eq] at h
      rw [h]
    | _ => simp [same] at h
  | call _ _ _, f, h | query _, f, h | grouping _ _, f, h | joinGroup _ _, f, h
  | aggregate _ _, f, h => by
    cases f <;> first | rfl | simp [same] at h
  | lambda ⟨_, _⟩, f, h => by
    cases f <;> first | rfl | simp [same] at h

theorem evalBindings_same {I : Interpretation V} (hI : I.RespectsSame) :
    ∀ {bs cs : List Binding}, sameBindings bs cs = true →
      evalBindings I env root bs = evalBindings I env root cs
  | [], [], _ => rfl
  | ⟨m, v⟩ :: bs, ⟨n, w⟩ :: cs, h => by
    simp only [sameBindings, Bool.and_eq_true, beq_iff_eq] at h
    rw [evalBindings, evalBindings, h.1.1, eval_same hI h.1.2, evalBindings_same hI h.2]
  | [], _ :: _, h => by simp [sameBindings] at h
  | _ :: _, [], h => by simp [sameBindings] at h

end

end Expr

def Lambda.apply (I : Interpretation V) (l : Lambda) (item : Datum V) : Datum V :=
  l.body.eval I (l.params.map (·, item)) I.missing

end QueryCompiler

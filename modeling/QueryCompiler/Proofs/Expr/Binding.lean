import QueryCompiler.Expr.Binding
import QueryCompiler.Proofs.Outcome
/-!
# Bound lambdas

Binding substitutes rows for parameters and reduces the result. What a member is reduced to and
which rows stand for which parameters are the two steps that a meaning of expressions has to follow.

A lambda is bound at ever greater depths until one suffices. A greater depth keeps every other
outcome (`Lambda.bindAt_mono`), so the outcome is that of all depths from some on
(`Lambda.exists_forall_bindAt_eq`). It does not show the depths any more: binding a lambda reduces
its body, with the lambdas of aggregates bound in the same way (`Lambda.bind_eq`).
-/

namespace QueryCompiler

namespace Expr

theorem mem_of_find? {bindings : List Binding} {name : String} {value : Expr}
    (h : Binding.find? bindings name = some value) :
    ∃ b ∈ bindings, b.member = name ∧ b.value = value := by
  obtain ⟨b, hb, rfl⟩ := Option.map_eq_some_iff.1 h
  exact ⟨b, List.mem_of_find?_eq_some hb, by simpa using List.find?_some hb, rfl⟩

/-- **A member is folded in one of three ways**: it is the value an object construction binds, it
is the key of a grouping, or it stays. -/
theorem foldMember_cases {target e : Expr} {name : String} (h : foldMember target name = .ok e) :
    (∃ ty bindings, target = object ty bindings ∧ Binding.find? bindings name = some e) ∨
      (∃ element, target = grouping e element) ∨
      e = member target name := by
  cases target with
  | object ty bindings =>
    left
    simp only [foldMember] at h
    split at h
    · rename_i value hv
      cases h
      exact ⟨ty, bindings, rfl, hv⟩
    · cases h
  | grouping key element =>
    by_cases hk : name = "Key"
    · right; left
      simp only [foldMember, hk, beq_self_eq_true, if_true] at h
      cases h
      exact ⟨element, rfl⟩
    · right; right
      simp only [foldMember, beq_iff_eq, hk, if_false] at h
      cases h
      rfl
  | _ =>
    right; right
    cases h
    rfl

/-- The outcomes of a method of a group: an aggregate of the elements themselves, or of what a
lambda that `binds` describes makes of them. -/
inductive Aggregated (binds : Lambda → Expr → Expr → Prop) (element : Expr) :
    List Expr → Expr → Prop where
  | elements (func : AggregateFunc) :
    Aggregated binds element [] (aggregateOf func element none)
  | selected (func : AggregateFunc) {l : Lambda} {selector : Expr}
    (h : binds l element selector) :
    Aggregated binds element [lambda l] (aggregateOf func element (some selector))

theorem aggregated_of_groupAggregate {bindElement : Lambda → Expr → Compiled Expr}
    {method : String} {element e : Expr} {args : List Expr}
    (h : groupAggregate bindElement method element args = .ok e) :
    Aggregated (fun l element selector => bindElement l element = .ok selector) element args e := by
  unfold groupAggregate at h
  split at h
  · cases h
  · rename_i func _
    split at h
    · cases h
      exact .elements func
    · rename_i l
      obtain ⟨selector, hselector, h⟩ := Compiled.bind_eq_ok.1 h
      cases h
      exact .selected func hselector
    · cases h

theorem Aggregated.imp {binds binds' : Lambda → Expr → Expr → Prop} {element e : Expr}
    {args : List Expr} (h : Aggregated binds element args e)
    (himp : ∀ l e, binds l element e → binds' l element e) : Aggregated binds' element args e := by
  cases h with
  | elements func => exact .elements func
  | selected func h => exact .selected func (himp _ _ h)

/-! ## Reduction with aggregates treated in several ways -/

section Uniform

variable {ι : Type} {Φ : {α : Type} → (ι → Compiled α) → Prop} {g : ι → GroupCall}

/-- A property of outcomes side by side that sequences keep. -/
structure Uniform (Φ : {α : Type} → (ι → Compiled α) → Prop) : Prop where
  const {α : Type} (x : Compiled α) : Φ fun _ => x
  bind {α β : Type} {x : ι → Compiled α} {f : ι → α → Compiled β} (hx : Φ x)
    (hf : ∀ a, Φ fun i => f i a) : Φ fun i => x i >>= f i

mutual

/-- **What the treatments of aggregates have side by side, reduction with them has.** -/
theorem Uniform.reduceWith (h : Uniform Φ) (hg : ∀ m element args, Φ fun i => g i m element args) :
    ∀ e : Expr, Φ fun i => e.reduceWith (g i)
  | param _ | constant _ | lambda _ | query _ | source _ => h.const _
  | member target _ => h.bind (h.reduceWith hg target) fun _ => h.const _
  | call method target args => by
    refine h.bind (h.reduceOption hg target) fun t => ?_
    split
    · exact hg method _ args
    · exact h.bind (h.reduceList hg args) fun _ => h.const _
  | binary _ l r =>
    h.bind (h.reduceWith hg l) fun _ => h.bind (h.reduceWith hg r) fun _ => h.const _
  | unary _ e => h.bind (h.reduceWith hg e) fun _ => h.const _
  | object _ bindings => h.bind (h.reduceBindings hg bindings) fun _ => h.const _
  | conditional t a b =>
    h.bind (h.reduceWith hg t) fun _ => h.bind (h.reduceWith hg a) fun _ =>
      h.bind (h.reduceWith hg b) fun _ => h.const _
  | grouping k e =>
    h.bind (h.reduceWith hg k) fun _ => h.bind (h.reduceWith hg e) fun _ => h.const _
  | joinGroup _ e => h.bind (h.reduceWith hg e) fun _ => h.const _
  | aggregate _ arg => h.bind (h.reduceOption hg arg) fun _ => h.const _

theorem Uniform.reduceOption (h : Uniform Φ)
    (hg : ∀ m element args, Φ fun i => g i m element args) :
    ∀ o : Option Expr, Φ fun i => Expr.reduceOption (g i) o
  | none => h.const _
  | some e => h.bind (h.reduceWith hg e) fun _ => h.const _

theorem Uniform.reduceList (h : Uniform Φ)
    (hg : ∀ m element args, Φ fun i => g i m element args) :
    ∀ es : List Expr, Φ fun i => Expr.reduceList (g i) es
  | [] => h.const _
  | e :: es => h.bind (h.reduceWith hg e) fun _ => h.bind (h.reduceList hg es) fun _ => h.const _

theorem Uniform.reduceBindings (h : Uniform Φ)
    (hg : ∀ m element args, Φ fun i => g i m element args) :
    ∀ bs : List Binding, Φ fun i => Expr.reduceBindings (g i) bs
  | [] => h.const _
  | ⟨_, v⟩ :: bs =>
    h.bind (h.reduceWith hg v) fun _ => h.bind (h.reduceBindings hg bs) fun _ => h.const _

end

/-- What the ways to bind the lambda of an aggregate have side by side, the aggregates have. -/
theorem Uniform.groupAggregate (h : Uniform Φ) {b : ι → Lambda → Expr → Compiled Expr}
    (hb : ∀ l element, Φ fun i => b i l element) (method : String) (element : Expr)
    (args : List Expr) : Φ fun i => Expr.groupAggregate (b i) method element args := by
  unfold Expr.groupAggregate
  split
  · exact h.const _
  · split
    · exact h.const _
    · exact h.bind (hb _ element) fun _ => h.const _
    · exact h.const _

/-- What the treatments of aggregates have side by side, the bodies of bound lambdas have. -/
theorem Uniform.bindBody (h : Uniform Φ) (hg : ∀ m element args, Φ fun i => g i m element args)
    (l : Lambda) (args : List Expr) :
    Φ fun i => l.environment args >>= fun env => (l.body.substitute env).reduceWith (g i) :=
  h.bind (h.const _) fun _ => h.reduceWith hg _

/-- That the outcome of the first treatment, if it ends, is that of the second. -/
theorem uniform_endless_or_eq :
    Uniform fun {α} (x : Bool → Compiled α) =>
      x false = .error .endlessBinding ∨ x false = x true where
  const _ := .inr rfl
  bind {_ _ x f} hx hf := by
    rcases hx with hx | hx
    · left
      simp only [hx]
      rfl
    · simp only [hx]
      cases x true with
      | error e => exact .inr rfl
      | ok a => exact hf a

/-- That the outcomes of numbered treatments are from some number on that of the last. -/
theorem uniform_eventually_eq :
    Uniform fun {α} (x : Option Nat → Compiled α) => ∃ k, ∀ n ≥ k, x (some n) = x none where
  const _ := ⟨0, fun _ _ => rfl⟩
  bind {_ _ x f} hx hf := by
    obtain ⟨k, hk⟩ := hx
    cases hnone : x none with
    | error e =>
      refine ⟨k, fun n hn => ?_⟩
      simp only [hk n hn, hnone]
      rfl
    | ok a =>
      obtain ⟨k', hk'⟩ := hf a
      refine ⟨max k k', fun n hn => ?_⟩
      simp only [hk n (by omega), hnone]
      exact hk' n (by omega)

end Uniform

end Expr

namespace Lambda

variable {l : Lambda} {args : List Expr} {e : Expr}

theorem environment_eq_ok {l : Lambda} {args : List Expr} {env : List (String × Expr)}
    (h : l.environment args = .ok env) : l.arity = args.length ∧ env = l.params.zip args := by
  simp only [environment] at h
  split at h
  · rename_i hlen
    cases h
    exact ⟨by simpa using hlen, rfl⟩
  · cases h

/-! ## Depths -/

/-- The treatment of aggregates at a depth. -/
def groupCallAt : Nat → Expr.GroupCall
  | 0 => fun _ _ _ => .error .endlessBinding
  | depth + 1 => Expr.groupAggregate fun l element => l.bindAt depth [element]

theorem bindAt_eq (depth : Nat) : l.bindAt depth args =
    l.environment args >>= fun env => (l.body.substitute env).reduceWith (groupCallAt depth) := by
  cases depth <;> rw [bindAt] <;> rfl

/-- **A greater depth keeps every outcome** but that of a depth that does not suffice. -/
theorem bindAt_mono {depth depth' : Nat} (hle : depth ≤ depth') :
    l.bindAt depth args = .error .endlessBinding ∨ l.bindAt depth args = l.bindAt depth' args := by
  induction depth generalizing depth' l args with
  | zero =>
    rw [bindAt_eq, bindAt_eq]
    exact Expr.uniform_endless_or_eq.bindBody
      (g := fun i => groupCallAt (match i with | false => 0 | true => depth'))
      (fun _ _ _ => .inl rfl) l args
  | succ depth ih =>
    obtain ⟨depth', rfl⟩ : ∃ k, depth' = k + 1 := ⟨depth' - 1, by omega⟩
    have hle : depth ≤ depth' := by omega
    rw [bindAt_eq, bindAt_eq]
    refine Expr.uniform_endless_or_eq.bindBody
      (g := fun i => groupCallAt (match i with | false => depth + 1 | true => depth' + 1)) ?_ l args
    exact Expr.uniform_endless_or_eq.groupAggregate
      (b := fun i l element => l.bindAt (match i with | false => depth | true => depth') [element])
      fun l element => ih hle

theorem sufficientDepth_eq (depth : Nat) : l.sufficientDepth args depth =
    match l.bindAt depth args with
    | .error .endlessBinding => l.sufficientDepth args (depth + 1)
    | _ => some depth := by
  unfold sufficientDepth
  rewrite [repeatM_eq_of_monadTail]
  simp only [repeatM.body]
  cases h : l.bindAt depth args with
  | ok e => rfl
  | error e => cases e <;> rfl

theorem exists_sufficientDepth {depth n : Nat} (hle : depth ≤ n)
    (h : l.bindAt n args ≠ .error .endlessBinding) :
    ∃ k, l.sufficientDepth args depth = some k ∧ l.bindAt k args ≠ .error .endlessBinding := by
  induction hk : n - depth generalizing depth with
  | zero =>
    obtain rfl : depth = n := by omega
    rw [sufficientDepth_eq]
    split
    · exact absurd ‹_› h
    · exact ⟨depth, rfl, h⟩
  | succ k ih =>
    rw [sufficientDepth_eq]
    split
    · exact ih (by omega) (by omega)
    · exact ⟨depth, rfl, ‹_›⟩

/-- Binding either finds the outcome of a depth that suffices, or no depth suffices. -/
theorem bind_cases (l : Lambda) (args : List Expr) :
    (l.bind args ≠ .error .endlessBinding ∧ ∃ n, l.bindAt n args = l.bind args) ∨
      (l.bind args = .error .endlessBinding ∧ ∀ n, l.bindAt n args = .error .endlessBinding) := by
  unfold bind
  split
  · rename_i hfirst
    by_cases hall : ∀ n, l.bindAt n args = .error .endlessBinding
    · refine .inr ⟨?_, hall⟩
      split
      · exact hall _
      · rfl
    · obtain ⟨n, hne⟩ := not_forall.1 hall
      have hn : l.bindingDepth args + 1 ≤ n := by
        by_contra hlt
        exact hne ((bindAt_mono (by omega)).elim id fun heq => heq.trans hfirst)
      obtain ⟨k, hk, hsuffices⟩ := exists_sufficientDepth hn hne
      rw [hk]
      exact .inl ⟨hsuffices, k, rfl⟩
  · rename_i hne
    exact .inl ⟨hne, _, rfl⟩

/-- **The outcome of binding is that of every depth from some on.** -/
theorem exists_forall_bindAt_eq (l : Lambda) (args : List Expr) :
    ∃ k, ∀ n ≥ k, l.bindAt n args = l.bind args := by
  rcases bind_cases l args with ⟨hne, k, hk⟩ | ⟨hendless, hall⟩
  · refine ⟨k, fun n hn => ?_⟩
    rw [← hk] at hne ⊢
    exact ((bindAt_mono hn).resolve_left hne).symm
  · exact ⟨0, fun n _ => (hall n).trans hendless.symm⟩

/-- **What a bound lambda has if the lambdas bound inside it have it, every bound lambda has.** -/
theorem bind_induction {motive : Lambda → List Expr → Expr → Prop}
    (h : ∀ g : Expr.GroupCall, (∀ method element args e, g method element args = .ok e →
        Expr.Aggregated (fun l element e => motive l [element] e) element args e) →
      ∀ l args e, l.arity = args.length →
        (l.body.substitute (l.params.zip args)).reduceWith g = .ok e → motive l args e)
    (hbind : l.bind args = .ok e) : motive l args e := by
  obtain ⟨depth, hdepth⟩ := exists_forall_bindAt_eq l args
  rw [← hdepth depth (Nat.le_refl _)] at hbind
  clear hdepth
  induction depth generalizing l args e with
  | zero =>
    rw [bindAt_eq] at hbind
    obtain ⟨env, henv, hreduce⟩ := Compiled.bind_eq_ok.1 hbind
    obtain ⟨harity, rfl⟩ := environment_eq_ok henv
    exact h _ (fun _ _ _ _ hcall => by cases hcall) l args e harity hreduce
  | succ depth ih =>
    rw [bindAt_eq] at hbind
    obtain ⟨env, henv, hreduce⟩ := Compiled.bind_eq_ok.1 hbind
    obtain ⟨harity, rfl⟩ := environment_eq_ok henv
    refine h _ (fun _ _ _ _ hcall => ?_) l args e harity hreduce
    rw [groupCallAt] at hcall
    exact (Expr.aggregated_of_groupAggregate hcall).imp fun _ _ => ih

end Lambda

/-- Reduction, with the lambdas of aggregates bound to the elements of their groups. -/
def Expr.reduce (e : Expr) : Compiled Expr :=
  e.reduceWith (groupAggregate fun l element => l.bind [element])

/-- **Binding a lambda reduces its body**, with rows in the place of parameters. -/
theorem Lambda.bind_eq (l : Lambda) (args : List Expr) :
    l.bind args = l.environment args >>= fun env => (l.body.substitute env).reduce := by
  obtain ⟨k, hk⟩ := exists_forall_bindAt_eq l args
  let binds : Option Nat → Lambda → Expr → Compiled Expr := fun i l element =>
    i.elim (l.bind [element]) fun n => l.bindAt n [element]
  have hbinds := Expr.uniform_eventually_eq.groupAggregate (b := binds)
    fun l element => exists_forall_bindAt_eq l [element]
  obtain ⟨k', hk'⟩ := Expr.uniform_eventually_eq.bindBody
    (g := fun i => Expr.groupAggregate (binds i)) hbinds l args
  have hdepth := hk (max k k' + 1) (by omega)
  rw [bindAt_eq] at hdepth
  rw [← hdepth]
  exact hk' (max k k') (by omega)

end QueryCompiler

import QueryCompiler.Proofs.Expr.Sources
/-!
# What stands in an expression

An expression stands in another as a part of it or inside a part (`Expr.Within`); outside the bodies
of lambdas it is shown by it (`Expr.Shown`). Substitution and reduction are described here by what
they do to the parts (`Substitution`, `Reduction`, `Failure`), so that what is said along the parts
needs no second look at the forms of an expression.

Three results follow. Binding a lambda makes up no source, group, query or lambda of its own: what
the outcome mentions, the lambda or an argument mentions (`Lambda.mentions_bind`). The outcome is
reduced: it shows nothing that reduction would still change, no parameter in particular
(`Lambda.reduced_bind`), so that reducing it once more gives it back (`Reduced.reduceWith_eq`). And
a lambda that a caller wrote reads nothing but its arguments (`Lambda.reads_bind`).
-/

namespace QueryCompiler

open Compiled (bind_eq_ok pure_eq_ok ok_bind)

namespace Expr

variable {e e' p q t : Expr} {name : String} {g : GroupCall}

/-! ## Parts of parts -/

def isLambda : Expr → Bool
  | lambda _ => true
  | _ => false

/-- `p` is `e` or stands in a part of it; the bodies of lambdas are entered if `deep`. -/
inductive StandsIn (deep : Bool) (p : Expr) : Expr → Prop where
  | refl : StandsIn deep p p
  | part {e q : Expr} (he : deep = true ∨ e.isLambda = false) (hq : q ∈ e.parts)
    (h : StandsIn deep p q) : StandsIn deep p e

/-- `p` stands in `e`, be it inside the body of a lambda. -/
abbrev Within (p e : Expr) : Prop := p.StandsIn true e

/-- `p` stands in `e` outside the bodies of lambdas. -/
abbrev Shown (p e : Expr) : Prop := p.StandsIn false e

variable {deep : Bool}

theorem standsIn_iff : p.StandsIn deep e ↔
    p = e ∨ (deep = true ∨ e.isLambda = false) ∧ ∃ q ∈ e.parts, p.StandsIn deep q := by
  constructor
  · intro h
    cases h with
    | refl => exact .inl rfl
    | part he hq h => exact .inr ⟨he, _, hq, h⟩
  · rintro (rfl | ⟨he, q, hq, h⟩)
    · exact .refl
    · exact .part he hq h

theorem within_iff : p.Within e ↔ p = e ∨ ∃ q ∈ e.parts, p.Within q :=
  standsIn_iff.trans (by simp)

theorem Shown.within (h : p.Shown e) : p.Within e := by
  induction h with
  | refl => exact .refl
  | part _ hq _ ih => exact .part (.inl rfl) hq ih

theorem anyList_eq (f : Expr → Bool) (es : List Expr) : anyList f es = es.any (·.any f) := by
  induction es with
  | nil => rfl
  | cons e es ih => rw [anyList, ih, List.any_cons]

theorem anyBinding_eq (f : Expr → Bool) (bs : List Binding) :
    anyBinding f bs = bs.any (·.value.any f) := by
  induction bs with
  | nil => rfl
  | cons b bs ih =>
    obtain ⟨m, v⟩ := b
    rw [anyBinding, ih, List.any_cons]

theorem any_eq (f : Expr → Bool) (e : Expr) : e.any f = (f e || e.parts.any (·.any f)) := by
  cases e with
  | call method target args => cases target <;> simp [any, anyOption, anyList_eq, Bool.or_assoc]
  | aggregate func arg => cases arg <;> simp [any, anyOption]
  | object ty bindings => simp [any, anyBinding_eq, Function.comp_def]
  | lambda l =>
    obtain ⟨params, body⟩ := l
    simp [any]
  | _ => simp [any, Bool.or_assoc]

/-- **A search finds what stands in an expression.** -/
theorem any_eq_true_iff {f : Expr → Bool} : e.any f = true ↔ ∃ p, p.Within e ∧ f p = true := by
  induction e using induction_parts with
  | h e ih =>
    rw [any_eq, Bool.or_eq_true, List.any_eq_true]
    constructor
    · rintro (h | ⟨q, hq, h⟩)
      · exact ⟨e, .refl, h⟩
      · obtain ⟨p, hp, hf⟩ := (ih q hq).1 h
        exact ⟨p, .part (.inl rfl) hq hp, hf⟩
    · rintro ⟨p, hp, hf⟩
      rcases within_iff.1 hp with rfl | ⟨q, hq, hp⟩
      · exact .inl hf
      · exact .inr ⟨q, hq, (ih q hq).2 ⟨p, hp, hf⟩⟩

/-! ## Marks -/

/-- What an expression can show of where it comes from: sources, groups of joins, queries, and the
forms that only bound or nested lambdas have. -/
inductive Mark where
  | source (id : Nat)
  | joinGroup (join : Nat)
  | query (log : Log)
  | grouping
  | lambda

/-- The mark that an expression is itself. -/
def mark? : Expr → Option Mark
  | source id => some (.source id)
  | joinGroup join _ => some (.joinGroup join)
  | query log => some (.query log)
  | grouping _ _ => some .grouping
  | lambda _ => some .lambda
  | _ => none

/-- A mark stands in an expression, be it inside the body of a lambda. -/
def Mentions (m : Mark) (e : Expr) : Prop := ∃ p : Expr, p.Within e ∧ p.mark? = some m

variable {m : Mark} {env : List (String × Expr)}

theorem mentions_iff : e.Mentions m ↔ e.mark? = some m ∨ ∃ p ∈ e.parts, p.Mentions m := by
  constructor
  · rintro ⟨p, hp, hm⟩
    rcases within_iff.1 hp with rfl | ⟨q, hq, hp⟩
    · exact .inl hm
    · exact .inr ⟨q, hq, p, hp, hm⟩
  · rintro (hm | ⟨q, hq, p, hp, hm⟩)
    · exact ⟨e, .refl, hm⟩
    · exact ⟨p, .part (.inl rfl) hq hp, hm⟩

theorem Mentions.part (hp : p ∈ e.parts) (h : p.Mentions m) : e.Mentions m :=
  mentions_iff.2 (.inr ⟨p, hp, h⟩)

/-- A search that finds every form of a mark tells whether it is mentioned. -/
theorem not_mentions_of_any {f : Expr → Bool} (h : e.any f = false)
    (hf : ∀ p : Expr, p.mark? = some m → f p = true) : ¬ e.Mentions m := by
  rintro ⟨p, hp, hm⟩
  rw [any_eq_true_iff.2 ⟨p, hp, hf p hm⟩] at h
  cases h

/-! ## Substitution -/

/-- An expression with other parts. Parameters have none, and lambdas stay as they are. -/
def mapParts (f : Expr → Expr) : Expr → Expr
  | member target name => member (f target) name
  | binary op l r => binary op (f l) (f r)
  | unary op e => unary op (f e)
  | call method target args => call method (target.map f) (args.map f)
  | object ty bindings => object ty (bindings.map fun b => ⟨b.member, f b.value⟩)
  | conditional t a b => conditional (f t) (f a) (f b)
  | grouping k e => grouping (f k) (f e)
  | joinGroup j e => joinGroup j (f e)
  | aggregate func arg => aggregate func (arg.map f)
  | e => e

variable {f : Expr → Expr}

theorem parts_mapParts (hlambda : e.isLambda = false) :
    (e.mapParts f).parts = e.parts.map f := by
  cases e with
  | lambda => cases hlambda
  | call method target args => cases target <;> simp [mapParts]
  | aggregate func arg => cases arg <;> simp [mapParts]
  | object ty bindings => simp [mapParts, Function.comp_def]
  | _ => rfl

theorem mark?_mapParts : (e.mapParts f).mark? = e.mark? := by
  cases e <;> rfl

theorem isComposed_mapParts : (e.mapParts f).isComposed = e.isComposed := by
  cases e <;> rfl

theorem isParam_mapParts : (e.mapParts f).isParam = e.isParam := by
  cases e <;> rfl

theorem isLambda_mapParts : (e.mapParts f).isLambda = e.isLambda := by
  cases e <;> rfl

/-- **Substitution replaces the parts** of what is neither a parameter nor a lambda. -/
theorem substitute_eq_mapParts (hparam : e.isParam = false) (hlambda : e.isLambda = false) :
    e.substitute env = e.mapParts (substitute env) := by
  cases e with
  | param => cases hparam
  | lambda => cases hlambda
  | call | aggregate | object =>
    simp only [substitute, substituteOption_eq, substituteList_eq, substituteBindings_eq, mapParts]
  | _ => simp only [substitute, mapParts]

theorem substitute_param (name : String) :
    (param name).substitute env = (env.lookup name).getD (param name) := by
  rw [substitute]

theorem substitute_lambda (l : Lambda) : (lambda l).substitute env =
    lambda ⟨l.params, l.body.substitute (env.filter fun entry => !l.params.contains entry.1)⟩ := by
  obtain ⟨params, body⟩ := l
  rw [substitute]

theorem mem_of_lookup {row : Expr} (h : env.lookup name = some row) : (name, row) ∈ env := by
  obtain ⟨before, behind, henv, -⟩ := List.lookup_eq_some_iff.1 h
  simp [henv]

/-- What substitution makes of an expression: a row takes the place of a parameter, the body of a
lambda does not see the rows of its own parameters, and all else has its parts replaced. -/
inductive Substitution (env : List (String × Expr)) : Expr → Expr → Prop where
  | row {name : String} {row : Expr} (h : (name, row) ∈ env) : Substitution env (param name) row
  | kept {name : String} (h : env.lookup name = none) : Substitution env (param name) (param name)
  | lambda (l : Lambda) : Substitution env (lambda l)
    (lambda ⟨l.params, l.body.substitute (env.filter fun entry => !l.params.contains entry.1)⟩)
  | rebuilt {e : Expr} (hparam : e.isParam = false) (hlambda : e.isLambda = false) :
    Substitution env e (e.mapParts (substitute env))

/-- **Substitution does one of the things listed.** -/
theorem substitution_of_eq (h : e.substitute env = e') : Substitution env e e' := by
  subst h
  cases e with
  | param name =>
    rw [substitute_param]
    cases h : env.lookup name with
    | none => exact .kept h
    | some row => exact .row (mem_of_lookup h)
  | lambda l =>
    rw [substitute_lambda]
    exact .lambda l
  | _ =>
    rw [substitute_eq_mapParts rfl rfl]
    exact .rebuilt rfl rfl

/-- **Rows bring their marks, and nothing else does.** -/
theorem Mentions.of_substitute (h : (e.substitute env).Mentions m) :
    e.Mentions m ∨ ∃ entry ∈ env, entry.2.Mentions m := by
  induction e using induction_parts generalizing env with
  | h e ih =>
    generalize he : e.substitute env = e' at h
    cases substitution_of_eq he with
    | row hrow => exact .inr ⟨_, hrow, h⟩
    | kept => exact .inl h
    | lambda l =>
      rcases mentions_iff.1 h with h | ⟨q, hq, h⟩
      · exact .inl (mentions_iff.2 (.inl h))
      · obtain rfl := List.mem_singleton.1 hq
        rcases ih l.body (by simp) h with h | ⟨entry, hentry, h⟩
        · exact .inl (h.part (by simp))
        · exact .inr ⟨entry, (List.mem_filter.1 hentry).1, h⟩
    | rebuilt _ hlambda =>
      rw [mentions_iff, mark?_mapParts, parts_mapParts hlambda] at h
      rcases h with h | ⟨q, hq, h⟩
      · exact .inl (mentions_iff.2 (.inl h))
      · obtain ⟨p, hp, rfl⟩ := List.mem_map.1 hq
        exact (ih p hp h).imp_left (Mentions.part hp)

/-! ## Reduction -/

/-- Whether an expression is one that reduction does not leave as it is, whatever its parts. -/
def isRedex : Expr → Bool
  | param _ => true
  | member (object _ _) _ => true
  | member (grouping _ _) name => name == "Key"
  | call _ (some (grouping _ _)) _ => true
  | _ => false

/-- What reduction makes of an expression: a member is folded, a method of a group is handed to
`g`, and all else is put together again from its reduced parts. -/
inductive Reduction (g : GroupCall) : Expr → Expr → Prop where
  | lambda (l : Lambda) : Reduction g (lambda l) (lambda l)
  | member {target t e : Expr} {name : String} (ht : target.reduceWith g = .ok t)
    (h : foldMember t name = .ok e) : Reduction g (member target name) e
  | group {method : String} {target key element e : Expr} {args : List Expr}
    (ht : target.reduceWith g = .ok (grouping key element)) (h : g method element args = .ok e) :
    Reduction g (call method (some target) args) e
  | rebuilt {e e' : Expr} (hmark : e'.mark? = e.mark?) (hredex : e'.isRedex = false)
    (hlambda : e.isLambda = false) (hcomposed : e'.isComposed = e.isComposed)
    (hparts : List.Forall₂ (fun p p' => p.reduceWith g = .ok p') e.parts e'.parts) :
    Reduction g e e'

/-- **Reduction does one of the things listed.** -/
theorem reduction_of_reduceWith (h : e.reduceWith g = .ok e') : Reduction g e e' := by
  cases e with
  | param => cases h
  | lambda l =>
    cases h
    exact .lambda l
  | constant | query | source =>
    cases h
    exact .rebuilt rfl rfl rfl rfl .nil
  | member target name =>
    simp only [reduceWith, bind_eq_ok] at h
    obtain ⟨t, ht, hfold⟩ := h
    exact .member ht hfold
  | call method target args =>
    simp only [reduceWith, bind_eq_ok] at h
    obtain ⟨t, ht, h⟩ := h
    have htarget : List.Forall₂ (fun p p' => p.reduceWith g = .ok p') target.toList t.toList := by
      cases target with
      | none =>
        cases ht
        exact .nil
      | some target =>
        simp only [reduceOption, bind_eq_ok, pure_eq_ok] at ht
        obtain ⟨t', ht', rfl⟩ := ht
        exact .cons ht' .nil
    split at h
    · rename_i key element
      cases target with
      | none => cases ht
      | some target =>
        cases htarget with
        | cons ht _ => exact .group ht h
    · rename_i hne
      simp only [bind_eq_ok, pure_eq_ok] at h
      obtain ⟨args', hargs, rfl⟩ := h
      refine .rebuilt rfl ?_ rfl rfl (List.rel_append htarget (reduceList_eq_ok hargs))
      unfold isRedex
      split <;> first | rfl | simp_all
  | object ty bindings =>
    simp only [reduceWith, bind_eq_ok, pure_eq_ok] at h
    obtain ⟨bs, hbs, rfl⟩ := h
    refine .rebuilt rfl rfl rfl rfl ?_
    simpa [List.forall₂_map_left_iff, List.forall₂_map_right_iff] using
      reduceBindings_eq_ok hbs
  | aggregate func arg =>
    simp only [reduceWith, bind_eq_ok, pure_eq_ok] at h
    obtain ⟨arg', harg, rfl⟩ := h
    refine .rebuilt rfl rfl rfl rfl ?_
    cases arg with
    | none =>
      cases harg
      exact .nil
    | some a =>
      simp only [reduceOption, bind_eq_ok, pure_eq_ok] at harg
      obtain ⟨a', ha, rfl⟩ := harg
      exact .cons ha .nil
  | unary op e | joinGroup j e =>
    simp only [reduceWith, bind_eq_ok, pure_eq_ok] at h
    obtain ⟨e₁, h₁, rfl⟩ := h
    exact .rebuilt rfl rfl rfl rfl (.cons h₁ .nil)
  | binary op l r | grouping l r =>
    simp only [reduceWith, bind_eq_ok, pure_eq_ok] at h
    obtain ⟨l', hl, r', hr, rfl⟩ := h
    exact .rebuilt rfl rfl rfl rfl (.cons hl (.cons hr .nil))
  | conditional t a b =>
    simp only [reduceWith, bind_eq_ok, pure_eq_ok] at h
    obtain ⟨t', ht, a', ha, b', hb, rfl⟩ := h
    exact .rebuilt rfl rfl rfl rfl (.cons ht (.cons ha (.cons hb .nil)))

/-- Where reduction fails: at a parameter that is left, at a member that an object does not bind, or
in the hands of a method of a group. -/
inductive Failure (g : GroupCall) (err : CompileError) : Expr → Prop where
  | param (name : String) (h : err = .ambiguous (.unboundParameter name)) :
    Failure g err (param name)
  | member {target t : Expr} {name : String} (h : foldMember t name = .error err) :
    Failure g err (member target name)
  | group {method : String} {target key element : Expr} {args : List Expr}
    (ht : target.reduceWith g = .ok (grouping key element))
    (h : g method element args = .error err) : Failure g err (call method (some target) args)

/-- A reduction fails where it stands, or in a part. -/
theorem failure_or_part {err : CompileError} (h : e.reduceWith g = .error err) :
    Failure g err e ∨ e.isLambda = false ∧ ∃ p ∈ e.parts, p.reduceWith g = .error err := by
  have hoption {o : Option Expr} (h : reduceOption g o = .error err) :
      ∃ p ∈ o, p.reduceWith g = .error err := by
    cases o with
    | none => cases h
    | some p => exact ⟨p, rfl, Compiled.bind_pure_eq_error.1 h⟩
  cases e with
  | constant | lambda | query | source => cases h
  | param name =>
    cases h
    exact .inl (.param name rfl)
  | member target name =>
    rcases Compiled.bind_eq_error.1 h with h | ⟨t, -, h⟩
    · exact .inr ⟨rfl, target, by simp, h⟩
    · exact .inl (.member h)
  | call method target args =>
    rcases Compiled.bind_eq_error.1 h with h | ⟨t, ht, h⟩
    · obtain ⟨p, hp, h⟩ := hoption h
      exact .inr ⟨rfl, p, by simp_all, h⟩
    split at h
    · cases target with
      | none => cases ht
      | some target =>
        obtain ⟨_, ht, hsome⟩ := bind_eq_ok.1 ht
        cases hsome
        exact .inl (.group ht ‹_›)
    · have hargs : reduceList g args = .error err := Compiled.bind_pure_eq_error.1 h
      obtain ⟨p, hp, h⟩ := Compiled.mapM_eq_error (reduceList_eq_mapM g args ▸ hargs)
      exact .inr ⟨rfl, p, by simp [hp], h⟩
  | object ty bindings =>
    have hbindings : reduceBindings g bindings = .error err := Compiled.bind_pure_eq_error.1 h
    obtain ⟨b, hb, h⟩ := Compiled.mapM_eq_error (reduceBindings_eq_mapM g bindings ▸ hbindings)
    exact .inr ⟨rfl, b.value, List.mem_map_of_mem hb, Compiled.bind_pure_eq_error.1 h⟩
  | aggregate func arg =>
    obtain ⟨p, hp, h⟩ := hoption (Compiled.bind_pure_eq_error.1 h)
    exact .inr ⟨rfl, p, by simp_all, h⟩
  | unary op x | joinGroup j x =>
    exact .inr ⟨rfl, x, by simp, Compiled.bind_pure_eq_error.1 h⟩
  | binary op x y | grouping x y =>
    rcases Compiled.bind_eq_error.1 h with h | ⟨_, -, h⟩
    · exact .inr ⟨rfl, x, by simp, h⟩
    · exact .inr ⟨rfl, y, by simp, Compiled.bind_pure_eq_error.1 h⟩
  | conditional t x y =>
    rcases Compiled.bind_eq_error.1 h with h | ⟨_, -, h⟩
    · exact .inr ⟨rfl, t, by simp, h⟩
    · rcases Compiled.bind_eq_error.1 h with h | ⟨_, -, h⟩
      · exact .inr ⟨rfl, x, by simp, h⟩
      · exact .inr ⟨rfl, y, by simp, Compiled.bind_pure_eq_error.1 h⟩

/-- **A reduction that fails does so somewhere in the expression.** -/
theorem exists_failure {err : CompileError} (h : e.reduceWith g = .error err) :
    ∃ p : Expr, p.Shown e ∧ Failure g err p := by
  induction e using induction_parts with
  | h e ih =>
    rcases failure_or_part h with h | ⟨hlambda, q, hq, h⟩
    · exact ⟨e, .refl, h⟩
    · obtain ⟨p, hp, h⟩ := ih q hq h
      exact ⟨p, .part (.inr hlambda) hq hp, h⟩

/-- A member of a reduced target is a part of the target, or is reduced as it stands. -/
theorem foldMember_eq_ok (h : foldMember t name = .ok e) :
    (e = member t name ∧ e.isRedex = false) ∨ (t.isLambda = false ∧ e ∈ t.parts) := by
  cases t with
  | object ty bindings =>
    simp only [foldMember] at h
    split at h
    · rename_i value hfind
      cases h
      obtain ⟨b, hb, -, rfl⟩ := mem_of_find? hfind
      exact .inr ⟨rfl, List.mem_map_of_mem hb⟩
    · cases h
  | grouping key element =>
    by_cases hname : name = "Key"
    · simp only [foldMember, hname, beq_self_eq_true, if_true] at h
      cases h
      exact .inr ⟨rfl, by simp⟩
    · simp only [foldMember, beq_iff_eq, hname, if_false] at h
      cases h
      exact .inl ⟨rfl, by simpa [isRedex] using hname⟩
  | _ =>
    cases h
    exact .inl ⟨rfl, rfl⟩

/-- What stands in a member of a reduced target is that member or stands in the target. -/
theorem StandsIn.of_foldMember (hfold : foldMember t name = .ok e) (h : p.StandsIn deep e) :
    (p.mark? = none ∧ p.isRedex = false) ∨ p.StandsIn deep t := by
  rcases foldMember_eq_ok hfold with ⟨rfl, hredex⟩ | ⟨hlambda, hpart⟩
  · rcases standsIn_iff.1 h with rfl | ⟨-, q, hq, hp⟩
    · exact .inl ⟨rfl, hredex⟩
    · obtain rfl : q = t := by simpa using hq
      exact .inr hp
  · exact .inr (.part (.inr hlambda) hpart h)

/-- What stands in an aggregate stands in the elements or in the selector, or is put there to
aggregate them. -/
theorem StandsIn.of_aggregateOf {func : AggregateFunc} {element : Expr} {selector : Option Expr}
    (h : p.StandsIn deep (aggregateOf func element selector)) :
    (p.mark? = none ∧ p.isRedex = false) ∨ p.StandsIn deep element ∨
      ∃ s ∈ selector, p.StandsIn deep s := by
  have hconstant {v : Value} (h : p.StandsIn deep (constant v)) :
      p.mark? = none ∧ p.isRedex = false := by
    rcases standsIn_iff.1 h with rfl | ⟨-, q, hq, -⟩
    · exact ⟨rfl, rfl⟩
    · cases hq
  have haggregate {func : AggregateFunc} {arg : Option Expr}
      (h : p.StandsIn deep (aggregate func arg)) :
      (p.mark? = none ∧ p.isRedex = false) ∨ ∃ a ∈ arg, p.StandsIn deep a := by
    rcases standsIn_iff.1 h with rfl | ⟨-, q, hq, h⟩
    · exact .inl ⟨rfl, rfl⟩
    · exact .inr ⟨q, by simpa using hq, h⟩
  unfold aggregateOf at h
  split at h
  · rcases haggregate h with h | ⟨a, ha, -⟩
    · exact .inl h
    · cases ha
  · rename_i test
    rcases haggregate h with h | ⟨a, ha, h⟩
    · exact .inl h
    cases ha
    rcases standsIn_iff.1 h with rfl | ⟨-, q, hq, hp⟩
    · exact .inl ⟨rfl, rfl⟩
    simp only [parts, List.mem_cons, List.not_mem_nil, or_false] at hq
    rcases hq with rfl | rfl | rfl
    · exact .inr (.inr ⟨q, rfl, hp⟩)
    · exact .inl (hconstant hp)
    · exact .inl (hconstant hp)
  · exact (haggregate h).imp_right .inr
  · rcases haggregate h with h | ⟨a, ha, h⟩
    · exact .inl h
    · cases ha
      exact .inr (.inl h)

/-- What stands in an aggregate of a group stands in its elements or in what a lambda makes of them,
or is put there to aggregate them. -/
theorem StandsIn.of_aggregated {binds : Lambda → Expr → Expr → Prop} {element : Expr}
    {args : List Expr} (he : Aggregated binds element args e) (h : p.StandsIn deep e) :
    (p.mark? = none ∧ p.isRedex = false) ∨ p.StandsIn deep element ∨
      ∃ l s, lambda l ∈ args ∧ binds l element s ∧ p.StandsIn deep s := by
  cases he with
  | elements func =>
    rcases h.of_aggregateOf with h | h | ⟨s, hs, -⟩
    · exact .inl h
    · exact .inr (.inl h)
    · cases hs
  | @selected func l selector hselector =>
    rcases h.of_aggregateOf with h | h | ⟨s, hs, h⟩
    · exact .inl h
    · exact .inr (.inl h)
    · cases hs
      exact .inr (.inr ⟨l, selector, by simp, hselector, h⟩)

/-- An aggregate of a group mentions what the elements or the arguments mention, if the lambdas
that are bound do. -/
theorem Mentions.of_aggregated {binds : Lambda → Expr → Expr → Prop} {element : Expr}
    {args : List Expr} (he : Aggregated binds element args e)
    (hbinds : ∀ l s, binds l element s → s.Mentions m → l.body.Mentions m ∨ element.Mentions m)
    (h : e.Mentions m) : element.Mentions m ∨ ∃ a ∈ args, a.Mentions m := by
  obtain ⟨p, hp, hmark⟩ := h
  rcases hp.of_aggregated he with ⟨hnone, -⟩ | hp | ⟨l, s, hl, hs, hp⟩
  · cases hnone.symm.trans hmark
  · exact .inl ⟨p, hp, hmark⟩
  · rcases hbinds l s hs ⟨p, hp, hmark⟩ with h | h
    · exact .inr ⟨lambda l, hl, h.part (by simp)⟩
    · exact .inl h

/-- **A reduced expression mentions what the expression mentions**, if the methods of groups do. -/
theorem Mentions.of_reduceWith
    (hg : ∀ method element args e, g method element args = .ok e → e.Mentions m →
      element.Mentions m ∨ ∃ a ∈ args, a.Mentions m) (he : e.reduceWith g = .ok e')
    (h : e'.Mentions m) : e.Mentions m := by
  induction e using induction_parts generalizing e' with
  | h e ih =>
    cases reduction_of_reduceWith he with
    | lambda => exact h
    | @member target t _ name ht hfold =>
      obtain ⟨p, hp, hm⟩ := h
      rcases hp.of_foldMember hfold with ⟨hnone, -⟩ | hp
      · cases hnone.symm.trans hm
      · exact (ih target (by simp) ht ⟨p, hp, hm⟩).part (by simp)
    | @group method target key element _ args ht hcall =>
      rcases hg method element args _ hcall h with h | ⟨a, ha, h⟩
      · exact (ih target (by simp) ht (h.part (by simp))).part (by simp)
      · exact h.part (by simp [ha])
    | rebuilt hmark _ _ _ hparts =>
      rw [mentions_iff, hmark] at h
      rcases h with h | ⟨p', hp', h⟩
      · exact mentions_iff.2 (.inl h)
      · obtain ⟨p, hp, hreduce⟩ := exists_of_forall₂ hparts p' hp'
        exact (ih p hp hreduce h).part hp

/-! ## What bound expressions read -/

section Reads

variable {sees : Nat → Option String → Prop} {asked : Option String}

/-- **Rows that read what is seen may stand for parameters.** -/
theorem Reads.substitute (h : Reads sees asked e) (hsees : ∀ id m, sees id none → sees id (some m))
    (henv : ∀ x ∈ env, Reads sees none x.2) : Reads sees asked (e.substitute env) := by
  induction h generalizing env with
  | source h => exact .source h
  | member _ ih => exact .member (ih henv)
  | query h => exact .query h
  | @composed e asked he _ ih =>
    generalize hsubstitute : e.substitute env = e'
    cases substitution_of_eq hsubstitute with
    | row hrow => exact (henv _ hrow).ask hsees
    | kept => exact .composed rfl (by simp)
    | lambda l =>
      refine .composed rfl fun p hp => ?_
      obtain rfl := List.mem_singleton.1 hp
      exact ih l.body (by simp) fun x hx => henv x (List.mem_filter.1 hx).1
    | rebuilt _ hlambda =>
      refine .composed (isComposed_mapParts.trans he) fun p hp => ?_
      rw [parts_mapParts hlambda] at hp
      obtain ⟨q, hq, rfl⟩ := List.mem_map.1 hp
      exact ih q hq henv

/-- **A reduced expression reads what the expression reads**, if the methods of groupings do. -/
theorem Reads.reduceWith (h : Reads sees asked e) (hsees : ∀ id m, sees id none → sees id (some m))
    (hg : ∀ method element args e, Reads sees none element →
      (∀ a ∈ args, Reads sees none a) → g method element args = .ok e → Reads sees none e)
    (he' : e.reduceWith g = .ok e') : Reads sees asked e' := by
  induction h generalizing e' with
  | source h =>
    cases he'
    exact .source h
  | @member target name asked _ ih =>
    obtain ⟨t, ht, hfold⟩ := bind_eq_ok.1 he'
    have htarget := ih ht
    rcases foldMember_cases hfold with ⟨ty, bindings, rfl, hfind⟩ | ⟨element, rfl⟩ | rfl
    · obtain ⟨b, hb, -, rfl⟩ := mem_of_find? hfind
      exact ((reads_iff rfl).1 htarget _ (List.mem_map_of_mem hb)).ask hsees
    · exact ((reads_iff rfl).1 htarget e' (by simp)).ask hsees
    · exact .member htarget
  | query h =>
    cases he'
    exact .query h
  | @composed e asked hcomposed hparts ih =>
    cases reduction_of_reduceWith he' with
    | lambda l => exact .composed rfl hparts
    | member => cases hcomposed
    | @group method target key element _ args ht hcall =>
      have hgrouping := (reads_iff rfl).1 (ih target (by simp) ht)
      refine (hg method element args e' (hgrouping element (by simp)) ?_ hcall).ask hsees
      exact fun a ha => hparts a (by simp [ha])
    | rebuilt _ _ _ hsame hreduced =>
      refine .composed (hsame.trans hcomposed) fun p' hp' => ?_
      obtain ⟨p, hp, hreduce⟩ := exists_of_forall₂ hreduced p' hp'
      exact ih p hp hreduce

theorem reads_aggregateOf {func : AggregateFunc} {element : Expr} {selector : Option Expr}
    (he : Reads sees none element) (hs : ∀ s ∈ selector, Reads sees none s) :
    Reads sees none (aggregateOf func element selector) := by
  have hconstant (v : Value) : Reads sees none (constant v) := .composed rfl (by simp)
  unfold aggregateOf
  split
  · exact .composed rfl (by simp)
  · rename_i test
    have htest := hs test rfl
    have hcase : Reads sees none (conditional test (constant (.int 1)) (constant (.int 0))) :=
      .composed rfl (by simpa using ⟨htest, hconstant _, hconstant _⟩)
    exact .composed rfl (by simpa using hcase)
  · rename_i selector _
    exact .composed rfl (by simpa using hs selector rfl)
  · exact .composed rfl (by simpa using he)

end Reads

/-! ## Reduced expressions -/

/-- Nothing that an expression shows is still to be reduced. -/
def Reduced (e : Expr) : Prop := ∀ p : Expr, p.Shown e → p.isRedex = false

theorem Reduced.part (h : e.Reduced) (he : e.isLambda = false) (hp : p ∈ e.parts) : p.Reduced :=
  fun q hq => h q (.part (.inr he) hp hq)

theorem reduced_of_parts (he : e.isRedex = false)
    (hparts : e.isLambda = false → ∀ p ∈ e.parts, p.Reduced) : e.Reduced := by
  intro p hp
  rcases standsIn_iff.1 hp with rfl | ⟨hdeep, q, hq, hp⟩
  · exact he
  · exact hparts (hdeep.resolve_left (by simp)) q hq p hp

theorem reduced_lambda (l : Lambda) : (lambda l).Reduced :=
  reduced_of_parts rfl fun h => by cases h

theorem reduced_source (id : Nat) : (source id).Reduced :=
  reduced_of_parts rfl fun _ p hp => by cases hp

/-- **What is reduced is a reduced expression**, if the methods of groups give such. -/
theorem reduced_of_reduceWith
    (hg : ∀ method element args e, g method element args = .ok e → element.Reduced → e.Reduced)
    (he : e.reduceWith g = .ok e') : e'.Reduced := by
  induction e using induction_parts generalizing e' with
  | h e ih =>
    cases reduction_of_reduceWith he with
    | lambda l => exact reduced_lambda l
    | @member target t _ name ht hfold =>
      have htarget := ih target (by simp) ht
      intro p hp
      rcases hp.of_foldMember hfold with ⟨-, hredex⟩ | hp
      · exact hredex
      · exact htarget p hp
    | @group method target key element _ args ht hcall =>
      have htarget := ih target (by simp) ht
      exact hg method element args _ hcall (htarget.part rfl (by simp))
    | rebuilt _ hredex _ _ hparts =>
      refine reduced_of_parts hredex fun _ p' hp' => ?_
      obtain ⟨p, hp, hreduce⟩ := exists_of_forall₂ hparts p' hp'
      exact ih p hp hreduce

theorem reduceList_eq_self {es : List Expr} (h : ∀ e ∈ es, e.reduceWith g = .ok e) :
    reduceList g es = .ok es := by
  rw [reduceList_eq_mapM, Compiled.mapM_eq_ok, List.forall₂_same]
  exact h

theorem reduceOption_eq_self {o : Option Expr} (h : ∀ e ∈ o, e.reduceWith g = .ok e) :
    reduceOption g o = .ok o := by
  cases o with
  | none => rfl
  | some e =>
    rw [reduceOption, h e rfl]
    rfl

theorem reduceBindings_eq_self {bs : List Binding}
    (h : ∀ b ∈ bs, b.value.reduceWith g = .ok b.value) : reduceBindings g bs = .ok bs := by
  rw [reduceBindings_eq_mapM, Compiled.mapM_eq_ok, List.forall₂_same]
  rintro ⟨m, v⟩ hb
  rw [h ⟨m, v⟩ hb]
  rfl

theorem foldMember_of_isRedex (h : (member t name).isRedex = false) :
    foldMember t name = .ok (member t name) := by
  cases t with
  | object => cases h
  | grouping key element =>
    have hname : (name == "Key") = false := h
    simp [foldMember, hname]
  | _ => rfl

/-- **Reducing a reduced expression gives it back.** -/
theorem Reduced.reduceWith_eq (h : e.Reduced) (g : GroupCall) : e.reduceWith g = .ok e := by
  induction e using induction_parts with
  | h e ih =>
    have hself := h e .refl
    have hparts (he : e.isLambda = false) (p : Expr) (hp : p ∈ e.parts) : p.reduceWith g = .ok p :=
      ih p hp (h.part he hp)
    cases e with
    | param => cases hself
    | constant | lambda | query | source => rfl
    | member target name =>
      rw [reduceWith, hparts rfl target (by simp)]
      exact foldMember_of_isRedex hself
    | call method target args =>
      rw [reduceWith, reduceOption_eq_self fun t ht => hparts rfl t (by simp_all),
        reduceList_eq_self fun a ha => hparts rfl a (by simp [ha])]
      rw [ok_bind]
      split
      · cases hself
      · rfl
    | object ty bindings =>
      rw [reduceWith, reduceBindings_eq_self fun b hb => hparts rfl b.value (List.mem_map_of_mem hb)]
      rfl
    | aggregate func arg =>
      rw [reduceWith, reduceOption_eq_self fun a ha => hparts rfl a (by simp_all)]
      rfl
    | unary op e | joinGroup j e =>
      rw [reduceWith, hparts rfl e (by simp)]
      rfl
    | binary op l r | grouping l r =>
      rw [reduceWith, hparts rfl l (by simp), hparts rfl r (by simp)]
      rfl
    | conditional t a b =>
      rw [reduceWith, hparts rfl t (by simp), hparts rfl a (by simp),
        hparts rfl b (by simp)]
      rfl

end Expr

/-! ## Bound lambdas -/

namespace Lambda

variable {l : Lambda} {args : List Expr} {e : Expr} {m : Expr.Mark}

/-- **Binding makes up no mark**: the lambda or an argument has it. -/
theorem mentions_bind (h : l.bind args = .ok e) (hm : e.Mentions m) :
    l.body.Mentions m ∨ ∃ a ∈ args, a.Mentions m := by
  revert hm
  refine bind_induction (motive := fun l args e => e.Mentions m →
    l.body.Mentions m ∨ ∃ a ∈ args, a.Mentions m) ?_ h
  intro g hg l args e _ hreduce hm
  have hbody : (l.body.substitute (l.params.zip args)).Mentions m := by
    refine hm.of_reduceWith ?_ hreduce
    intro method element args e hcall hm
    refine hm.of_aggregated (hg method element args e hcall) fun l s hs hm => ?_
    simpa using hs hm
  rcases hbody.of_substitute with h | ⟨entry, hentry, h⟩
  · exact .inl h
  · exact .inr ⟨entry.2, (List.of_mem_zip hentry).2, h⟩

/-- **A bound lambda is reduced.** -/
theorem reduced_bind (h : l.bind args = .ok e) : e.Reduced := by
  refine bind_induction (motive := fun _ _ e => e.Reduced) ?_ h
  intro g hg l args e _ hreduce
  refine Expr.reduced_of_reduceWith ?_ hreduce
  intro method element args e hcall helement p hp
  rcases hp.of_aggregated (hg method element args e hcall) with ⟨-, hredex⟩ | hp | ⟨l, s, -, hs, hp⟩
  · exact hredex
  · exact helement p hp
  · exact hs p hp

/-- **A lambda that a caller writes reads what its arguments read.** -/
theorem reads_bind {sees : Nat → Option String → Prop}
    (hsees : ∀ id m, sees id none → sees id (some m)) (hl : l.body.isSurface)
    (hargs : ∀ a ∈ args, a.Reads sees none) (h : l.bind args = .ok e) : e.Reads sees none := by
  revert hargs
  refine bind_induction (motive := fun l args e =>
    l.body.Reads sees none → (∀ a ∈ args, a.Reads sees none) → e.Reads sees none) ?_ h
    (Expr.reads_of_isSurface hl)
  intro g hg l args e _ hreduce hl hargs
  refine (hl.substitute hsees fun x hx => hargs x.2 (List.of_mem_zip hx).2).reduceWith hsees ?_
    hreduce
  intro method element args e helement hargs hcall
  cases hg method element args e hcall with
  | elements func => exact Expr.reads_aggregateOf helement (by simp)
  | @selected func l selector hselector =>
    have hbody := (Expr.reads_iff rfl).1 (hargs _ List.mem_cons_self) l.body (by simp)
    have hsel := hselector hbody (by simpa using helement)
    exact Expr.reads_aggregateOf helement (by simpa using hsel)

end Lambda

end QueryCompiler

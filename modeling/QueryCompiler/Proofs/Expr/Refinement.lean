import QueryCompiler.Proofs.Expr.Occurrences
/-!
# Expressions that reduce alike

An expression refines to another if whatever it reduces to, the other reduces to as well
(`Expr.Refines`). To replace the parts of an expression by parts that they refine to gives an
expression that it refines to (`refines_mapParts`), but for one thing: a method of a group takes a
lambda as it stands and not what reduces to one. So a part that is handed to a group must stay a
lambda if it is one.
-/

namespace QueryCompiler

open Compiled (bind_eq_ok pure_eq_ok ok_bind)

namespace Expr

variable {e e' p : Expr} {f f' : Expr → Expr} {env : List (String × Expr)}

/-! ## Replacing parts -/

theorem substitute_mapParts (hparam : e.isParam = false) (hlambda : e.isLambda = false) :
    (e.mapParts f).substitute env = e.mapParts fun p => (f p).substitute env := by
  cases e with
  | param => cases hparam
  | lambda => cases hlambda
  | call | aggregate | object =>
    simp only [mapParts, substitute, substituteOption_eq, substituteList_eq, substituteBindings_eq,
      Option.map_map, List.map_map, Function.comp_def]
  | _ => simp only [mapParts, substitute]

theorem mapParts_congr (h : ∀ p ∈ e.parts, f p = f' p) : e.mapParts f = e.mapParts f' := by
  cases e with
  | call method target args =>
    have htarget : target.map f = target.map f' := by
      cases target with
      | none => rfl
      | some t => simp [h t (by simp)]
    have hargs : args.map f = args.map f' :=
      List.map_congr_left fun a ha => h a (by simp [ha])
    simp only [mapParts, htarget, hargs]
  | object ty bindings =>
    have hbindings : (bindings.map fun b => (⟨b.member, f b.value⟩ : Binding)) =
        bindings.map fun b => ⟨b.member, f' b.value⟩ :=
      List.map_congr_left fun b hb => by rw [h b.value (List.mem_map_of_mem hb)]
    simp only [mapParts, hbindings]
  | aggregate func arg =>
    cases arg with
    | none => rfl
    | some a => simp [mapParts, h a (by simp)]
  | member | binary | unary | conditional | grouping | joinGroup =>
    simp only [parts, List.mem_cons, List.not_mem_nil, or_false, forall_eq_or_imp, forall_eq] at h
    simp only [mapParts, h]
  | _ => rfl

theorem mapParts_eq_self (h : ∀ p ∈ e.parts, f p = p) : e.mapParts f = e := by
  rw [mapParts_congr h]
  cases e with
  | object ty bindings =>
    have hbindings : (bindings.map fun b => (⟨b.member, b.value⟩ : Binding)) = bindings :=
      List.map_id'' (fun ⟨_, _⟩ => rfl) bindings
    simp only [mapParts, hbindings]
  | _ => simp [mapParts]

end Expr

theorem Lambda.bind_one (x : String) (body v : Expr) :
    Lambda.bind ⟨[x], body⟩ [v] = (body.substitute [(x, v)]).reduce :=
  Lambda.bind_eq _ _

theorem Lambda.bind_two (x y : String) (body v w : Expr) :
    Lambda.bind ⟨[x, y], body⟩ [v, w] = (body.substitute [(x, v), (y, w)]).reduce :=
  Lambda.bind_eq _ _

namespace Expr

variable {e e' p : Expr} {f f' : Expr → Expr} {env : List (String × Expr)}

/-! ## Refinement -/

/-- Whatever `e` reduces to, `e'` reduces to as well. -/
def Refines (e e' : Expr) : Prop := ∀ v, e.reduce = .ok v → e'.reduce = .ok v

theorem Refines.refl (e : Expr) : e.Refines e := fun _ h => h

theorem refines_param (name : String) (e : Expr) : (param name).Refines e := by
  intro v h
  cases h

theorem Reduced.refines (h : e.Reduced) (he' : e'.reduce = .ok e) : e.Refines e' := by
  intro v hv
  rw [reduce, h.reduceWith_eq] at hv
  cases hv
  exact he'

theorem refines_list {es : List Expr} {g : GroupCall} {vs : List Expr}
    (h : ∀ e ∈ es, ∀ v, (f e).reduceWith g = .ok v → (f' e).reduceWith g = .ok v)
    (hvs : reduceList g (es.map f) = .ok vs) : reduceList g (es.map f') = .ok vs := by
  induction es generalizing vs with
  | nil => exact hvs
  | cons e es ih =>
    simp only [List.map_cons, reduceList, bind_eq_ok, pure_eq_ok] at hvs ⊢
    obtain ⟨v, hv, vs', hvs, rfl⟩ := hvs
    exact ⟨v, h e (by simp) v hv, vs', ih (fun e he => h e (by simp [he])) hvs, rfl⟩

theorem refines_option {o : Option Expr} {g : GroupCall} {w : Option Expr}
    (h : ∀ e ∈ o, ∀ v, (f e).reduceWith g = .ok v → (f' e).reduceWith g = .ok v)
    (hw : reduceOption g (o.map f) = .ok w) : reduceOption g (o.map f') = .ok w := by
  cases o with
  | none => exact hw
  | some e =>
    simp only [Option.map_some, reduceOption, bind_eq_ok, pure_eq_ok] at hw ⊢
    obtain ⟨v, hv, rfl⟩ := hw
    exact ⟨v, h e rfl v hv, rfl⟩

theorem refines_bindings {bs : List Binding} {g : GroupCall} {vs : List Binding}
    (h : ∀ b ∈ bs, ∀ v, (f b.value).reduceWith g = .ok v → (f' b.value).reduceWith g = .ok v)
    (hvs : reduceBindings g (bs.map fun b => ⟨b.member, f b.value⟩) = .ok vs) :
    reduceBindings g (bs.map fun b => ⟨b.member, f' b.value⟩) = .ok vs := by
  induction bs generalizing vs with
  | nil => exact hvs
  | cons b bs ih =>
    simp only [List.map_cons, reduceBindings, bind_eq_ok, pure_eq_ok] at hvs ⊢
    obtain ⟨v, hv, vs', hvs, rfl⟩ := hvs
    exact ⟨v, h b (by simp) v hv, vs', ih (fun b hb => h b (by simp [hb])) hvs, rfl⟩

theorem refines_groupCall {method : String} {element v : Expr} {args args' : List Expr}
    {b : Lambda → Expr → Compiled Expr} (hnil : args = [] → args' = [])
    (hlambda : ∀ l, args = [lambda l] → ∃ l', args' = [lambda l'] ∧
      ∀ s, b l element = .ok s → b l' element = .ok s)
    (h : groupAggregate b method element args = .ok v) :
    groupAggregate b method element args' = .ok v := by
  unfold groupAggregate at h ⊢
  split at h
  · cases h
  split at h
  · rw [hnil rfl]
    exact h
  · rename_i l
    obtain ⟨l', hargs', hb⟩ := hlambda l rfl
    rw [hargs']
    obtain ⟨s, hs, h⟩ := bind_eq_ok.1 h
    exact bind_eq_ok.2 ⟨s, hb s hs, h⟩
  · cases h

/-- **To replace parts by parts that they refine to gives what the whole refines to**, if a lambda
that is handed to a group stays as it is. -/
theorem refines_mapParts (hparts : ∀ p ∈ e.parts, (f p).Refines (f' p))
    (hargs : ∀ method target a l key element, e = call method (some target) [a] →
      (f target).reduce = .ok (grouping key element) → f a = lambda l → f' a = lambda l) :
    (e.mapParts f).Refines (e.mapParts f') := by
  intro v hv
  unfold reduce at hv ⊢
  cases e with
  | param | constant | lambda | query | source => exact hv
  | member target name =>
    simp only [mapParts, reduceWith, bind_eq_ok] at hv ⊢
    obtain ⟨t, ht, hv⟩ := hv
    exact ⟨t, hparts target (by simp) t ht, hv⟩
  | unary op a | joinGroup op a =>
    simp only [mapParts, reduceWith, bind_eq_ok] at hv ⊢
    obtain ⟨a', ha, hv⟩ := hv
    exact ⟨a', hparts a (by simp) a' ha, hv⟩
  | binary op l r | grouping l r =>
    simp only [mapParts, reduceWith, bind_eq_ok] at hv ⊢
    obtain ⟨l', hl, r', hr, hv⟩ := hv
    exact ⟨l', hparts l (by simp) l' hl, r', hparts r (by simp) r' hr, hv⟩
  | conditional t a b =>
    simp only [mapParts, reduceWith, bind_eq_ok] at hv ⊢
    obtain ⟨t', ht, a', ha, b', hb, hv⟩ := hv
    exact ⟨t', hparts t (by simp) t' ht, a', hparts a (by simp) a' ha,
      b', hparts b (by simp) b' hb, hv⟩
  | object ty bindings =>
    simp only [mapParts, reduceWith, bind_eq_ok] at hv ⊢
    obtain ⟨bs, hbs, hv⟩ := hv
    exact ⟨bs, refines_bindings (fun b hb => hparts b.value (List.mem_map_of_mem hb)) hbs, hv⟩
  | aggregate func arg =>
    simp only [mapParts, reduceWith, bind_eq_ok] at hv ⊢
    obtain ⟨arg', harg, hv⟩ := hv
    exact ⟨arg', refines_option (fun a ha => hparts a (by simpa using ha)) harg, hv⟩
  | call method target args =>
    simp only [mapParts, reduceWith, bind_eq_ok] at hv ⊢
    obtain ⟨t, ht, hv⟩ := hv
    refine ⟨t, refines_option (fun t ht => hparts t (by simp_all)) ht, ?_⟩
    split at hv
    · rename_i key element
      cases target with
      | none => cases ht
      | some target =>
        simp only [Option.map_some, reduceOption, bind_eq_ok, pure_eq_ok] at ht
        obtain ⟨_, ht, heq⟩ := ht
        cases heq
        refine refines_groupCall (fun hnil => ?_) (fun l hl => ?_) hv
        · simpa using hnil
        · obtain ⟨a, rfl, ha⟩ : ∃ a, args = [a] ∧ f a = lambda l := by
            simpa [List.map_eq_singleton_iff] using hl
          refine ⟨l, ?_, fun _ hs => hs⟩
          simp [hargs method target a l key element rfl ht ha]
    · rename_i hne
      simp only [bind_eq_ok] at hv ⊢
      obtain ⟨args', hargs', hv⟩ := hv
      exact ⟨args', refines_list (fun a ha => hparts a (by simp [ha])) hargs', hv⟩

/-- **A lambda that is handed to a group may be replaced** by one that is bound alike to the
elements. -/
theorem refines_call {method : String} {target target' key element : Expr} {l l' : Lambda}
    (ht : target.reduce = .ok (grouping key element)) (ht' : target.Refines target')
    (hl : ∀ s, l.bind [element] = .ok s → l'.bind [element] = .ok s) :
    (call method (some target) [lambda l]).Refines (call method (some target') [lambda l']) := by
  intro v hv
  have htarget' := ht' _ ht
  unfold reduce at hv ht htarget' ⊢
  simp only [reduceWith, reduceOption, ht, htarget', ok_bind] at hv ⊢
  change groupAggregate (fun l element => l.bind [element]) method element [lambda l] = .ok v at hv
  change groupAggregate (fun l element => l.bind [element]) method element [lambda l'] = .ok v
  refine refines_groupCall (fun hnil => ?_) (fun l₁ hl₁ => ?_) hv
  · cases hnil
  · cases hl₁
    exact ⟨l', rfl, hl⟩

/-! ## Rows in the place of parameters -/

@[simp] theorem substitute_param_head (name : String) (row : Expr) :
    (param name).substitute ((name, row) :: env) = row := by
  simp [substitute_param]

theorem substitute_param_tail {name x : String} (h : name ≠ x) (row : Expr) :
    (param name).substitute ((x, row) :: env) = (param name).substitute env := by
  have hne : (name == x) = false := by simpa using h
  simp [substitute_param, List.lookup_cons, hne]

@[simp] theorem substitute_nil_param (name : String) : (param name).substitute [] = param name := by
  simp [substitute_param]

theorem Reduced.reduce_member {v : Expr} {name : String} (h : e.Reduced)
    (hv : foldMember e name = .ok v) : (member e name).reduce = .ok v := by
  rw [reduce, reduceWith, h.reduceWith_eq]
  exact hv

theorem exists_param (h : e.isParam) : ∃ name, e = param name := by
  cases e with
  | param name => exact ⟨name, rfl⟩
  | _ => cases h

theorem isLambda_eq_false (h : ¬ e.Mentions .lambda) : e.isLambda = false := by
  cases e with
  | lambda => exact absurd (mentions_iff.2 (.inl rfl)) h
  | _ => rfl

theorem isLambda_substitute (hparam : e.isParam = false) :
    (e.substitute env).isLambda = e.isLambda := by
  generalize he : e.substitute env = e'
  cases substitution_of_eq he with
  | row | kept => cases hparam
  | lambda => rfl
  | rebuilt => exact isLambda_mapParts

theorem isParam_substitute (hparam : e.isParam = false) :
    (e.substitute env).isParam = false := by
  generalize he : e.substitute env = e'
  cases substitution_of_eq he with
  | row | kept => cases hparam
  | lambda => rfl
  | rebuilt => exact isParam_mapParts.trans hparam

/-- **Rows that refine to others may be replaced by them** in an expression without lambdas, if none
is a lambda that is handed to a group. -/
theorem refines_substitute {env env' : List (String × Expr)} (hlambda : ¬ e.Mentions .lambda)
    (hrows : ∀ name, (param name).Within e →
      ((param name).substitute env).Refines ((param name).substitute env'))
    (hargs : ∀ (target : Expr) name key element l, target.Within e → (param name).Within e →
      (target.substitute env).reduce = .ok (grouping key element) →
      (param name).substitute env = lambda l → (param name).substitute env' = lambda l) :
    (e.substitute env).Refines (e.substitute env') := by
  induction e using induction_parts with
  | h e ih =>
    by_cases hparam : e.isParam = true
    · obtain ⟨name, rfl⟩ := exists_param hparam
      exact hrows name .refl
    have hparam : e.isParam = false := by simpa using hparam
    have hfree (p : Expr) (hp : p ∈ e.parts) : ¬ p.Mentions .lambda := fun hm => hlambda (hm.part hp)
    have hwithin {p q : Expr} (hp : p ∈ e.parts) (hq : q.Within p) : q.Within e :=
      .part (.inl rfl) hp hq
    have he := isLambda_eq_false hlambda
    rw [substitute_eq_mapParts hparam he, substitute_eq_mapParts hparam he]
    refine refines_mapParts (fun p hp => ?_) ?_
    · exact ih p hp (hfree p hp) (fun name hn => hrows name (hwithin hp hn))
        fun target name key element l ht hn => hargs target name key element l (hwithin hp ht)
          (hwithin hp hn)
    · rintro method target a l key element rfl hgroup ha
      have hpart : a ∈ (call method (some target) [a]).parts := by simp
      cases hisParam : a.isParam with
      | true =>
        obtain ⟨name, rfl⟩ := exists_param hisParam
        exact hargs target name key element l
          (hwithin (p := target) (by simp) .refl) (hwithin hpart .refl) hgroup ha
      | false =>
        have hsame : (a.substitute env).isLambda = a.isLambda := isLambda_substitute hisParam
        rw [ha, isLambda_eq_false (hfree a hpart)] at hsame
        cases hsame

/-- Substitutions one after the other are one, in an expression without lambdas. -/
theorem substitute_substitute {env env' env'' : List (String × Expr)}
    (hlambda : ¬ e.Mentions .lambda)
    (hrows : ∀ name, (param name).Within e →
      ((param name).substitute env).substitute env' = (param name).substitute env'') :
    (e.substitute env).substitute env' = e.substitute env'' := by
  induction e using induction_parts with
  | h e ih =>
    by_cases hparam : e.isParam = true
    · obtain ⟨name, rfl⟩ := exists_param hparam
      exact hrows name .refl
    have hparam : e.isParam = false := by simpa using hparam
    have he := isLambda_eq_false hlambda
    rw [substitute_eq_mapParts hparam he, substitute_mapParts hparam he,
      substitute_eq_mapParts hparam he]
    exact mapParts_congr fun p hp => ih p hp (fun hm => hlambda (hm.part hp)) fun name hn =>
      hrows name (.part (.inl rfl) hp hn)

/-! ## Groups -/

/-- An expression shows a group. -/
def Grouped (e : Expr) : Prop := ∃ key element, (grouping key element).Shown e

theorem not_grouped_lambda (l : Lambda) : ¬ (lambda l).Grouped := by
  rintro ⟨key, element, hshown⟩
  rcases standsIn_iff.1 hshown with heq | ⟨hdeep, -⟩
  · cases heq
  · rcases hdeep with hdeep | hdeep <;> cases hdeep

theorem not_grouped_of_mentions (h : ¬ e.Mentions .grouping) : ¬ e.Grouped := by
  rintro ⟨key, element, hshown⟩
  exact h ⟨_, hshown.within, rfl⟩

theorem Mentions.within {m : Mark} (hp : p.Within e) (h : p.Mentions m) : e.Mentions m := by
  induction hp with
  | refl => exact h
  | part _ hq _ ih => exact ih.part hq

/-- Where no group is shown, reduction finds none. -/
theorem not_grouped_reduceWith {g : GroupCall} (h : ¬ e.Grouped) (he : e.reduceWith g = .ok e') :
    ¬ e'.Grouped := by
  induction e using induction_parts generalizing e' with
  | h e ih =>
    have hpart (hlambda : e.isLambda = false) (p : Expr) (hp : p ∈ e.parts) : ¬ p.Grouped := by
      rintro ⟨key, element, hshown⟩
      exact h ⟨key, element, .part (.inr hlambda) hp hshown⟩
    cases reduction_of_reduceWith he with
    | lambda => exact h
    | @member target t _ name ht hfold =>
      rintro ⟨key, element, hshown⟩
      rcases hshown.of_foldMember hfold with ⟨hmark, -⟩ | hshown
      · cases hmark
      · exact ih target (by simp) (hpart rfl target (by simp)) ht
          ⟨key, element, hshown⟩
    | @group method target key element _ args ht =>
      exact absurd ⟨key, element, .refl⟩
        (ih target (by simp) (hpart rfl target (by simp)) ht)
    | rebuilt hmark _ hlambda _ hparts =>
      rintro ⟨key, element, hshown⟩
      rcases standsIn_iff.1 hshown with rfl | ⟨-, p', hp', hshown⟩
      · cases e with
        | grouping key element => exact h ⟨key, element, .refl⟩
        | _ => cases hmark
      · obtain ⟨p, hp, hreduce⟩ := exists_of_forall₂ hparts p' hp'
        exact ih p hp (hpart hlambda p hp) hreduce ⟨key, element, hshown⟩

/-- A group that is shown after a substitution stood there before, or is shown by a row. -/
theorem Grouped.of_substitute (h : (e.substitute env).Grouped) (hlambda : ¬ e.Mentions .lambda) :
    e.Mentions .grouping ∨ ∃ entry ∈ env, entry.2.Grouped := by
  induction e using induction_parts with
  | h e ih =>
    generalize he : e.substitute env = e' at h
    cases substitution_of_eq he with
    | row hrow => exact .inr ⟨_, hrow, h⟩
    | kept =>
      obtain ⟨key, element, hshown⟩ := h
      rcases standsIn_iff.1 hshown with heq | ⟨-, q, hq, -⟩
      · cases heq
      · cases hq
    | lambda => exact absurd (mentions_iff.2 (.inl rfl)) hlambda
    | rebuilt _ hnot =>
      obtain ⟨key, element, hshown⟩ := h
      rcases standsIn_iff.1 hshown with heq | ⟨-, q, hq, hshown⟩
      · have hmark : (e.mapParts (substitute env)).mark? = e.mark? := mark?_mapParts
        rw [← heq] at hmark
        exact .inl (mentions_iff.2 (.inl hmark.symm))
      · rw [parts_mapParts hnot] at hq
        obtain ⟨p, hp, rfl⟩ := List.mem_map.1 hq
        exact (ih p hp ⟨key, element, hshown⟩ fun hm => hlambda (hm.part hp)).imp_left
          (Mentions.part hp)

end Expr

end QueryCompiler

import QueryCompiler.Proofs.Expr.Refinement
/-!
# Lambdas one after the other

To bind a lambda to what another one makes of a row is to bind their composition to the row, whose
body has the body of the one in the place of the parameter of the other (`Lambda.bind_after`). The
bound row is reduced first in the one case and last in the other, and reduction does not mind
(`Expr.Refines`). Two things it does mind. Substitution does not rename parameters, so a nested
lambda may capture one that is left in what is substituted into it. And a lambda in which the row
stands is left alone by reduction, unless it is handed to a group and bound there.

`Expr.LambdasInGroups` says of a body that neither happens in it.
-/

namespace QueryCompiler

namespace Expr

variable {e e' p : Expr} {name : String} {env : List (String × Expr)}

/-! ## Free parameters -/

/-- A parameter stands in an expression, and no lambda around it binds it. -/
inductive Free (name : String) : Expr → Prop where
  | param : Free name (param name)
  | part {e p : Expr} (he : e.isLambda = false) (hp : p ∈ e.parts) (h : Free name p) : Free name e
  | body {l : Lambda} (hl : name ∉ l.params) (h : Free name l.body) : Free name (lambda l)

theorem free_param {x : String} : Free name (.param x) ↔ name = x := by
  constructor
  · intro h
    cases h with
    | param => rfl
    | part _ hp => cases hp
  · rintro rfl
    exact .param

theorem free_lambda {l : Lambda} : Free name (lambda l) ↔ name ∉ l.params ∧ Free name l.body := by
  constructor
  · intro h
    cases h with
    | part he => cases he
    | body hl h => exact ⟨hl, h⟩
  · rintro ⟨hl, h⟩
    exact .body hl h

theorem free_iff (hparam : e.isParam = false) (hlambda : e.isLambda = false) :
    Free name e ↔ ∃ p ∈ e.parts, Free name p := by
  constructor
  · intro h
    cases h with
    | param => cases hparam
    | part _ hp h => exact ⟨_, hp, h⟩
    | body => cases hlambda
  · rintro ⟨p, hp, h⟩
    exact .part hlambda hp h

theorem Free.within (h : Free name e) : (Expr.param name).Within e := by
  induction h with
  | param => exact .refl
  | part _ hp _ ih => exact .part (.inl rfl) hp ih
  | body _ _ ih => exact .part (.inl rfl) (by simp) ih

theorem not_free_of_any (h : e.any isParam = false) : ¬ Free name e := by
  intro hfree
  rw [any_eq_true_iff.2 ⟨_, hfree.within, rfl⟩] at h
  cases h

theorem exists_lambda (h : e.isLambda) : ∃ l, e = lambda l := by
  cases e with
  | lambda l => exact ⟨l, rfl⟩
  | _ => cases h

/-- **A substitution for parameters that are not free changes nothing.** -/
theorem substitute_of_not_free (h : ∀ entry ∈ env, ¬ Free entry.1 e) : e.substitute env = e := by
  induction e using induction_parts generalizing env with
  | h e ih =>
    by_cases hparam : e.isParam = true
    · obtain ⟨x, rfl⟩ := exists_param hparam
      have hlookup : env.lookup x = none := by
        cases hrow : env.lookup x with
        | none => rfl
        | some row => exact absurd .param (h (x, row) (mem_of_lookup hrow))
      rw [substitute_param, hlookup]
      rfl
    by_cases hlambda : e.isLambda = true
    · obtain ⟨⟨params, body⟩, rfl⟩ := exists_lambda hlambda
      have hbody : body.substitute (env.filter fun entry => !params.contains entry.1) = body := by
        refine ih body (by simp) fun entry hentry hfree => ?_
        obtain ⟨hmem, hnot⟩ := List.mem_filter.1 hentry
        exact h entry hmem (.body (by simpa using hnot) hfree)
      rw [substitute_lambda, hbody]
    · have hlambda : e.isLambda = false := by simpa using hlambda
      rw [substitute_eq_mapParts (by simpa using hparam) hlambda]
      exact mapParts_eq_self fun p hp => ih p hp fun entry hentry hfree =>
        h entry hentry (.part hlambda hp hfree)

/-- What is free after a substitution was free and has not been replaced, or is free in a row. -/
theorem Free.of_substitute (h : Free name (e.substitute env)) :
    (Free name e ∧ ∀ entry ∈ env, entry.1 ≠ name) ∨ ∃ entry ∈ env, Free name entry.2 := by
  induction e using induction_parts generalizing env with
  | h e ih =>
    generalize he : e.substitute env = e' at h
    cases substitution_of_eq he with
    | row hrow => exact .inr ⟨_, hrow, h⟩
    | kept hnone =>
      obtain rfl := free_param.1 h
      refine .inl ⟨h, fun entry hentry heq => ?_⟩
      have hne := List.lookup_eq_none_iff.1 hnone entry hentry
      simp [heq] at hne
    | lambda l =>
      obtain ⟨hnot, h⟩ := free_lambda.1 h
      rcases ih l.body (by simp) h with ⟨hfree, hkept⟩ | ⟨entry, hentry, hfree⟩
      · refine .inl ⟨.body hnot hfree, fun entry hentry heq => ?_⟩
        exact hkept entry (List.mem_filter.2 ⟨hentry, by simpa [heq] using hnot⟩) heq
      · exact .inr ⟨entry, (List.mem_filter.1 hentry).1, hfree⟩
    | rebuilt hparam hlambda =>
      obtain ⟨q, hq, hfree⟩ := (free_iff (isParam_mapParts.trans hparam)
        (isLambda_mapParts.trans hlambda)).1 h
      rw [parts_mapParts hlambda] at hq
      obtain ⟨p, hp, rfl⟩ := List.mem_map.1 hq
      exact (ih p hp hfree).imp_left fun h => ⟨.part hlambda hp h.1, h.2⟩

theorem Free.of_aggregateOf {func : AggregateFunc} {element : Expr} {selector : Option Expr}
    (h : Free name (aggregateOf func element selector)) :
    Free name element ∨ ∃ s ∈ selector, Free name s := by
  have hconstant (v : Value) : ¬ Free name (constant v) := by
    rw [free_iff rfl rfl]
    simp
  have haggregate {func : AggregateFunc} {arg : Option Expr} (h : Free name (aggregate func arg)) :
      ∃ a ∈ arg, Free name a := by
    simpa using (free_iff rfl rfl).1 h
  unfold aggregateOf at h
  split at h
  · obtain ⟨a, ha, -⟩ := haggregate h
    cases ha
  · rename_i test
    obtain ⟨a, ha, h⟩ := haggregate h
    cases ha
    have htest : Free name test := by
      simpa [hconstant] using (free_iff rfl rfl).1 h
    exact .inr ⟨test, rfl, htest⟩
  · exact .inr (haggregate h)
  · obtain ⟨a, ha, h⟩ := haggregate h
    cases ha
    exact .inl h

/-- **Reduction frees no parameter**, if the methods of groups do not. -/
theorem Free.of_reduceWith {g : GroupCall}
    (hg : ∀ method element args e, g method element args = .ok e → Free name e →
      Free name element ∨ ∃ a ∈ args, Free name a)
    (he : e.reduceWith g = .ok e') (h : Free name e') : Free name e := by
  induction e using induction_parts generalizing e' with
  | h e ih =>
    cases reduction_of_reduceWith he with
    | lambda => exact h
    | @member target t _ member ht hfold =>
      have hpart : target ∈ (Expr.member target member).parts := by simp
      refine .part rfl hpart (ih target hpart ht ?_)
      rcases foldMember_eq_ok hfold with ⟨rfl, -⟩ | ⟨hlambda, hmem⟩
      · simpa using (free_iff rfl rfl).1 h
      · exact .part hlambda hmem h
    | @group method target key element _ args ht hcall =>
      have hpart : target ∈ (call method (some target) args).parts := by simp
      rcases hg method element args _ hcall h with h | ⟨a, ha, h⟩
      · exact .part rfl hpart (ih target hpart ht (.part rfl (by simp) h))
      · exact .part rfl (by simp [ha]) h
    | rebuilt hmark hredex hlambda _ hparts =>
      cases h with
      | param => cases hredex
      | body =>
        cases e with
        | lambda => cases hlambda
        | _ => cases hmark
      | part _ hp' h =>
        obtain ⟨p, hp, hreduce⟩ := exists_of_forall₂ hparts _ hp'
        exact .part hlambda hp (ih p hp hreduce h)

theorem Free.of_aggregated {element : Expr} {args : List Expr}
    (h : Aggregated (fun l element e => Free name e →
      Free name (lambda l) ∨ Free name element) element args e) (he : Free name e) :
    Free name element ∨ ∃ a ∈ args, Free name a := by
  cases h with
  | elements func =>
    rcases he.of_aggregateOf with he | ⟨s, hs, -⟩
    · exact .inl he
    · cases hs
  | @selected func l selector hselector =>
    rcases he.of_aggregateOf with he | ⟨s, hs, he⟩
    · exact .inl he
    · cases hs
      exact (hselector he).symm.imp_right fun h => ⟨.lambda l, by simp, h⟩

end Expr

/-- **Binding frees no parameter**: it is free in the lambda or in an argument. -/
theorem Lambda.free_bind {l : Lambda} {args : List Expr} {e : Expr} {name : String}
    (h : l.bind args = .ok e) (hfree : e.Free name) :
    (Expr.lambda l).Free name ∨ ∃ a ∈ args, a.Free name := by
  revert hfree
  refine bind_induction (motive := fun l args e => e.Free name →
    (Expr.lambda l).Free name ∨ ∃ a ∈ args, a.Free name) ?_ h
  intro g hg l args e harity hreduce hfree
  have hbody : (l.body.substitute (l.params.zip args)).Free name := by
    refine hfree.of_reduceWith (fun method element args e hcall he => ?_) hreduce
    refine he.of_aggregated ((hg method element args e hcall).imp fun _ _ h => ?_)
    simpa using h
  rcases hbody.of_substitute with ⟨hfree, hkept⟩ | ⟨entry, hentry, hfree⟩
  · refine .inl (.body (fun hmem => ?_) hfree)
    have hkeys : (l.params.zip args).map Prod.fst = l.params :=
      List.map_fst_zip (Nat.le_of_eq harity)
    rw [← hkeys] at hmem
    obtain ⟨entry, hentry, heq⟩ := List.mem_map.1 hmem
    exact hkept entry hentry heq
  · exact .inr ⟨entry.2, (List.of_mem_zip hentry).2, hfree⟩

/-- **Reduction frees no parameter.** -/
theorem Expr.Free.of_reduce {e e' : Expr} {name : String} (he : e.reduce = .ok e')
    (h : e'.Free name) : e.Free name := by
  refine h.of_reduceWith (fun method element args e hcall h => ?_) he
  refine h.of_aggregated ((aggregated_of_groupAggregate hcall).imp fun l element hbind h => ?_)
  simpa using Lambda.free_bind hbind h

namespace Expr

variable {e e' p : Expr} {name : String} {env : List (String × Expr)}

/-! ## Substitutions one after the other -/

/-- An expression after substitutions, the first one first. -/
def under (envs : List (List (String × Expr))) (e : Expr) : Expr :=
  envs.foldl (fun e env => e.substitute env) e

variable {envs : List (List (String × Expr))}

@[simp] theorem under_nil (e : Expr) : e.under [] = e := rfl

@[simp] theorem under_cons (env : List (String × Expr)) (envs : List (List (String × Expr)))
    (e : Expr) : e.under (env :: envs) = (e.substitute env).under envs := rfl

theorem under_concat (envs : List (List (String × Expr))) (env : List (String × Expr)) (e : Expr) :
    e.under (envs ++ [env]) = (e.under envs).substitute env := by
  simp [under]

theorem under_eq_mapParts (hparam : e.isParam = false) (hlambda : e.isLambda = false) :
    e.under envs = e.mapParts (under envs) := by
  have hmapParts (f : Expr → Expr) : (e.mapParts f).under envs =
      e.mapParts fun p => (f p).under envs := by
    induction envs generalizing f with
    | nil => rfl
    | cons env envs ih => rw [under_cons, substitute_mapParts hparam hlambda, ih]; rfl
  have hself : e.mapParts id = e := mapParts_eq_self fun _ _ => rfl
  have h := hmapParts id
  rwa [hself] at h

/-- The parameters of a lambda hide those of the environments from its body. -/
def hidden (params : List String) (env : List (String × Expr)) : List (String × Expr) :=
  env.filter fun entry => !params.contains entry.1

theorem under_lambda (params : List String) (body : Expr) :
    (lambda ⟨params, body⟩).under envs = lambda ⟨params, body.under (envs.map (hidden params))⟩ := by
  induction envs generalizing body with
  | nil => rfl
  | cons env envs ih =>
    rw [under_cons, substitute_lambda, ih]
    rfl

theorem under_of_not_free (h : ∀ env ∈ envs, ∀ entry ∈ env, ¬ Free entry.1 e) :
    e.under envs = e := by
  induction envs with
  | nil => rfl
  | cons env envs ih =>
    rw [under_cons, substitute_of_not_free (h env (by simp))]
    exact ih fun env henv => h env (by simp [henv])

theorem isLambda_under (hparam : e.isParam = false) : (e.under envs).isLambda = e.isLambda := by
  induction envs generalizing e with
  | nil => rfl
  | cons env envs ih => rw [under_cons, ih (isParam_substitute hparam), isLambda_substitute hparam]

/-! ## The body of a lambda that follows another one -/

/-- What is asked of a body in which `x` stands for what `y => f` makes of a row: its lambdas are
handed to what binds to a group and do not bind `y`, those around an `x` bind no parameter that is
left in `f` then, and `x` is handed to no group unless `f` is a lambda.

`rows` has the row of `x`, unless a lambda around hides it, and `elements` has what the lambdas
around are bound to. -/
inductive LambdasInGroups (x y : String) (f row : Expr) :
    List (String × Expr) → List (List (String × Expr)) → Expr → Prop where
  | param {rows : List (String × Expr)} {elements : List (List (String × Expr))} {name : String}
    (hfree : name = x → rows ≠ [] → ∀ env ∈ elements, ∀ entry ∈ env,
      ¬ (f.substitute [(y, row)]).Free entry.1) :
    LambdasInGroups x y f row rows elements (param name)
  | parts {rows : List (String × Expr)} {elements : List (List (String × Expr))} {e : Expr}
    (hparam : e.isParam = false) (hlambda : e.isLambda = false)
    (hparts : ∀ p ∈ e.parts, LambdasInGroups x y f row rows elements p)
    (hargs : ∀ method target key element, e = call method (some target) [.param x] →
      (target.under (rows :: elements)).reduce = .ok (grouping key element) →
      rows = [] ∨ f.isLambda = true) :
    LambdasInGroups x y f row rows elements e
  | group {rows : List (String × Expr)} {elements : List (List (String × Expr))} {method : String}
    {target key element body : Expr} {params : List String}
    (htarget : LambdasInGroups x y f row rows elements target)
    (hgroup : (target.under (rows :: elements)).reduce = .ok (grouping key element))
    (hparams : y ∉ params)
    (hbody : LambdasInGroups x y f row (hidden params rows)
      (elements.map (hidden params) ++ [params.zip [element]]) body) :
    LambdasInGroups x y f row rows elements (call method (some target) [lambda ⟨params, body⟩])

section Following

variable {x y : String} {f row r : Expr} {rows rows' : List (String × Expr)}
  {elements : List (List (String × Expr))}

/-- The row of `x`, bound and still to be bound, or hidden in both. -/
def RowsOf (x y : String) (f r : Expr) (rows rows' : List (String × Expr)) : Prop :=
  (rows = [(x, r)] ∧ rows' = [(x, f)]) ∨ (rows = [] ∧ rows' = [] ∧ x ≠ y)

theorem RowsOf.hidden {params : List String} (h : RowsOf x y f r rows rows')
    (hparams : y ∉ params) : RowsOf x y f r (hidden params rows) (hidden params rows') := by
  rcases h with ⟨rfl, rfl⟩ | ⟨rfl, rfl, hne⟩
  · by_cases hx : x ∈ params
    · refine .inr ⟨by simp [Expr.hidden, hx], by simp [Expr.hidden, hx], ?_⟩
      rintro rfl
      exact hparams hx
    · exact .inl ⟨by simp [Expr.hidden, hx], by simp [Expr.hidden, hx]⟩
  · exact .inr ⟨rfl, rfl, hne⟩

/-- A parameter stands for the row of `x`, is left as `y`, or does not see the difference. -/
theorem RowsOf.under_param (h : RowsOf x y f r rows rows')
    (hr : (f.substitute [(y, row)]).reduce = .ok r)
    (hy : ∀ env ∈ elements, ∀ entry ∈ env, entry.1 ≠ y)
    (hfree : name = x → rows ≠ [] → ∀ env ∈ elements, ∀ entry ∈ env,
      ¬ (f.substitute [(y, row)]).Free entry.1) :
    (name = x ∧ rows ≠ [] ∧ (param name).under (rows :: elements) = r ∧
      (param name).under (rows' :: [(y, row)] :: elements) = f.substitute [(y, row)]) ∨
    (param name).under (rows :: elements) = param y ∨
    (param name).under (rows :: elements) =
      (param name).under (rows' :: [(y, row)] :: elements) := by
  by_cases hx : name = x ∧ rows ≠ []
  · obtain ⟨rfl, hne⟩ := hx
    rcases h with ⟨rfl, rfl⟩ | ⟨rfl, -⟩
    · have hfree := hfree rfl hne
      refine .inl ⟨rfl, hne, ?_, ?_⟩
      · rw [under_cons, substitute_param_head]
        exact under_of_not_free fun env henv entry hentry hr' =>
          hfree env henv entry hentry (hr'.of_reduce hr)
      · rw [under_cons, under_cons, substitute_param_head]
        exact under_of_not_free hfree
    · exact absurd rfl hne
  · -- the row of `x` plays no part from here on
    have hleft : (param name).substitute rows = param name := by
      rcases h with ⟨rfl, -⟩ | ⟨rfl, -⟩
      · have hne : name ≠ x := fun heq => hx ⟨heq, by simp⟩
        rw [substitute_param_tail hne, substitute_nil_param]
      · exact substitute_nil_param name
    have hright : (param name).substitute rows' = param name := by
      rcases h with ⟨rfl, rfl⟩ | ⟨-, rfl, -⟩
      · have hne : name ≠ x := fun heq => hx ⟨heq, by simp⟩
        rw [substitute_param_tail hne, substitute_nil_param]
      · exact substitute_nil_param name
    rw [under_cons, under_cons, under_cons, hleft, hright]
    by_cases hname : name = y
    · refine .inr (.inl ?_)
      rw [hname]
      exact under_of_not_free fun env henv entry hentry hfree =>
        hy env henv entry hentry (free_param.1 hfree)
    · refine .inr (.inr ?_)
      rw [substitute_param_tail hname, substitute_nil_param]

theorem LambdasInGroups.under_eq_lambda {l : Lambda} (h : LambdasInGroups x y f row rows elements e)
    (hr : (f.substitute [(y, row)]).reduce = .ok r) (hrows : RowsOf x y f r rows rows')
    (hy : ∀ env ∈ elements, ∀ entry ∈ env, entry.1 ≠ y)
    (harg : e = .param x → rows = [] ∨ f.isLambda = true)
    (hl : e.under (rows :: elements) = lambda l) :
    e.under (rows' :: [(y, row)] :: elements) = lambda l := by
  have hlambda (hparam : e.isParam = false) : e.isLambda = true := by
    have hsame : (e.under (rows :: elements)).isLambda = e.isLambda := isLambda_under hparam
    rw [← hsame, hl]
    rfl
  cases h with
  | param hfree =>
    rcases hrows.under_param hr hy hfree with ⟨rfl, hne, hleft, hright⟩ | hleft | heq
    · obtain ⟨l', rfl⟩ := exists_lambda ((harg rfl).resolve_left hne)
      rw [substitute_lambda] at hr hright
      cases hr
      rw [hright, ← hleft, hl]
    · rw [hleft] at hl
      cases hl
    · rw [← heq, hl]
  | parts hparam hnot => cases hnot.symm.trans (hlambda hparam)
  | group => cases hlambda rfl

/-- **The row of `x` may be bound first or last** in a body whose lambdas are handed to groups. -/
theorem LambdasInGroups.refines (h : LambdasInGroups x y f row rows elements e)
    (hr : (f.substitute [(y, row)]).reduce = .ok r) (hreduced : r.Reduced)
    (hrows : RowsOf x y f r rows rows') (hy : ∀ env ∈ elements, ∀ entry ∈ env, entry.1 ≠ y) :
    (e.under (rows :: elements)).Refines (e.under (rows' :: [(y, row)] :: elements)) := by
  induction h generalizing rows' with
  | param hfree =>
    rcases hrows.under_param hr hy hfree with ⟨-, -, hleft, hright⟩ | hleft | heq
    · rw [hleft, hright]
      exact hreduced.refines hr
    · rw [hleft]
      exact refines_param _ _
    · rw [heq]
      exact .refl _
  | @parts rows elements e hparam hlambda hparts hargs ih =>
    rw [under_eq_mapParts hparam hlambda, under_eq_mapParts hparam hlambda]
    refine refines_mapParts (fun p hp => ih p hp hrows hy) ?_
    rintro method target a l key element rfl hgroup ha
    refine (hparts a (by simp)).under_eq_lambda hr hrows hy ?_ ha
    rintro rfl
    exact hargs method target key element rfl hgroup
  | @group rows elements method target key element body params _ hgroup hparams _ ihtarget ihbody =>
    have hcall (envs : List (List (String × Expr))) :
        (call method (some target) [lambda ⟨params, body⟩]).under envs =
          call method (some (target.under envs))
            [lambda ⟨params, body.under (envs.map (Expr.hidden params))⟩] := by
      rw [under_eq_mapParts rfl rfl, mapParts, List.map_singleton, under_lambda]
      rfl
    rw [hcall, hcall]
    refine refines_call hgroup (ihtarget hrows hy) fun s hs => ?_
    rw [Lambda.bind_eq, Compiled.bind_eq_ok] at hs ⊢
    obtain ⟨env, henv, hs⟩ := hs
    obtain ⟨-, rfl⟩ := Lambda.environment_eq_ok henv
    refine ⟨_, henv, ?_⟩
    have hvisible : Expr.hidden params [(y, row)] = [(y, row)] := by simp [Expr.hidden, hparams]
    rw [← under_concat] at hs ⊢
    rw [List.map_cons, List.map_cons, hvisible]
    refine ihbody (hrows.hidden hparams) (fun env henv entry hentry => ?_) s hs
    rcases List.mem_append.1 henv with henv | henv
    · obtain ⟨env, henv', rfl⟩ := List.mem_map.1 henv
      exact hy env henv' entry (List.mem_filter.1 hentry).1
    · obtain rfl := List.mem_singleton.1 henv
      rintro rfl
      exact hparams (List.of_mem_zip hentry).1

end Following

end Expr

namespace Lambda

/-- The composition of two lambdas: the body of `f` in the place of the parameter of `g`. -/
def after (g f : Lambda) : Lambda := ⟨f.params, g.body.substitute (g.params.zip [f.body])⟩

/-- **To bind a lambda behind another one is to bind their composition.** -/
theorem bind_after {x y : String} {f g row r v : Expr} (hf : Lambda.bind ⟨[y], f⟩ [row] = .ok r)
    (hlambdas : Expr.LambdasInGroups x y f row [(x, r)] [] g) (hg : Lambda.bind ⟨[x], g⟩ [r] = .ok v) :
    (after ⟨[x], g⟩ ⟨[y], f⟩).bind [row] = .ok v := by
  have hreduced := reduced_bind hf
  rw [bind_one] at hf hg
  rw [after, bind_one]
  exact hlambdas.refines hf hreduced (.inl ⟨rfl, rfl⟩) (by simp) v hg

end Lambda

end QueryCompiler

import Mathlib
import QueryCompiler.Proofs.Expr.Occurrences
/-!
# Binding ends

A method of a group binds the lambda it is given to the elements of the group, and the body of that
lambda may hold such methods again. The body may well be larger than the method it belongs to, since
the elements take the place of its parameter. What grows smaller is the number of groupings
(`Expr.groupings`). The target of the method has one at least, and the body keeps its number if the
elements have none (`Expr.groupings_substitute`).

So the elements of a grouping must not hold another grouping (`Expr.Flat`). If this is so in the
arguments of a lambda, and its body has no grouping, then it is so in everything that is reduced on
the way (`Expr.flat_substitute`, `Lambda.flat_groupCallAt`), and as many bindings inside one another
suffice as there are groupings at the start (`Lambda.bind_ends`).
-/

namespace QueryCompiler

namespace Expr

variable {e e' p : Expr} {env : List (String × Expr)} {g : GroupCall}

def isGrouping : Expr → Bool
  | grouping _ _ => true
  | _ => false

/-- Whether an expression is a grouping whose elements hold another. -/
def nestsGrouping : Expr → Bool
  | grouping _ element => element.any isGrouping
  | _ => false

theorem isGrouping_iff : e.isGrouping = true ↔ e.mark? = some .grouping := by
  cases e <;> simp [isGrouping, mark?]

theorem mentions_grouping_iff : e.Mentions .grouping ↔ e.any isGrouping = true := by
  simp only [any_eq_true_iff, isGrouping_iff, Mentions]

/-! ## The number of groupings -/

/-- The number of groupings in an expression, those in the bodies of lambdas included. -/
def groupings (e : Expr) : Nat :=
  (if e.isGrouping then 1 else 0) + (e.parts.attach.map fun p => groupings p.1).sum
termination_by sizeOf e
decreasing_by exact sizeOf_lt_of_mem_parts p.2

theorem groupings_eq (e : Expr) :
    e.groupings = (if e.isGrouping then 1 else 0) + (e.parts.map groupings).sum := by
  rw [groupings, List.attach_map_val]

theorem groupings_le_of_mem_parts (hp : p ∈ e.parts) : p.groupings ≤ e.groupings := by
  have hle : p.groupings ≤ (e.parts.map groupings).sum :=
    List.le_sum_of_mem (List.mem_map_of_mem hp)
  rw [groupings_eq e]
  omega

theorem groupings_le_of_within (h : p.Within e) : p.groupings ≤ e.groupings := by
  induction h with
  | refl => exact Nat.le_refl _
  | part _ hq _ ih => exact Nat.le_trans ih (groupings_le_of_mem_parts hq)

theorem groupings_eq_zero_iff : e.groupings = 0 ↔ ¬ e.Mentions .grouping := by
  induction e using induction_parts with
  | h e ih =>
    rw [groupings_eq, mentions_iff, ← isGrouping_iff, Nat.add_eq_zero_iff, List.sum_eq_zero_iff]
    simp only [List.forall_mem_map, ite_eq_right_iff, one_ne_zero, imp_false, not_or, not_exists,
      not_and]
    exact and_congr_right fun _ => forall₂_congr ih

theorem groupings_pos (h : e.Mentions .grouping) : 0 < e.groupings :=
  Nat.pos_of_ne_zero fun hzero => groupings_eq_zero_iff.1 hzero h

theorem groupings_mapParts {f : Expr → Expr} (hlambda : e.isLambda = false)
    (h : ∀ p ∈ e.parts, (f p).groupings = p.groupings) : (e.mapParts f).groupings = e.groupings := by
  have hgrouping : (e.mapParts f).isGrouping = e.isGrouping := by cases e <;> rfl
  rw [groupings_eq, groupings_eq e, hgrouping, parts_mapParts hlambda, List.map_map]
  exact congrArg _ (congrArg _ (List.map_congr_left h))

/-- **Substitution keeps the number of groupings** if the rows have none. -/
theorem groupings_substitute (henv : ∀ entry ∈ env, ¬ entry.2.Mentions .grouping) :
    (e.substitute env).groupings = e.groupings := by
  induction e using induction_parts generalizing env with
  | h e ih =>
    generalize he : e.substitute env = e'
    cases substitution_of_eq he with
    | @row name row hrow =>
      have hzero : (param name).groupings = 0 := by simp [groupings_eq, isGrouping]
      rw [hzero, groupings_eq_zero_iff]
      exact henv _ hrow
    | kept => rfl
    | lambda l =>
      have hbody := @ih l.body (by simp) (env.filter fun entry => !l.params.contains entry.1)
        fun entry hentry => henv entry (List.mem_filter.1 hentry).1
      rw [groupings_eq, groupings_eq (lambda l)]
      simpa [isGrouping] using hbody
    | rebuilt _ hlambda => exact groupings_mapParts hlambda fun p hp => ih p hp henv

/-! ## Groupings that hold no other -/

/-- The elements of the groupings in an expression hold no grouping. -/
def Flat (e : Expr) : Prop :=
  ∀ key element, (grouping key element).Within e → ¬ element.Mentions .grouping

theorem flat_iff : e.Flat ↔
    (∀ key element, e = grouping key element → ¬ element.Mentions .grouping) ∧
      ∀ p ∈ e.parts, p.Flat := by
  constructor
  · intro h
    exact ⟨fun key element he => h key element (he ▸ .refl),
      fun p hp key element hwithin => h key element (.part (.inl rfl) hp hwithin)⟩
  · rintro ⟨hself, hparts⟩ key element hwithin
    rcases within_iff.1 hwithin with rfl | ⟨p, hp, hwithin⟩
    · exact hself key element rfl
    · exact hparts p hp key element hwithin

theorem flat_iff_any : e.Flat ↔ e.any nestsGrouping = false := by
  rw [← Bool.not_eq_true, any_eq_true_iff]
  constructor
  · rintro h ⟨p, hp, hnests⟩
    cases p with
    | grouping key element => exact h key element hp (mentions_grouping_iff.2 hnests)
    | _ => cases hnests
  · intro h key element hp hmentions
    exact h ⟨_, hp, mentions_grouping_iff.1 hmentions⟩

theorem Flat.within (h : e.Flat) (hp : p.Within e) : p.Flat := by
  induction hp with
  | refl => exact h
  | part _ hq _ ih => exact ih ((flat_iff.1 h).2 _ hq)

theorem flat_of_not_mentions (h : ¬ e.Mentions .grouping) : e.Flat :=
  fun key element hwithin _ => h ⟨grouping key element, hwithin, rfl⟩

/-- **Substitution keeps groupings flat**: only the groupings of the rows go into an expression
without groupings, and none go into one that has some. -/
theorem flat_substitute (he : e.Flat) (henv : ∀ entry ∈ env, entry.2.Flat)
    (hnone : e.Mentions .grouping → ∀ entry ∈ env, ¬ entry.2.Mentions .grouping) :
    (e.substitute env).Flat := by
  induction e using induction_parts generalizing env with
  | h e ih =>
    obtain ⟨hself, hparts⟩ := flat_iff.1 he
    have hpart (p : Expr) (hp : p ∈ e.parts) {env' : List (String × Expr)} (hsub : env' ⊆ env) :
        (p.substitute env').Flat :=
      ih p hp (hparts p hp) (fun entry hentry => henv entry (hsub hentry))
        fun hm entry hentry => hnone (hm.part hp) entry (hsub hentry)
    generalize hsubstitute : e.substitute env = e'
    cases substitution_of_eq hsubstitute with
    | row hrow => exact henv _ hrow
    | kept => exact he
    | lambda l =>
      refine flat_iff.2 ⟨fun _ _ h => (by cases h), fun q hq => ?_⟩
      obtain rfl := List.mem_singleton.1 hq
      exact hpart l.body (by simp) (List.filter_subset_self _)
    | rebuilt _ hlambda =>
      refine flat_iff.2 ⟨fun key element heq hm => ?_, fun q hq => ?_⟩
      · -- the elements had no grouping, and the rows have none because this is one
        cases e with
        | grouping key₀ element₀ =>
          cases heq
          rcases hm.of_substitute with hm | ⟨entry, hentry, hm⟩
          · exact hself key₀ element₀ rfl hm
          · exact hnone ⟨_, .refl, rfl⟩ entry hentry hm
        | _ => cases heq
      · rw [parts_mapParts hlambda] at hq
        obtain ⟨p, hp, rfl⟩ := List.mem_map.1 hq
        exact hpart p hp fun _ h => h

/-- **Reduction keeps groupings flat**, if the methods of groups make up no grouping and keep
groupings flat. -/
theorem Flat.reduceWith
    (hmentions : ∀ method element args e, g method element args = .ok e → e.Mentions .grouping →
      element.Mentions .grouping ∨ ∃ a ∈ args, a.Mentions .grouping)
    (hflat : ∀ method element args e, g method element args = .ok e →
      ¬ element.Mentions .grouping → (∀ a ∈ args, a.Flat) → e.Flat)
    (he : e.Flat) (h : e.reduceWith g = .ok e') : e'.Flat := by
  induction e using induction_parts generalizing e' with
  | h e ih =>
    obtain ⟨hself, hparts⟩ := flat_iff.1 he
    cases reduction_of_reduceWith h with
    | lambda => exact he
    | @member target t _ name ht hfold =>
      have htarget := ih target (by simp) (hparts target (by simp)) ht
      intro key element hwithin
      rcases hwithin.of_foldMember hfold with ⟨hnone, -⟩ | hwithin
      · cases hnone
      · exact htarget key element hwithin
    | @group method target key element _ args ht hcall =>
      have htarget := ih target (by simp) (hparts target (by simp)) ht
      exact hflat method element args _ hcall (htarget key element .refl)
        fun a ha => hparts a (by simp [ha])
    | rebuilt hmark _ _ _ hreduced =>
      refine flat_iff.2 ⟨?_, fun p' hp' => ?_⟩
      · rintro key element rfl hm
        cases e with
        | grouping key₀ element₀ =>
          cases hreduced with
          | cons _ hrest =>
            cases hrest with
            | cons helement _ => exact hself key₀ element₀ rfl (hm.of_reduceWith hmentions helement)
        | _ => cases hmark
      · obtain ⟨p, hp, hreduce⟩ := exists_of_forall₂ hreduced p' hp'
        exact ih p hp (hparts p hp) hreduce

/-! ## Where reduction does not end -/

theorem foldMember_ne_endless {t : Expr} {name : String} :
    foldMember t name ≠ .error .endlessBinding := by
  unfold foldMember
  grind

theorem endless_of_groupAggregate {bindElement : Lambda → Expr → Compiled Expr} {method : String}
    {element : Expr} {args : List Expr}
    (h : groupAggregate bindElement method element args = .error .endlessBinding) :
    ∃ l, args = [lambda l] ∧ bindElement l element = .error .endlessBinding := by
  unfold groupAggregate at h
  split at h
  · cases h
  · split at h
    · cases h
    · exact ⟨_, rfl, Compiled.bind_pure_eq_error.1 h⟩
    · cases h

/-- **A reduction without end is in the hands of a method of a group**, somewhere in the
expression. -/
theorem call_of_endless (h : e.reduceWith g = .error .endlessBinding) :
    ∃ method target args key element, (call method (some target) args).Within e ∧
      target.reduceWith g = .ok (grouping key element) ∧
      g method element args = .error .endlessBinding := by
  obtain ⟨p, hp, hfailure⟩ := exists_failure h
  cases hfailure with
  | param name h => cases h
  | member h => exact absurd h foldMember_ne_endless
  | group ht h => exact ⟨_, _, _, _, _, hp.within, ht, h⟩

end Expr

namespace Lambda

open QueryCompiler.Expr (groupings isGrouping nestsGrouping)

variable {l : Lambda} {args : List Expr} {element e e' : Expr} {method : String} {n : Nat}

theorem bindAt_eq_bind (h : l.bindAt n args ≠ .error .endlessBinding) :
    l.bindAt n args = l.bind args := by
  obtain ⟨k, hk⟩ := exists_forall_bindAt_eq l args
  rw [← hk (max n k) (Nat.le_max_right n k)]
  exact (bindAt_mono (Nat.le_max_left n k)).resolve_left h

theorem mentions_groupCallAt {m : Expr.Mark} (h : groupCallAt n method element args = .ok e)
    (hm : e.Mentions m) : element.Mentions m ∨ ∃ a ∈ args, a.Mentions m := by
  cases n with
  | zero => cases h
  | succ n =>
    rw [groupCallAt] at h
    refine hm.of_aggregated (Expr.aggregated_of_groupAggregate h) fun l s hs hm => ?_
    have hbind : l.bind [element] = .ok s := by
      rw [← hs]
      exact (bindAt_eq_bind (by simp [hs])).symm
    simpa using mentions_bind hbind hm

/-- Elements that have no grouping, in the place of the parameters of a flat lambda, leave its body
flat and bring no grouping into it. -/
theorem flat_body (hl : (Expr.lambda l).Flat) (helement : ¬ element.Mentions .grouping) :
    (l.body.substitute (l.params.zip [element])).Flat ∧
      (l.body.substitute (l.params.zip [element])).groupings = l.body.groupings := by
  have hplain (entry : String × Expr) (hentry : entry ∈ l.params.zip [element]) :
      ¬ entry.2.Mentions .grouping := by
    obtain rfl := List.mem_singleton.1 (List.of_mem_zip hentry).2
    exact helement
  have hbody : l.body.Flat := (Expr.flat_iff.1 hl).2 l.body (by simp)
  refine ⟨Expr.flat_substitute hbody ?_ fun _ => hplain, Expr.groupings_substitute hplain⟩
  exact fun entry hentry => Expr.flat_of_not_mentions (hplain entry hentry)

theorem flat_groupCallAt (h : groupCallAt n method element args = .ok e)
    (helement : ¬ element.Mentions .grouping) (hargs : ∀ a ∈ args, a.Flat) : e.Flat := by
  induction n generalizing method element args e with
  | zero => cases h
  | succ n ih =>
    rw [groupCallAt] at h
    intro key elements hwithin
    rcases hwithin.of_aggregated (Expr.aggregated_of_groupAggregate h) with
      ⟨hnone, -⟩ | hwithin | ⟨l, s, hl, hs, hwithin⟩
    · cases hnone
    · exact Expr.flat_of_not_mentions helement key elements hwithin
    · rw [bindAt_eq] at hs
      obtain ⟨env, henv, hreduce⟩ := Compiled.bind_eq_ok.1 hs
      obtain ⟨-, rfl⟩ := environment_eq_ok henv
      have hflat : s.Flat := (flat_body (hargs _ hl) helement).1.reduceWith
        (fun _ _ _ _ => mentions_groupCallAt) (fun _ _ _ _ => ih) hreduce
      exact hflat key elements hwithin

/-- A reduction without end at a depth is in the hands of a method of a group with flat arguments,
and a grouping stands outside these: the one the method is called on. -/
theorem groupCallAt_endless (he : e.Flat)
    (h : e.reduceWith (groupCallAt n) = .error .endlessBinding) :
    ∃ method element args, groupCallAt n method element args = .error .endlessBinding ∧
      ¬ element.Mentions .grouping ∧ (∀ a ∈ args, a.Flat) ∧
      (args.map groupings).sum < e.groupings := by
  obtain ⟨method, target, args, key, element, hcall, ht, hendless⟩ := Expr.call_of_endless h
  obtain ⟨-, hparts⟩ := Expr.flat_iff.1 (he.within hcall)
  have hgrouping : (Expr.grouping key element).Flat :=
    (hparts target (by simp)).reduceWith (fun _ _ _ _ => mentions_groupCallAt)
      (fun _ _ _ _ => flat_groupCallAt) ht
  have htarget : 0 < target.groupings := Expr.groupings_pos
    (Expr.Mentions.of_reduceWith (fun _ _ _ _ => mentions_groupCallAt) ht ⟨_, .refl, rfl⟩)
  have hle := Expr.groupings_le_of_within hcall
  rw [Expr.groupings_eq (.call _ _ _)] at hle
  simp only [isGrouping, Expr.parts, Option.toList_some, List.singleton_append, List.map_cons,
    List.sum_cons] at hle
  exact ⟨method, element, args, hendless, (Expr.flat_iff.1 hgrouping).1 key element rfl,
    fun a ha => hparts a (by simp [ha]), by omega⟩

theorem bindAt_ne_endless
    (h : (l.body.substitute (l.params.zip args)).reduceWith (groupCallAt n) ≠
      .error .endlessBinding) : l.bindAt n args ≠ .error .endlessBinding := by
  rw [bindAt_eq]
  intro hendless
  rcases Compiled.bind_eq_error.1 hendless with henv | ⟨env, henv, hreduce⟩
  · unfold environment at henv
    split at henv <;> cases henv
  · obtain ⟨-, rfl⟩ := environment_eq_ok henv
    exact h hreduce

/-- **As many bindings inside one another suffice as there are groupings**, if these are flat: a
method of a group leaves fewer of them to the lambda it is given. -/
theorem reduceWith_groupCallAt_ne_endless (he : e.Flat) (hn : e.groupings ≤ n) :
    e.reduceWith (groupCallAt n) ≠ .error .endlessBinding := by
  induction n generalizing e with
  | zero =>
    intro h
    obtain ⟨_, _, _, -, -, -, hlt⟩ := groupCallAt_endless he h
    omega
  | succ n ih =>
    intro h
    obtain ⟨method, element, args, hcall, helement, hargs, hlt⟩ := groupCallAt_endless he h
    rw [groupCallAt] at hcall
    obtain ⟨l, rfl, hl⟩ := Expr.endless_of_groupAggregate hcall
    obtain ⟨hflat, hgroupings⟩ := flat_body (hargs (.lambda l) (by simp)) helement
    have hbody : l.body.groupings ≤ (Expr.lambda l).groupings :=
      Expr.groupings_le_of_mem_parts (by simp)
    simp only [List.map_cons, List.map_nil, List.sum_singleton] at hlt
    exact bindAt_ne_endless (ih hflat (by omega)) hl

/-- **Binding ends.** If the body of a lambda has no grouping, and no grouping of the arguments has
another in its elements, then binding the lambda to the arguments ends: with a result or with a
refusal, and within as many bindings inside one another as there are groupings in the body once the
arguments stand in it. -/
theorem bind_ends (l : Lambda) (args : List Expr) (hbody : l.body.any isGrouping = false)
    (hargs : ∀ a ∈ args, a.any nestsGrouping = false) :
    l.bind args ≠ .error .endlessBinding ∧
      ∀ depth ≥ (l.body.substitute (l.params.zip args)).groupings,
        l.bindAt depth args = l.bind args := by
  have hplain : ¬ l.body.Mentions .grouping := by
    rw [Expr.mentions_grouping_iff, hbody]
    exact Bool.false_ne_true
  have hflat : (l.body.substitute (l.params.zip args)).Flat := by
    refine Expr.flat_substitute (Expr.flat_of_not_mentions hplain) (fun entry hentry => ?_)
      fun hm => absurd hm hplain
    exact Expr.flat_iff_any.2 (hargs entry.2 (List.of_mem_zip hentry).2)
  have hends (depth : Nat) (hdepth : (l.body.substitute (l.params.zip args)).groupings ≤ depth) :
      l.bindAt depth args ≠ .error .endlessBinding :=
    bindAt_ne_endless (reduceWith_groupCallAt_ne_endless hflat hdepth)
  refine ⟨?_, fun depth hdepth => bindAt_eq_bind (hends depth hdepth)⟩
  rw [← bindAt_eq_bind (hends _ (Nat.le_refl _))]
  exact hends _ (Nat.le_refl _)

/-- In `g => g.Sum(x => g.Count())`, bound to a group, the count is in the second binding inside
the first, so the bound is exact: one binding less does not end. -/
theorem bind_ends_sum_of_count :
    let l : Lambda := ⟨["g"], .call "Sum" (some (.param "g"))
      [.lambda ⟨["x"], .call "Count" (some (.param "g")) []⟩]⟩
    let group : Expr := .grouping (.member (.source 0) "City") (.source 0)
    (l.body.substitute (l.params.zip [group])).groupings = 2 ∧
      l.bindAt 1 [group] = .error .endlessBinding ∧ l.bindAt 2 [group] = l.bind [group] ∧
      l.bind [group] ≠ .error .endlessBinding := by
  intro l group
  have hgroupings : (l.body.substitute (l.params.zip [group])).groupings = 2 := by
    have hbody : l.body.substitute (l.params.zip [group]) =
        .call "Sum" (some group) [.lambda ⟨["x"], .call "Count" (some group) []⟩] := by rfl
    rw [hbody]
    simp [group, Expr.groupings_eq, isGrouping]
  have hbody : l.body.any isGrouping = false := by decide
  have hargs : ∀ a ∈ [group], a.any nestsGrouping = false := by decide
  obtain ⟨hends, hdepth⟩ := bind_ends l [group] hbody hargs
  exact ⟨hgroupings, by rfl, hdepth 2 (by omega), hends⟩

end Lambda

end QueryCompiler

import QueryCompiler.Proofs.Expr.Refinement
import QueryCompiler.Proofs.Plan.Continued
import QueryCompiler.Proofs.Plan.Rekinded
/-!
# The spellings of a join

A join is written in one operator, or as a group join whose group is flattened by the next operator,
or as a collection navigation that is flattened. All three have one plan
(`Plan.join_spellings_agree`). A group that is flattened with the rows that match nothing leaves a
join of another kind, and nothing else differs (`Plan.Rekinded`).
-/

namespace QueryCompiler

open Compiled (bind_eq_ok pure_eq_ok ok_bind)

variable {schema : Schema} {nested : Log → Compiled Layer} {kind : OpKind} {log ops : Log}

/-- A collection that keeps what matches nothing. -/
def Unmatched.mark : Unmatched → Expr → Expr
  | dropped, e => e
  | outerKept, e => e.callOn "DefaultIfEmpty" []
  | innerKept, e => e.callOn "DefaultIfEmpty" [.constant (.bool true)]

theorem Operator.validate_joinOf {outerKey innerKey result : Lambda}
    (hk : kind = .join ∨ kind = .groupJoin) :
    (Operator.joinOf kind log outerKey innerKey result).validate = .ok () ↔
      outerKey.arity = 1 ∧ innerKey.arity = 1 ∧ result.arity = 2 := by
  have hslots : (Operator.joinOf kind log outerKey innerKey result).validate =
      Operator.checkSlots kind [.query, .lambda 1, .lambda 1, .lambda 2]
        [.query log, .lambda outerKey, .lambda innerKey, .lambda result] := by
    rcases hk with rfl | rfl <;> rfl
  rw [hslots]
  by_cases houter : outerKey.arity = 1
  · by_cases hinner : innerKey.arity = 1
    · simp [Operator.checkSlots, Slot.accepts, houter, hinner]
    · simp [Operator.checkSlots, Slot.accepts, houter, hinner]
  · simp [Operator.checkSlots, Slot.accepts, houter]

/-- Whether an expression is a parameter of none of the names. -/
def Expr.isParamBeside (names : List String) : Expr → Bool
  | param name => !names.contains name
  | _ => false

/-- A join with the rows of a query. `row` and `element` name the two rows of a match in its result,
`group` names the matches of a row, and `pair` a row beside them. -/
structure JoinSpelling where
  query : Log
  outerKey : Lambda
  innerKey : Lambda
  row : String
  element : String
  group : String
  pair : String
  result : Expr
  row_ne_element : row ≠ element := by decide
  row_ne_group : row ≠ group := by decide
  pair_ne_element : pair ≠ element := by decide
  /-- the result has no parameters but those of the two rows -/
  params : result.any (·.isParamBeside [row, element]) = false := by decide
  lambdas : result.any Expr.isLambda = false := by decide

namespace JoinSpelling

variable {s : JoinSpelling} {d e : Draft} {j : Join} {joined row group : Expr} {u : Unmatched}
  {index : Nat}

/-- What is made of a match. -/
def resultOf (s : JoinSpelling) : Lambda := ⟨[s.row, s.element], s.result⟩

def joinOp (s : JoinSpelling) : Operator :=
  .joinOf .join s.query s.outerKey s.innerKey s.resultOf

/-- The first of two operators: a row beside the group of its matches. -/
def groupOp (s : JoinSpelling) : Operator :=
  .joinOf .groupJoin s.query s.outerKey s.innerKey ⟨[s.row, s.group],
    .construct none [(s.row, .param s.row), (s.group, .param s.group)]⟩

/-- What is made of a row beside its group, and of one match. -/
def flatResultOf (s : JoinSpelling) : Lambda :=
  ⟨[s.pair, s.element], s.result.substitute [(s.row, .member (.param s.pair) s.row)]⟩

/-- The second of two operators: the group is flattened. -/
def flattenOp (s : JoinSpelling) (u : Unmatched) : Operator :=
  .selectMany ⟨[s.pair], u.mark (.member (.param s.pair) s.group)⟩ (some s.flatResultOf)

def pairOf (s : JoinSpelling) (row group : Expr) : Expr :=
  .object none [⟨s.row, row⟩, ⟨s.group, group⟩]

/-! ## Rows -/

theorem param_cases {name : String} (h : (Expr.param name).Within s.result) :
    name = s.row ∨ name = s.element := by
  by_contra hne
  have hany : s.result.any (·.isParamBeside [s.row, s.element]) = true :=
    Expr.any_eq_true_iff.2 ⟨_, h, by simpa [Expr.isParamBeside] using hne⟩
  rw [s.params] at hany
  cases hany

theorem not_mentions_lambda : ¬ s.result.Mentions .lambda :=
  Expr.not_mentions_of_any s.lambdas fun p hp => by
    cases p with
    | lambda => rfl
    | _ => cases hp

theorem reduced_pairOf (hrow : row.Reduced) (hgroup : group.Reduced) :
    (s.pairOf row group).Reduced :=
  Expr.reduced_of_parts rfl (by simpa [pairOf] using fun _ => ⟨hrow, hgroup⟩)

theorem foldMember_row : Expr.foldMember (s.pairOf row group) s.row = .ok row := by
  simp [pairOf, Expr.foldMember, Binding.find?]

theorem foldMember_group : Expr.foldMember (s.pairOf row group) s.group = .ok group := by
  simp [pairOf, Expr.foldMember, Binding.find?, s.row_ne_group]

theorem bind_pair (hrow : row.Reduced) (hgroup : group.Reduced) :
    Lambda.bind ⟨[s.row, s.group],
      .construct none [(s.row, .param s.row), (s.group, .param s.group)]⟩ [row, group] =
      .ok (s.pairOf row group) := by
  rw [Lambda.bind_two]
  have hgroupRow : (Expr.param s.group).substitute [(s.row, row), (s.group, group)] = group := by
    rw [Expr.substitute_param_tail s.row_ne_group.symm, Expr.substitute_param_head]
  have hpair : (Expr.construct none [(s.row, .param s.row), (s.group, .param s.group)]).substitute
      [(s.row, row), (s.group, group)] = s.pairOf row group := by
    simp only [Expr.construct, List.map_cons, List.map_nil, Expr.substitute,
      Expr.substituteBindings_eq]
    rw [← Expr.substitute_param, ← Expr.substitute_param, hgroupRow, Expr.substitute_param_head]
    rfl
  rw [hpair]
  exact (reduced_pairOf hrow hgroup).reduceWith_eq _

theorem reduce_mark {collection : Expr} (h : collection.reduce = .ok (.joinGroup index joined)) :
    (u.mark collection).reduce = .ok (u.mark (.joinGroup index joined)) := by
  unfold Expr.reduce at h ⊢
  cases u with
  | dropped => exact h
  | outerKept | innerKept =>
    simp only [Unmatched.mark, Expr.callOn, Expr.reduceWith, Expr.reduceOption, h]
    rfl

theorem bind_group (hrow : row.Reduced) (hjoined : joined.Reduced) :
    Lambda.bind ⟨[s.pair], u.mark (.member (.param s.pair) s.group)⟩
      [s.pairOf row (.joinGroup index joined)] = .ok (u.mark (.joinGroup index joined)) := by
  have hgroup : (Expr.joinGroup index joined).Reduced :=
    Expr.reduced_of_parts rfl (by simpa using fun _ => hjoined)
  have hsubstitute (pair : Expr) :
      (u.mark (.member (.param s.pair) s.group)).substitute [(s.pair, pair)] =
        u.mark (.member pair s.group) := by
    cases u <;> simp [Unmatched.mark, Expr.callOn, Expr.substitute, Expr.substituteOption,
      Expr.substituteList]
  rw [Lambda.bind_one, hsubstitute]
  exact reduce_mark ((reduced_pairOf hrow hgroup).reduce_member foldMember_group)

theorem substitute_result {pair : Expr} :
    (s.result.substitute [(s.row, .member (.param s.pair) s.row)]).substitute
      [(s.pair, pair), (s.element, joined)] =
      s.result.substitute [(s.row, .member pair s.row), (s.element, joined)] := by
  refine Expr.substitute_substitute not_mentions_lambda fun name hname => ?_
  rcases param_cases hname with rfl | rfl
  · simp [Expr.substitute]
  · rw [Expr.substitute_param_tail s.row_ne_element.symm, Expr.substitute_nil_param,
      Expr.substitute_param_tail s.pair_ne_element.symm, Expr.substitute_param_head,
      Expr.substitute_param_tail s.row_ne_element.symm, Expr.substitute_param_head]

/-- **A flattened group makes of a match what the join makes of it.** -/
theorem bind_flatResultOf (hrow : row.Reduced) (hjoined : joined.Reduced)
    (hgrouped : ¬ joined.Grouped) (hlambda : row.isLambda = false ∨ ¬ s.result.Mentions .grouping)
    (v : Expr) :
    s.flatResultOf.bind [s.pairOf row (.joinGroup index joined), joined] = .ok v ↔
      s.resultOf.bind [row, joined] = .ok v := by
  have hgroup : (Expr.joinGroup index joined).Reduced :=
    Expr.reduced_of_parts rfl (by simpa using fun _ => hjoined)
  have hmember : (Expr.member (s.pairOf row (.joinGroup index joined)) s.row).reduce = .ok row :=
    (reduced_pairOf hrow hgroup).reduce_member foldMember_row
  rw [flatResultOf, resultOf, Lambda.bind_two, Lambda.bind_two, substitute_result]
  constructor
  · refine Expr.refines_substitute not_mentions_lambda (fun name hname => ?_) ?_ v
    · rcases param_cases hname with rfl | rfl
      · rw [Expr.substitute_param_head, Expr.substitute_param_head]
        intro w hw
        rw [hmember] at hw
        cases hw
        exact hrow.reduceWith_eq _
      · rw [Expr.substitute_param_tail s.row_ne_element.symm,
          Expr.substitute_param_tail s.row_ne_element.symm]
        exact .refl _
    · intro target name key element l _ hname _ hl
      rcases param_cases hname with rfl | rfl
      · rw [Expr.substitute_param_head] at hl
        cases hl
      · rwa [Expr.substitute_param_tail s.row_ne_element.symm] at hl ⊢
  · refine Expr.refines_substitute not_mentions_lambda (fun name hname => ?_) ?_ v
    · rcases param_cases hname with rfl | rfl
      · rw [Expr.substitute_param_head, Expr.substitute_param_head]
        exact hrow.refines hmember
      · rw [Expr.substitute_param_tail s.row_ne_element.symm,
          Expr.substitute_param_tail s.row_ne_element.symm]
        exact .refl _
    · intro target name key element l htarget hname hgroup hl
      rcases param_cases hname with rfl | rfl
      · -- a row that is a lambda is handed to a group, which then stands in the result
        rw [Expr.substitute_param_head] at hl
        subst hl
        exfalso
        have hresult := hlambda.resolve_left (by simp [Expr.isLambda])
        refine Expr.not_grouped_reduceWith (fun hsub => ?_) hgroup ⟨key, element, .refl⟩
        rcases hsub.of_substitute fun hm => not_mentions_lambda (hm.within htarget) with hm | ⟨entry, he, hm⟩
        · exact hresult (hm.within htarget)
        · simp only [List.mem_cons, List.not_mem_nil, or_false] at he
          rcases he with rfl | rfl
          · exact Expr.not_grouped_lambda l hm
          · exact hgrouped hm
      · rwa [Expr.substitute_param_tail s.row_ne_element.symm] at hl ⊢

/-! ## Operators -/

/-- The rows of the query that match those of a draft, as a join and under its number. -/
def Matches (s : JoinSpelling) (schema : Schema) (nested : Log → Compiled Layer) (d : Draft)
    (j : Join) (joined : Expr) : Prop :=
  ∃ target rowType outer inner outerKeys innerKeys,
    Draft.joinTarget schema nested s.query d.nextSource = .ok (target, joined, rowType) ∧
      d.bindRow s.outerKey = .ok outer ∧ s.innerKey.bind [joined] = .ok inner ∧
      Join.keys .join outer inner = .ok (outerKeys, innerKeys) ∧
      j = ⟨.inner, d.nextSource, target, rowType, outerKeys, innerKeys⟩

theorem Matches.reduced (h : s.Matches schema nested d j joined) : joined.Reduced := by
  obtain ⟨target, rowType, _, _, _, _, ht, -⟩ := h
  exact Draft.reduced_joined ht

theorem Matches.mentions (h : s.Matches schema nested d j joined) {m : Expr.Mark}
    (hm : joined.Mentions m) : m = .source d.nextSource := by
  obtain ⟨target, rowType, _, _, _, _, ht, -⟩ := h
  exact Draft.mentions_joined ht hm

theorem keys_eq_ok {kind' : OpKind} {outer inner : Expr} {r : List Expr × List Expr}
    (h : Join.keys kind outer inner = .ok r) : Join.keys kind' outer inner = .ok r := by
  unfold Join.keys at h ⊢
  split at h
  · split at h
    · rename_i hlength
      rw [if_pos hlength]
      exact h
    · cases h
  · exact h
  · cases h

def withJoin (d : Draft) (j : Join) (row : Expr) : Draft := { d.addJoin j with row }

theorem apply_joinOf_eq {outerKey innerKey result : Lambda}
    (hk : kind = .join ∨ kind = .groupJoin) :
    d.apply schema nested (.joinOf kind log outerKey innerKey result) = do
      let (target, joined, rowType) ← Draft.joinTarget schema nested log d.nextSource
      let outer ← d.bindRow outerKey
      let inner ← innerKey.bind [joined]
      let (outerKeys, innerKeys) ← Join.keys kind outer inner
      let row ← result.bind
        [d.row, if kind == .join then joined else .joinGroup d.layer.joins.length joined]
      return withJoin d ⟨if kind == .join then .inner else .left, d.nextSource, target, rowType,
        outerKeys, innerKeys⟩ row := by
  rcases hk with rfl | rfl <;> rfl

theorem apply_joinOf {result : Lambda} (hk : kind = .join ∨ kind = .groupJoin) :
    d.apply schema nested (.joinOf kind s.query s.outerKey s.innerKey result) = .ok e ↔
    ∃ j joined row, s.Matches schema nested d j joined ∧
      result.bind
        [d.row, if kind == .join then joined else .joinGroup d.layer.joins.length joined] = .ok row ∧
      e = withJoin d { j with kind := if kind == .join then .inner else .left } row := by
  simp only [apply_joinOf_eq hk, bind_eq_ok, pure_eq_ok]
  constructor
  · rintro ⟨⟨target, joined, rowType⟩, ht, outer, ho, inner, hi, ⟨outerKeys, innerKeys⟩, hkeys, row,
      hrow, rfl⟩
    exact ⟨_, joined, row, ⟨target, rowType, outer, inner, outerKeys, innerKeys, ht, ho, hi,
      keys_eq_ok hkeys, rfl⟩, hrow, rfl⟩
  · rintro ⟨j, joined, row, ⟨target, rowType, outer, inner, outerKeys, innerKeys, ht, ho, hi, hkeys,
      rfl⟩, hrow, rfl⟩
    exact ⟨(target, joined, rowType), ht, outer, ho, inner, hi, (outerKeys, innerKeys),
      keys_eq_ok hkeys, row, hrow, rfl⟩

/-- A draft of rows beside the groups of their matches. -/
def paired (s : JoinSpelling) (d : Draft) (j : Join) (joined : Expr) : Draft :=
  withJoin d { j with kind := .left } (s.pairOf d.row (.joinGroup d.layer.joins.length joined))

theorem apply_joinOp : d.apply schema nested s.joinOp = .ok e ↔
    ∃ j joined row, s.Matches schema nested d j joined ∧
      s.resultOf.bind [d.row, joined] = .ok row ∧ e = withJoin d j row := by
  rw [joinOp, apply_joinOf (.inl rfl)]
  refine exists_congr fun j => exists_congr fun joined => exists_congr fun row =>
    and_congr_right fun hmatches => ?_
  obtain ⟨_, _, _, _, _, _, -, -, -, -, rfl⟩ := hmatches
  rfl

theorem apply_groupOp (hrow : d.row.Reduced) : d.apply schema nested s.groupOp = .ok e ↔
    ∃ j joined, s.Matches schema nested d j joined ∧ e = s.paired d j joined := by
  have hpair (j : Join) (joined : Expr) (h : s.Matches schema nested d j joined) :
      Lambda.bind ⟨[s.row, s.group],
        .construct none [(s.row, .param s.row), (s.group, .param s.group)]⟩
        [d.row, .joinGroup d.layer.joins.length joined] =
        .ok (s.pairOf d.row (.joinGroup d.layer.joins.length joined)) :=
    bind_pair hrow (Expr.reduced_of_parts rfl (by simpa using fun _ => h.reduced))
  rw [groupOp, apply_joinOf (.inr rfl)]
  constructor
  · rintro ⟨j, joined, row, hmatches, hbind, rfl⟩
    have hsame := (hpair j joined hmatches).symm.trans hbind
    cases hsame
    exact ⟨j, joined, hmatches, rfl⟩
  · rintro ⟨j, joined, hmatches, rfl⟩
    exact ⟨j, joined, _, hmatches, hpair j joined hmatches, rfl⟩

theorem strip_mark :
    Unmatched.strip (u.mark (.joinGroup index joined)) = (.joinGroup index joined, u) := by
  cases u <;> rfl

theorem apply_flattenOp (hrow : d.row.Reduced) (h : s.Matches schema nested d j joined)
    (hlambda : d.row.isLambda = false ∨ ¬ s.result.Mentions .grouping) :
    (s.paired d j joined).apply schema nested (s.flattenOp u) = .ok e ↔
    ∃ row, s.resultOf.bind [d.row, joined] = .ok row ∧
      e = withJoin d { j with kind := u.joinKind } row := by
  have hgrouped : ¬ joined.Grouped :=
    Expr.not_grouped_of_mentions fun hm => by cases h.mentions hm
  have hlambda₀ : (s.flattenOp u).lambda 0 =
      .ok ⟨[s.pair], u.mark (.member (.param s.pair) s.group)⟩ := rfl
  have hlambda₁ : (s.flattenOp u).lambda? 1 = some s.flatResultOf := rfl
  have hcollection : Lambda.bind ⟨[s.pair], u.mark (.member (.param s.pair) s.group)⟩
      [s.pairOf d.row (.joinGroup d.layer.joins.length joined)] =
        .ok (u.mark (.joinGroup d.layer.joins.length joined)) := bind_group hrow h.reduced
  have hjoin : (d.layer.joins ++ [{ j with kind := .left }])[d.layer.joins.length]? =
      some { j with kind := .left } := by simp
  have hset (kind : JoinKind) :
      (d.layer.joins ++ [{ j with kind := .left }]).set d.layer.joins.length { j with kind } =
        d.layer.joins ++ [{ j with kind }] := by simp
  have happly (d : Draft) : d.apply schema nested (s.flattenOp u) =
      d.selectMany schema nested (s.flattenOp u) := rfl
  simp only [happly, Draft.selectMany, hlambda₀, hlambda₁, ok_bind, Draft.bindRow,
    hcollection, strip_mark, Draft.flatten, Draft.flattenGroup, paired, withJoin, Draft.addJoin,
    hjoin, hset, pure_bind, bind_eq_ok, pure_eq_ok,
    bind_flatResultOf hrow h.reduced hgrouped hlambda]
  exact exists_congr fun row => and_congr_right fun _ => eq_comm

/-! ## Logs -/

theorem start_joinOp (r : Draft × Log) : Draft.start schema (s.joinOp :: ops) ≠ .ok r := by
  intro h
  cases h

theorem start_groupOp (r : Draft × Log) : Draft.start schema (s.groupOp :: ops) ≠ .ok r := by
  intro h
  cases h

theorem validate_iff : Log.validate (s.groupOp :: s.flattenOp u :: ops) = .ok () ↔
    Log.validate (s.joinOp :: ops) = .ok () := by
  have hflatten : (s.flattenOp u).validate = .ok () := rfl
  have harity : s.groupOp.validate = .ok () ↔ s.joinOp.validate = .ok () := by
    rw [groupOp, joinOp, Operator.validate_joinOf (.inr rfl), Operator.validate_joinOf (.inl rfl)]
    rfl
  rw [Draft.validate_cons, Draft.validate_cons, Draft.validate_cons, harity]
  simp [hflatten]

section Runs

variable (ht : d.terminal = none) (hopen : d.mustClose .join = false)

include ht hopen

theorem run_joinOp :
    (s.joinOp :: ops).foldlM (Draft.step schema nested) d = .ok e ↔
    ∃ j joined row, s.Matches schema nested d j joined ∧
      s.resultOf.bind [d.row, joined] = .ok row ∧
      ops.foldlM (Draft.step schema nested) (withJoin d j row).counted = .ok e := by
  rw [List.foldlM_cons, Draft.step_of_open ht hopen]
  simp only [bind_eq_ok, apply_joinOp]
  constructor
  · rintro ⟨d₁, ⟨d₂, ⟨j, joined, row, hmatches, hrow, rfl⟩, heq⟩, hrun⟩
    cases heq
    exact ⟨j, joined, row, hmatches, hrow, hrun⟩
  · rintro ⟨j, joined, row, hmatches, hrow, hrun⟩
    exact ⟨_, ⟨_, ⟨j, joined, row, hmatches, hrow, rfl⟩, rfl⟩, hrun⟩

variable (hrow : d.row.Reduced) (hlambda : d.row.isLambda = false ∨ ¬ s.result.Mentions .grouping)

include hrow hlambda

theorem run_flattenOp (h : s.Matches schema nested d j joined) :
    (s.flattenOp u :: ops).foldlM (Draft.step schema nested) (s.paired d j joined) = .ok e ↔
    ∃ row, s.resultOf.bind [d.row, joined] = .ok row ∧
      ops.foldlM (Draft.step schema nested)
        (withJoin d { j with kind := u.joinKind } row).counted = .ok e := by
  have ht' : (s.paired d j joined).terminal = none := ht
  have hopen' : (s.paired d j joined).mustClose (s.flattenOp u).kind = false := hopen
  rw [List.foldlM_cons, Draft.step_of_open ht' hopen']
  simp only [bind_eq_ok, apply_flattenOp hrow h hlambda]
  constructor
  · rintro ⟨d₁, ⟨d₂, ⟨row, hbind, rfl⟩, heq⟩, hrun⟩
    cases heq
    exact ⟨row, hbind, hrun⟩
  · rintro ⟨row, hbind, hrun⟩
    exact ⟨_, ⟨_, ⟨row, hbind, rfl⟩, rfl⟩, hrun⟩

/-- **A group join that is flattened leaves what the join leaves**, with a join of the kind that the
flattening asks for and one more operator counted. -/
theorem run_groupOp :
    (s.groupOp :: s.flattenOp u :: ops).foldlM (Draft.step schema nested) d = .ok e ↔
    ∃ j joined row, s.Matches schema nested d j joined ∧
      s.resultOf.bind [d.row, joined] = .ok row ∧
      ops.foldlM (Draft.step schema nested)
        (withJoin d.counted { j with kind := u.joinKind } row).counted = .ok e := by
  have hopen' : d.mustClose s.groupOp.kind = false := hopen
  have hflatten {j : Join} {joined : Expr} (h : s.Matches schema nested d.counted j joined) :
      (s.flattenOp u :: ops).foldlM (Draft.step schema nested) (s.paired d.counted j joined) =
        .ok e ↔ _ := run_flattenOp ht hopen hrow hlambda h
  rw [List.foldlM_cons, Draft.step_of_open ht hopen']
  simp only [bind_eq_ok, apply_groupOp hrow]
  constructor
  · rintro ⟨d₁, ⟨d₂, ⟨j, joined, hmatches, rfl⟩, heq⟩, hrun⟩
    cases heq
    obtain ⟨row, hbind, hrun⟩ := (hflatten hmatches).1 hrun
    exact ⟨j, joined, row, hmatches, hbind, hrun⟩
  · rintro ⟨j, joined, row, hmatches, hbind, hrun⟩
    exact ⟨_, ⟨_, ⟨j, joined, hmatches, rfl⟩, rfl⟩, (hflatten hmatches).2 ⟨row, hbind, hrun⟩⟩

end Runs

theorem precedes_groupOp :
    Draft.Precedes schema log s.groupOp.kind d ↔ Draft.Precedes schema log .join d :=
  ⟨fun h => h.congr rfl rfl rfl, fun h => h.congr rfl rfl rfl⟩

/-- **A group join that is flattened is a join.** -/
theorem ofLog_groupOp (hlambda : ∀ d, Draft.Precedes schema log .join d →
      d.row.isLambda = false ∨ ¬ s.result.Mentions .grouping) (p : Plan) :
    Plan.ofLog schema (log ++ s.groupOp :: s.flattenOp .dropped :: ops) = .ok p ↔
      Plan.ofLog schema (log ++ s.joinOp :: ops) = .ok p := by
  simp only [Plan.ofLog_eq_ok, Draft.ofLog_append_cons start_groupOp,
    Draft.ofLog_append_cons start_joinOp, validate_iff, precedes_groupOp]
  have hkind {d : Draft} {j : Join} {joined : Expr}
      (h : s.Matches schema (Plan.nested schema) d j joined) :
      ({ j with kind := Unmatched.dropped.joinKind } : Join) = j := by
    obtain ⟨_, _, _, _, _, _, -, -, -, -, rfl⟩ := h
    rfl
  constructor
  · rintro ⟨e, ⟨hvalid, d, hd, hrun⟩, hp⟩
    have hrow := hd.reduced d.row Draft.row_mem_exprs
    obtain ⟨j, joined, row, hmatches, hbind, hrun⟩ :=
      (run_groupOp hd.terminal hd.mustClose hrow (hlambda d hd)).1 hrun
    rw [hkind hmatches] at hrun
    obtain ⟨k, hrun'⟩ := Draft.foldlM_step_applied (k := d.applied + 1) hrun
      (by simp [Draft.counted, withJoin])
    exact ⟨_, ⟨hvalid, d, hd, (run_joinOp hd.terminal hd.mustClose).2
      ⟨j, joined, row, hmatches, hbind, hrun'⟩⟩, hp⟩
  · rintro ⟨e, ⟨hvalid, d, hd, hrun⟩, hp⟩
    have hrow := hd.reduced d.row Draft.row_mem_exprs
    obtain ⟨j, joined, row, hmatches, hbind, hrun⟩ := (run_joinOp hd.terminal hd.mustClose).1 hrun
    obtain ⟨k, hrun'⟩ := Draft.foldlM_step_applied (k := d.applied + 1 + 1) hrun
      (by simp [Draft.counted, withJoin])
    refine ⟨{ e with applied := k }, ⟨hvalid, d, hd,
      (run_groupOp hd.terminal hd.mustClose hrow (hlambda d hd)).2 ⟨j, joined, row, hmatches, hbind, ?_⟩⟩, hp⟩
    rw [hkind hmatches]
    exact hrun'

/-- The log has no group form of a number in its lambdas, and neither has the result. -/
def Ungrouped (s : JoinSpelling) (log : Log) (n : Nat) : Prop :=
  (∀ op ∈ log, ¬ op.Mentions (.joinGroup n)) ∧ ¬ s.result.Mentions (.joinGroup n)

/-- The group of the join is not at hand in the draft that the join leaves. -/
theorem not_mentions_withJoin (hd : Draft.Precedes schema log .join d)
    (hgroups : s.Ungrouped (log ++ ops) d.layer.joins.length)
    (hmatches : s.Matches schema nested d j joined)
    (hbind : s.resultOf.bind [d.row, joined] = .ok row) {a : Expr}
    (ha : a ∈ (withJoin d j row).counted.exprs) :
    ¬ a.Mentions (.joinGroup d.layer.joins.length) := by
  have hold {a : Expr} (ha : a ∈ d.exprs) : ¬ a.Mentions (.joinGroup d.layer.joins.length) := by
    intro hm
    rcases hd.marked a ha _ hm with ⟨op, hop, hm⟩ | hlt
    · exact hgroups.1 op (by simp [hop]) hm
    · exact Nat.lt_irrefl _ hlt
  intro hm
  rcases Draft.mem_exprs.1 ha with rfl | ha
  · rcases Lambda.mentions_bind hbind hm with hm | ⟨arg, harg, hm⟩
    · exact hgroups.2 hm
    · simp only [List.mem_cons, List.not_mem_nil, or_false] at harg
      rcases harg with rfl | rfl
      · exact hold Draft.row_mem_exprs hm
      · cases hmatches.mentions hm
  · exact hold (Draft.mem_exprs.2 (.inr ha)) hm

/-- **A group that is flattened with its unmatched rows is a join of another kind.** -/
theorem ofLog_groupOp_rekinded {p : Plan} (hd : Draft.Precedes schema log .join d)
    (hlambda : d.row.isLambda = false ∨ ¬ s.result.Mentions .grouping)
    (hgroups : s.Ungrouped (log ++ ops) d.layer.joins.length)
    (hp : Plan.ofLog schema (log ++ s.joinOp :: ops) = .ok p) :
    ∃ j p', j.kind = .inner ∧
      Plan.ofLog schema (log ++ s.groupOp :: s.flattenOp u :: ops) = .ok p' ∧
      p.Rekinded d.layer.subquery d.layer.joins.length j u.joinKind p' := by
  have hrow := hd.reduced d.row Draft.row_mem_exprs
  obtain ⟨e, he, hplan⟩ := Plan.ofLog_eq_ok.1 hp
  have hregular : e.Regular := Draft.regular_ofLog he
  obtain ⟨hvalid, d', hd', hrun⟩ := (Draft.ofLog_append_cons start_joinOp).1 he
  obtain rfl := hd.unique hd'
  obtain ⟨j, joined, row, hmatches, hbind, hrun⟩ := (run_joinOp hd.terminal hd.mustClose).1 hrun
  have hrekinds : (withJoin d j row).counted.Rekinds d.layer.subquery d.layer.joins.length j
      u.joinKind (d.applied + 1 + 1) id
      (·.set d.layer.joins.length { j with kind := u.joinKind }) :=
    .here rfl (by simp [Draft.counted, withJoin, Draft.addJoin]) (by simp [Draft.counted])
      fun a ha => not_mentions_withJoin hd hgroups hmatches hbind ha
  have hrecast : (withJoin d j row).counted.recast id
      (·.set d.layer.joins.length { j with kind := u.joinKind }) (d.applied + 1 + 1) =
      (withJoin d.counted { j with kind := u.joinKind } row).counted := by
    simp [Draft.recast, Layer.recast, Draft.counted, withJoin, Draft.addJoin]
  obtain ⟨k, s', t', hrekinds, hrun'⟩ := hrekinds.foldlM_step hrun
    fun op hop => hgroups.1 op (by simp [hop])
  obtain ⟨p', hp', hrekinded⟩ := hrekinds.plan hregular hplan
  rw [hrecast] at hrun'
  refine ⟨j, p', ?_, Plan.ofLog_eq_ok.2 ⟨_, ?_, hp'⟩, hrekinded⟩
  · obtain ⟨_, _, _, _, _, _, -, -, -, -, rfl⟩ := hmatches
    rfl
  · exact (Draft.ofLog_append_cons start_groupOp).2 ⟨validate_iff.2 hvalid, d,
      precedes_groupOp.2 hd, (run_groupOp hd.terminal hd.mustClose hrow hlambda).2
        ⟨j, joined, row, hmatches, hbind, hrun'⟩⟩

end JoinSpelling

/-! ## Navigations -/

/-- Lambdas for the keys of a foreign key, on either side: the only key, or objects of all keys under
any labels. -/
inductive ForeignKey.Keys (fk : ForeignKey) : Lambda → Lambda → Prop where
  | single {x y owner target : String} (howner : fk.ownerKeys = [owner])
    (htarget : fk.targetKeys = [target]) :
    Keys fk ⟨[x], .member (.param x) owner⟩ ⟨[y], .member (.param y) target⟩
  | composite {x y : String} {ty ty' : Option String} {labels labels' : List String}
    (howner : labels.length = fk.ownerKeys.length)
    (htarget : labels'.length = fk.targetKeys.length) :
    Keys fk
      ⟨[x], .construct ty (labels.zip (fk.ownerKeys.map (.member (.param x))))⟩
      ⟨[y], .construct ty' (labels'.zip (fk.targetKeys.map (.member (.param y))))⟩

namespace Expr

variable {row : Expr}

/-- Whether an expression is a row or a member of something, whose members reduction leaves. -/
def isPath : Expr → Bool
  | source _ | member _ _ => true
  | _ => false

theorem isPath_of_shape {l : Layer} {ty : String} (h : l.shape schema row = .ok (.entity ty)) :
    row.isPath = true := by
  cases row with
  | source | member => rfl
  | _ => cases h

theorem Reduced.member (h : row.Reduced) (hpath : row.isPath) (name : String) :
    (Expr.member row name).Reduced := by
  refine reduced_of_parts ?_ (by simpa [parts] using fun _ => h)
  cases row with
  | source | member => rfl
  | _ => cases hpath

theorem bind_member (h : row.Reduced) (hpath : row.isPath) (x name : String) :
    Lambda.bind ⟨[x], .member (.param x) name⟩ [row] = .ok (.member row name) := by
  rw [Lambda.bind_one]
  have hmember : (Expr.member (.param x) name).substitute [(x, row)] = .member row name := by
    rw [substitute, substitute_param_head]
  rw [hmember]
  exact (h.member hpath name).reduceWith_eq _

theorem bind_members (h : row.Reduced) (hpath : row.isPath) (x : String)
    (ty : Option String) (labels keys : List String) :
    Lambda.bind ⟨[x], .construct ty (labels.zip (keys.map (.member (.param x))))⟩ [row] =
      .ok (.construct ty (labels.zip (keys.map (.member row)))) := by
  rw [Lambda.bind_one]
  have hobject : (Expr.construct ty (labels.zip (keys.map (.member (.param x))))).substitute
      [(x, row)] = .construct ty (labels.zip (keys.map (.member row))) := by
    simp [construct, substitute, substituteBindings_eq, List.zip_map_right]
  rw [hobject]
  refine (reduced_of_parts rfl fun _ p hp => ?_).reduceWith_eq _
  simp only [construct, parts, List.map_map, List.mem_map, List.zip_map_right] at hp
  obtain ⟨⟨label, key⟩, -, rfl⟩ := hp
  exact h.member hpath key

end Expr

/-- **Keys are paired in their order.** -/
theorem ForeignKey.Keys.pairs {fk : ForeignKey} {outerKey innerKey : Lambda} {row joined : Expr}
    (h : fk.Keys outerKey innerKey) (hlength : fk.ownerKeys.length = fk.targetKeys.length)
    (hrow : row.Reduced) (hpath : row.isPath) (hjoined : joined.Reduced)
    (hjoinedPath : joined.isPath) (kind : OpKind) :
    ∃ outer inner, outerKey.bind [row] = .ok outer ∧ innerKey.bind [joined] = .ok inner ∧
      Join.keys kind outer inner =
        .ok (fk.ownerKeys.map (.member row), fk.targetKeys.map (.member joined)) := by
  cases h with
  | single howner htarget =>
    refine ⟨_, _, Expr.bind_member hrow hpath _ _, Expr.bind_member hjoined hjoinedPath _ _, ?_⟩
    rw [howner, htarget]
    rfl
  | @composite x y ty ty' labels labels' howner htarget =>
    have hvalues {labels keys : List String} {e : Expr} (h : labels.length = keys.length) :
        ((labels.zip (keys.map (Expr.member e))).map fun m => (⟨m.1, m.2⟩ : Binding)).map
          (·.value) = keys.map (.member e) := by
      rw [List.map_map]
      exact List.map_snd_zip (by simp [h])
    refine ⟨_, _, Expr.bind_members hrow hpath _ _ _ _,
      Expr.bind_members hjoined hjoinedPath _ _ _ _, ?_⟩
    simp only [Join.keys, Expr.construct, Expr.bindings?]
    rw [if_pos (by simp [howner, htarget, hlength]), hvalues howner, hvalues htarget]

/-- A collection navigation of the row, flattened. -/
def navigateOp (x name : String) (result : Lambda) : Operator :=
  .selectMany ⟨[x], .member (.param x) name⟩ (some result)

def tableJoinOp (target : String) (outerKey innerKey result : Lambda) : Operator :=
  .joinOf .join [.getSource target] outerKey innerKey result

section Navigation

variable {d : Draft} {ty name x : String} {entity target : Entity} {nav : Navigation}
  {fk : ForeignKey} {outerKey innerKey result : Lambda}

theorem validate_navigateOp (hkeys : fk.Keys outerKey innerKey) :
    Log.validate (navigateOp x name result :: ops) = .ok () ↔
      Log.validate (tableJoinOp nav.target outerKey innerKey result :: ops) = .ok () := by
  have harity : outerKey.arity = 1 ∧ innerKey.arity = 1 := by
    cases hkeys <;> exact ⟨rfl, rfl⟩
  have hnavigate : (navigateOp x name result).validate = .ok () ↔ result.arity = 2 := by
    have hslots : (navigateOp x name result).validate =
        Operator.checkSlots .selectMany [.lambda 1, .optionalLambda 2]
          [.lambda ⟨[x], .member (.param x) name⟩, .lambda result] := rfl
    rw [hslots]
    simp [Operator.checkSlots, Slot.accepts, Lambda.arity]
  rw [Draft.validate_cons, Draft.validate_cons, hnavigate, tableJoinOp,
    Operator.validate_joinOf (.inl rfl)]
  simp [harity]

variable (hshape : d.layer.shape schema d.row = .ok (.entity ty))
  (hentity : schema.entity ty = .ok entity) (hnav : entity.navigation? name = some nav)
  (hmany : nav.many = true) (hfk : nav.foreignKey = some fk)
  (hlength : fk.ownerKeys.length = fk.targetKeys.length)
  (htarget : schema.entity nav.target = .ok target) (hkeys : fk.Keys outerKey innerKey)

include hshape hentity hnav hmany hfk hlength htarget hkeys

/-- **A collection navigation is flattened as its target is joined.** -/
theorem apply_navigateOp (hrow : d.row.Reduced) :
    d.apply schema nested (navigateOp x name result) =
      d.apply schema nested (tableJoinOp nav.target outerKey innerKey result) := by
  have hpath := Expr.isPath_of_shape hshape
  have hmember : d.layer.shape schema (.member d.row name) = .ok (.collection nav.target) := by
    obtain ⟨m, hm, hkind⟩ := Option.bind_eq_some_iff.1 hnav
    have hkind : m.kind = .navigation nav := by
      unfold Member.navigation? at hkind
      split at hkind
      · rename_i hk
        cases hkind
        exact hk
      · cases hkind
    simp only [Layer.shape, hshape, ok_bind, hentity, hm, hkind, Shape.ofMember, hmany,
      if_true]
  obtain ⟨outer, inner, houter, hinner, hpairs⟩ :=
    hkeys.pairs hlength hrow hpath (Expr.reduced_source d.nextSource) rfl .join
  have hcollection : d.bindRow ⟨[x], .member (.param x) name⟩ = .ok (.member d.row name) :=
    Expr.bind_member hrow hpath x name
  have hbare : Log.bareSource? [.getSource nav.target] = some nav.target := rfl
  have hlambda₀ : (navigateOp x name result).lambda 0 = .ok ⟨[x], .member (.param x) name⟩ := rfl
  have hlambda₁ : (navigateOp x name result).lambda? 1 = some result := rfl
  have houter' : d.bindRow outerKey = .ok outer := houter
  calc d.apply schema nested (navigateOp x name result)
    _ = d.selectMany schema nested (navigateOp x name result) := rfl
    _ = do
      let row ← result.bind [d.row, .source d.nextSource]
      return JoinSpelling.withJoin d ⟨.inner, d.nextSource, .table nav.target, some nav.target,
        fk.ownerKeys.map (.member d.row), fk.targetKeys.map (.member (.source d.nextSource))⟩ row := by
      simp only [Draft.selectMany, hlambda₀, hlambda₁, hcollection, ok_bind, Unmatched.strip,
        Draft.flatten, hmember, Draft.navigationJoin, hshape, hentity, hnav, hfk, htarget]
      rfl
    _ = d.apply schema nested (tableJoinOp nav.target outerKey innerKey result) := by
      rw [tableJoinOp, JoinSpelling.apply_joinOf_eq (.inl rfl)]
      simp only [Draft.joinTarget, hbare, htarget, houter', hinner, hpairs, ok_bind, pure_bind]
      rfl

/-- **A log that flattens a collection navigation has the plan of the join with its target.** -/
theorem ofLog_navigateOp (hd : Draft.Precedes schema log .join d) (p : Plan) :
    Plan.ofLog schema (log ++ navigateOp x name result :: ops) = .ok p ↔
      Plan.ofLog schema (log ++ tableJoinOp nav.target outerKey innerKey result :: ops) = .ok p := by
  have hrow := hd.reduced d.row Draft.row_mem_exprs
  have hnavigate (r : Draft × Log) : Draft.start schema (navigateOp x name result :: ops) ≠ .ok r := by
    intro h
    cases h
  have hjoin (r : Draft × Log) :
      Draft.start schema (tableJoinOp nav.target outerKey innerKey result :: ops) ≠ .ok r := by
    intro h
    cases h
  have hsame (d' : Draft) (h : Draft.Precedes schema log .join d') :
      d'.step schema (Plan.nested schema) (navigateOp x name result) =
        d'.step schema (Plan.nested schema) (tableJoinOp nav.target outerKey innerKey result) := by
    obtain rfl := hd.unique h
    have hopen : d.mustClose (navigateOp x name result).kind = false := hd.mustClose
    have hopen' : d.mustClose (tableJoinOp nav.target outerKey innerKey result).kind = false :=
      hd.mustClose
    rw [Draft.step_of_open hd.terminal hopen, Draft.step_of_open hd.terminal hopen',
      apply_navigateOp hshape hentity hnav hmany hfk hlength htarget hkeys hrow]
  have hprecedes (d' : Draft) : Draft.Precedes schema log .selectMany d' ↔
      Draft.Precedes schema log .join d' :=
    ⟨fun h => h.congr rfl rfl rfl, fun h => h.congr rfl rfl rfl⟩
  have hdraft (e : Draft) : Draft.ofLog schema (log ++ navigateOp x name result :: ops) = .ok e ↔
      Draft.ofLog schema (log ++ tableJoinOp nav.target outerKey innerKey result :: ops) = .ok e := by
    rw [Draft.ofLog_append_cons hnavigate, Draft.ofLog_append_cons hjoin]
    refine and_congr (validate_navigateOp hkeys) (exists_congr fun d' => ?_)
    constructor
    · rintro ⟨h, hrun⟩
      have h := (hprecedes d').1 h
      rw [List.foldlM_cons, hsame d' h] at hrun
      exact ⟨h, hrun⟩
    · rintro ⟨h, hrun⟩
      refine ⟨(hprecedes d').2 h, ?_⟩
      rw [List.foldlM_cons, hsame d' h]
      exact hrun
  simp only [Plan.ofLog_eq_ok, hdraft]

end Navigation

/-- **The spellings of a join agree.** A group join whose group is flattened is the join itself, and
with its unmatched rows kept the join of another kind; the flattened navigation of an entity is the
join with the target on its keys.

A row that is a lambda may not be handed to a group that stands in the result, since a group takes a
lambda only as it stands. And the kind of the join is not settled where a group form of its number
stands in the log, since that too may be flattened. -/
theorem Plan.join_spellings_agree (schema : Schema) (log ops : Log) :
    (∀ s : JoinSpelling, (∀ d, Draft.Precedes schema log .join d →
        d.row.isLambda = false ∨ ¬ s.result.Mentions .grouping) →
      (∀ p, ofLog schema (log ++ [s.groupOp, s.flattenOp .dropped] ++ ops) = .ok p ↔
        ofLog schema (log ++ [s.joinOp] ++ ops) = .ok p) ∧
      ∀ d u p, Draft.Precedes schema log .join d →
        s.Ungrouped (log ++ ops) d.layer.joins.length →
        ofLog schema (log ++ [s.joinOp] ++ ops) = .ok p →
        ∃ j p', j.kind = .inner ∧
          ofLog schema (log ++ [s.groupOp, s.flattenOp u] ++ ops) = .ok p' ∧
          p.Rekinded d.layer.subquery d.layer.joins.length j u.joinKind p') ∧
    ∀ (d : Draft) (ty name x : String) (entity target : Entity) (nav : Navigation)
      (fk : ForeignKey) (outerKey innerKey result : Lambda),
      Draft.Precedes schema log .join d → d.layer.shape schema d.row = .ok (.entity ty) →
      schema.entity ty = .ok entity → entity.navigation? name = some nav → nav.many = true →
      nav.foreignKey = some fk → fk.ownerKeys.length = fk.targetKeys.length →
      schema.entity nav.target = .ok target → fk.Keys outerKey innerKey →
      ∀ p, ofLog schema (log ++ [navigateOp x name result] ++ ops) = .ok p ↔
        ofLog schema (log ++ [tableJoinOp nav.target outerKey innerKey result] ++ ops) = .ok p := by
  simp only [List.append_assoc, List.cons_append, List.nil_append]
  refine ⟨fun s hlambda => ⟨fun p => JoinSpelling.ofLog_groupOp hlambda p, ?_⟩, ?_⟩
  · intro d u p hd hgroups hp
    exact JoinSpelling.ofLog_groupOp_rekinded hd (hlambda d hd) hgroups hp
  · intro d ty name x entity target nav fk outerKey innerKey result hd hshape hentity hnav hmany hfk
      hlength htarget hkeys p
    exact ofLog_navigateOp hshape hentity hnav hmany hfk hlength htarget hkeys hd p

def JoinSpelling.orderLines : JoinSpelling where
  query := [.getSource "Line"]
  outerKey := ⟨["o"], .member (.param "o") "Id"⟩
  innerKey := ⟨["l"], .member (.param "l") "OrderId"⟩
  row := "c"
  element := "a"
  group := "g"
  pair := "t"
  result := .construct none [("Number", .member (.param "c") "Id"),
    ("Order", .member (.param "a") "OrderId")]

def Expr.isJoinGroup : Expr → Bool
  | joinGroup _ _ => true
  | _ => false

/-- Orders are joined with their lines in one plan, however it is spelled. -/
theorem Plan.join_spellings_agree_orderLines :
    ∃ p, ofLog (.sales []) ([.getSource "Order"] ++ [JoinSpelling.orderLines.joinOp] ++ []) = .ok p ∧
      ofLog (.sales []) ([.getSource "Order"] ++ [JoinSpelling.orderLines.groupOp,
        JoinSpelling.orderLines.flattenOp .dropped] ++ []) = .ok p ∧
      ofLog (.sales []) ([.getSource "Order"] ++
        [navigateOp "o" "Lines" JoinSpelling.orderLines.resultOf] ++ []) = .ok p ∧
      ∃ j p', j.kind = .inner ∧
        ofLog (.sales []) ([.getSource "Order"] ++ [JoinSpelling.orderLines.groupOp,
          JoinSpelling.orderLines.flattenOp .outerKept] ++ []) = .ok p' ∧
        p.Rekinded none 0 j .left p' := by
  obtain ⟨hspelling, hnavigation⟩ := join_spellings_agree (.sales []) [.getSource "Order"] []
  have hd : Draft.Precedes (.sales []) [.getSource "Order"] .join (.ofSource "Order") :=
    ⟨_, by cbv, rfl, rfl⟩
  have hungrouped : JoinSpelling.orderLines.Ungrouped [.getSource "Order"] 0 := by
    refine ⟨?_, Expr.not_mentions_of_any (f := Expr.isJoinGroup) ?_ ?_⟩
    · rintro op hop ⟨i, l, hl, -⟩
      obtain rfl := List.mem_singleton.1 hop
      rcases i with _ | i <;> cases hl
    · decide
    · intro p hp
      cases p with
      | joinGroup => rfl
      | _ => cases hp
  obtain ⟨hsame, hkind⟩ := hspelling .orderLines fun d hd' => .inl (by rw [← hd.unique hd']; rfl)
  obtain ⟨p, hp⟩ : ∃ p, ofLog (.sales [])
      ([.getSource "Order"] ++ [JoinSpelling.orderLines.joinOp] ++ []) = .ok p := ⟨_, by cbv⟩
  have hentity : ∃ entity target : Entity, (Schema.sales []).entity "Order" = .ok entity ∧
      entity.navigation? "Lines" = some ⟨"Line", true, some ⟨["Id"], ["OrderId"]⟩⟩ ∧
      (Schema.sales []).entity "Line" = .ok target := ⟨_, _, by cbv, by cbv, by cbv⟩
  obtain ⟨entity, target, hentity, hnav, htarget⟩ := hentity
  have hshape : (Draft.ofSource "Order").layer.shape (.sales []) (.source 0) =
      .ok (.entity "Order") := by cbv
  have hnavigate := hnavigation (.ofSource "Order") "Order" "Lines" "o" entity target
    ⟨"Line", true, some ⟨["Id"], ["OrderId"]⟩⟩ ⟨["Id"], ["OrderId"]⟩
    JoinSpelling.orderLines.outerKey JoinSpelling.orderLines.innerKey
    JoinSpelling.orderLines.resultOf hd hshape hentity hnav rfl rfl rfl htarget
    (.single rfl rfl) p
  exact ⟨p, hp, (hsame p).2 hp, hnavigate.2 hp, hkind _ .outerKept p hd hungrouped hp⟩

/-- The sum over a group that is written out, with the row as its selector. -/
def JoinSpelling.rowSelector : JoinSpelling where
  query := [.getSource "Line"]
  outerKey := ⟨["o"], .constant (.int 1)⟩
  innerKey := ⟨["l"], .member (.param "l") "OrderId"⟩
  row := "c"
  element := "a"
  group := "g"
  pair := "t"
  result := .callOn (.grouping (.constant (.int 1)) (.param "a")) "Sum" [.param "c"]

/-- Rows that are lambdas, and group forms of the number of the join, make a difference. -/
theorem Plan.join_spellings_differ :
    ((∃ p, ofLog (.sales []) ([.getSource "Order",
          .select ⟨["q"], .function ["w"] (.member (.param "w") "OrderId")⟩] ++
          [JoinSpelling.rowSelector.joinOp]) = .ok p) ∧
      ∀ p, ofLog (.sales []) ([.getSource "Order",
          .select ⟨["q"], .function ["w"] (.member (.param "w") "OrderId")⟩] ++
          [JoinSpelling.rowSelector.groupOp, JoinSpelling.rowSelector.flattenOp .dropped]) ≠ .ok p) ∧
    ∃ l : Layer, ofLog (.sales []) ([.getSource "Order"] ++ [JoinSpelling.orderLines.joinOp] ++
          [.selectMany ⟨["x"], .joinGroup 0 (.source 1)⟩ none]) = .ok (.select l) ∧
      ofLog (.sales []) ([.getSource "Order"] ++ [JoinSpelling.orderLines.groupOp,
          JoinSpelling.orderLines.flattenOp .outerKept] ++
          [.selectMany ⟨["x"], .joinGroup 0 (.source 1)⟩ none]) = .ok (.select l) ∧
      l.joins.map (·.kind) = [.inner] := by
  refine ⟨⟨⟨_, by cbv⟩, fun p hp => ?_⟩, _, by cbv, by cbv, by cbv⟩
  have herror : ofLog (.sales []) ([.getSource "Order",
      .select ⟨["q"], .function ["w"] (.member (.param "w") "OrderId")⟩] ++
      [JoinSpelling.rowSelector.groupOp, JoinSpelling.rowSelector.flattenOp .dropped]) =
      .error (.invalidOperand "Sum" .groupingArguments) := by cbv
  rw [herror] at hp
  cases hp

end QueryCompiler

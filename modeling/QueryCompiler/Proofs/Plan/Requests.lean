import Mathlib.Logic.Relation
import QueryCompiler.Proofs.Expr.Occurrences
import QueryCompiler.Proofs.Plan.Halves
/-!
# Requests across a boundary

The layer above a boundary makes two kinds of requests: to keep an expression inside and read it by
the name of a column, and to restate an expression over the columns. All requests share one list of
columns, which only grows (`Boundary.Serves`). So what is found there when a request is answered is
found there in the end: the column that a kept expression is read from, and for each path of a
restated one its column, or the keys of its navigation (`Boundary.collects_paths`).
-/

namespace QueryCompiler

/-- **The search for a fresh name ends** with the first candidate that is not taken. -/
theorem Text.freshName_first (taken : List String) (preferred : String) :
    ∃ n ≤ taken.length, freshName taken preferred = candidate preferred n ∧
      candidate preferred n ∉ taken ∧ ∀ m < n, candidate preferred m ∈ taken := by
  have hfresh := freshName_notMem taken preferred
  unfold freshName at hfresh ⊢
  rw [List.find?_map] at hfresh ⊢
  cases hfind : (List.range (taken.length + 1)).find?
      ((!taken.contains ·) ∘ candidate preferred) with
  | some n =>
    rw [hfind] at hfresh
    obtain ⟨-, hn, hbefore⟩ := List.find?_range_eq_some.1 hfind
    exact ⟨n, by simpa [Nat.lt_succ_iff] using hn, rfl, hfresh, by simpa using hbefore⟩
  | none =>
    -- the name itself is the first candidate, so that it is taken
    have htaken : ¬(!taken.contains preferred) = true := List.find?_eq_none.1 hfind 0 (by simp)
    rw [Bool.not_eq_true, Bool.not_eq_false'] at htaken
    rw [hfind] at hfresh
    exact absurd (List.contains_iff_mem.1 htaken) hfresh

/-! ## Paths of an expression -/

namespace Expr

variable {e : Expr} {id id' : Nat} {path path' : List String}

/-- A source stands in `e`, outside the bodies of lambdas and nested queries, and `path` are the
members that are followed from it, as far as they go. -/
inductive LongestPath (id : Nat) (path : List String) : Expr → Prop where
  | here {e : Expr} (h : e.memberPath? = some (id, path)) : LongestPath id path e
  | part {e p : Expr} (hpath : e.memberPath? = none) (hlambda : e.isLambda = false)
    (hp : p ∈ e.parts) (h : LongestPath id path p) : LongestPath id path e

theorem LongestPath.eq_of_memberPath? (h : LongestPath id path e)
    (he : e.memberPath? = some (id', path')) : id = id' ∧ path = path' := by
  cases h with
  | here h =>
    cases h.symm.trans he
    exact ⟨rfl, rfl⟩
  | part hpath => cases hpath.symm.trans he

theorem LongestPath.exists_part (h : LongestPath id path e) (he : e.memberPath? = none) :
    e.isLambda = false ∧ ∃ p ∈ e.parts, LongestPath id path p := by
  cases h with
  | here h => cases h.symm.trans he
  | part _ hlambda hp h => exact ⟨hlambda, _, hp, h⟩

/-- Every source that is shown has its longest path. -/
theorem exists_longestPath (h : (source id).Shown e) : ∃ path, LongestPath id path e := by
  induction h with
  | refl => exact ⟨[], .here rfl⟩
  | @part e q he hq _ ih =>
    obtain ⟨path, hpath⟩ := ih
    cases hmember : e.memberPath? with
    | none => exact ⟨path, .part hmember (he.resolve_left (by simp)) hq hpath⟩
    | some found =>
      obtain ⟨id', path'⟩ := found
      cases e with
      | source => cases hq
      | member target name =>
        -- the target is a path from the same source
        obtain ⟨⟨id₀, path₀⟩, htarget, heq⟩ := Option.map_eq_some_iff.1 hmember
        cases heq
        obtain rfl := List.mem_singleton.1 hq
        obtain ⟨rfl, -⟩ := hpath.eq_of_memberPath? htarget
        exact ⟨_, .here hmember⟩
      | _ => cases hmember

end Expr

namespace Boundary

variable {b : Boundary} {columns : List Binding} {e r : Expr}

/-- Every path of an expression starts from the root, and what it starts with is exported. -/
def Reads (b : Boundary) (columns : List Binding) (r : Expr) : Prop :=
  ∀ id path, Expr.LongestPath id path r → id = 0 ∧ b.Exports columns path

theorem Reads.of_parts (hpath : r.memberPath? = none) (h : ∀ p ∈ r.parts, b.Reads columns p) :
    b.Reads columns r := by
  intro id path hr
  obtain ⟨-, p, hp, hpart⟩ := hr.exists_part hpath
  exact h p hp id path hpart

theorem collects_path (hb : b.whole = false) {found : Nat × List String}
    (hpath : e.memberPath? = some found) : Collects (b.rebase e) fun columns r =>
      (e.memberPath? = none → r.memberPath? = none) ∧ b.Reads columns r := by
  obtain ⟨schema, root, whole⟩ := b
  obtain rfl : whole = false := hb
  refine (collects_rebase (l := { Layer.empty with source := root }) hpath).imp ?_
  rintro columns r ⟨-, -, hr⟩
  obtain ⟨path, hr, hexports⟩ := hr rfl
  refine ⟨by simp [hpath], fun id path' hlongest => ?_⟩
  obtain ⟨rfl, rfl⟩ := hlongest.eq_of_memberPath? hr
  exact ⟨rfl, hexports⟩

mutual

/-- **A restated expression reads what is exported**, and is a path only where it was one. -/
theorem collects_paths (hb : b.whole = false) : ∀ e : Expr, Collects (b.rebase e) fun columns r =>
    (e.memberPath? = none → r.memberPath? = none) ∧ b.Reads columns r
  | .source id => collects_path hb rfl
  | .member target name => by
    cases hpath : (Expr.member target name).memberPath? with
    | some found => simpa only [hpath] using collects_path hb hpath
    | none =>
      have htarget : target.memberPath? = none := Option.map_eq_none_iff.1 hpath
      rw [rebase, hpath]
      refine .bind (collects_paths hb target) fun t => .pure fun _ ht => ?_
      have hmember : (Expr.member t name).memberPath? = none :=
        Option.map_eq_none_iff.2 (ht.1 htarget)
      exact ⟨fun _ => hmember, .of_parts hmember (by simp [ht.2])⟩
  | .aggregate _ _ | .grouping _ _ | .joinGroup _ _ => by
    unfold rebase
    exact .throw
  | .binary op l r => by
    unfold rebase
    refine .bind (collects_paths hb l) fun _ => .bind (collects_paths hb r) fun _ => ?_
    exact .pure fun _ hr hl => ⟨fun _ => rfl, .of_parts rfl (by simp [hl.2, hr.2])⟩
  | .unary op e => by
    unfold rebase
    refine .bind (collects_paths hb e) fun _ => .pure fun _ h => ?_
    exact ⟨fun _ => rfl, .of_parts rfl (by simp [h.2])⟩
  | .call method target args => by
    unfold rebase
    refine .bind (collects_pathsOption hb target) fun _ =>
      .bind (collects_pathsList hb args) fun _ => .pure fun _ hargs htarget => ?_
    refine ⟨fun _ => rfl, .of_parts rfl fun p hp => ?_⟩
    exact (List.mem_append.1 hp).elim (fun h => htarget p (Option.mem_toList.1 h)) (hargs p)
  | .object ty bindings => by
    unfold rebase
    refine .bind (collects_pathsBindings hb bindings) fun _ => .pure fun _ h => ?_
    exact ⟨fun _ => rfl, .of_parts rfl (by simpa using h)⟩
  | .conditional t x y => by
    unfold rebase
    refine .bind (collects_paths hb t) fun _ => .bind (collects_paths hb x) fun _ =>
      .bind (collects_paths hb y) fun _ => .pure fun _ hy hx ht => ?_
    exact ⟨fun _ => rfl, .of_parts rfl (by simp [ht.2, hx.2, hy.2])⟩
  | .param _ | .constant _ | .query _ => by
    unfold rebase
    exact .pure fun _ => ⟨fun _ => rfl, .of_parts rfl (by simp)⟩
  | .lambda l => by
    unfold rebase
    exact .pure fun _ => ⟨fun _ => rfl, fun _ _ h => nomatch (h.exists_part rfl).1⟩

theorem collects_pathsOption (hb : b.whole = false) : ∀ o : Option Expr,
    Collects (b.rebaseOption o) fun columns o => ∀ r ∈ o, b.Reads columns r
  | none => .pure fun _ => by simp
  | some e => by
    unfold rebaseOption
    exact .bind (collects_paths hb e) fun _ => .pure fun _ h => by simpa using h.2

theorem collects_pathsList (hb : b.whole = false) : ∀ es : List Expr,
    Collects (b.rebaseList es) fun columns rs => ∀ r ∈ rs, b.Reads columns r
  | [] => .pure fun _ => by simp
  | e :: es => by
    unfold rebaseList
    refine .bind (collects_paths hb e) fun _ => .bind (collects_pathsList hb es) fun _ => ?_
    exact .pure fun _ hes he => List.forall_mem_cons.2 ⟨he.2, hes⟩

theorem collects_pathsBindings (hb : b.whole = false) : ∀ bs : List Binding,
    Collects (b.rebaseBindings bs) fun columns rs => ∀ r ∈ rs, b.Reads columns r.value
  | [] => .pure fun _ => by simp
  | ⟨m, v⟩ :: bs => by
    unfold rebaseBindings
    refine .bind (collects_paths hb v) fun _ => .bind (collects_pathsBindings hb bs) fun _ => ?_
    exact .pure fun _ hbs hv => List.forall_mem_cons.2 ⟨hv.2, hbs⟩

end

/-! ## Requests one after the other -/

/-- What the layer above a boundary asks for. -/
inductive Request where
  /-- to keep an expression inside, under a name if that is free -/
  | keep (preferred : String) (e : Expr)
  /-- to restate an expression over the columns -/
  | restate (e : Expr)

/-- The answer to a request. -/
def answer (b : Boundary) : Request → Exporting Expr
  | .keep preferred e => b.keep preferred e
  | .restate e => b.rebase e

/-- One list of columns becomes the other as members of the root are asked for one by one. -/
abbrev Grows (b : Boundary) : List Binding → List Binding → Prop :=
  Relation.ReflTransGen fun s s' => ∃ name, (b.requireMember name).run s = .ok ((), s')

/-- Requests with their answers, between the columns before and after. A request that is refused has
no answer, and leaves the members that it had asked for until then. -/
inductive Serves (b : Boundary) :
    List Binding → List (Request × Option Expr) → List Binding → Prop where
  | done {s : List Binding} : Serves b s [] s
  | met {q : Request} {r : Expr} {s s₁ s' : List Binding} {served : List (Request × Option Expr)}
    (h : (b.answer q).run s = .ok (r, s₁)) (rest : Serves b s₁ served s') :
    Serves b s ((q, some r) :: served) s'
  | refused {q : Request} {e : CompileError} {s s₁ s' : List Binding}
    {served : List (Request × Option Expr)} (h : (b.answer q).run s = .error e)
    (hgrows : b.Grows s s₁) (rest : Serves b s₁ served s') : Serves b s ((q, none) :: served) s'

theorem Grows.distinct {s s' : List Binding} (h : b.Grows s s') (hs : Binding.Distinct s) :
    s <+: s' ∧ Binding.Distinct s' := by
  induction h with
  | refl => exact ⟨List.prefix_rfl, hs⟩
  | tail _ hstep ih =>
    obtain ⟨name, hrun⟩ := hstep
    obtain ⟨hkept, hdistinct, -⟩ := collects_requireMember _ _ _ ih.2 hrun
    exact ⟨ih.1.trans hkept, hdistinct⟩

theorem collects_answer (hb : b.whole = false) (q : Request) :
    Collects (b.answer q) fun _ _ => True := by
  cases q with
  | keep preferred e => exact (collects_keep hb).imp fun _ _ _ => trivial
  | restate e => exact (collects_paths hb e).imp fun _ _ _ => trivial

/-- **Columns stay as they are**, whatever is asked for. -/
theorem Serves.distinct (hb : b.whole = false) {s s' : List Binding}
    {served : List (Request × Option Expr)} (h : b.Serves s served s') (hs : Binding.Distinct s) :
    s <+: s' ∧ Binding.Distinct s' := by
  induction h with
  | done => exact ⟨List.prefix_rfl, hs⟩
  | met h _ ih =>
    obtain ⟨hkept, hdistinct, -⟩ := collects_answer hb _ _ _ _ hs h
    exact ⟨hkept.trans (ih hdistinct).1, (ih hdistinct).2⟩
  | refused _ hgrows _ ih =>
    obtain ⟨hkept, hdistinct⟩ := hgrows.distinct hs
    exact ⟨hkept.trans (ih hdistinct).1, (ih hdistinct).2⟩

/-- **Whatever is asked for, before or after, a request is answered from columns that stay.** Their
names are distinct. What is kept is read from a column with that value, or with one that was there
and compares equal. What is restated reads the root only, and all that it reads is exported. -/
theorem serves_faithful (hb : b.whole = false) {before after : List (Request × Option Expr)}
    {q : Request} {answer : Option Expr} {s : List Binding} (hbefore : b.Serves [] before s)
    (hafter : b.Serves s ((q, answer) :: after) columns) :
    Binding.Distinct columns ∧ s <+: columns ∧
      (match q with
        | .keep _ e => ∃ c ∈ columns, answer = some (.member (.source 0) c.member) ∧
            (c.value = e ∨ c ∈ s ∧ c.value == e)
        | .restate _ => ∀ r ∈ answer, (∀ id, (Expr.source id).Shown r → id = 0) ∧
            ∀ id path, Expr.LongestPath id path r → id = 0 ∧ b.Exports columns path) ∧
      ∀ preferred, ∃ n ≤ columns.length,
        Text.freshName (columns.map (·.member)) preferred = Text.candidate preferred n ∧
          Text.candidate preferred n ∉ columns.map (·.member) ∧
          ∀ m < n, Text.candidate preferred m ∈ columns.map (·.member) := by
  obtain ⟨-, hs⟩ := hbefore.distinct hb List.nodup_nil
  obtain ⟨hkept, hdistinct⟩ := hafter.distinct hb hs
  refine ⟨hdistinct, hkept, ?_, fun preferred => ?_⟩
  · cases q with
    | keep preferred e =>
      obtain ⟨c, hc, hsame, hkeep⟩ | ⟨name, hname, hkeep⟩ := b.run_keep (e := e) hb preferred s
      · refine ⟨c, hkept.subset hc, ?_, .inr ⟨hc, hsame⟩⟩
        cases hafter with
        | met h => cases hkeep.symm.trans h; rfl
        | refused h => cases hkeep.symm.trans h
      · cases hafter with
        | met h rest =>
          cases hkeep.symm.trans h
          have hrest := (rest.distinct hb (hs.concat hname)).1
          exact ⟨⟨name, e⟩, hrest.subset (by simp), rfl, .inl rfl⟩
        | refused h => cases hkeep.symm.trans h
    | restate e =>
      rintro r ⟨⟩
      cases hafter with
      | met h rest =>
        obtain ⟨-, hs₁, hreads⟩ := collects_paths hb e _ _ _ hs h
        obtain ⟨-, hreads⟩ := hreads columns (rest.distinct hb hs₁).1
        refine ⟨fun id hshown => ?_, hreads⟩
        obtain ⟨path, hpath⟩ := Expr.exists_longestPath hshown
        exact (hreads id path hpath).1
  · simpa using Text.freshName_first (columns.map (·.member)) preferred

def ofOrders : Boundary := ⟨.totals, some "Order", false⟩

def scaledTotal (magnitude scale : Nat) : Expr :=
  .binary .mul (.member (.source 0) "Total") (.constant (.decimal ⟨false, magnitude, scale⟩))

/-- A total that is kept takes the name of the other, which is then refused. The lines are restated
all the same, over the number of the order. -/
theorem serves_faithful_ofOrders :
    ∃ s columns, ofOrders.Serves [] [(.keep "Total" (scaledTotal 15 1),
        some (.member (.source 0) "Total")), (.restate (.member (.source 0) "Total"), none)] s ∧
      ofOrders.Serves s [(.restate (.member (.source 0) "Lines"),
        some (.member (.source 0) "Lines")), (.keep "Total" (scaledTotal 2 0),
          some (.member (.source 0) "Total1"))] columns ∧
      Binding.Distinct columns ∧ ofOrders.Exports columns ["Lines"] := by
  have hkept : (ofOrders.answer (.keep "Total" (scaledTotal 15 1))).run [] =
      .ok (.member (.source 0) "Total", [⟨"Total", scaledTotal 15 1⟩]) := by cbv
  have hrefused : (ofOrders.answer (.restate (.member (.source 0) "Total"))).run
      [⟨"Total", scaledTotal 15 1⟩] = .error (.ambiguous (.conflictingColumn "Total")) := by cbv
  have hlines : (ofOrders.answer (.restate (.member (.source 0) "Lines"))).run
      [⟨"Total", scaledTotal 15 1⟩] = .ok (.member (.source 0) "Lines",
        [⟨"Total", scaledTotal 15 1⟩, .ofRoot "Id"]) := by cbv
  have hrenamed : (ofOrders.answer (.keep "Total" (scaledTotal 2 0))).run
      [⟨"Total", scaledTotal 15 1⟩, .ofRoot "Id"] = .ok (.member (.source 0) "Total1",
        [⟨"Total", scaledTotal 15 1⟩, .ofRoot "Id", ⟨"Total1", scaledTotal 2 0⟩]) := by cbv
  have hbefore := Serves.met hkept (.refused hrefused .refl .done)
  have hafter := Serves.met hlines (.met hrenamed .done)
  obtain ⟨hdistinct, -, hreads, -⟩ := serves_faithful rfl hbefore hafter
  exact ⟨_, _, hbefore, hafter, hdistinct, ((hreads _ rfl).2 0 ["Lines"] (.here rfl)).2⟩

/-- **A kept expression may be read from a column with another value**: decimals of one amount
compare equal, however many places they are written with. -/
theorem not_keeps_exactly : ∃ columns,
    ofOrders.Serves [] [(.keep "A" (scaledTotal 15 1), some (.member (.source 0) "A")),
      (.keep "B" (scaledTotal 150 2), some (.member (.source 0) "A"))] columns ∧
    ¬∃ c ∈ columns, c.member = "A" ∧ c.value = scaledTotal 150 2 := by
  have hkept : (ofOrders.answer (.keep "A" (scaledTotal 15 1))).run [] =
      .ok (.member (.source 0) "A", [⟨"A", scaledTotal 15 1⟩]) := by cbv
  have hshared : (ofOrders.answer (.keep "B" (scaledTotal 150 2))).run
      [⟨"A", scaledTotal 15 1⟩] = .ok (.member (.source 0) "A", [⟨"A", scaledTotal 15 1⟩]) := by cbv
  exact ⟨_, .met hkept (.met hshared .done), by simp [scaledTotal]⟩

end Boundary

end QueryCompiler

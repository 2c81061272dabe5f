import QueryCompiler.Proofs.Sql.Composed
import QueryCompiler.Proofs.Sql.Rows
/-!
# Settled readings

Clauses are read one after the other, and each may add rows to the table of the layer. A reading is
settled if that does not matter: in every table that extends the one it leaves, it reads the same
and adds nothing. So all clauses of a layer can be taken as read in one table, the one that the
layer ends with.

`Settles` says this of a step, and what holds of its result in all those tables. Its rules are those
of a Hoare logic whose conditions are about the table to come, one for each way to compose steps.
Here they are applied to expressions: the columns of a term are those that the paths of its
expression denote (`Composes.settles`).
-/

namespace QueryCompiler

open Compiled (bind_eq_ok ok_bind)

variable {α β : Type}

namespace Sql

variable {a : α} {e : CompileError} {id : Nat}

/-- A step reads `a` in a table, which has all the rows it asks for. -/
def ReadsIn (A : Aliases NavigationJoin) (x : Reading α) (a : α) : Prop :=
  ∃ constants constants', x.run ⟨A, constants⟩ = .ok (a, ⟨A, constants'⟩)

/-- A step that neither looks at the rows of the layer nor adds to them. -/
def Isolated (x : Reading α) : Prop :=
  ∀ s a s', x.run s = .ok (a, s') →
    s'.aliases = s.aliases ∧ ∀ A, x.run ⟨A, s.constants⟩ = .ok (a, ⟨A, s'.constants⟩)

/-- **A step settles**: following allowed paths it adds rows to the table, and in every table that
extends what it leaves it reads the same. There the result has `post`, if `pre` holds from the start
on. -/
def Settles (ctx : Context) (allows : Nat × List String → Prop)
    (pre : Aliases NavigationJoin → Prop) (x : Reading α)
    (post : Aliases NavigationJoin → α → Prop) : Prop :=
  ∀ s a s', (Aliases.ofLayer ctx.layer).keys <+: s.aliases.keys →
    (∀ A, s.aliases.keys <+: A.keys → pre A) → x.run s = .ok (a, s') →
    ctx.Grows allows s.aliases s'.aliases ∧ ∀ A, s'.aliases.keys <+: A.keys →
      x.run ⟨A, s.constants⟩ = .ok (a, ⟨A, s'.constants⟩) ∧ post A a

/-! ## Composed steps -/

theorem Reading.run_inLayer (l : Layer) (x : Reading α) (s : Scope) :
    (inLayer l x).run s = (do
      let (a, inner) ← x.run ⟨Aliases.ofLayer l, s.constants⟩
      return (a, ⟨s.aliases, inner.constants⟩)) := rfl

namespace Isolated

theorem pure : Isolated (Pure.pure a) := by
  intro s _ _ hrun
  cases hrun
  exact ⟨rfl, fun _ => rfl⟩

theorem throw : Isolated (MonadExcept.throw e : Reading α) := by
  intro s _ _ hrun
  cases hrun

theorem bind {x : Reading α} {f : α → Reading β} (hx : Isolated x) (hf : ∀ a, Isolated (f a)) :
    Isolated (x >>= f) := by
  intro s b s' hrun
  obtain ⟨⟨a, s₁⟩, hx₁, hf₁⟩ := bind_eq_ok.1 hrun
  obtain ⟨hsame, hagain⟩ := hx s a s₁ hx₁
  obtain ⟨hsame', hagain'⟩ := hf a s₁ b s' hf₁
  exact ⟨hsame'.trans hsame, fun A => bind_eq_ok.2 ⟨(a, ⟨A, s₁.constants⟩), hagain A,
    hagain' A⟩⟩

theorem mapM {f : α → Reading β} {l : List α} (h : ∀ a ∈ l, Isolated (f a)) :
    Isolated (l.mapM f) := by
  induction l with
  | nil => exact pure
  | cons a l ih =>
    rw [List.mapM_cons]
    refine bind (h a (by simp)) fun b => ?_
    exact bind (ih fun a ha => h a (by simp [ha])) fun bs => pure

theorem inLayer {l : Layer} {x : Reading α} : Isolated (Reading.inLayer l x) := by
  intro s a s' hrun
  rw [Reading.run_inLayer] at hrun
  obtain ⟨⟨_, inner⟩, hx, hrun⟩ := bind_eq_ok.1 hrun
  cases hrun
  refine ⟨rfl, fun A => ?_⟩
  rw [Reading.run_inLayer]
  exact bind_eq_ok.2 ⟨(a, inner), hx, rfl⟩

end Isolated

namespace Settles

variable {ctx : Context} {allows : Nat × List String → Prop}
  {pre pre' : Aliases NavigationJoin → Prop} {x : Reading α}
  {post post' : Aliases NavigationJoin → α → Prop} {f : β → Reading α}

theorem pure (h : ∀ A, pre A → post A a) : Settles ctx allows pre (Pure.pure a) post := by
  intro s _ _ _ hpre hrun
  cases hrun
  exact ⟨.refl, fun A hA => ⟨rfl, h A (hpre A hA)⟩⟩

theorem throw : Settles ctx allows pre (MonadExcept.throw e : Reading α) post := by
  intro s _ _ _ _ hrun
  cases hrun

theorem throw_bind : Settles ctx allows pre ((MonadExcept.throw e : Reading β) >>= f) post := by
  intro s _ _ _ _ hrun
  cases hrun

theorem bind {f : α → Reading β} {result : Aliases NavigationJoin → β → Prop}
    (hx : Settles ctx allows pre x post)
    (hf : ∀ a, Settles ctx allows (fun A => pre A ∧ post A a) (f a) result) :
    Settles ctx allows pre (x >>= f) result := by
  intro s b s' hlayer hpre hrun
  obtain ⟨⟨a, s₁⟩, hx₁, hf₁⟩ := bind_eq_ok.1 hrun
  obtain ⟨hgrows, hagain⟩ := hx s a s₁ hlayer hpre hx₁
  have hmid : ∀ A, s₁.aliases.keys <+: A.keys → pre A ∧ post A a :=
    fun A hA => ⟨hpre A (hgrows.keys_prefix.trans hA), (hagain A hA).2⟩
  obtain ⟨hgrows', hagain'⟩ := hf a s₁ b s' (hlayer.trans hgrows.keys_prefix) hmid hf₁
  refine ⟨hgrows.trans hgrows', fun A hA => ?_⟩
  obtain ⟨hf₂, hresult⟩ := hagain' A hA
  have hx₂ := (hagain A (hgrows'.keys_prefix.trans hA)).1
  exact ⟨bind_eq_ok.2 ⟨(a, ⟨A, s₁.constants⟩), hx₂, hf₂⟩, hresult⟩

theorem imp (hx : Settles ctx allows pre x post) (h : ∀ A a, pre A → post A a → post' A a) :
    Settles ctx allows pre x post' := by
  intro s a s' hlayer hpre hrun
  obtain ⟨hgrows, hagain⟩ := hx s a s' hlayer hpre hrun
  refine ⟨hgrows, fun A hA => ?_⟩
  have hpreA := hpre A (hgrows.keys_prefix.trans hA)
  exact ⟨(hagain A hA).1, h A a hpreA (hagain A hA).2⟩

theorem weaken (hx : Settles ctx allows pre' x post) (h : ∀ A, pre A → pre' A) :
    Settles ctx allows pre x post :=
  fun s a s' hlayer hpre hrun => hx s a s' hlayer (fun A hA => h A (hpre A hA)) hrun

/-- What is known whatever the table may be taken for granted. -/
theorem assume {P : Prop} (hP : ∀ A, pre A → P) (hx : P → Settles ctx allows pre x post) :
    Settles ctx allows pre x post :=
  fun s a s' hlayer hpre hrun =>
    hx (hP s.aliases (hpre s.aliases List.prefix_rfl)) s a s' hlayer hpre hrun

theorem lift_bind {x : Compiled β} (h : ∀ b, x = .ok b → Settles ctx allows pre (f b) post) :
    Settles ctx allows pre (liftM x >>= f) post := by
  intro s a s' hlayer hpre hrun
  obtain ⟨⟨b, s₁⟩, hlift, hf⟩ := bind_eq_ok.1 hrun
  obtain ⟨_, hx, hpure⟩ := bind_eq_ok.1 hlift
  cases hpure
  obtain ⟨hgrows, hagain⟩ := h b hx s a s' hlayer hpre hf
  refine ⟨hgrows, fun A hA => ⟨?_, (hagain A hA).2⟩⟩
  exact bind_eq_ok.2 ⟨(b, ⟨A, s.constants⟩), bind_eq_ok.2 ⟨b, hx, rfl⟩,
    (hagain A hA).1⟩

theorem lift {x : Compiled α} (h : ∀ a, x = .ok a → ∀ A, pre A → post A a) :
    Settles ctx allows pre (liftM x : Reading α) post := by
  intro s a s' hlayer hpre hrun
  obtain ⟨b, hx, hpure⟩ := bind_eq_ok.1 hrun
  cases hpure
  exact ⟨.refl, fun A hA => ⟨bind_eq_ok.2 ⟨a, hx, rfl⟩, h a hx A (hpre A hA)⟩⟩

theorem of_isolated {post : α → Prop} (hx : Isolated x) (h : Gives x post) :
    Settles ctx allows pre x fun _ => post := by
  intro s a s' hlayer hpre hrun
  obtain ⟨hsame, hagain⟩ := hx s a s' hrun
  refine ⟨?_, fun A _ => ⟨hagain A, h s a s' hrun⟩⟩
  rw [hsame]
  exact .refl

theorem self (hx : Settles ctx allows pre x post) :
    Settles ctx allows pre x fun A a => ReadsIn A x a ∧ post A a := by
  intro s a s' hlayer hpre hrun
  obtain ⟨hgrows, hagain⟩ := hx s a s' hlayer hpre hrun
  refine ⟨hgrows, fun A hA => ?_⟩
  obtain ⟨hrun', hpost⟩ := hagain A hA
  exact ⟨hrun', ⟨_, _, hrun'⟩, hpost⟩

theorem of_readsIn {A : Aliases NavigationJoin} (hx : Settles ctx allows pre x post)
    (hlayer : (Aliases.ofLayer ctx.layer).keys <+: A.keys) (hpre : ∀ B, A.keys <+: B.keys → pre B)
    (h : ReadsIn A x a) : post A a := by
  obtain ⟨constants, constants', hrun⟩ := h
  exact ((hx ⟨A, constants⟩ a ⟨A, constants'⟩ hlayer hpre hrun).2 A List.prefix_rfl).2

theorem mapM {l : List β} {rel : Aliases NavigationJoin → β → α → Prop}
    (h : ∀ b ∈ l, ∀ pre, Settles ctx allows pre (f b) fun A => rel A b) :
    Settles ctx allows pre (l.mapM f) fun A as => List.Forall₂ (rel A) l as := by
  induction l generalizing pre with
  | nil => exact pure fun _ _ => .nil
  | cons b l ih =>
    rw [List.mapM_cons]
    refine bind (h b (by simp) _) fun a => bind (ih fun b hb => h b (by simp [hb])) fun as => ?_
    exact pure fun A ⟨⟨_, ha⟩, has⟩ => .cons ha has

theorem mapM_all (post : Aliases NavigationJoin → α → Prop) {l : List β}
    (h : ∀ b ∈ l, ∀ pre, Settles ctx allows pre (f b) post) :
    Settles ctx allows pre (l.mapM f) fun A as => ∀ a ∈ as, post A a := by
  refine (mapM h).imp fun A as _ has a ha => ?_
  obtain ⟨_, -, hpost⟩ := exists_of_forall₂ has a ha
  exact hpost

theorem option_mapM {o : Option β} (h : ∀ b ∈ o, ∀ pre, Settles ctx allows pre (f b) post) :
    Settles ctx allows pre (o.mapM f) fun A as => ∀ a ∈ as, post A a := by
  cases o with
  | none => exact pure fun _ _ _ ha => by cases ha
  | some b =>
    refine bind (h b rfl _) fun a => pure fun A hA a' ha => ?_
    cases ha
    exact hA.2

end Settles

theorem ReadsIn.settled {ctx : Context} {allows : Nat × List String → Prop}
    {A : Aliases NavigationJoin} {x : Reading α} {post : Aliases NavigationJoin → α → Prop}
    (h : ReadsIn A x a) (hlayer : (Aliases.ofLayer ctx.layer).keys <+: A.keys)
    (hx : Settles ctx allows (fun _ => True) x post) : post A a :=
  hx.of_readsIn hlayer (fun _ _ => trivial) h

/-! ## Rows -/

theorem Aliases.request_keys {J : Type} (a : Aliases J) (key : String) :
    a.keys <+: (a.request key).2.keys ∧ key ∈ (a.request key).2.keys := by
  unfold request
  cases h : a.get? key with
  | none => exact ⟨List.prefix_append _ _, by simp⟩
  | some n => exact ⟨List.prefix_rfl, List.mem_of_getElem? (getElem?_of_get? h)⟩

theorem Aliases.sourceKey_mem_ofLayer {l : Layer} (h : id ∈ 0 :: l.joins.map (·.source)) :
    sourceKey id ∈ (ofLayer l).keys := by
  have hfold : ∀ (ids : List Nat) (a : Aliases NavigationJoin),
      a.keys <+: (ids.foldl (fun a id => (a.request (sourceKey id)).2) a).keys ∧
        ∀ id ∈ ids,
          sourceKey id ∈ (ids.foldl (fun a id => (a.request (sourceKey id)).2) a).keys := by
    intro ids
    induction ids with
    | nil => exact fun a => ⟨List.prefix_rfl, by simp⟩
    | cons id ids ih =>
      intro a
      obtain ⟨hgrown, hmem⟩ := request_keys a (sourceKey id)
      obtain ⟨hgrows, hids⟩ := ih (a.request (sourceKey id)).2
      refine ⟨hgrown.trans hgrows, fun id' hid' => ?_⟩
      rcases List.mem_cons.1 hid' with rfl | hid'
      · exact hgrows.subset hmem
      · exact hids id' hid'
  exact (hfold _ _).2 id h

namespace Context

variable {ctx : Context} {allows : Nat × List String → Prop} {pre : Aliases NavigationJoin → Prop}
  {c : Chain} {row : Row} {member : String} {before path : List String}

theorem source_eq (id : Nat) : ctx.source id =
    match ctx.isDerived? id with
    | some derived => do
      let number ← Reading.request (sourceKey id)
      return ⟨sourceKey id, number, ctx.layer.sourceType? id, derived, none⟩
    | none => throw (.ambiguous (.sourceOutOfScope id)) := by
  unfold source isDerived?
  by_cases hid : id = 0
  · simp [hid]
  · simp only [hid, if_false]
    cases ctx.layer.join? id <;> rfl

theorem mem_sources_of_isDerived? {derived : Bool} (h : ctx.isDerived? id = some derived) :
    id ∈ 0 :: ctx.layer.joins.map (·.source) := by
  unfold isDerived? at h
  split at h
  · simp [*]
  · obtain ⟨j, hj, -⟩ := Option.map_eq_some_iff.1 h
    have hid : j.source = id := by simpa using List.find?_some hj
    exact List.mem_cons_of_mem _ (List.mem_map.2 ⟨j, List.mem_of_find?_eq_some hj, hid⟩)

/-- A key that is known is known to every longer table, and asking for it adds nothing. -/
theorem request_of_get? {A : Aliases NavigationJoin} {key : String} {n : Nat}
    {constants : List Constant} (h : A.get? key = some n) :
    (Reading.request key).run ⟨A, constants⟩ = .ok (n, ⟨A, constants⟩) := by
  simp only [Reading.request, StateT.run, Aliases.request, h]

/-- **The rows of a source are known from the start.** -/
theorem settles_source :
    Settles ctx allows pre (ctx.source id) fun A row => ctx.RowOf A ⟨id, []⟩ row := by
  rw [source_eq]
  split
  · rename_i derived hderived
    intro s row s' hlayer hpre hrun
    have hmem := Aliases.sourceKey_mem_ofLayer (mem_sources_of_isDerived? hderived)
    obtain ⟨number, hnumber⟩ : ∃ n, s.aliases.get? (sourceKey id) = some n := by
      rw [← Option.isSome_iff_exists, Option.isSome_iff_ne_none]
      exact fun hnone => Aliases.get?_eq_none_iff.1 hnone (hlayer.subset hmem)
    have hrequest (A : Aliases NavigationJoin) (hA : s.aliases.keys <+: A.keys) :
        (Reading.request (sourceKey id)).run ⟨A, s.constants⟩ = .ok (number, ⟨A, s.constants⟩) :=
      request_of_get? (Aliases.get?_of_prefix hA hnumber)
    rw [StateT.run_bind] at hrun
    obtain ⟨⟨n, s₁⟩, hn, hrun⟩ := bind_eq_ok.1 hrun
    cases (hrequest s.aliases List.prefix_rfl).symm.trans hn
    cases hrun
    refine ⟨.refl, fun A hA => ⟨?_, .source hderived (Aliases.get?_of_prefix hA hnumber)⟩⟩
    rw [StateT.run_bind]
    exact bind_eq_ok.2 ⟨(number, ⟨A, s.constants⟩), hrequest A hA, rfl⟩
  · exact .throw

/-- The rows behind a navigation, joined on the first request. -/
def behind (ctx : Context) (row : Row) (name : String) (nav : Navigation) (fk : ForeignKey)
    (target : Entity) : Reading (Row × Bool) := do
  let key := row.key ++ "." ++ name
  let known := ((← get).aliases.get? key).isSome
  let number ← Reading.request key
  let on ← ctx.keyColumns row target number fk
  if !known then
    modify fun scope => { scope with aliases := scope.aliases.addJoin ⟨number, target.table, on⟩ }
  return (⟨key, number, some nav.target, false, on.head?.map (·.2)⟩, nav.many)

theorem navigation_eq (row : Row) (member : String) : ctx.navigation row member = (do
    match row.ty with
    | none => throw (.ambiguous (.navigationOfAnonymousRow member))
    | some ty =>
      let owner ← ctx.schema.entity ty
      match owner.member? member with
      | some ⟨name, .navigation nav⟩ =>
        match nav.foreignKey with
        | none => throw (.missingForeignKey ty name)
        | some fk =>
          let target ← ctx.schema.entity nav.target
          ctx.behind row name nav fk target
      | _ => throw (.unknownMember ty member)) := rfl

section Behind

variable {name : String} {nav : Navigation} {fk : ForeignKey} {target : Entity}
  {A : Aliases NavigationJoin} {constants : List Constant}

theorem run_behind_of_some {n : Nat} (h : A.get? (row.key ++ "." ++ name) = some n) :
    (ctx.behind row name nav fk target).run ⟨A, constants⟩ = (do
      let on ← ctx.keyColumns row target n fk
      return ((⟨row.key ++ "." ++ name, n, some nav.target, false, on.head?.map (·.2)⟩, nav.many),
        ⟨A, constants⟩)) := by
  simp [behind, request_of_get? h, h, ok_bind]

theorem run_behind_of_none (h : A.get? (row.key ++ "." ++ name) = none) :
    (ctx.behind row name nav fk target).run ⟨A, constants⟩ = (do
      let on ← ctx.keyColumns row target A.keys.length fk
      return ((⟨row.key ++ "." ++ name, A.keys.length, some nav.target, false,
          on.head?.map (·.2)⟩, nav.many),
        ⟨⟨A.keys ++ [row.key ++ "." ++ name], A.joins ++ [⟨A.keys.length, target.table, on⟩]⟩,
          constants⟩)) := by
  have hrequest : (Reading.request (row.key ++ "." ++ name)).run ⟨A, constants⟩ =
      .ok (A.keys.length, ⟨⟨A.keys ++ [row.key ++ "." ++ name], A.joins⟩, constants⟩) := by
    simp only [Reading.request, StateT.run, Aliases.request, h]
  simp [behind, hrequest, h, Aliases.addJoin, ok_bind]

/-- **The rows behind a navigation are joined once.** Where they are known nothing is added, and
where they are not the table grows by them. -/
theorem settles_behind {ty : String} {after : List String}
    (hpath : allows (c.source, before ++ member :: after))
    (hbefore : before.length = c.names.length) (hrow : ∀ A, pre A → ctx.RowOf A c row)
    (hty : row.ty = some ty) (hop : ctx.schema.Hop ty member name nav fk target) :
    Settles ctx allows pre (ctx.behind row name nav fk target) fun A r =>
      ctx.RowOf A (c.next name) r.1 ∧ r.1.ty = some nav.target ∧ r.2 = nav.many := by
  rintro ⟨A, constants⟩ r s' hlayer hpre hrun
  have hrowA : ctx.RowOf A c row := hrow A (hpre A List.prefix_rfl)
  have hkey : row.key ++ "." ++ name = (c.next name).key := by rw [Chain.key_next, hrowA.key_eq]
  -- in every longer table the rows are found under the number they have got
  have hlater {number : Nat} {on : List (ColumnRef × ColumnRef)}
      (hon : ctx.keyColumns row target number fk = .ok on) {A' B : Aliases NavigationJoin}
      (hA' : A.keys <+: A'.keys) (hnumber : A'.get? (row.key ++ "." ++ name) = some number)
      (hB : A'.keys <+: B.keys) :
      (ctx.behind row name nav fk target).run ⟨B, constants⟩ = .ok
        ((⟨row.key ++ "." ++ name, number, some nav.target, false, on.head?.map (·.2)⟩, nav.many),
          ⟨B, constants⟩) ∧
        ctx.RowOf B (c.next name)
          ⟨row.key ++ "." ++ name, number, some nav.target, false, on.head?.map (·.2)⟩ := by
    have hnumberB := Aliases.get?_of_prefix hB hnumber
    refine ⟨?_, ?_⟩
    · rw [run_behind_of_some hnumberB, hon]
      rfl
    · rw [hkey] at hnumberB ⊢
      exact .navigation (hrowA.mono (hA'.trans hB)) hty hop hnumberB hon
  cases hget : A.get? (row.key ++ "." ++ name) with
  | some number =>
    rw [run_behind_of_some hget] at hrun
    obtain ⟨on, hon, hrun⟩ := bind_eq_ok.1 hrun
    cases hrun
    refine ⟨.refl, fun B hB => ?_⟩
    obtain ⟨hagain, hrowB⟩ := hlater hon List.prefix_rfl hget hB
    exact ⟨hagain, hrowB, rfl, rfl⟩
  | none =>
    rw [run_behind_of_none hget] at hrun
    obtain ⟨on, hon, hrun⟩ := bind_eq_ok.1 hrun
    cases hrun
    refine ⟨?_, fun B hB => ?_⟩
    · rw [hkey] at hget ⊢
      exact .single (.mk hpath hbefore hrowA hty hop hget hon)
    · have hnumber : Aliases.get? (⟨A.keys ++ [row.key ++ "." ++ name],
          A.joins ++ [⟨A.keys.length, target.table, on⟩]⟩ : Aliases NavigationJoin)
          (row.key ++ "." ++ name) = some A.keys.length := by
        rw [Aliases.get?, List.idxOf?, List.findIdx?_append]
        rw [Aliases.get?, List.idxOf?] at hget
        simp [hget]
      obtain ⟨hagain, hrowB⟩ := hlater hon (List.prefix_append _ _) hnumber hB
      exact ⟨hagain, hrowB, rfl, rfl⟩

theorem settles_navigation_bind {after : List String} {f : Row × Bool → Reading α}
    {post : Aliases NavigationJoin → α → Prop}
    (hpath : allows (c.source, before ++ member :: after))
    (hbefore : before.length = c.names.length) (hrow : ∀ A, pre A → ctx.RowOf A c row)
    (hf : ∀ ty name nav fk target next, row.ty = some ty →
      ctx.schema.Hop ty member name nav fk target → next.ty = some nav.target →
      Settles ctx allows (fun A => ctx.RowOf A (c.next name) next) (f (next, nav.many)) post) :
    Settles ctx allows pre (ctx.navigation row member >>= f) post := by
  rw [navigation_eq]
  split
  · exact .throw_bind
  · rename_i ty hty
    rw [bind_assoc]
    refine .lift_bind fun owner howner => ?_
    split
    · rename_i name nav hmember
      split
      · exact .throw_bind
      · rename_i fk hfk
        rw [bind_assoc]
        refine .lift_bind fun target htarget => ?_
        have hop : ctx.schema.Hop ty member name nav fk target :=
          ⟨⟨owner, howner, hmember⟩, hfk, htarget⟩
        refine .bind (settles_behind hpath hbefore hrow hty hop) fun (next, many) => ?_
        refine .assume (fun A hA => hA.2.2) fun ⟨hnext, hmany⟩ => ?_
        dsimp only at hnext hmany
        subst hmany
        exact (hf ty name nav fk target next hty hop hnext).weaken fun A hA => hA.2.1
    · exact .throw_bind

end Behind

/-! ## Paths -/

/-- What a path from a source leads to, in a table: the rows of the chain that the path passes, or
the column of its last member there. -/
def Leads (ctx : Context) (A : Aliases NavigationJoin) (c : Chain) (path : List String) :
    Resolved → Prop
  | .row row _ => ctx.RowOf A c row
  | .column ref dbType =>
    ∃ row last, ctx.RowOf A c row ∧ path.getLast? = some last ∧
      ctx.column row last = .ok (ref, dbType)

theorem passed_of_isNavigation (h : ctx.isNavigation row member = .ok false) :
    ctx.schema.passed row.ty [member] = some [] := by
  unfold isNavigation at h
  split at h
  · rename_i hty
    rw [hty, Schema.passed]
  · rename_i ty hty
    obtain ⟨entity, hentity, h⟩ := bind_eq_ok.1 h
    rw [hty, Schema.passed, Schema.get?_of_entity hentity, Option.bind_some]
    split
    · rename_i hmember
      simp [Entity.navigation?, hmember, Member.navigation?] at h
    · rfl

/-- **A path is walked along the chain that it passes.** The induction is on the members still to be
walked, `before` are those that led to the row. -/
theorem settles_walk (hpath : allows (c.source, before ++ path))
    (hbefore : before.length = c.names.length) (hrow : ∀ A, pre A → ctx.RowOf A c row) :
    Settles ctx allows pre (ctx.walk row path) fun A r =>
      ∃ names, ctx.schema.passed row.ty path = some names ∧
        ctx.Leads A ⟨c.source, c.names ++ names⟩ path r := by
  induction path generalizing pre c row before with
  | nil =>
    refine .pure fun A hA => ⟨[], ?_, by simpa [Leads] using hrow A hA⟩
    cases row.ty <;> rfl
  | cons member path ih =>
    cases path with
    | nil =>
      unfold walk
      refine .lift_bind fun isNavigation hnavigation => ?_
      split
      · refine settles_navigation_bind hpath hbefore hrow
          fun ty name nav fk target next hty hop _ => .pure fun A hA => ?_
        refine ⟨[name], ?_, hA⟩
        rw [hty, hop.passed, Schema.passed, Option.map_some]
      · rename_i hno
        obtain rfl : isNavigation = false := by simpa using hno
        refine .lift_bind fun found hcolumn => ?_
        obtain ⟨ref, dbType⟩ := found
        refine .pure fun A hA => ⟨[], passed_of_isNavigation hnavigation, ?_⟩
        exact ⟨row, member, by simpa using hrow A hA, rfl, hcolumn⟩
    | cons second path =>
      unfold walk
      refine settles_navigation_bind hpath hbefore hrow
        fun ty name nav fk target next hty hop hnext => ?_
      dsimp only
      split
      · exact .throw_bind
      · have hpath' : allows ((c.next name).source, (before ++ [member]) ++ second :: path) := by
          simpa [Chain.next] using hpath
        have hwalk : Settles ctx allows (fun A => ctx.RowOf A (c.next name) next)
            (ctx.walk next (second :: path)) _ :=
          ih hpath' (by simp [Chain.next, hbefore]) fun A hA => hA
        refine hwalk.imp fun A r _ hr => ?_
        obtain ⟨names, hpassed, hleads⟩ := hr
        refine ⟨name :: names, by rw [hty, hop.passed, ← hnext, hpassed, Option.map_some], ?_⟩
        have hchain : (⟨(c.next name).source, (c.next name).names ++ names⟩ : Chain) =
            ⟨c.source, c.names ++ name :: names⟩ := by simp [Chain.next]
        rw [hchain] at hleads
        cases r with
        | row => exact hleads
        | column =>
          obtain ⟨owner, last, howner, hlast, hcolumn⟩ := hleads
          exact ⟨owner, last, howner, by simpa using hlast, hcolumn⟩

/-- **A path leads along the chain that it passes.** -/
theorem settles_resolve (hpath : allows (id, path)) :
    Settles ctx allows pre (ctx.resolve id path) fun A r =>
      ∃ names, ctx.schema.passed (ctx.layer.sourceType? id) path = some names ∧
        ctx.Leads A ⟨id, names⟩ path r := by
  refine .bind settles_source fun row => ?_
  refine .assume (fun A hA => hA.2.of_source) fun ⟨derived, _, hrow⟩ => ?_
  have hpath' : allows ((⟨id, []⟩ : Chain).source, [] ++ path) := hpath
  have hwalk : Settles ctx allows (fun A => pre A ∧ ctx.RowOf A ⟨id, []⟩ row)
      (ctx.walk row path) _ :=
    settles_walk hpath' rfl fun A hA => hA.2
  rw [hrow] at hwalk ⊢
  exact hwalk

theorem leads_of_resolve {A : Aliases NavigationJoin} {r : Resolved}
    (hlayer : (Aliases.ofLayer ctx.layer).keys <+: A.keys) (h : ReadsIn A (ctx.resolve id path) r) :
    ∃ names, ctx.schema.passed (ctx.layer.sourceType? id) path = some names ∧
      ctx.Leads A ⟨id, names⟩ path r := by
  have hsettles : Settles ctx (fun _ => True) (fun _ => True) (ctx.resolve id path) _ :=
    settles_resolve trivial
  exact h.settled hlayer hsettles

end Context

/-! ## Columns that paths denote -/

/-- A column that a path leads to, or one of the rows it leads to: the column that tells whether
there is a row, or any of the entity. -/
def Resolved.Shows (ctx : Context) (ref : ColumnRef) : Resolved → Prop
  | .column found _ => ref = found
  | .row found _ => found.existence = some ref ∨
    ∃ ty entity, found.ty = some ty ∧ ctx.schema.entity ty = .ok entity ∧
      ∃ c ∈ entity.columns, ref = ⟨found.number, if found.derived then c.1 else c.2.column⟩

/-- A column that a path denotes in a table. -/
def Context.Denotes (ctx : Context) (A : Aliases NavigationJoin) (p : Nat × List String)
    (ref : ColumnRef) : Prop :=
  ∃ r, ReadsIn A (ctx.resolve p.1 p.2) r ∧ r.Shows ctx ref

/-- All columns are denoted by allowed paths. -/
def Context.Refers (ctx : Context) (allows : Nat × List String → Prop)
    (A : Aliases NavigationJoin) (refs : List ColumnRef) : Prop :=
  ∀ ref ∈ refs, ∃ p, allows p ∧ ctx.Denotes A p ref

section Refers

variable {ctx : Context} {allows : Nat × List String → Prop} {A : Aliases NavigationJoin}
  {pre : Aliases NavigationJoin → Prop}

@[simp] theorem Context.refers_nil : ctx.Refers allows A [] := by simp [Refers]

@[simp] theorem Context.refers_append {refs refs' : List ColumnRef} :
    ctx.Refers allows A (refs ++ refs') ↔ ctx.Refers allows A refs ∧ ctx.Refers allows A refs' := by
  simp only [Refers, List.mem_append, or_imp, forall_and]

@[simp] theorem Context.refers_flatMap {l : List α} {f : α → List ColumnRef} :
    ctx.Refers allows A (l.flatMap f) ↔ ∀ a ∈ l, ctx.Refers allows A (f a) := by
  simp only [Refers, List.mem_flatMap, forall_exists_index, and_imp]
  exact ⟨fun h a ha ref hr => h ref a ha hr, fun h ref a ha hr => h a ha ref hr⟩

/-! ## Expressions -/

namespace Context

theorem settles_memberValue {target : Expr} {name : String}
    (h : ∀ p, (Expr.member target name).memberPath? = some p → allows p) :
    Settles ctx allows pre (ctx.memberValue target name)
      fun A t => ctx.Refers allows A t.term.refs := by
  unfold memberValue
  split
  · exact .throw
  · rename_i id path hpath
    have hallowed := h (id, path) hpath
    refine .bind (settles_resolve hallowed).self fun resolved => ?_
    split
    · rename_i ref dbType
      refine .pure fun A ⟨_, hreads, _⟩ found hfound => ?_
      rw [Term.refs, List.mem_singleton] at hfound
      exact ⟨(id, path), hallowed, _, hreads, hfound⟩
    · exact .throw

end Context

namespace SelectList

@[simp] theorem refs_push (list : SelectList) (t : Term) (preferred : String) :
    (list.push t preferred).refs = list.refs ++ t.refs := by
  simp [refs, push]

theorem flatMap_terms {list : SelectList} : list.terms.flatMap Term.refs = list.refs :=
  List.flatMap_map ..

end SelectList

namespace Context

variable {out : SelectList}

theorem mem_refs_of_rowColumns {row : Row} (many : Bool) {list : SelectList} {ref : ColumnRef}
    (h : ctx.rowColumns row out = .ok list) (href : ref ∈ list.refs) :
    ref ∈ out.refs ∨ (Resolved.row row many).Shows ctx ref := by
  unfold rowColumns at h
  split at h
  · cases h
  · rename_i ty hty
    obtain ⟨entity, hentity, hlist⟩ := bind_eq_ok.1 h
    cases hlist
    have hcolumns : ∀ (columns : List (String × Column)) (out : SelectList),
        ref ∈ (columns.foldl (fun out c => out.push
          (.column ⟨row.number, if row.derived then c.1 else c.2.column⟩) c.1) out).refs →
        ref ∈ out.refs ∨ ∃ c ∈ columns,
          ref = ⟨row.number, if row.derived then c.1 else c.2.column⟩ := by
      intro columns
      induction columns with
      | nil => exact fun out h => .inl h
      | cons column columns ih =>
        intro out h
        rcases ih _ h with h | ⟨c, hc, rfl⟩
        · simp only [SelectList.refs_push, Term.refs, List.mem_append, List.mem_singleton] at h
          exact h.imp_right fun h => ⟨column, by simp, h⟩
        · exact .inr ⟨c, by simp [hc], rfl⟩
    refine (hcolumns entity.columns out href).imp_right fun h => ?_
    obtain ⟨c, hc, hr⟩ := h
    exact .inr ⟨ty, entity, hty, hentity, c, hc, hr⟩

theorem settles_whole (h : allows (id, [])) (hout : ∀ A, pre A → ctx.Refers allows A out.refs) :
    Settles ctx allows pre (do ctx.rowColumns (← ctx.source id) out)
      fun A list => ctx.Refers allows A list.refs := by
  refine .bind settles_source.self fun row => .lift fun list hlist A hA ref href => ?_
  obtain ⟨hA, ⟨constants, constants', hrun⟩, -⟩ := hA
  have hreads : ReadsIn A (ctx.resolve id []) (.row row false) :=
    ⟨constants, constants', bind_eq_ok.2 ⟨(row, ⟨A, constants'⟩), hrun, rfl⟩⟩
  rcases mem_refs_of_rowColumns false hlist href with href | hshows
  · exact hout A hA ref href
  · exact ⟨(id, []), h, _, hreads, hshows⟩

theorem settles_entityColumns {e : Expr} {path : String}
    (h : ∀ p, e.memberPath? = some p → allows p)
    (hout : ∀ A, pre A → ctx.Refers allows A out.refs) :
    Settles ctx allows pre (ctx.entityColumns e path out)
      fun A list => ctx.Refers allows A list.refs := by
  unfold entityColumns
  split
  · exact .throw
  · rename_i id hops hpath
    have hallowed := h (id, hops) hpath
    refine .bind (settles_resolve hallowed).self fun resolved => ?_
    split
    · exact .throw
    · rename_i row many
      refine .lift_bind fun list hlist => .pure fun A ⟨hA, hreads, _⟩ ref href => ?_
      have hshown (hshows : (Resolved.row row many).Shows ctx ref) :
          ∃ p, allows p ∧ ctx.Denotes A p ref := ⟨(id, hops), hallowed, _, hreads, hshows⟩
      rcases mem_refs_of_rowColumns many hlist href with href | hshows
      · -- ahead of the columns of the row stands the one that tells whether there is a row
        split at href
        · rename_i existence hexistence
          simp only [SelectList.refs_push, existenceTerm, Term.refs, List.mem_append,
            List.mem_singleton, List.not_mem_nil, or_false, or_self] at href
          rcases href with href | rfl
          · exact hout A hA ref href
          · exact hshown (.inl hexistence)
        · exact hout A hA ref href
      · exact hshown hshows

end Context

theorem Term.Wraps.refs_eq {t t' : Term} (h : Wraps t t') : t'.refs = t.refs := by
  cases h <;> simp

theorem Term.Formed.mem_refs {ts : List Term} {t : Term} (h : Formed ts t) {ref : ColumnRef}
    (href : ref ∈ t.refs) : ref ∈ ts.flatMap Term.refs := by
  induction h with
  | trans _ _ ihu iht => exact ihu (by simpa using iht href)
  | @concat ts ts' hts =>
    simp only [Term.refs, refsList_eq, List.mem_flatMap] at href ⊢
    obtain ⟨t', ht', href⟩ := href
    obtain ⟨t, ht, hwraps⟩ := exists_of_forall₂ hts t' ht'
    exact ⟨t, ht, hwraps.refs_eq ▸ href⟩
  | @pattern t t' before behind ht =>
    cases before <;> cases behind <;> simpa [openEnd, ht.refs_eq] using href
  | isNull ht | isNotNull ht | binaryNull ht | like ht | substringFrom ht =>
    simpa [ht.refs_eq] using href
  | binary hl hr => simpa [hl.refs_eq, hr.refs_eq] using href
  | same | tuple | wrap | equalsBit | ofTest | not | negate | isNullOrEmpty | coalesce | caseWhen
  | call | length | datePart | dateOnly | trim | stringCast | round | substringAt | isIn =>
    simpa [or_assoc] using href
  | null | truth | now | rowCount => simp at href

/-- **Composed terms refer to the columns that their paths denote.** -/
theorem Composes.settles {terms : List Term} {x : Reading α} {post : α → List Term}
    (h : Composes ctx allows terms x post)
    (hpre : ∀ A, pre A → ctx.Refers allows A (terms.flatMap Term.refs)) :
    Settles ctx allows pre x fun A a => ctx.Refers allows A ((post a).flatMap Term.refs) := by
  induction h generalizing pre with
  | done h => exact .pure fun A hA => h ▸ hpre A hA
  | form h hterms hpost =>
    refine .pure fun A hA => ?_
    have hterms := hterms ▸ hpre A hA
    rw [List.flatMap_append, Context.refers_append] at hterms
    rw [hpost, List.flatMap_append, Context.refers_append]
    exact ⟨hterms.1, fun ref href => hterms.2 ref (h.mem_refs (by simpa using href))⟩
  | throw => exact .throw
  | bind _ _ ihx ihf => exact .bind (ihx hpre) fun a => ihf a fun A hA => hA.2
  | lift_bind _ _ ih => exact .lift_bind fun a ha => ih a ha hpre
  | next =>
    intro s t s' _ hstart hrun
    cases hrun
    exact ⟨.refl, fun A hA => ⟨rfl, by simpa using hpre A (hstart A hA)⟩⟩
  | member h =>
    refine (Context.settles_memberValue h).imp fun A t hA ht => ?_
    rw [List.flatMap_append, Context.refers_append]
    exact ⟨hpre A hA, by simpa using ht⟩
  | whole h =>
    simp only [List.flatMap_append, Context.refers_append, SelectList.flatMap_terms] at hpre ⊢
    exact (Context.settles_whole h fun A hA => (hpre A hA).2).imp
      fun A list hA hlist => ⟨(hpre A hA).1, hlist⟩
  | entity h =>
    simp only [List.flatMap_append, Context.refers_append, SelectList.flatMap_terms] at hpre ⊢
    exact (Context.settles_entityColumns h fun A hA => (hpre A hA).2).imp
      fun A list hA hlist => ⟨(hpre A hA).1, hlist⟩

theorem Composes.settled {x : Reading α} {terms : α → List Term}
    (h : Composes ctx allows [] x fun a => [] ++ terms a) :
    Settles ctx allows pre x fun A a => ctx.Refers allows A ((terms a).flatMap Term.refs) :=
  h.settles fun A _ => by simp

namespace Context

theorem settles_aggregate {func : AggregateFunc} {selector : Option Expr}
    (h : ∀ p ∈ Expr.pathsOption selector, allows p) :
    Settles ctx allows pre (do
      let selector ← ctx.readOption selector
      Typed.aggregate func selector) fun A t => ctx.Refers allows A t.term.refs := by
  have hcomposed : Composes ctx allows [] (do
      let selector ← ctx.readOption selector
      Typed.aggregate func selector) fun t => [] ++ [t.term] :=
    .bind (composes_readOption h) fun _ =>
      .lift (fun _ => Typed.spares_aggregate) fun _ => Term.Formed.aggregate
  simpa using hcomposed.settles fun A _ => by simp

/-- **An expression refers to the columns that its paths denote**, read as a value or as a test. -/
theorem settles_value {e : Expr} (h : ∀ p ∈ e.paths, allows p) :
    Settles ctx allows pre (ctx.value e) fun A t => ctx.Refers allows A t.refs := by
  simpa using (composes_value h : Composes ctx allows [] _ _).settles fun A _ => by simp

theorem settles_test {e : Expr} (h : ∀ p ∈ e.paths, allows p) :
    Settles ctx allows pre (ctx.test e) fun A t => ctx.Refers allows A t.refs := by
  simpa using (composes_test h : Composes ctx allows [] _ _).settles fun A _ => by simp

end Context

end Refers

end Sql

end QueryCompiler

import Mathlib.Data.List.Nodup
import Mathlib.Data.List.Perm.Subperm
import QueryCompiler.Proofs.Plan.Exports
/-!
# Columns under distinct names

The columns of an inner layer are collected one by one, each under a name that no other has. So
what is read by the name of a column is that column, however many follow it. `Collects` says so of a
step: columns are added behind those that are there, their names stay distinct, and what is known of
the result holds whatever is added later.

Paths of members are restated without a change of shape (`collects_rebase`), and what is kept in the
inner layer is read by the name of a column with its value (`collects_keep`).
-/

namespace QueryCompiler

open Compiled (bind_eq_ok)

variable {e : Expr} {name : String}

/-! ## Fresh names -/

namespace Text

theorem candidate_injective {preferred : String} {m n : Nat}
    (h : candidate preferred m = candidate preferred n) : m = n := by
  -- a candidate is the name with the digits of a number behind it, or with nothing
  have hdigits : ∀ k, candidate preferred k =
      preferred ++ String.ofList (if k = 0 then [] else Nat.toDigits 10 k) := by
    intro k
    cases k with
    | zero => simp [candidate]
    | succ k => rw [candidate, Nat.toString_eq_ofList_toDigits, if_neg (Nat.succ_ne_zero k)]
  rw [hdigits, hdigits, String.append_right_inj, String.ofList_inj] at h
  have hvalue : ∀ k, Nat.ofDigitChars 10 (if k = 0 then [] else Nat.toDigits 10 k) 0 = k := by
    intro k
    split
    · subst_vars
      rfl
    · exact Nat.ofDigitChars_ten_toDigits
  rw [← hvalue m, h, hvalue n]

/-- **A fresh name is not taken.** There are more candidates than names taken. -/
theorem freshName_notMem (taken : List String) (preferred : String) :
    freshName taken preferred ∉ taken := by
  unfold freshName
  cases hfind : ((List.range (taken.length + 1)).map (candidate preferred)).find?
      (!taken.contains ·) with
  | some name => simpa using List.find?_some hfind
  | none =>
    exfalso
    have hnodup : ((List.range (taken.length + 1)).map (candidate preferred)).Nodup :=
      List.Nodup.map (fun _ _ => candidate_injective) List.nodup_range
    have hsubset : (List.range (taken.length + 1)).map (candidate preferred) ⊆ taken := by
      intro name hname
      simpa using List.find?_eq_none.1 hfind name hname
    have hlength := (List.subperm_of_subset hnodup hsubset).length_le
    rw [List.length_map, List.length_range] at hlength
    omega

end Text

/-! ## Collecting -/

/-- Columns under distinct names. -/
def Binding.Distinct (columns : List Binding) : Prop := (columns.map (·.member)).Nodup

theorem Binding.Distinct.find? {columns : List Binding} (h : Distinct columns) {c : Binding}
    (hc : c ∈ columns) : columns.find? (·.member == c.member) = some c := by
  induction columns with
  | nil => cases hc
  | cons b bs ih =>
    obtain ⟨hb, hbs⟩ := List.nodup_cons.1 h
    rcases List.mem_cons.1 hc with rfl | hc
    · simp
    · have hne : b.member ≠ c.member := by
        intro heq
        exact hb (List.mem_map.2 ⟨c, hc, heq.symm⟩)
      rw [List.find?_cons_of_neg (by simpa using hne)]
      exact ih hbs hc

theorem Binding.Distinct.concat {columns : List Binding} (h : Distinct columns) {c : Binding}
    (hc : c.member ∉ columns.map (·.member)) : Distinct (columns ++ [c]) := by
  unfold Distinct
  rw [List.map_append, List.nodup_append]
  refine ⟨h, by simp, ?_⟩
  intro a ha b hb
  rw [List.map_singleton, List.mem_singleton] at hb
  rintro rfl
  exact hc (hb ▸ ha)

/-- **A step collects columns**: it adds some behind those that are there, under distinct names, and
its result is as `post` says of all columns that are collected in the end. -/
def Collects {α : Type} (x : Exporting α) (post : List Binding → α → Prop) : Prop :=
  ∀ s a s', Binding.Distinct s → x.run s = .ok (a, s') →
    s <+: s' ∧ Binding.Distinct s' ∧ ∀ columns, s' <+: columns → post columns a

namespace Collects

variable {α β : Type} {x : Exporting α} {post post' : List Binding → α → Prop}

theorem pure {a : α} (h : ∀ columns, post columns a) : Collects (Pure.pure a) post := by
  intro s _ _ hs hrun
  cases hrun
  exact ⟨List.prefix_rfl, hs, fun columns _ => h columns⟩

theorem throw {e : CompileError} : Collects (MonadExcept.throw e) post := by
  intro s _ _ _ hrun
  cases hrun

theorem bind {f : α → Exporting β} {result : List Binding → β → Prop} (hx : Collects x post)
    (hf : ∀ a, Collects (f a) fun columns b => post columns a → result columns b) :
    Collects (x >>= f) result := by
  intro s b s' hs hrun
  obtain ⟨⟨a, s₁⟩, hx₁, hf₁⟩ := bind_eq_ok.1 hrun
  obtain ⟨hgrows, hdistinct, hpost⟩ := hx s a s₁ hs hx₁
  obtain ⟨hgrows', hdistinct', hresult⟩ := hf a s₁ b s' hdistinct hf₁
  refine ⟨hgrows.trans hgrows', hdistinct', fun columns hcolumns => ?_⟩
  exact hresult columns hcolumns (hpost columns (hgrows'.trans hcolumns))

theorem lift_bind {x : Compiled β} {f : β → Exporting α}
    (h : ∀ b, x = .ok b → Collects (f b) post) : Collects (liftM x >>= f) post := by
  intro s a s' hs hrun
  obtain ⟨⟨b, s₁⟩, hlift, hf⟩ := bind_eq_ok.1 hrun
  obtain ⟨_, hx, hpure⟩ := bind_eq_ok.1 hlift
  cases hpure
  exact h b hx s a s' hs hf

theorem get_bind {f : List Binding → Exporting α}
    (h : ∀ s a s', Binding.Distinct s → (f s).run s = .ok (a, s') →
      s <+: s' ∧ Binding.Distinct s' ∧ ∀ columns, s' <+: columns → post columns a) :
    Collects (get >>= f) post :=
  fun s a s' hs hrun => h s a s' hs hrun

theorem imp (hx : Collects x post) (h : ∀ columns a, post columns a → post' columns a) :
    Collects x post' := by
  intro s a s' hs hrun
  obtain ⟨hgrows, hdistinct, hpost⟩ := hx s a s' hs hrun
  exact ⟨hgrows, hdistinct, fun columns hcolumns => h columns a (hpost columns hcolumns)⟩

theorem seq {f : α → Exporting β} {result : List Binding → β → Prop} (hx : Collects x post)
    (hf : ∀ a, Collects (f a) result) : Collects (x >>= f) result :=
  bind hx fun a => (hf a).imp fun _ _ h _ => h

theorem forM {f : β → Exporting PUnit} {l : List β} {P : List Binding → β → Prop}
    (h : ∀ b ∈ l, Collects (f b) fun columns _ => P columns b) :
    Collects (l.forM f) fun columns _ => ∀ b ∈ l, P columns b := by
  induction l with
  | nil => exact pure fun _ => by simp
  | cons b l ih =>
    change Collects (f b >>= fun _ => l.forM f) _
    refine bind (h b (by simp)) fun _ => (ih fun b hb => h b (by simp [hb])).imp ?_
    exact fun _ _ hl hb => List.forall_mem_cons.2 ⟨hb, hl⟩

theorem mapM {f : β → Exporting α} {l : List β}
    (h : ∀ b ∈ l, Collects (f b) fun _ _ => True) : Collects (l.mapM f) fun _ _ => True := by
  induction l with
  | nil => exact pure fun _ => trivial
  | cons b l ih =>
    rw [List.mapM_cons]
    refine seq (h b (by simp)) fun _ => seq (ih fun b hb => h b (by simp [hb])) fun _ => ?_
    exact pure fun _ => trivial

theorem discard (hx : Collects x post) : Collects (Functor.discard x) fun _ _ => True :=
  seq hx fun _ => pure fun _ => trivial

end Collects

/-! ## Shapes along a path -/

theorem Expr.eq_follow_of_memberPath? : ∀ {e : Expr} {id : Nat} {path : List String},
    e.memberPath? = some (id, path) → e = (source id).follow path
  | .source _, _, _, h => by
    cases h
    rfl
  | .member target name, _, _, h => by
    obtain ⟨⟨id, path⟩, hpath, heq⟩ := Option.map_eq_some_iff.1 h
    cases heq
    rw [eq_follow_of_memberPath? hpath, follow, follow, List.foldl_append]
    rfl

namespace Layer

variable {schema : Schema} {l q : Layer}

theorem shape_member_congr {e' : Expr} (h : q.shape schema e' = l.shape schema e)
    (he : e.isRoot = false) (he' : e'.isRoot = false) (name : String) :
    q.shape schema (.member e' name) = l.shape schema (.member e name) := by
  simp only [shape, h, he, he', Bool.and_false, Bool.false_eq_true, if_false]

/-- **Equal shapes stay equal along a path**, away from the root. -/
theorem shape_follow_congr {e' : Expr} (h : q.shape schema e' = l.shape schema e)
    (he : e.isRoot = false) (he' : e'.isRoot = false) (path : List String) :
    q.shape schema (e'.follow path) = l.shape schema (e.follow path) := by
  induction path generalizing e e' with
  | nil => exact h
  | cons hop path ih => exact ih (shape_member_congr h he he' hop) rfl rfl

theorem entity_of_shape_member {shape : Shape} (h : l.shape schema (.member e name) = .ok shape)
    (hscalar : shape ≠ .scalar) :
    ∃ ty entity, l.shape schema e = .ok (.entity ty) ∧ schema.entity ty = .ok entity := by
  rw [Layer.shape] at h
  obtain ⟨target, htarget, h⟩ := bind_eq_ok.1 h
  cases target with
  | entity ty =>
    obtain ⟨entity, hentity, -⟩ := bind_eq_ok.1 h
    exact ⟨ty, entity, htarget, hentity⟩
  | collection ty => cases h
  | scalar | object | row => cases h; exact absurd rfl hscalar

theorem entity_of_shape_follow {rest : List String} {shape : Shape}
    (h : l.shape schema ((Expr.member e name).follow rest) = .ok shape)
    (hscalar : shape ≠ .scalar) :
    ∃ ty entity, l.shape schema e = .ok (.entity ty) ∧ schema.entity ty = .ok entity := by
  induction rest generalizing e name with
  | nil => exact entity_of_shape_member h hscalar
  | cons hop rest ih =>
    obtain ⟨_, _, hmember, -⟩ := ih h
    exact entity_of_shape_member hmember (by simp)

end Layer

/-! ## Columns that are asked for -/

/-- A member of the root, exported under its own name. -/
def Binding.ofRoot (name : String) : Binding := ⟨name, .member (.source 0) name⟩

theorem Expr.eq_of_same_member (h : (e == .member (.source 0) name) = true) :
    e = .member (.source 0) name := by
  change e.same _ = true at h
  cases e with
  | member target member =>
    rw [Expr.same, Bool.and_eq_true, beq_iff_eq] at h
    cases target with
    | source id =>
      rw [Expr.same, beq_iff_eq] at h
      rw [h.1, h.2]
    | _ => simp [Expr.same] at h
  | _ => simp [Expr.same] at h

namespace Boundary

variable {b : Boundary}

/-- What the columns have for a path from the root: all columns of a row for the row itself, else the
column that the path starts with, or the keys of the navigation that it starts with. -/
inductive Exports (b : Boundary) (columns : List Binding) : List String → Prop where
  | row {ty : String} {entity : Entity} (hroot : b.root = some ty)
    (hentity : b.schema.entity ty = .ok entity)
    (h : ∀ c ∈ entity.columns, .ofRoot c.1 ∈ columns) : Exports b columns []
  | column {name : String} {rest : List String} (h : .ofRoot name ∈ columns) :
    Exports b columns (name :: rest)
  | navigation {ty name : String} {rest : List String} {entity : Entity} {nav : Navigation}
    {fk : ForeignKey} (hroot : b.root = some ty) (hentity : b.schema.entity ty = .ok entity)
    (hnav : entity.member? name = some ⟨name, .navigation nav⟩) (hfk : nav.foreignKey = some fk)
    (h : ∀ key ∈ fk.ownerKeys, ∃ m, entity.member? key = some m ∧ .ofRoot m.name ∈ columns) :
    Exports b columns (name :: rest)

/-- **A member is asked for by name**: it is there, or the name is free. -/
theorem collects_requireMember : Collects (b.requireMember name) fun columns _ =>
    b.whole = false → .ofRoot name ∈ columns := by
  unfold requireMember require
  split
  · rename_i hwhole
    exact .pure fun _ h => by simp [hwhole] at h
  · refine .get_bind fun s _ s' hs hrun => ?_
    split at hrun
    · rename_i c hc
      split at hrun
      · rename_i hsame
        cases hrun
        obtain ⟨member, value⟩ := c
        have hname : member = name := by simpa using List.find?_some hc
        have hvalue : value = .member (.source 0) name := Expr.eq_of_same_member hsame
        subst hname hvalue
        exact ⟨List.prefix_rfl, hs, fun _ hs _ => hs.subset (List.mem_of_find?_eq_some hc)⟩
      · cases hrun
    · rename_i hnone
      cases hrun
      refine ⟨List.prefix_append _ _, hs.concat fun hname => ?_, fun _ hs _ => hs.subset ?_⟩
      · obtain ⟨c, hc, hcname⟩ := List.mem_map.1 hname
        have hfalse := List.find?_eq_none.1 hnone c hc
        simp [hcname] at hfalse
      · exact List.mem_append_right _ (List.mem_singleton.2 rfl)

theorem collects_requireAll : Collects b.requireAll fun columns _ =>
    b.whole = false → b.Exports columns [] := by
  unfold requireAll
  split
  · exact .throw
  · refine .lift_bind fun entity hentity => ?_
    refine (Collects.forM fun _ _ => collects_requireMember).imp fun _ _ h hb => ?_
    exact .row ‹_› hentity fun c hc => h c hc hb

theorem collects_requireKeys {entity : Entity} {ty : String} {nav : Navigation} :
    Collects (b.requireKeys entity ty name nav) fun columns _ => b.whole = false →
      ∃ fk, nav.foreignKey = some fk ∧ ∀ key ∈ fk.ownerKeys,
        ∃ m, entity.member? key = some m ∧ .ofRoot m.name ∈ columns := by
  unfold requireKeys
  split
  · exact .throw
  · rename_i fk hfk
    refine Collects.imp (.forM (P := fun columns key => b.whole = false →
      ∃ m, entity.member? key = some m ∧ .ofRoot m.name ∈ columns) fun key _ => ?_)
      fun _ _ h hb => ⟨fk, hfk, fun key hkey => h key hkey hb⟩
    split
    · exact collects_requireMember.imp fun _ _ h hb => ⟨_, ‹_›, h hb⟩
    · exact .throw

/-! ## Expressions that are restated -/

variable {schema : Schema} {l : Layer}

/-- **A path from the root is restated as one with the same shape**, above whatever rows the layer
reads, and what it starts with is exported. -/
theorem collects_rebasePath {whole : Bool} (path : List String) :
    Collects (rebasePath ⟨schema, l.source, whole⟩ path) fun columns e =>
      (∀ q : Layer, q.source = l.source →
        q.shape schema e = l.shape schema ((Expr.source 0).follow path)) ∧
      (whole = false → ∃ path, e.memberPath? = some (0, path) ∧
        Exports ⟨schema, l.source, whole⟩ columns path) := by
  cases path with
  | nil =>
    refine .bind collects_requireAll fun _ => .pure fun _ hall => ⟨fun q hq => ?_, fun hb => ?_⟩
    · change q.shape schema (.source 0) = l.shape schema (.source 0)
      rw [Layer.shape_root, Layer.shape_root, hq]
    · exact ⟨[], rfl, hall hb⟩
  | cons first rest =>
    have hpath (name : String) := Expr.memberPath?_follow (e := .member (.source 0) name) rest rfl
    simp only [rebasePath]
    split
    · rename_i hsource
      refine .bind collects_requireMember fun _ => .pure fun _ hcolumn => ⟨fun q hq => ?_, fun hb => ?_⟩
      · refine Layer.shape_follow_congr ?_ rfl rfl rest
        rw [Layer.shape_anonymousMember hsource, Layer.shape_anonymousMember (hq.trans hsource)]
      · exact ⟨_, hpath first, .column (hcolumn hb)⟩
    · rename_i ty hsource
      refine .lift_bind fun entity hentity => ?_
      -- the member is found by its own name as it was by the first one
      have hfound {name : String} {kind : MemberKind}
          (hm : entity.member? first = some ⟨name, kind⟩) (q : Layer) (hq : q.source = l.source) :
          q.shape schema ((Expr.member (.source 0) name).follow rest) =
            l.shape schema ((Expr.member (.source 0) first).follow rest) := by
        refine Layer.shape_follow_congr ?_ rfl rfl rest
        rw [Layer.shape_rootMember hsource hentity hm,
          Layer.shape_rootMember (hq.trans hsource) hentity (Entity.member?_name hm)]
      split
      · exact .throw
      · rename_i hm
        refine .bind collects_requireMember fun _ => .pure fun _ hcolumn => ⟨hfound hm, fun hb => ?_⟩
        exact ⟨_, hpath _, .column (hcolumn hb)⟩
      · rename_i hm
        refine .bind collects_requireKeys fun _ => .pure fun _ hkeys => ⟨hfound hm, fun hb => ?_⟩
        obtain ⟨fk, hfk, hkeys⟩ := hkeys hb
        exact ⟨_, hpath _, .navigation hsource hentity (Entity.member?_name hm) hfk hkeys⟩

/-- **A path is restated as one with the same shape, if it starts from the root.** -/
theorem collects_rebase {whole : Bool} {id : Nat} {path : List String}
    (hpath : e.memberPath? = some (id, path)) :
    Collects (rebase ⟨schema, l.source, whole⟩ e) fun columns e' => id = 0 ∧
      (∀ q : Layer, q.source = l.source → q.shape schema e' = l.shape schema e) ∧
      (whole = false → ∃ path, e'.memberPath? = some (0, path) ∧
        Exports ⟨schema, l.source, whole⟩ columns path) := by
  have hfrom (shown : Expr) : Collects (rebaseFrom ⟨schema, l.source, whole⟩ shown id path)
      fun columns e' => id = 0 ∧
        (∀ q : Layer, q.source = l.source → q.shape schema e' = l.shape schema e) ∧
        (whole = false → ∃ path, e'.memberPath? = some (0, path) ∧
          Exports ⟨schema, l.source, whole⟩ columns path) := by
    unfold rebaseFrom
    split
    · rename_i hid
      subst hid
      rw [Expr.eq_follow_of_memberPath? hpath]
      exact (collects_rebasePath path).imp fun _ _ h => ⟨rfl, h⟩
    · exact .throw
  cases e with
  | source =>
    cases hpath
    exact hfrom _
  | member target name =>
    rw [rebase, hpath]
    exact hfrom _
  | _ => cases hpath

/-- **What is kept is never refused**: a column with the same value is shared, or one is added. -/
theorem run_keep (hb : b.whole = false) (preferred : String) (s : List Binding) :
    (∃ c ∈ s, c.value == e ∧
      (b.keep preferred e).run s = .ok (.member (.source 0) c.member, s)) ∨
    ∃ name ∉ s.map (·.member),
      (b.keep preferred e).run s = .ok (.member (.source 0) name, s ++ [⟨name, e⟩]) := by
  unfold keep
  rw [hb, if_neg Bool.false_ne_true, StateT.run_bind, StateT.run_get, pure_bind]
  cases hc : s.find? (·.value == e) with
  | some c =>
    have hsame := List.find?_some hc
    exact .inl ⟨c, List.mem_of_find?_eq_some hc, hsame, rfl⟩
  | none => exact .inr ⟨_, Text.freshName_notMem _ preferred, rfl⟩

/-- **What is kept in the inner layer is read by the name of a column that has its value.** -/
theorem collects_keep (hb : b.whole = false) {preferred : String} :
    Collects (b.keep preferred e) fun columns e' =>
      ∃ c ∈ columns, e' = .member (.source 0) c.member ∧ (c.value = e ∨ c.value == e) := by
  intro s _ s' hs hrun
  obtain ⟨c, hc, hsame, hkeep⟩ | ⟨name, hname, hkeep⟩ := b.run_keep (e := e) hb preferred s <;>
    cases hkeep.symm.trans hrun
  · exact ⟨List.prefix_rfl, hs, fun _ hs => ⟨c, hs.subset hc, rfl, .inr hsame⟩⟩
  · refine ⟨List.prefix_append _ _, hs.concat hname, fun _ hs => ⟨⟨name, e⟩, ?_, rfl, .inl rfl⟩⟩
    exact hs.subset (List.mem_append_right _ (List.mem_singleton.2 rfl))

end Boundary

end QueryCompiler

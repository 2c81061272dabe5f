import QueryCompiler.Plan.Split
import QueryCompiler.Proofs.Expr.Sources
/-!
# What an inner layer exports

The columns of an inner layer are collected while the projection above it is restated: whole rows
ask for every column, navigations for the keys they start from, and scalars are kept as they are.
Each way of adding a column adds a scalar or an untyped row, never a navigation (`Layer.Flat`),
provided that two things hold of the schema: a foreign key starts from columns, and no navigation
hides a column behind its name.
-/

namespace QueryCompiler

/-! ## Schemas -/

/-- Every foreign key starts from columns of the entity that owns it. -/
def Schema.KeysAreColumns (schema : Schema) : Prop :=
  ∀ entry ∈ schema.entities, ∀ m ∈ entry.2.members, ∀ nav ∈ m.navigation?,
    ∀ fk ∈ nav.foreignKey, ∀ key ∈ fk.ownerKeys,
      ((entry.2.member? key).bind Member.column?).isSome

/-- No navigation is declared ahead of a column with the same name, so that the name of a column
finds a column. -/
def Schema.ColumnsInSight (schema : Schema) : Prop :=
  ∀ entry ∈ schema.entities, ∀ column ∈ entry.2.columns,
    ((entry.2.member? column.1).bind Member.column?).isSome

instance (schema : Schema) : Decidable schema.KeysAreColumns :=
  inferInstanceAs (Decidable (∀ _ ∈ _, ∀ _ ∈ _, ∀ _ ∈ _, ∀ _ ∈ _, ∀ _ ∈ _, _))

instance (schema : Schema) : Decidable schema.ColumnsInSight :=
  inferInstanceAs (Decidable (∀ _ ∈ _, ∀ _ ∈ _, _))

theorem Schema.mem_of_entity {schema : Schema} {ty : String} {entity : Entity}
    (h : schema.entity ty = .ok entity) : (ty, entity) ∈ schema.entities := by
  unfold Schema.entity at h
  split at h
  · rename_i hget
    cases h
    obtain ⟨before, behind, hentities, -⟩ := List.lookup_eq_some_iff.1 hget
    simp [hentities]
  · cases h

namespace Entity

variable {e : Entity} {name : String} {m : Member}

theorem mem_of_member? (h : e.member? name = some m) : m ∈ e.members := by
  rcases Option.or_eq_some_iff.1 h with h | ⟨-, h⟩
  · exact List.mem_of_find?_eq_some h
  · exact List.mem_of_find?_eq_some h

/-- **A member that a name finds is found by its own name.** -/
theorem member?_name (h : e.member? name = some m) : e.member? m.name = some m := by
  rcases Option.or_eq_some_iff.1 h with h | ⟨hnone, h⟩
  · have hm : m.name = name := by simpa using List.find?_some h
    exact Option.or_eq_some_iff.2 (.inl (hm ▸ h))
  · -- a member with the name of `m` in front of `m` would have been found in its place
    refine Option.or_eq_some_iff.2 (.inl ?_)
    obtain ⟨hm, before, behind, hmembers, hbefore⟩ := List.find?_eq_some_iff_append.1 h
    refine List.find?_eq_some_iff_append.2 ⟨by simp, before, behind, hmembers, fun x hx => ?_⟩
    have hx' := hbefore x hx
    simp only [Bool.not_eq_true', beq_eq_false_iff_ne] at hx' ⊢
    intro heq
    rw [heq, hm] at hx'
    cases hx'

end Entity

/-! ## Shapes -/

theorem Expr.memberPath?_follow {id : Nat} {passed : List String} :
    ∀ {e : Expr} (path : List String), e.memberPath? = some (id, passed) →
      (e.follow path).memberPath? = some (id, passed ++ path)
  | e, [], h => by simpa [Expr.follow] using h
  | e, hop :: path, h => by
    have hhop : (e.member hop).memberPath? = some (id, passed ++ [hop]) := by
      rw [Expr.memberPath?, h]
      rfl
    simpa [Expr.follow] using memberPath?_follow path hhop

namespace Layer

variable {schema : Schema} {l l' : Layer}

theorem sourceType?_congr (hsource : l.source = l'.source) (hjoins : l.joins = l'.joins) (id : Nat) :
    l.sourceType? id = l'.sourceType? id := by
  simp only [sourceType?, join?, hsource, hjoins]

/-- The shape of an expression is a matter of the rows that a layer reads and joins. -/
theorem shape_congr (htypes : ∀ id, l.sourceType? id = l'.sourceType? id)
    (hderived : l.isDerived = l'.isDerived) (e : Expr) : l.shape schema e = l'.shape schema e := by
  induction e using Expr.induction_parts with
  | h e ih =>
    cases e with
    | source id => rw [shape, shape, htypes]
    | member target name => rw [shape, shape, ih target (by simp), hderived]
    | _ => rfl

theorem shape_root : l.shape schema (.source 0) = .ok (l.source.elim .row .entity) := by
  simp only [shape, sourceType?, if_true]
  cases l.source <;> rfl

theorem shape_rootMember {ty name first : String} {entity : Entity} {kind : MemberKind}
    (hsource : l.source = some ty) (hentity : schema.entity ty = .ok entity)
    (hm : entity.member? first = some ⟨name, kind⟩) :
    l.shape schema (.member (.source 0) first) = .ok (.ofMember kind) := by
  have hroot : l.shape schema (.source 0) = .ok (.entity ty) := by rw [shape_root, hsource]; rfl
  exact Compiled.bind_eq_ok.2 ⟨_, hroot, Compiled.bind_eq_ok.2 ⟨entity, hentity, by rw [hm]⟩⟩

theorem shape_rootColumn {ty name : String} {entity : Entity} (hsource : l.source = some ty)
    (hentity : schema.entity ty = .ok entity)
    (hcolumn : ((entity.member? name).bind Member.column?).isSome) :
    l.shape schema (.member (.source 0) name) = .ok .scalar := by
  obtain ⟨c, hc⟩ := Option.isSome_iff_exists.1 hcolumn
  obtain ⟨⟨n, kind⟩, hm, hc⟩ := Option.bind_eq_some_iff.1 hc
  cases kind with
  | column c => exact shape_rootMember hsource hentity hm
  | navigation nav => cases hc

theorem shape_anonymousMember {name : String} (hsource : l.source = none) :
    l.shape schema (.member (.source 0) name) = .ok .scalar := by
  have hroot : l.shape schema (.source 0) = .ok .row := by rw [shape_root, hsource]; rfl
  exact Compiled.bind_eq_ok.2 ⟨_, hroot, rfl⟩

theorem bindings?_of_shape {e : Expr} (h : l.shape schema e = .ok .object) :
    e.bindings?.isSome := by
  cases e with
  | object ty bindings => rfl
  | source id =>
    rw [shape] at h
    split at h <;> cases h
  | member target name =>
    obtain ⟨inner, -, h⟩ := Compiled.bind_eq_ok.1 h
    cases inner with
    | entity ty =>
      obtain ⟨entity, -, h⟩ := Compiled.bind_eq_ok.1 h
      split at h
      · rename_i m _
        obtain ⟨n, kind⟩ := m
        cases kind with
        | column c => cases h
        | navigation nav =>
          simp only [Shape.ofMember] at h
          split at h <;> cases h
      · split at h <;> cases h
    | _ => cases h
  | _ => cases h

/-- What denotes an entity or a collection is a path of members. -/
theorem memberPath?_of_shape {e : Expr} {shape : Shape} (h : l.shape schema e = .ok shape)
    (hscalar : shape ≠ .scalar) (hrow : shape ≠ .row) (hobject : shape ≠ .object) :
    ∃ id path, e.memberPath? = some (id, path) := by
  induction e using Expr.induction_parts generalizing shape with
  | h e ih =>
    cases e with
    | source id => exact ⟨id, [], rfl⟩
    | member target name =>
      obtain ⟨inner, hinner, h⟩ := Compiled.bind_eq_ok.1 h
      have htarget : inner ≠ .scalar ∧ inner ≠ .row ∧ inner ≠ .object := by
        refine ⟨?_, ?_, ?_⟩ <;> rintro rfl <;> cases h <;> exact hscalar rfl
      obtain ⟨id, path, hpath⟩ :=
        ih target (by simp) hinner htarget.1 htarget.2.1 htarget.2.2
      exact ⟨id, path ++ [name], by rw [Expr.memberPath?, hpath]; rfl⟩
    | joinGroup => cases h
    | object => cases h; exact absurd rfl hobject
    | grouping => cases h; exact absurd rfl hrow
    | _ => cases h; exact absurd rfl hscalar

end Layer

/-! ## Collecting columns -/

/-- Columns that are scalars or untyped rows of a layer: none is an entity, a collection or an
object. -/
def Layer.Flat (schema : Schema) (l : Layer) (columns : List Binding) : Prop :=
  ∀ c ∈ columns, l.shape schema c.value = .ok .scalar ∨ l.shape schema c.value = .ok .row

theorem Layer.Flat.congr {schema : Schema} {l l' : Layer} {columns : List Binding}
    (h : l.Flat schema columns) (hsource : l'.source = l.source)
    (hsubquery : l'.subquery = l.subquery) (hjoins : l'.joins = l.joins) :
    l'.Flat schema columns := by
  intro c hc
  rw [Layer.shape_congr (Layer.sourceType?_congr hsource hjoins) (congrArg Option.isSome hsubquery)]
  exact h c hc

namespace Boundary

variable {schema : Schema} {l : Layer}

/-- The boundary above a layer that exports single columns. -/
def above (schema : Schema) (l : Layer) : Boundary := ⟨schema, l.source, false⟩

theorem flat_append {columns : List Binding} {value : Expr} (hcolumns : l.Flat schema columns)
    (hvalue : l.shape schema value = .ok .scalar ∨ l.shape schema value = .ok .row)
    (name : String) : l.Flat schema (columns ++ [⟨name, value⟩]) := by
  intro c hc
  rcases List.mem_append.1 hc with hc | hc
  · exact hcolumns c hc
  · rw [List.mem_singleton.1 hc]
    exact hvalue

theorem flat_require {name : String} {value : Expr}
    (hvalue : l.shape schema value = .ok .scalar ∨ l.shape schema value = .ok .row) :
    Yields (l.Flat schema) ((above schema l).require name value) fun _ => l.Flat schema := by
  simp only [require, above, Bool.false_eq_true, if_false]
  refine .get_bind fun columns hcolumns => ?_
  split
  · split
    · exact .pure fun _ h => h ▸ hcolumns
    · exact .throw
  · exact .set (flat_append hcolumns hvalue name)

theorem flat_requireMember {name : String}
    (hmember : l.shape schema (.member (.source 0) name) = .ok .scalar) :
    Yields (l.Flat schema) ((above schema l).requireMember name) fun _ => l.Flat schema :=
  flat_require (.inl hmember)

/-- Every column of the root is a scalar, as long as its name finds it. -/
theorem flat_requireAll (hsight : schema.ColumnsInSight) :
    Yields (l.Flat schema) (above schema l).requireAll fun _ => l.Flat schema := by
  unfold requireAll
  simp only [above]
  split
  · exact .throw
  · rename_i ty hsource
    refine .lift_bind fun entity hentity => .forM fun column hcolumn => ?_
    refine flat_requireMember (Layer.shape_rootColumn hsource hentity ?_)
    exact hsight (ty, entity) (Schema.mem_of_entity hentity) column hcolumn

theorem flat_requireKeys (hkeys : schema.KeysAreColumns) {ty name path : String} {entity : Entity}
    {nav : Navigation} (hsource : l.source = some ty) (hentity : schema.entity ty = .ok entity)
    (hnav : entity.member? path = some ⟨name, .navigation nav⟩) :
    Yields (l.Flat schema) ((above schema l).requireKeys entity ty name nav)
      fun _ => l.Flat schema := by
  unfold requireKeys
  split
  · exact .throw
  · rename_i fk hfk
    refine .forM fun key hkey => ?_
    have hcolumn := hkeys (ty, entity) (Schema.mem_of_entity hentity) ⟨name, .navigation nav⟩
      (Entity.mem_of_member? hnav) nav rfl fk hfk key hkey
    split
    · rename_i m hm
      rw [hm] at hcolumn
      refine flat_requireMember (Layer.shape_rootColumn hsource hentity ?_)
      rw [Entity.member?_name hm]
      exact hcolumn
    · exact .throw

/-- A path from the root has its first column exported, or the keys of its first navigation. -/
theorem flat_rebasePath (hkeys : schema.KeysAreColumns) (hsight : schema.ColumnsInSight)
    (path : List String) :
    Yields (l.Flat schema) ((above schema l).rebasePath path) fun _ => l.Flat schema := by
  cases path with
  | nil => exact .bind (flat_requireAll hsight) fun _ => .pure fun _ h => h
  | cons first rest =>
    simp only [rebasePath]
    split
    · rename_i hsource
      refine .bind (flat_requireMember (Layer.shape_anonymousMember hsource)) fun _ => ?_
      exact .pure fun _ h => h
    · rename_i ty hsource
      refine .lift_bind fun entity hentity => ?_
      split
      · exact .throw
      · rename_i name c hm
        have hcolumn : ((entity.member? name).bind Member.column?).isSome := by
          rw [Entity.member?_name hm]
          rfl
        have hflat := flat_requireMember (Layer.shape_rootColumn hsource hentity hcolumn)
        refine .bind hflat fun _ => ?_
        exact .pure fun _ h => h
      · rename_i name nav hm
        exact .bind (flat_requireKeys hkeys hsource hentity hm) fun _ => .pure fun _ h => h

/-- **Restating a path exports flat columns.** -/
theorem flat_rebase (hkeys : schema.KeysAreColumns) (hsight : schema.ColumnsInSight) {e : Expr}
    {id : Nat} {path : List String} (hpath : e.memberPath? = some (id, path)) :
    Yields (l.Flat schema) ((above schema l).rebase e) fun _ => l.Flat schema := by
  have hfrom (shown : Expr) (id : Nat) (path : List String) :
      Yields (l.Flat schema) ((above schema l).rebaseFrom shown id path)
        fun _ => l.Flat schema := by
    unfold rebaseFrom
    split
    · exact flat_rebasePath hkeys hsight path
    · exact .throw
  cases e with
  | source id => exact hfrom _ _ _
  | member target name =>
    rw [rebase, hpath]
    exact hfrom _ _ _
  | _ => cases hpath

/-- **Keeping a scalar exports a flat column.** -/
theorem flat_keep {preferred : String} {e : Expr}
    (he : l.shape schema e = .ok .scalar ∨ l.shape schema e = .ok .row) :
    Yields (l.Flat schema) ((above schema l).keep preferred e) fun _ => l.Flat schema := by
  simp only [keep, above, Bool.false_eq_true, if_false]
  refine .get_bind fun columns hcolumns => ?_
  split
  · exact .pure fun _ h => h ▸ hcolumns
  · have happend := flat_append hcolumns he
    exact .bind (.set (happend _)) fun _ => .pure fun _ h => h

end Boundary

end QueryCompiler

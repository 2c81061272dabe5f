import QueryCompiler.Proofs.Sql.Rendered
/-!
# Output names

What a layer returns is written as a select list, each column under a free name close to the one it
asks for. A name that is asked for is therefore among the output names, whether its column got it or
one ahead (`SelectList.mem_names_push`).

So whole rows are exported with all columns of their entity, and a projection under the names that
the layer above reads it by (`Layer.Writes.listsOutputs`). An entity behind a navigation has a name
of its own only by the column that tells whether there is a row, and there is one if foreign keys
pair any columns (`Schema.KeysPaired`).
-/

namespace QueryCompiler

open Sql

/-- Every foreign key pairs a member of the owner with one of the target. -/
def Schema.KeysPaired (schema : Schema) : Prop :=
  ∀ entry ∈ schema.entities, ∀ m ∈ entry.2.members, ∀ nav ∈ m.navigation?,
    ∀ fk ∈ nav.foreignKey, fk.pairs ≠ []

instance (schema : Schema) : Decidable schema.KeysPaired :=
  inferInstanceAs (Decidable (∀ _ ∈ _, ∀ _ ∈ _, ∀ _ ∈ _, ∀ _ ∈ _, _))

theorem Schema.Hop.pairs_ne_nil {schema : Schema} {ty member name : String} {nav : Navigation}
    {fk : ForeignKey} {target : Entity} (h : schema.Hop ty member name nav fk target)
    (hkeys : schema.KeysPaired) : fk.pairs ≠ [] := by
  obtain ⟨owner, howner, hmember⟩ := h.declared
  exact hkeys _ (Schema.mem_of_entity howner) _ (Entity.mem_of_member? hmember) nav rfl fk h.key

theorem Text.freshName_of_notMem {taken : List String} {preferred : String}
    (h : preferred ∉ taken) : freshName taken preferred = preferred := by
  have hfirst : candidate preferred 0 = preferred := rfl
  rw [freshName, List.range_succ_eq_map, List.map_cons, List.find?_cons_of_pos, Option.getD_some,
    hfirst]
  simpa [hfirst] using h

namespace Sql

/-! ## Select lists -/

namespace SelectList

variable {list : SelectList} {t : Term} {preferred : String}

theorem names_push :
    (list.push t preferred).names = list.names ++ [Text.freshName list.names preferred] := by
  simp [names, push]

theorem names_subset_push : list.names ⊆ (list.push t preferred).names := by
  rw [names_push]
  exact List.subset_append_left _ _

/-- **How a select list is built** on another: by columns behind it, and by spans over all that was
added since they were opened. -/
inductive Grows : SelectList → SelectList → Prop
  | refl (out : SelectList) : Grows out out
  | push (out : SelectList) (t : Term) (preferred : String) : Grows out (out.push t preferred)
  | close {out list : SelectList} (h : Grows out list) (path : String) :
    Grows out (list.close path out.columns.length)
  | trans {out mid list : SelectList} : Grows out mid → Grows mid list → Grows out list

theorem Grows.names_subset {out : SelectList} (h : Grows out list) : out.names ⊆ list.names := by
  induction h with
  | refl => exact List.Subset.refl _
  | push => exact names_subset_push
  | close _ _ ih => exact ih
  | trans _ _ ih ih' => exact List.Subset.trans ih ih'

/-- **The name that a column asks for is an output name**, be it of another column. -/
theorem mem_names_push : preferred ∈ (list.push t preferred).names := by
  by_cases h : preferred ∈ list.names
  · exact names_subset_push h
  · simp [names_push, Text.freshName_of_notMem h]

end SelectList

namespace Context

variable {ctx : Context} {out list : SelectList}

theorem grows_columns {row : Row} {columns : List (String × Column)} :
    out.Grows (columns.foldl (fun out c =>
      out.push (.column ⟨row.number, if row.derived then c.1 else c.2.column⟩) c.1) out) := by
  induction columns generalizing out with
  | nil => exact .refl out
  | cons column columns ih => exact .trans (.push _ _ _) ih

theorem grows_rowColumns {row : Row} (h : ctx.rowColumns row out = .ok list) : out.Grows list := by
  unfold rowColumns at h
  split at h
  · cases h
  · obtain ⟨entity, -, hlist⟩ := Compiled.bind_eq_ok.1 h
    cases hlist
    exact grows_columns

theorem names_of_rowColumns {row : Row} (h : ctx.rowColumns row out = .ok list) :
    ∃ ty entity, row.ty = some ty ∧ ctx.schema.entity ty = .ok entity ∧
      ∀ c ∈ entity.columns, c.1 ∈ list.names := by
  unfold rowColumns at h
  split at h
  · cases h
  · rename_i ty hty
    obtain ⟨entity, hentity, hlist⟩ := Compiled.bind_eq_ok.1 h
    cases hlist
    refine ⟨ty, entity, hty, hentity, ?_⟩
    clear h
    generalize entity.columns = columns
    induction columns generalizing out with
    | nil => simp
    | cons column columns ih =>
      rw [List.foldl_cons]
      exact List.forall_mem_cons.2 ⟨grows_columns.names_subset SelectList.mem_names_push, ih⟩

theorem grows_entityColumns {e : Expr} {path : String} :
    Gives (ctx.entityColumns e path out) out.Grows := by
  unfold entityColumns
  split
  · exact .throw
  · refine .seq fun resolved => ?_
    split
    · exact .throw
    · rename_i row many
      refine .bind (.lift fun _ h => h) fun list hlist => .pure ?_
      refine .close (.trans ?_ (grows_rowColumns hlist)) path
      split
      · exact .push _ _ _
      · exact .refl out

theorem grows_members {base : String} {bs : List Binding} (h : ∀ b ∈ bs, ∀ path member out,
    Gives (ctx.bindingColumns path member out b.value) out.Grows) :
    Gives (ctx.objectColumns base out bs) out.Grows := by
  induction bs generalizing out with
  | nil =>
    unfold objectColumns
    exact .pure (.refl out)
  | cons b bs ih =>
    obtain ⟨m, v⟩ := b
    obtain ⟨hv, hbs⟩ := List.forall_mem_cons.1 h
    unfold objectColumns
    refine .bind (hv _ _ _) fun next hnext => ?_
    exact (ih hbs).imp fun list hlist => .trans hnext hlist

theorem grows_bindingColumns (e : Expr) : ∀ path member out,
    Gives (ctx.bindingColumns path member out e) out.Grows := by
  induction e using Expr.induction_object with
  | object ty bs ih =>
    intro path member out
    rw [bindingColumns]
    exact .bind (grows_members ih) fun list hlist => .pure (.close hlist path)
  | other e he =>
    intro path member out
    rw [bindingColumns.eq_2 _ _ _ _ _ he]
    refine .seq fun shape => ?_
    split
    · exact grows_entityColumns
    · exact grows_entityColumns
    all_goals exact .seq fun t => .pure (.push out t member)

theorem grows_objectColumns {base : String} {bs : List Binding} :
    Gives (ctx.objectColumns base out bs) out.Grows :=
  grows_members fun b _ => grows_bindingColumns b.value

theorem gives_source {id : Nat} :
    Gives (ctx.source id) fun row => row.ty = ctx.layer.sourceType? id ∧
      ctx.isDerived? id = some row.derived := by
  rw [source_eq]
  split
  · rename_i derived hderived
    exact .seq fun _ => .pure ⟨rfl, hderived⟩
  · exact .throw

/-- **What a navigation leads to**: the rows of its target, with the first of the columns that must
match to tell whether there is a row. -/
theorem gives_navigation {row : Row} {member : String} :
    Gives (ctx.navigation row member) fun r => ∃ ty name nav fk target number on,
      row.ty = some ty ∧ ctx.schema.Hop ty member name nav fk target ∧
      ctx.keyColumns row target number fk = .ok on ∧
      r = (⟨row.key ++ "." ++ name, number, some nav.target, false, on.head?.map (·.2)⟩,
        nav.many) := by
  rw [navigation_eq]
  split
  · exact .throw
  rename_i ty hty
  refine .bind (.lift fun _ h => h) fun owner howner => ?_
  split
  · rename_i name nav hmember
    split
    · exact .throw
    · rename_i fk hfk
      refine .bind (.lift fun _ h => h) fun target htarget => ?_
      refine .seq fun scope => .seq fun number => ?_
      refine .bind (.lift fun _ h => h) fun on hon => ?_
      have hop : ctx.schema.Hop ty member name nav fk target :=
        ⟨⟨owner, howner, hmember⟩, hfk, htarget⟩
      dsimp only
      split
      · exact .seq fun _ => .pure ⟨ty, name, nav, fk, target, number, on, hty, hop, hon, rfl⟩
      · exact .pure ⟨ty, name, nav, fk, target, number, on, hty, hop, hon, rfl⟩
  · exact .throw

theorem gives_existence {row : Row} {member : String} (hkeys : ctx.schema.KeysPaired) :
    Gives (ctx.navigation row member) fun r => r.1.existence.isSome = true := by
  refine gives_navigation.imp ?_
  rintro - ⟨ty, name, nav, fk, target, number, on, -, hop, hon, rfl⟩
  have hlength := (Compiled.mapM_eq_ok.1 hon).length_eq
  cases on with
  | nil => exact absurd (List.length_eq_zero_iff.1 hlength) (hop.pairs_ne_nil hkeys)
  | cons => rfl

theorem gives_walk {path : List String} (hkeys : ctx.schema.KeysPaired) (hpath : path ≠ []) :
    ∀ row, Gives (ctx.walk row path) fun r =>
      ∀ next many, r = .row next many → next.existence.isSome = true := by
  induction path with
  | nil => exact absurd rfl hpath
  | cons hop hops ih =>
    intro row
    cases hops with
    | nil =>
      unfold walk
      refine .seq fun isNavigation => ?_
      split
      · refine .bind (gives_existence hkeys) fun found hnext => .pure ?_
        rintro _ _ ⟨⟩
        exact hnext
      · refine .seq fun found => .pure ?_
        rintro _ _ ⟨⟩
    | cons second hops =>
      unfold walk
      refine .seq fun found => ?_
      dsimp only
      split
      · exact .throw_bind
      · exact ih (by simp) found.1

/-- An entity behind a navigation is exported under the name of the navigation too. -/
theorem gives_entityColumns {e : Expr} {path : String} (hkeys : ctx.schema.KeysPaired) :
    Gives (ctx.entityColumns e path out) fun list =>
      ∀ id hops last, e.memberPath? = some (id, hops) → hops.getLast? = some last →
        last ∈ list.names := by
  unfold entityColumns
  split
  · exact Gives.throw
  · rename_i id hops hpath
    have hresolve : Gives (ctx.resolve id hops) fun r =>
        ∀ row many, r = .row row many → hops ≠ [] → row.existence.isSome = true := by
      refine Gives.seq fun row => ?_
      by_cases hhops : hops = []
      · exact Gives.trivial.imp fun _ _ _ _ _ hne => absurd hhops hne
      · exact (gives_walk hkeys hhops row).imp fun r hr next many hrow _ => hr next many hrow
    refine Gives.bind hresolve fun resolved hresolved => ?_
    split
    · exact Gives.throw
    · rename_i row many
      refine Gives.bind (Gives.lift fun _ h => h) fun list hlist => Gives.pure ?_
      rintro id' hops' last heq hlast
      cases hpath.symm.trans heq
      have hsome := hresolved row many rfl (by rintro rfl; cases hlast)
      obtain ⟨ref, href⟩ := Option.isSome_iff_exists.1 hsome
      refine (grows_rowColumns hlist).names_subset ?_
      simp only [href, hlast, Option.getD_some]
      exact SelectList.mem_names_push

theorem gives_bindingColumns {path member : String} {e : Expr} :
    Gives (ctx.bindingColumns path member out e) fun list =>
      ctx.layer.shape ctx.schema e = .ok .scalar → member ∈ list.names := by
  by_cases hscalar : ctx.layer.shape ctx.schema e = .ok .scalar
  · have hobject : ∀ ty bs, e ≠ .object ty bs := by
      rintro ty bs rfl
      cases hscalar
    rw [bindingColumns.eq_2 _ _ _ _ _ hobject]
    refine .bind (.lift fun _ h => h) fun shape hshape => ?_
    cases hscalar.symm.trans hshape
    exact .seq fun t => .pure fun _ => SelectList.mem_names_push
  · exact Gives.trivial.imp fun _ _ h => absurd h hscalar

theorem gives_objectColumns {base : String} {bs : List Binding} :
    Gives (ctx.objectColumns base out bs) fun list =>
      ∀ b ∈ bs, ctx.layer.shape ctx.schema b.value = .ok .scalar → b.member ∈ list.names := by
  induction bs generalizing out with
  | nil => exact Gives.trivial.imp (by simp)
  | cons b bs ih =>
    obtain ⟨m, v⟩ := b
    unfold objectColumns
    refine .bind gives_bindingColumns fun next hnext => ?_
    refine (grows_objectColumns.and ih).imp fun list ⟨hgrows, hlist⟩ => ?_
    exact List.forall_mem_cons.2 ⟨fun hscalar => hgrows.names_subset (hnext hscalar), hlist⟩

end Context

end Sql

/-! ## Layers -/

theorem Expr.getLast?_memberPath? {e : Expr} {id : Nat} {path : List String}
    (h : e.memberPath? = some (id, path)) (hsource : ∀ k, e ≠ .source k) :
    path.getLast? = some e.outputName := by
  cases e with
  | source k => exact absurd rfl (hsource k)
  | member target name =>
    rw [memberPath?] at h
    obtain ⟨⟨k, before⟩, -, hpath⟩ := Option.map_eq_some_iff.1 h
    cases hpath
    simp [outputName]
  | _ => cases h

namespace Layer

variable {schema : Schema} {dialect : Dialect} {l : Layer} {q : Query}

/-- What a select list exports of the rows of a layer: whole rows with all columns of their entity,
else the members of the projection that are scalars, or the projection itself. -/
structure ListsOutputs (schema : Schema) (l : Layer) (list : SelectList) : Prop where
  whole : ∀ k, l.select = .source k → ∃ ty entity, l.sourceType? k = some ty ∧
    schema.entity ty = .ok entity ∧ ∀ c ∈ entity.columns, c.1 ∈ list.names
  object : ∀ ty bindings, l.select = .object ty bindings →
    ∀ b ∈ bindings, l.shape schema b.value = .ok .scalar → b.member ∈ list.names
  value : (∀ k, l.select ≠ .source k) → l.select.bindings? = none →
    l.select.outputName ∈ list.names

/-- **The select list of a layer has the names of its outputs.** -/
theorem gives_selectList (hkeys : schema.KeysPaired) :
    Gives (Context.selectList ⟨schema, dialect, l⟩ l.select l.includes)
      (l.ListsOutputs schema) := by
  unfold Context.selectList
  split
  · rename_i id hs
    refine .bind Context.gives_source fun row ⟨hrow, _⟩ => ?_
    refine .bind (.lift fun _ h => h) fun out hout => ?_
    obtain ⟨ty, entity, hty, hentity, hcolumns⟩ := Context.names_of_rowColumns hout
    -- the columns that are loaded beside the rows stand behind those of the rows
    have hmore := Gives.foldlM (l := Context.includedPaths l.includes) (f := fun out path =>
        Context.entityColumns ⟨schema, dialect, l⟩ ((Expr.source id).follow path.1) path.2 out)
      (fun _ _ hgrows => Context.grows_entityColumns.imp fun _ h => .trans hgrows h)
      (SelectList.Grows.refl out)
    refine hmore.imp fun list hlist => ⟨fun k hk => ?_, fun ty bs hbs => ?_, fun hk => ?_⟩
    · cases hs.symm.trans hk
      exact ⟨ty, entity, hrow.symm.trans hty, hentity, fun c hc => hlist.names_subset (hcolumns c hc)⟩
    · cases hs.symm.trans hbs
    · exact absurd hs (hk id)
  · rename_i ty bindings hs
    refine Context.gives_objectColumns.imp fun list hlist => ⟨fun k hk => ?_, ?_, ?_⟩
    · cases hs.symm.trans hk
    · rintro ty' bs hbs
      cases hs.symm.trans hbs
      exact hlist
    · intro _ hnone
      rw [hs] at hnone
      cases hnone
  · rename_i hsource hobject
    have hvalue {list : SelectList} (hmem : l.select.outputName ∈ list.names) :
        l.ListsOutputs schema list :=
      ⟨fun k hk => absurd hk (hsource k), fun ty bs hbs => absurd hbs (hobject ty bs),
        fun _ _ => hmem⟩
    refine .bind (.lift fun _ h => h) fun shape hshape => ?_
    split
    · obtain ⟨id, hops, hpath⟩ := memberPath?_of_shape hshape (by simp) (by simp) (by simp)
      refine (Context.gives_entityColumns hkeys).imp fun list hlist => hvalue ?_
      exact hlist id hops _ hpath (Expr.getLast?_memberPath? hpath hsource)
    · exact .seq fun t => .pure (hvalue SelectList.mem_names_push)

/-- **A layer that is read for its rows is written as a query that exports its outputs.** -/
theorem Writes.listsOutputs {nested : Bool} (h : l.Writes schema dialect nested q)
    (hkeys : schema.KeysPaired) (hany : l.any = false) (haggregate : l.aggregate = none) :
    l.ListsOutputs schema q.selectList :=
  (gives_selectList hkeys).of_gave (h.rows hany haggregate).1

namespace ListsOutputs

variable {list : SelectList} {id : Nat} {row : Expr}

theorem mem_of_typed {ty : String} {entity : Entity} (h : l.ListsOutputs schema list)
    (hrow : l.derivedRow schema id = .ok (row, some ty)) (hentity : schema.entity ty = .ok entity) :
    ∀ c ∈ entity.columns, c.1 ∈ list.names := by
  obtain ⟨k, hk, hty⟩ := whole_of_derivedRow hrow
  obtain ⟨ty', entity', hty', hentity', hcolumns⟩ := h.whole k hk
  cases hty.symm.trans hty'
  cases hentity.symm.trans hentity'
  exact hcolumns

theorem mem_of_untyped {m : String} (h : l.ListsOutputs schema list)
    (hrow : l.derivedRow schema id = .ok (row, none)) (hm : l.Offers (some m)) :
    m ∈ list.names := by
  have houtput (hsource : ∀ k, l.select ≠ .source k) : m ∈ l.outputs := by
    rcases hm with ⟨k, hk⟩ | ⟨_, hasked, houtput⟩
    · exact absurd hk (hsource k)
    · cases hasked
      exact houtput
  rcases derivedRow_cases hrow with ⟨k, hk, -, hty⟩ | ⟨ty, bindings, hs, hscalar, -, -⟩ |
    ⟨hsource, hobject, -, -⟩
  · obtain ⟨ty, -, hty', -⟩ := h.whole k hk
    cases hty.trans hty'
  · have hmem := houtput (by simp [hs])
    simp only [outputs, hs, Expr.bindings?, List.mem_map] at hmem
    obtain ⟨b, hb, rfl⟩ := hmem
    exact h.object ty bindings hs b hb (hscalar b hb)
  · have hmem := houtput hsource
    simp only [outputs, hobject, List.mem_singleton] at hmem
    exact hmem ▸ h.value hsource hobject

end ListsOutputs

end Layer

end QueryCompiler

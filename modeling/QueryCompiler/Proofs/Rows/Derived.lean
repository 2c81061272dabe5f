import QueryCompiler.Proofs.Plan.Applied
import QueryCompiler.Proofs.Plan.Split
import QueryCompiler.Proofs.Rows.Sorting
/-!
# Items read from the layer above

The row that a finished layer offers denotes the item it was made from (`Layer.derivedRow_sound`),
and so does every expression that it exports (`Layer.eval_exported`). The ordering that a layer
inherits is therefore one in which its rows already stand (`Layer.sorted_inheritedOrders`).

A projection of a row pipeline reaches no collection, so that its layer is never split
(`Layer.separateCollections_of_kind`).
-/

namespace QueryCompiler

variable {V : Type} {schema : Schema} {e : Expr} {name : String}

namespace Expr

theorem kind?_cases {root : Option ItemKind} {k : ItemKind} (h : e.kind? [] root = some k) :
    (e = source 0 ∧ root = some k) ∨ (∃ ty bindings, e = object ty bindings) ∨
      (e.bindings? = none ∧ k = .scalar) := by
  cases e with
  | source id =>
    cases id with
    | zero => exact .inl ⟨rfl, h⟩
    | succ => cases h
  | object ty bindings => exact .inr (.inl ⟨ty, bindings, rfl⟩)
  | member target name =>
    obtain ⟨kt, -, h⟩ := Option.bind_eq_some_iff.1 h
    refine .inr (.inr ⟨rfl, ?_⟩)
    unfold ItemKind.member? at h
    split at h
    · split at h
      · exact (Option.some.inj h).symm
      · cases h
    · cases h
  | constant => exact .inr (.inr ⟨rfl, (Option.some.inj h).symm⟩)
  | binary =>
    obtain ⟨_, -, h⟩ := Option.bind_eq_some_iff.1 h
    obtain ⟨_, -, h⟩ := Option.bind_eq_some_iff.1 h
    exact .inr (.inr ⟨rfl, (Option.some.inj h).symm⟩)
  | unary =>
    obtain ⟨_, -, h⟩ := Option.bind_eq_some_iff.1 h
    exact .inr (.inr ⟨rfl, (Option.some.inj h).symm⟩)
  | conditional =>
    obtain ⟨_, -, h⟩ := Option.bind_eq_some_iff.1 h
    obtain ⟨_, -, h⟩ := Option.bind_eq_some_iff.1 h
    obtain ⟨_, -, h⟩ := Option.bind_eq_some_iff.1 h
    exact .inr (.inr ⟨rfl, (Option.some.inj h).symm⟩)
  | _ => cases h

theorem bindings?_of_scalar {root : ItemKind} (h : e.kind? [] (some root) = some .scalar) :
    e.bindings? = none := by
  rcases kind?_cases h with ⟨rfl, -⟩ | ⟨ty, bindings, rfl⟩ | ⟨hb, -⟩
  · rfl
  · obtain ⟨-, -, hk⟩ := kind?_object.1 h
    cases hk
  · exact hb

theorem eq_rootMember_of_path (h : e.memberPath? = some (0, [name])) :
    e = member (source 0) name := by
  cases e with
  | member target last =>
    obtain ⟨⟨id, path⟩, htarget, heq⟩ := Option.map_eq_some_iff.1 h
    simp only [Prod.mk.injEq] at heq
    obtain ⟨rfl, hpath⟩ := heq
    obtain ⟨rfl, rfl⟩ : path = [] ∧ last = name := by
      cases path with
      | nil => simpa using hpath
      | cons => simp at hpath
    cases target with
    | source id =>
      cases htarget
      rfl
    | member t n =>
      obtain ⟨⟨id, path⟩, -, heq⟩ := Option.map_eq_some_iff.1 htarget
      simp at heq
    | _ => cases htarget
  | _ => cases h

end Expr

theorem Binding.find?_of_mem {bindings : List Binding} {b : Binding}
    (hnodup : (bindings.map (·.member)).Nodup) (hb : b ∈ bindings) :
    Binding.find? bindings b.member = some b.value := by
  unfold Binding.find?
  induction bindings with
  | nil => cases hb
  | cons c cs ih =>
    rw [List.map_cons, List.nodup_cons] at hnodup
    rcases List.mem_cons.1 hb with rfl | hmem
    · simp
    · have hne : c.member ≠ b.member := fun heq =>
        hnodup.1 (heq ▸ List.mem_map_of_mem hmem)
      rw [List.find?_cons_of_neg (by simpa using hne)]
      exact ih hnodup.2 hmem

theorem Entity.column?_of_readable {entity : Entity} (h : name ∈ entity.readable) :
    ((entity.member? name).bind Member.column?).isSome := by
  obtain ⟨x, hx, rfl⟩ := List.mem_map.1 h
  exact (List.mem_filter.1 hx).2

theorem ItemKind.member?_eq_some {members : List String} {k : ItemKind}
    (h : (row members).member? name = some k) : name ∈ members ∧ k = scalar := by
  simp only [member?] at h
  split at h
  · rename_i hmem
    exact ⟨by simpa using hmem, (Option.some.inj h).symm⟩
  · cases h

namespace Layer

variable {l : Layer} {root k : ItemKind}

@[simp] theorem asRow_object (ty : Option String) (bindings : List Binding) (item : Datum V) :
    asRow (.object ty bindings) item = item := rfl

theorem get?_asRow {select : Expr} (hsource : ∀ id, select ≠ .source id)
    (hobject : select.bindings? = none) (item : Datum V) :
    (asRow select item).get? select.outputName = some item := by
  have hrow : asRow select item = .record [⟨select.outputName, item⟩] := by
    cases select with
    | source id => exact absurd rfl (hsource id)
    | object => cases hobject
    | _ => rfl
  simp [hrow, Datum.get?]

/-- What the root rows of a layer are: rows of the entity of its source, if it has one. -/
def RootKind (schema : Schema) (source : Option String) (root : ItemKind) : Prop :=
  ∀ ty, source = some ty → ∃ entity, schema.entity ty = .ok entity ∧ root = .row entity.readable

/-- **The row that a finished layer offers denotes the item**, and is of its kind. -/
theorem derivedRow_sound {row : Expr} {source : Option String}
    (hroot : RootKind schema l.source root) (hk : l.select.kind? [] (some root) = some k)
    (h : l.derivedRow schema 0 = .ok (row, source)) :
    ∃ root', RootKind schema source root' ∧ row.kind? [] (some root') = some k ∧
      ∀ (V : Type) (I : Interpretation V) (r : Datum V),
        row.eval I [] (asRow l.select (l.select.eval I [] r)) = l.select.eval I [] r := by
  rcases derivedRow_cases h with ⟨id, hs, rfl, rfl⟩ | ⟨ty, bindings, hs, -, rfl, rfl⟩ |
    ⟨hsource, hobject, rfl, rfl⟩
  -- whole rows are passed on, an object is read member by member, a scalar by its output name
  · rw [hs] at hk ⊢
    cases id with
    | zero => exact ⟨root, hroot, hk, fun _ _ _ => rfl⟩
    | succ => cases hk
  · rw [hs] at hk ⊢
    obtain ⟨-, hnodup, rfl⟩ := Expr.kind?_object.1 hk
    have hnames : (bindings.map fun b =>
        (⟨b.member, .member (.source 0) b.member⟩ : Binding)).map (·.member) =
          bindings.map (·.member) := by
      rw [List.map_map]
      rfl
    refine ⟨.row (bindings.map (·.member)), fun _ hty => (by cases hty), ?_, ?_⟩
    · rw [Expr.kind?_object, hnames]
      refine ⟨?_, hnodup, rfl⟩
      intro b hb
      obtain ⟨c, hc, rfl⟩ := List.mem_map.1 hb
      have hmem : (bindings.map (·.member)).contains c.member := by
        simpa using ⟨c, hc, rfl⟩
      simp only [Expr.kind?, Option.bind_eq_bind, Option.bind_some, ItemKind.member?, hmem,
        if_true]
    · intro V I r
      simp only [asRow_object, Expr.eval, Expr.evalBindings_eq_map, List.map_map]
      refine congrArg Datum.record (List.map_congr_left fun b hb => ?_)
      -- the member of a name is the value bound to it, since names are distinct
      have hget : (Datum.record (Expr.evalBindings I [] r bindings)).get? b.member = _ :=
        Expr.get?_evalBindings bindings b.member
      rw [Binding.find?_of_mem hnodup hb, Expr.evalBindings_eq_map] at hget
      simp [Expr.eval, hget]
  · refine ⟨.row [l.select.outputName], fun _ hty => (by cases hty), ?_, ?_⟩
    · rcases Expr.kind?_cases hk with ⟨hs, -⟩ | ⟨ty, bindings, hs⟩ | ⟨-, rfl⟩
      · exact absurd hs (hsource 0)
      · rw [hs] at hobject
        cases hobject
      · simp [Expr.kind?, ItemKind.member?]
    · intro V I r
      rw [Expr.eval, Expr.eval, get?_asRow hsource hobject, Option.getD_some]

/-! ## Inherited orderings -/

section Inherited

variable {I : Interpretation V}

/-- **An exported expression denotes above what it denotes below.** -/
theorem eval_exported {e' : Expr} (hI : I.RespectsSame)
    (hk : l.select.kind? [] (some root) = some k) (h : l.exported? schema e = some e')
    (r : Datum V) :
    e'.eval I [] (asRow l.select (l.select.eval I [] r)) = e.eval I [] r := by
  unfold exported? at h
  split at h
  · rename_i ty bindings hs
    -- found by a comparison that takes some constants for others, hence `RespectsSame`
    rw [hs] at hk ⊢
    obtain ⟨-, hnodup, -⟩ := Expr.kind?_object.1 hk
    obtain ⟨b, hb, rfl⟩ := Option.map_eq_some_iff.1 h
    have hsame : (b.value == e) = true := List.find?_some (p := fun c : Binding => c.value == e) hb
    have hvalue : b.value.eval I [] r = e.eval I [] r := Expr.eval_same [] r hI hsame
    rw [asRow_object, Expr.eval, Expr.eval, Expr.eval, Expr.get?_evalBindings,
      Binding.find?_of_mem hnodup (List.mem_of_find?_eq_some hb), ← hvalue]
    rfl
  · rename_i hs
    rw [hs]
    obtain ⟨⟨id, path⟩, hpath, h⟩ := Option.bind_eq_some_iff.1 h
    split at h
    · rename_i column heq
      cases heq
      obtain ⟨ty, -, h⟩ := Option.bind_eq_some_iff.1 h
      obtain ⟨entity, -, h⟩ := Option.bind_eq_some_iff.1 h
      split at h
      · cases h
        rw [Expr.eq_rootMember_of_path hpath]
        rfl
      · cases h
    · cases h
  · rename_i hobject hroot
    split at h
    · rename_i hsame
      cases h
      rcases Expr.kind?_cases hk with ⟨hs, -⟩ | ⟨ty, bindings, hs⟩ | ⟨hb, -⟩
      · exact absurd hs hroot
      · exact absurd hs (hobject ty bindings)
      · have hsource : ∀ id, l.select ≠ .source id := by
          intro id hs
          cases id with
          | zero => exact hroot hs
          | succ =>
            rw [hs] at hk
            cases hk
        rw [Expr.eval, Expr.eval, get?_asRow hsource hb, Option.getD_some]
        exact Expr.eval_same [] r hI hsame
    · cases h

/-- Rows read from a layer compare by the inherited ordering as the rows of the layer do by its
own. -/
theorem compareAll_inherited (hI : I.RespectsSame) (hk : l.select.kind? [] (some root) = some k)
    (r s : Datum V) : ∀ {orders orders' : List Order},
    orders.mapM (fun o => (l.exported? schema o.expr).map (⟨·, o.descending⟩)) = some orders' →
      Order.compareAll I orders' (asRow l.select (l.select.eval I [] r))
        (asRow l.select (l.select.eval I [] s)) = Order.compareAll I orders r s
  | [], _, h => by
    cases h
    rfl
  | o :: os, _, h => by
    rw [List.mapM_cons] at h
    obtain ⟨o', ho', h⟩ := Option.bind_eq_some_iff.1 h
    obtain ⟨os', hos', h⟩ := Option.bind_eq_some_iff.1 h
    cases h
    obtain ⟨e', he', rfl⟩ := Option.map_eq_some_iff.1 ho'
    rw [Order.compareAll, Order.compareAll, compareAll_inherited hI hk r s hos', Order.compare,
      Order.compare, eval_exported hI hk he', eval_exported hI hk he']

theorem page_sublist [DecidableEq V] (c : Clauses) (items : List (Datum V)) :
    (c.page items).Sublist items := by
  have hdrop : ((if c.distinct then items.eraseDups else items).drop c.skip).Sublist items := by
    refine (List.drop_sublist ..).trans ?_
    split
    · exact eraseDups_sublist items
    · exact .refl items
  unfold Clauses.page
  dsimp only
  split
  · exact (List.take_sublist ..).trans hdrop
  · exact hdrop

/-- **The rows of a layer stand in the ordering that it inherits.** -/
theorem sorted_inheritedOrders [DecidableEq V] {inner : Layer} {orders : List Order}
    (hI : I.RespectsSame) (hl : l.subquery = some inner)
    (hk : inner.select.kind? [] (some root) = some k)
    (h : l.inheritedOrders schema = some orders) (rows : List (Datum V)) :
    Order.Sorted I orders ((inner.itemsOver I rows).map (asRow inner.select)) := by
  unfold inheritedOrders at h
  rw [hl] at h
  refine List.Pairwise.sublist ((page_sublist ..).map _) ?_
  rw [List.map_map, List.pairwise_map]
  refine (Order.sorted_sort _).imp fun {r s} hrs => ?_
  rw [Function.comp, Function.comp, compareAll_inherited hI hk r s h]
  exact hrs

end Inherited

/-! ## Shapes -/

theorem shape_of_kind (hroot : RootKind schema l.source root) : ∀ {e : Expr} {k : ItemKind},
    e.kind? [] (some root) = some k → ∃ shape, l.shape schema e = .ok shape ∧
      shape.isCollection = false
  | .source 0, _, _ => by
    rw [shape]
    split
    · exact ⟨_, rfl, rfl⟩
    · exact ⟨_, rfl, rfl⟩
  | .member target name, k, h => by
    obtain ⟨kt, ht, h⟩ := Option.bind_eq_some_iff.1 h
    have hscalar : l.shape schema (.member target name) = .ok .scalar := by
      rcases Expr.kind?_cases ht with ⟨rfl, hkt⟩ | ⟨ty, bindings, rfl⟩ | ⟨-, rfl⟩
      · cases hkt
        cases hsource : l.source with
        | none => exact shape_anonymousMember hsource
        | some ty =>
          obtain ⟨entity, hentity, rfl⟩ := hroot ty hsource
          exact shape_rootColumn hsource hentity
            (Entity.column?_of_readable (ItemKind.member?_eq_some h).1)
      · rfl
      · cases h
    exact ⟨_, hscalar, rfl⟩
  | .constant _, _, _ | .binary _ _ _, _, _ | .unary _ _, _, _ | .conditional _ _ _, _, _
  | .object _ _, _, _ => ⟨_, rfl, rfl⟩

theorem bindsCollection_of_kind (hroot : RootKind schema l.source root)
    (hk : e.kind? [] (some root) = some k) : l.bindsCollection schema e = .ok false := by
  have hsimple : ∀ {e : Expr} {k : ItemKind}, e.bindings? = none →
      e.kind? [] (some root) = some k → l.bindsCollection schema e = .ok false := by
    intro e k hb hk
    obtain ⟨shape, hshape, hflat⟩ := shape_of_kind hroot hk
    rw [bindsCollection_of_shape hb hshape, hflat]
  cases e with
  | object ty bindings =>
    obtain ⟨hscalar, -, -⟩ := Expr.kind?_object.1 hk
    rw [bindsCollection]
    clear hk
    induction bindings with
    | nil => rfl
    | cons b bs ih =>
      obtain ⟨m, v⟩ := b
      have hv := hscalar ⟨m, v⟩ (by simp)
      rw [bindsCollectionAny, hsimple (Expr.bindings?_of_scalar hv) hv]
      exact ih fun b hb => hscalar b (by simp [hb])
  | _ => exact hsimple rfl hk

/-- **A layer of a row pipeline is not split.** -/
theorem separateCollections_of_kind {p : Layer} (hroot : RootKind schema l.source root)
    (hk : l.select.kind? [] (some root) = some k) (hincludes : l.includes = [])
    (h : l.separateCollections schema = .ok p) : p = l := by
  rcases separateCollections_eq_ok h with ⟨rfl, -⟩ | ⟨-, -, -, -, -, hreach⟩
  · rfl
  have hincluded : l.includesCollection schema = .ok false := includesCollection_of_nil hincludes
  rw [bindsCollection_of_kind hroot hk, hincluded] at hreach
  simp at hreach

end Layer

end QueryCompiler

import Mathlib.Logic.Relation
import QueryCompiler.Proofs.Sql.References
/-!
# The rows of a layer

The rows that a layer can refer to are those of its sources and those behind navigations. A chain
says which ones: it starts at a source and passes navigations, by the names they are declared under.
`Context.RowOf` is the row of a chain in a table of aliases, and `Schema.passed` the navigations
that a path of members passes, in whatever case the path spells them.

While a layer is read its table only grows, by one navigation at a time (`Context.Adds`). So what
the table of a layer looks like at the end is shown by induction on its growth (`Laid.grows`): the
sources come first, then the navigations, each joined once and behind the rows it starts from.
-/

namespace QueryCompiler

open Sql

/-- The navigations that a path passes from rows of a type, by the names they are declared under.
There are none if a member ahead of the last is no navigation. -/
def Schema.passed (schema : Schema) : Option String → List String → Option (List String)
  | _, [] => some []
  | none, [_] => some []
  | none, _ :: _ :: _ => none
  | some ty, member :: path =>
    match (schema.get? ty).bind (·.member? member) with
    | some ⟨name, .navigation nav⟩ => (schema.passed (some nav.target) path).map (name :: ·)
    | _ => if path.isEmpty then some [] else none

/-- A navigation that a member of an entity type finds: the name it is declared under, its foreign
key and the entity behind it. -/
structure Schema.Hop (schema : Schema) (ty member name : String) (nav : Navigation)
    (fk : ForeignKey) (target : Entity) : Prop where
  declared : ∃ owner, schema.entity ty = .ok owner ∧
    owner.member? member = some ⟨name, .navigation nav⟩
  key : nav.foreignKey = some fk
  target : schema.entity nav.target = .ok target

namespace Schema

variable {schema : Schema} {ty member name : String} {nav : Navigation} {fk : ForeignKey}
  {target : Entity} {entity : Entity}

theorem get?_of_entity (h : schema.entity ty = .ok entity) : schema.get? ty = some entity := by
  unfold Schema.entity at h
  split at h
  · rename_i e he
    cases h
    exact he
  · cases h

theorem Hop.passed (h : schema.Hop ty member name nav fk target) (path : List String) :
    schema.passed (some ty) (member :: path) =
      (schema.passed (some nav.target) path).map (name :: ·) := by
  obtain ⟨owner, howner, hmember⟩ := h.declared
  simp only [Schema.passed, get?_of_entity howner, Option.bind_some, hmember]

theorem length_le_of_passed {root : Option String} {path names : List String}
    (h : schema.passed root path = some names) : path.length ≤ names.length + 1 := by
  induction path generalizing root names with
  | nil => simp
  | cons member path ih =>
    cases root with
    | none =>
      cases path with
      | nil => simp
      | cons => cases h
    | some ty =>
      rw [passed] at h
      split at h
      · obtain ⟨rest, hrest, rfl⟩ := Option.map_eq_some_iff.1 h
        simpa using ih hrest
      · split at h
        · rename_i hempty
          simp [List.isEmpty_iff.1 hempty]
        · cases h

end Schema

namespace Sql

/-! ## Chains -/

/-- A source and the navigations passed from it. -/
structure Chain where
  source : Nat
  names : List String := []
  deriving DecidableEq, Repr

namespace Chain

variable {c : Chain} {name : String}

def next (c : Chain) (name : String) : Chain := { c with names := c.names ++ [name] }

def key (c : Chain) : String :=
  c.names.foldl (fun key name => key ++ "." ++ name) (sourceKey c.source)

@[simp] theorem key_source (id : Nat) : key ⟨id, []⟩ = sourceKey id := rfl

@[simp] theorem key_next : (c.next name).key = c.key ++ "." ++ name := by
  simp [key, next, List.foldl_append]

end Chain

/-! ## Tables of aliases -/

namespace Aliases

variable {J : Type} {A B : Aliases J} {key : String} {n : Nat}

theorem getElem?_of_get? (h : A.get? key = some n) : A.keys[n]? = some key := by
  rw [get?, List.idxOf?, List.findIdx?_eq_some_iff_getElem] at h
  obtain ⟨hlt, hkey, -⟩ := h
  rw [List.getElem?_eq_getElem hlt]
  exact congrArg some (by simpa using hkey)

theorem get?_eq_none_iff : A.get? key = none ↔ key ∉ A.keys := by
  rw [get?, List.idxOf?_eq_none_iff]

/-- A longer table knows what is known under the number it had. -/
theorem get?_of_prefix (h : A.keys <+: B.keys) (hn : A.get? key = some n) :
    B.get? key = some n := by
  obtain ⟨more, hmore⟩ := h
  rw [get?, List.idxOf?] at hn
  rw [get?, List.idxOf?, ← hmore, List.findIdx?_append, hn, Option.some_or]

theorem get?_of_nodup (h : A.keys.Nodup) (hn : A.keys[n]? = some key) : A.get? key = some n := by
  cases hget : A.get? key with
  | none => exact absurd (List.mem_of_getElem? hn) (get?_eq_none_iff.1 hget)
  | some m =>
    have hm := getElem?_of_get? hget
    obtain ⟨hlt, -⟩ := List.getElem?_eq_some_iff.1 hm
    rw [(List.getElem?_inj hlt h).1 (hm.trans hn.symm)]

end Aliases

/-! ## Rows -/

namespace Context

variable {ctx : Context} {allows : Nat × List String → Prop} {A B : Aliases NavigationJoin}
  {c : Chain} {row : Row}

/-- Whether the rows of a number come from an inner layer, if there are rows of this number. -/
def isDerived? (ctx : Context) (id : Nat) : Option Bool :=
  if id = 0 then some ctx.layer.isDerived else (ctx.layer.join? id).map (·.target.isSubquery)

/-- The row of a chain in a table: that of its source, or the one behind its last navigation, read
from the row ahead of it. -/
inductive RowOf (ctx : Context) (A : Aliases NavigationJoin) : Chain → Row → Prop where
  | source {id number : Nat} {derived : Bool} (hderived : ctx.isDerived? id = some derived)
    (hnumber : A.get? (sourceKey id) = some number) :
    RowOf ctx A ⟨id, []⟩ ⟨sourceKey id, number, ctx.layer.sourceType? id, derived, none⟩
  | navigation {c : Chain} {row : Row} {ty member name : String} {nav : Navigation}
    {fk : ForeignKey} {target : Entity} {number : Nat} {on : List (ColumnRef × ColumnRef)}
    (hrow : RowOf ctx A c row) (hty : row.ty = some ty)
    (hop : ctx.schema.Hop ty member name nav fk target)
    (hnumber : A.get? (c.next name).key = some number)
    (hon : ctx.keyColumns row target number fk = .ok on) :
    RowOf ctx A (c.next name)
      ⟨(c.next name).key, number, some nav.target, false, on.head?.map (·.2)⟩

namespace RowOf

theorem key_eq (h : ctx.RowOf A c row) : row.key = c.key := by
  cases h <;> rfl

theorem get?_key (h : ctx.RowOf A c row) : A.get? c.key = some row.number := by
  cases h with
  | source _ hnumber => exact hnumber
  | navigation _ _ _ hnumber => exact hnumber

theorem mono (h : ctx.RowOf A c row) (hAB : A.keys <+: B.keys) : ctx.RowOf B c row := by
  induction h with
  | source hderived hnumber => exact .source hderived (Aliases.get?_of_prefix hAB hnumber)
  | navigation _ hty hop hnumber hon ih =>
    exact .navigation ih hty hop (Aliases.get?_of_prefix hAB hnumber) hon

theorem of_source {id : Nat} (h : ctx.RowOf A ⟨id, []⟩ row) :
    ∃ derived, ctx.isDerived? id = some derived ∧
      row = ⟨sourceKey id, row.number, ctx.layer.sourceType? id, derived, none⟩ := by
  generalize hc : (⟨id, []⟩ : Chain) = c at h
  cases h with
  | source hderived =>
    cases hc
    exact ⟨_, hderived, rfl⟩
  | navigation => simp [Chain.next] at hc

end RowOf

/-- The matching columns of a navigation: on the left those of its owner, on the right those of the
rows behind it. -/
theorem mem_of_keyColumns {target : Entity} {number : Nat} {fk : ForeignKey}
    {on : List (ColumnRef × ColumnRef)} (h : ctx.keyColumns row target number fk = .ok on)
    {l r : ColumnRef} (hlr : (l, r) ∈ on) :
    r.row = number ∧ ∃ key ∈ fk.ownerKeys, ∃ dbType, ctx.column row key = .ok (l, dbType) := by
  obtain ⟨⟨ownerKey, targetKey⟩, hpair, h⟩ := exists_of_forall₂ (Compiled.mapM_eq_ok.1 h) _ hlr
  obtain ⟨⟨left, dbType⟩, hleft, h⟩ := Compiled.bind_eq_ok.1 h
  obtain ⟨column, -, h⟩ := Compiled.bind_eq_ok.1 h
  cases h
  exact ⟨rfl, ownerKey, (List.of_mem_zip hpair).1, dbType, hleft⟩

theorem row_of_column {member : String} {ref : ColumnRef} {dbType : Option DbType}
    (h : ctx.column row member = .ok (ref, dbType)) : ref.row = row.number := by
  unfold column at h
  split at h
  · cases h
    rfl
  · obtain ⟨entity, -, h⟩ := Compiled.bind_eq_ok.1 h
    split at h
    · cases h
      rfl
    · cases h
    · split at h
      · cases h
        rfl
      · cases h

/-! ## Growth -/

/-- A table with one navigation more, which a path of the allowed ones passes next. -/
inductive Adds (ctx : Context) (allows : Nat × List String → Prop) (A : Aliases NavigationJoin) :
    Aliases NavigationJoin → Prop where
  | mk {c : Chain} {row : Row} {ty member name : String} {nav : Navigation} {fk : ForeignKey}
    {target : Entity} {on : List (ColumnRef × ColumnRef)} {before behind : List String}
    (hpath : allows (c.source, before ++ member :: behind))
    (hbefore : before.length = c.names.length) (hrow : ctx.RowOf A c row) (hty : row.ty = some ty)
    (hop : ctx.schema.Hop ty member name nav fk target) (hnew : A.get? (c.next name).key = none)
    (hon : ctx.keyColumns row target A.keys.length fk = .ok on) :
    Adds ctx allows A ⟨A.keys ++ [(c.next name).key],
      A.joins ++ [⟨A.keys.length, target.table, on⟩]⟩

/-- A table and what becomes of it. -/
def Grows (ctx : Context) (allows : Nat × List String → Prop) :
    Aliases NavigationJoin → Aliases NavigationJoin → Prop :=
  Relation.ReflTransGen (ctx.Adds allows)

theorem Grows.keys_prefix (h : ctx.Grows allows A B) : A.keys <+: B.keys := by
  induction h with
  | refl => exact List.prefix_rfl
  | tail _ hadds ih =>
    cases hadds
    exact ih.trans (List.prefix_append _ _)

/-- How the table of a layer is laid out. -/
structure Laid (ctx : Context) (allows : Nat × List String → Prop) (A : Aliases NavigationJoin) :
    Prop where
  /-- the sources have the first numbers -/
  sources : (List.range (ctx.layer.joins.length + 1)).map sourceKey <+: A.keys
  nodup : A.keys.Nodup
  /-- behind them, each row has been joined -/
  length : A.keys.length = ctx.layer.joins.length + 1 + A.joins.length
  /-- to rows with a smaller number -/
  joins : ∀ i j, A.joins[i]? = some j → j.row = ctx.layer.joins.length + 1 + i ∧
    ∃ c row ty member name nav fk target, ∃ before behind : List String,
      allows (c.source, before ++ member :: behind) ∧ before.length = c.names.length ∧
      ctx.RowOf A c row ∧ row.ty = some ty ∧ ctx.schema.Hop ty member name nav fk target ∧
      row.number < j.row ∧ A.keys[j.row]? = some (c.next name).key ∧
      ctx.keyColumns row target j.row fk = .ok j.on

theorem RowOf.lt_length (h : ctx.RowOf A c row) : row.number < A.keys.length :=
  (List.getElem?_eq_some_iff.1 (Aliases.getElem?_of_get? h.get?_key)).1

/-- **A further navigation is joined behind all rows that are known.** -/
theorem Laid.adds (h : ctx.Laid allows A) (hadds : ctx.Adds allows A B) : ctx.Laid allows B := by
  cases hadds with
  | @mk c row ty member name nav fk target on before behind hpath hbefore hrow hty hop hnew hon =>
    have hgrows : A.keys <+: A.keys ++ [(c.next name).key] := List.prefix_append _ _
    refine ⟨h.sources.trans hgrows, ?_, by simp [h.length, Nat.add_assoc], fun i j hj => ?_⟩
    · rw [List.nodup_append]
      refine ⟨h.nodup, by simp, fun key hkey other hother => ?_⟩
      rw [List.mem_singleton] at hother
      rintro rfl
      exact Aliases.get?_eq_none_iff.1 hnew (hother ▸ hkey)
    · rw [List.getElem?_append] at hj
      split at hj
      · -- an earlier join is where it was
        obtain ⟨hnumber, c, row, ty, member, name, nav, fk, target, before, behind, hpath, hbefore,
          hrow, hty, hop, hlt, hkey, hon⟩ := h.joins i j hj
        refine ⟨hnumber, c, row, ty, member, name, nav, fk, target, before, behind, hpath, hbefore,
          hrow.mono hgrows, hty, hop, hlt, ?_, hon⟩
        rw [List.getElem?_append_left (List.getElem?_eq_some_iff.1 hkey).1]
        exact hkey
      · -- the new one stands at the end
        rename_i hi
        obtain ⟨hzero, rfl⟩ : i - A.joins.length = 0 ∧ _ = j := by
          simpa [List.getElem?_singleton] using hj
        have hi : i = A.joins.length := by omega
        refine ⟨by rw [hi, h.length], c, row, ty, member, name, nav, fk, target, before, behind,
          hpath, hbefore, hrow.mono hgrows, hty, hop, hrow.lt_length, ?_, hon⟩
        simp

/-- **However it grows, a table stays laid out as it is.** -/
theorem Laid.grows (h : ctx.Laid allows A) (hgrows : ctx.Grows allows A B) : ctx.Laid allows B := by
  induction hgrows with
  | refl => exact h
  | tail _ hadds ih => exact ih.adds hadds

end Context

end Sql

end QueryCompiler

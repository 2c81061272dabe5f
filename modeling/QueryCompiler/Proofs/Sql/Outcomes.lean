import QueryCompiler.Proofs.Sql.Parameters
import QueryCompiler.Proofs.Sql.Settled
/-!
# Outcomes of readings

Whether an expression can be read, and which error it meets if not, has nothing to do with the rows
and constants met before it: the scope only numbers them. `Concurs` says of two steps that they come
to the same outcome in any two scopes, with one rule for each way to compose steps, and
`Context.concurs_read` says it of an expression in two dialects. The results may differ in their
numbers and in the way patterns are escaped, so they are compared by what later steps look at: of
rows all but the number, of terms the type.

Nor do the clauses of a layer matter to its expressions, but only its rows. In contexts with the
same rows expressions are read by the same step (`Layer.SameRows.read_eq`).
-/

namespace QueryCompiler

open Sql

variable {α β : Type}

/-- Whether a step succeeds, and else its error. -/
def Compiled.outcome (x : Compiled α) : Compiled Unit := x.map fun _ => ()

theorem Compiled.outcome_eq_ok {x : Compiled α} : x.outcome = .ok () ↔ ∃ a, x = .ok a := by
  cases x with
  | error e => simp [outcome, Except.map]
  | ok a => simp [outcome, Except.map]

namespace Compiled.Alike

variable {R R' : α → α → Prop} {S : β → β → Prop} {x y : Compiled α}

theorem refl (x : Compiled α) (h : ∀ a, R a a) : Alike R x x := by
  cases x with
  | error e => exact rfl
  | ok a => exact h a

theorem imp (h : Alike R x y) (hR : ∀ a b, R a b → R' a b) : Alike R' x y := by
  cases x <;> cases y
  · exact h
  · exact h.elim
  · exact h.elim
  · exact hR _ _ h

theorem bind {f g : α → Compiled β} (h : Alike R x y) (hf : ∀ a b, R a b → Alike S (f a) (g b)) :
    Alike S (x >>= f) (y >>= g) := by
  cases x <;> cases y
  · exact h
  · exact h.elim
  · exact h.elim
  · exact hf _ _ h

theorem mapM {f g : β → Compiled α} {l : List β} (h : ∀ b ∈ l, Alike R (f b) (g b)) :
    Alike (List.Forall₂ R) (l.mapM f) (l.mapM g) := by
  induction l with
  | nil => exact List.Forall₂.nil
  | cons b l ih =>
    rw [List.mapM_cons, List.mapM_cons]
    refine bind (h b (by simp)) fun a a' ha => ?_
    exact bind (ih fun b hb => h b (by simp [hb])) fun as as' has => List.Forall₂.cons ha has

theorem outcome_eq (h : Alike R x y) : x.outcome = y.outcome := by
  cases x <;> cases y
  · exact congrArg Except.error h
  · exact h.elim
  · exact h.elim
  · rfl

end Compiled.Alike

namespace Sql

/-- Two steps come to the same outcome, whatever the scopes they start in: both succeed, with
results that are related, or both fail with one error. -/
def Concurs (R : α → α → Prop) (x y : Reading α) : Prop :=
  ∀ s t, Compiled.Alike (fun a b => R a.1 b.1) (x.run s) (y.run t)

/-- A step that fails in no scope. -/
def Sure (x : Reading α) : Prop := ∀ s, ∃ r, x.run s = .ok r

namespace Sure

theorem pure {a : α} : Sure (Pure.pure a) := fun _ => ⟨_, rfl⟩

theorem bind {x : Reading α} {f : α → Reading β} (hx : Sure x) (hf : ∀ a, Sure (f a)) :
    Sure (x >>= f) := by
  intro s
  obtain ⟨⟨a, s'⟩, ha⟩ := hx s
  obtain ⟨r, hr⟩ := hf a s'
  exact ⟨r, Compiled.bind_eq_ok.2 ⟨(a, s'), ha, hr⟩⟩

theorem mapM {f : α → Reading β} {l : List α} (h : ∀ a ∈ l, Sure (f a)) : Sure (l.mapM f) := by
  induction l with
  | nil => exact pure
  | cons a l ih =>
    rw [List.mapM_cons]
    refine bind (h a (by simp)) fun b => ?_
    exact bind (ih fun a ha => h a (by simp [ha])) fun bs => pure

theorem concurs {x y : Reading α} (hx : Sure x) (hy : Sure y) :
    Concurs (fun _ _ => True) x y := by
  intro s t
  obtain ⟨r, hr⟩ := hx s
  obtain ⟨r', hr'⟩ := hy t
  rw [hr, hr']
  trivial

end Sure

namespace Concurs

variable {R R' : α → α → Prop} {S : β → β → Prop} {x y : Reading α}

theorem pure {a b : α} (h : R a b) : Concurs R (Pure.pure a) (Pure.pure b) := fun _ _ => h

theorem throw {e : CompileError} : Concurs R (MonadExcept.throw e) (MonadExcept.throw e) :=
  fun _ _ => rfl

theorem imp (h : Concurs R x y) (hR : ∀ a b, R a b → R' a b) : Concurs R' x y :=
  fun s t => (h s t).imp fun _ _ => hR _ _

theorem bind {f g : α → Reading β} (h : Concurs R x y)
    (hf : ∀ a b, R a b → Concurs S (f a) (g b)) : Concurs S (x >>= f) (y >>= g) :=
  fun s t => (h s t).bind fun a b hab => hf a.1 b.1 hab a.2 b.2

theorem lift {x y : Compiled α} (h : Compiled.Alike R x y) : Concurs R (liftM x) (liftM y) :=
  fun _ _ => h.bind fun _ _ hab => hab

theorem lift_bind {x : Compiled α} {f g : α → Reading β} (h : ∀ a, Concurs S (f a) (g a)) :
    Concurs S (liftM x >>= f) (liftM x >>= g) :=
  bind (lift (.refl x fun _ => rfl)) fun a _ hab => hab ▸ h a

theorem mapM {f g : β → Reading α} {l : List β} (h : ∀ b ∈ l, Concurs R (f b) (g b)) :
    Concurs (List.Forall₂ R) (l.mapM f) (l.mapM g) := by
  induction l with
  | nil => exact pure .nil
  | cons b l ih =>
    rw [List.mapM_cons, List.mapM_cons]
    refine bind (h b (by simp)) fun a a' ha => ?_
    exact bind (ih fun b hb => h b (by simp [hb])) fun as as' has => pure (.cons ha has)

theorem option_mapM {f g : β → Reading α} {o : Option β} (h : ∀ b ∈ o, Concurs R (f b) (g b)) :
    Concurs (fun _ _ => True) (o.mapM f) (o.mapM g) := by
  cases o with
  | none => exact pure trivial
  | some b => exact bind (h b rfl) fun _ _ _ => pure trivial

end Concurs

/-! ## Constants -/

namespace Reading

theorem sure_request (key : String) : Sure (request key) := fun _ => ⟨_, rfl⟩

mutual

theorem sure_constant {dbType : DbType} {size : Option Nat} : ∀ v, Sure (constant dbType size v)
  | .null => .pure
  | .list items => .bind (sure_constants items) fun _ => .pure
  | .bool _ | .int _ | .float _ | .decimal _ | .string _ | .dateTime _ | .guid _ =>
    fun _ => ⟨_, rfl⟩

theorem sure_constants : ∀ vs, Sure (constants vs)
  | [] => .pure
  | v :: vs => .bind (sure_constant v) fun _ => .bind (sure_constants vs) fun _ => .pure

end

theorem concurs_constant {dbType dbType' : DbType} {size size' : Option Nat} {v v' : Value} :
    Concurs (fun _ _ => True) (constant dbType size v) (constant dbType' size' v') :=
  (sure_constant v).concurs (sure_constant v')

end Reading

/-! ## Rows and paths -/

/-- Rows alike but for their number. -/
structure Row.Like (row row' : Row) : Prop where
  key : row.key = row'.key
  ty : row.ty = row'.ty
  derived : row.derived = row'.derived
  existence : row.existence.isSome = row'.existence.isSome

/-- Paths that lead to columns of one type, or to rows alike. -/
def Resolved.Like : Resolved → Resolved → Prop
  | .column _ dbType, .column _ dbType' => dbType = dbType'
  | .row r many, .row r' many' => r.Like r' ∧ many = many'
  | _, _ => False

namespace Context

variable {ctx : Context} {row row' : Row}

theorem concurs_source (id : Nat) : Concurs Row.Like (ctx.source id) (ctx.source id) := by
  rw [source_eq]
  split
  · refine .bind ((Reading.sure_request _).concurs (Reading.sure_request _)) ?_
    exact fun _ _ _ => .pure ⟨rfl, rfl, rfl, rfl⟩
  · exact .throw

theorem alike_column (h : row.Like row') (member : String) :
    Compiled.Alike (fun a b => a.2 = b.2) (ctx.column row member) (ctx.column row' member) := by
  unfold column
  rw [h.ty, h.derived]
  cases row'.ty with
  | none => exact rfl
  | some ty =>
    refine .bind (.refl (ctx.schema.entity ty) fun _ => rfl) ?_
    rintro entity _ rfl
    split
    · exact rfl
    · exact rfl
    · split <;> exact rfl

theorem alike_keyColumns (h : row.Like row') (target : Entity) (n n' : Nat) (fk : ForeignKey) :
    Compiled.Alike (List.Forall₂ fun _ _ => True) (ctx.keyColumns row target n fk)
      (ctx.keyColumns row' target n' fk) := by
  refine .mapM fun pair _ => .bind (alike_column h pair.1) fun _ _ _ => ?_
  exact .bind (.refl (R := Eq) (target.column pair.2) fun _ => rfl) fun _ _ _ => trivial

theorem concurs_behind (h : row.Like row') (name : String) (nav : Navigation) (fk : ForeignKey)
    (target : Entity) :
    Concurs (fun a b => a.1.Like b.1 ∧ a.2 = b.2) (ctx.behind row name nav fk target)
      (ctx.behind row' name nav fk target) := by
  -- known or not, the rows differ in their number and in what is added to the table
  have hrun (row : Row) (s : Scope) : ∃ n, ∃ after : List (ColumnRef × ColumnRef) → Scope,
      (ctx.behind row name nav fk target).run s = (do
        let on ← ctx.keyColumns row target n fk
        return ((⟨row.key ++ "." ++ name, n, some nav.target, false, on.head?.map (·.2)⟩, nav.many),
          after on)) := by
    cases hknown : s.aliases.get? (row.key ++ "." ++ name) with
    | some n => exact ⟨n, fun _ => s, run_behind_of_some hknown⟩
    | none => exact ⟨_, _, run_behind_of_none hknown⟩
  intro s t
  obtain ⟨n, after, hs⟩ := hrun row s
  obtain ⟨n', after', ht⟩ := hrun row' t
  rw [hs, ht]
  refine .bind (alike_keyColumns h target n n' fk) fun on on' hon => ?_
  have hfirst : (on.head?.map (·.2)).isSome = (on'.head?.map (·.2)).isSome := by
    cases hon <;> rfl
  exact ⟨⟨by rw [h.key], rfl, rfl, hfirst⟩, rfl⟩

theorem concurs_navigation (h : row.Like row') (member : String) :
    Concurs (fun a b => a.1.Like b.1 ∧ a.2 = b.2) (ctx.navigation row member)
      (ctx.navigation row' member) := by
  rw [navigation_eq, navigation_eq, h.ty]
  cases row'.ty with
  | none => exact .throw
  | some ty =>
    refine .lift_bind fun owner => ?_
    split
    · split
      · exact .throw
      · exact .lift_bind fun target => concurs_behind h _ _ _ target
    · exact .throw

theorem concurs_walk : ∀ {row row' : Row} (path : List String), row.Like row' →
    Concurs Resolved.Like (ctx.walk row path) (ctx.walk row' path)
  | _, _, [], h => .pure ⟨h, rfl⟩
  | row, row', [last], h => by
    have hsame : ctx.isNavigation row last = ctx.isNavigation row' last := by
      unfold isNavigation
      rw [h.ty]
    unfold walk
    rw [hsame]
    refine .lift_bind fun isNavigation => ?_
    split
    · exact .bind (concurs_navigation h last) fun _ _ hab => .pure hab
    · exact .bind (.lift (alike_column h last)) fun _ _ hab => .pure hab
  | _, _, hop :: hop' :: hops, h => by
    unfold walk
    refine .bind (concurs_navigation h hop) fun found found' hab => ?_
    obtain ⟨next, many⟩ := found
    obtain ⟨next', many'⟩ := found'
    obtain ⟨hnext, rfl⟩ := hab
    dsimp only
    split
    · exact .bind (R := fun _ _ => True) Concurs.throw fun _ _ _ => concurs_walk _ hnext
    · exact concurs_walk _ hnext

theorem concurs_memberValue (target : Expr) (name : String) :
    Concurs (fun a b => a.dbType = b.dbType) (ctx.memberValue target name)
      (ctx.memberValue target name) := by
  unfold memberValue
  split
  · exact .throw
  · rename_i id path _
    have hresolve : Concurs Resolved.Like (ctx.resolve id path) (ctx.resolve id path) :=
      Concurs.bind (concurs_source id) fun _ _ h => concurs_walk path h
    refine .bind hresolve fun r r' h => ?_
    cases r <;> cases r'
    · exact .pure h
    · exact h.elim
    · exact h.elim
    · dsimp only
      rw [h.1.ty, h.1.key]
      exact .throw

end Context

/-! ## Methods -/

/-- A reading whose outcome is the same in every scope. -/
def Steady (R : α → α → Prop) (x : Reading α) : Prop := Concurs R x x

/-- Terms of the same type. The type of a term that is read as a test does not matter. -/
def Typed.Like (wantTest : Bool) (t u : Typed) : Prop := wantTest = false → t.dbType = u.dbType

namespace Typed

variable {t u : Typed}

theorem like_ofTest {wantTest : Bool} {test test' : Term} :
    Like wantTest (ofTest wantTest test) (ofTest wantTest test') := fun _ => rfl

theorem like_ofValue {wantTest : Bool} (h : t.dbType = u.dbType) :
    Like wantTest (ofValue wantTest t) (ofValue wantTest u) := by
  rintro rfl
  exact h

theorem isString_congr (h : t.dbType = u.dbType) (e : Expr) : t.isString e = u.isString e := by
  unfold isString
  rw [h]

theorem alike_aggregate (f : AggregateFunc) {t u : Option Typed}
    (h : Option.Rel (Like false) t u) :
    Compiled.Alike (Like false) (aggregate f t) (aggregate f u) := by
  cases h with
  | none => exact .refl _ fun _ _ => rfl
  | some h => exact h

end Typed

namespace Part

variable {d d' : Dialect} {t t' arg arg' : Part}

/-- Parts of one expression that can be read both or neither. -/
structure Like (p p' : Part) : Prop where
  expr : p.expr = p'.expr
  value : Concurs (Typed.Like false) p.value p'.value

theorem concurs_values {ps ps' : List Part} (h : List.Forall₂ Like ps ps') :
    Concurs (fun _ _ => True) (ps.mapM (·.value)) (ps'.mapM (·.value)) := by
  induction h with
  | nil => exact .pure trivial
  | cons hp _ ih =>
    rw [List.mapM_cons, List.mapM_cons]
    exact .bind hp.value fun _ _ _ => .bind ih fun _ _ _ => .pure trivial

theorem concurs_inList {items : List Value} (harg : arg.Like arg') :
    Concurs (Typed.Like false) (inList items arg) (inList items arg') := by
  unfold inList
  split
  · exact .pure fun _ => rfl
  · refine .bind harg.value fun _ _ _ => ?_
    exact .bind Reading.concurs_constant fun _ _ _ => .pure fun _ => rfl

theorem concurs_pattern {before behind : Bool} (harg : arg.Like arg') :
    Concurs (fun _ _ => True) (pattern d arg before behind) (pattern d' arg' before behind) := by
  unfold pattern
  rw [harg.expr]
  split
  · exact .throw
  · exact Reading.concurs_constant
  · exact .bind harg.value fun _ _ _ => .pure trivial

theorem concurs_like {before behind : Bool} (ht : t.Like t') (harg : arg.Like arg') :
    Concurs (Typed.Like false) (like d t arg before behind) (like d' t' arg' before behind) := by
  refine .bind ht.value fun _ _ _ => ?_
  exact .bind (concurs_pattern harg) fun _ _ _ => .pure fun _ => rfl

theorem concurs_equals (ht : t.Like t') (harg : arg.Like arg') :
    Concurs (Typed.Like false) (equals t arg) (equals t' arg') := by
  unfold equals
  rw [harg.expr]
  refine .bind ht.value fun _ _ _ => ?_
  split
  · exact .pure fun _ => rfl
  · exact .bind harg.value fun _ _ _ => .pure fun _ => rfl

theorem concurs_position (ht : t.Like t') :
    Concurs (fun _ _ => True) (position t) (position t') := by
  unfold position
  rw [ht.expr]
  split
  · exact .pure trivial
  · exact .bind ht.value fun _ _ _ => .pure trivial

theorem concurs_substring {length length' : Option Part} (ht : t.Like t') (harg : arg.Like arg')
    (hlength : Option.Rel Like length length') :
    Concurs (Typed.Like false) (substring t arg length) (substring t' arg' length') := by
  refine .bind ht.value fun _ _ _ => .bind (concurs_position harg) fun _ _ _ => ?_
  refine .bind (R := fun _ _ => True) ?_ fun _ _ _ => .pure fun _ => rfl
  cases hlength with
  | none => exact .pure trivial
  | some h => exact .bind h.value fun _ _ _ => .pure trivial

theorem concurs_stringCall {function : String} {args args' : List Part}
    (hargs : List.Forall₂ Like args args') :
    Concurs (Typed.Like false) (stringCall function args) (stringCall function args') :=
  Concurs.bind (concurs_values hargs) fun _ _ _ => .pure fun _ => rfl

theorem alike_property {t u : Term} (name : String) :
    Compiled.Alike (Typed.Like false) (property t name) (property u name) := by
  unfold property
  split <;> first | exact fun _ => rfl | exact rfl

/-- **A call comes to the same outcome in every scope and dialect**, whichever of its parts it
reads. -/
theorem concurs_call {method : String} {target target' : Option Part} {args args' : List Part}
    (htarget : Option.Rel Like target target') (hargs : List.Forall₂ Like args args') :
    Concurs (Typed.Like false) (call d method target args) (call d' method target' args') := by
  rw [call.eq_def d]
  split
  -- membership in a list or a part of a string, then the other tests of strings
  case h_1 t arg =>
    obtain ht | _ := htarget
    obtain _ | ⟨harg, _ | _⟩ := hargs
    simp only [call]
    rw [ht.expr]
    split
    · exact concurs_inList harg
    · exact concurs_like ht harg
  case h_2 list item =>
    cases htarget
    obtain _ | ⟨hlist, _ | ⟨hitem, _ | _⟩⟩ := hargs
    simp only [call]
    rw [hlist.expr]
    split
    · exact concurs_inList hitem
    · exact .throw
  case h_3 t arg | h_4 t arg =>
    obtain ht | _ := htarget
    obtain _ | ⟨harg, _ | _⟩ := hargs
    simp only [call]
    exact concurs_like ht harg
  case h_5 t arg =>
    obtain ht | _ := htarget
    obtain _ | ⟨harg, _ | _⟩ := hargs
    simp only [call]
    exact concurs_equals ht harg
  -- functions of strings
  case h_6 t start =>
    obtain ht | _ := htarget
    obtain _ | ⟨hstart, _ | _⟩ := hargs
    simp only [call]
    exact concurs_substring ht hstart .none
  case h_7 t start length =>
    obtain ht | _ := htarget
    obtain _ | ⟨hstart, _ | ⟨hlength, _ | _⟩⟩ := hargs
    simp only [call]
    exact concurs_substring ht hstart (.some hlength)
  case h_8 t | h_15 t =>
    obtain ht | _ := htarget
    cases hargs
    simp only [call]
    exact .bind ht.value fun _ _ _ => .pure fun _ => rfl
  case h_9 t | h_10 t | h_11 t | h_12 t =>
    obtain ht | _ := htarget
    cases hargs
    simp only [call]
    exact concurs_stringCall (.cons ht .nil)
  case h_13 t =>
    obtain ht | _ := htarget
    cases hargs
    simp only [call]
    exact .bind ht.value fun _ _ _ => .lift (alike_property _)
  case h_14 t before behind =>
    obtain ht | _ := htarget
    obtain _ | ⟨hbefore, _ | ⟨hbehind, _ | _⟩⟩ := hargs
    simp only [call]
    exact concurs_stringCall (.cons ht (.cons hbefore (.cons hbehind .nil)))
  case h_16 arg =>
    cases htarget
    obtain _ | ⟨harg, _ | _⟩ := hargs
    simp only [call]
    exact .bind harg.value fun _ _ _ => .pure fun _ => rfl
  case h_17 part parts =>
    cases htarget
    obtain _ | ⟨hpart, hparts⟩ := hargs
    simp only [call]
    exact .bind (concurs_values (.cons hpart hparts)) fun _ _ _ => .pure fun _ => rfl
  -- moments and numbers
  case h_18 | h_19 =>
    cases htarget
    cases hargs
    simp only [call]
    exact .pure fun _ => rfl
  case h_20 arg | h_21 arg =>
    cases htarget
    obtain _ | ⟨harg, _ | _⟩ := hargs
    simp only [call]
    exact .bind harg.value fun _ _ h => .pure h
  case h_22 arg digits =>
    cases htarget
    obtain _ | ⟨harg, _ | ⟨hdigits, _ | _⟩⟩ := hargs
    simp only [call]
    refine .bind harg.value fun _ _ h => ?_
    exact .bind hdigits.value fun _ _ _ => .pure h
  case h_23 =>
    rw [hargs.length_eq]
    -- what the one dialect does not know, the other does not know either
    rcases htarget with _ | _ <;> rcases hargs with _ | ⟨_, _ | ⟨_, _ | _⟩⟩
    all_goals
      rw [call.eq_def d']
      split <;> first | exact .throw | (exfalso; grind only)

end Part

/-! ## Expressions -/

namespace Context

variable {ctx : Context} {d : Dialect}

def inDialect (ctx : Context) (d : Dialect) : Context := { ctx with dialect := d }

theorem walk_inDialect : ∀ row path, (ctx.inDialect d).walk row path = ctx.walk row path
  | _, [] => rfl
  | _, [_] => rfl
  | row, hop :: hop' :: hops => by
    unfold walk
    refine bind_congr fun found => ?_
    simp only [walk_inDialect found.1]

theorem resolve_inDialect (id : Nat) (path : List String) :
    (ctx.inDialect d).resolve id path = ctx.resolve id path := by
  unfold resolve
  exact bind_congr fun row => walk_inDialect row path

theorem memberValue_inDialect (target : Expr) (name : String) :
    (ctx.inDialect d).memberValue target name = ctx.memberValue target name := by
  unfold memberValue
  simp only [resolve_inDialect]

mutual

/-- **An expression comes to the same outcome in every scope and dialect**, read as a value or as a
test. -/
theorem concurs_read {wantTest : Bool} : ∀ e,
    Concurs (Typed.Like wantTest) (ctx.read wantTest e) ((ctx.inDialect d).read wantTest e)
  | .member target name => by
    unfold read
    rw [memberValue_inDialect]
    refine .lift_bind fun isProperty => ?_
    split
    · refine .bind (concurs_read target) fun _ _ _ => ?_
      refine .bind (.lift (Part.alike_property name)) fun _ _ h => ?_
      exact .pure (Typed.like_ofValue (h rfl))
    · refine .bind (concurs_memberValue target name) fun _ _ h => ?_
      exact .pure (Typed.like_ofValue h)
  | .constant v => by
    unfold read
    split
    · exact .pure fun _ => rfl
    · refine .bind Reading.concurs_constant fun _ _ _ => ?_
      exact .pure (Typed.like_ofValue rfl)
  | .binary op l r => by
    have hr : Concurs (Typed.Like false) (ctx.read false r) ((ctx.inDialect d).read false r) :=
      concurs_read r
    unfold read
    split
    · refine .bind (concurs_read l) fun _ _ _ => ?_
      exact .bind (concurs_read r) fun _ _ _ => .pure Typed.like_ofTest
    · split
      · dsimp only
        -- the subject is the side that is not null, and is read alike on both
        split
        all_goals
          refine .bind (concurs_read _) fun subject subject' h => ?_
          split
          · exact .pure Typed.like_ofTest
          · -- whether the other side takes the type of the subject is a matter of that type
            rw [h rfl]
            split
            · refine .bind Reading.concurs_constant fun _ _ _ => ?_
              exact .pure Typed.like_ofTest
            · exact .bind hr fun _ _ _ => .pure Typed.like_ofTest
      · refine .bind (concurs_read l) fun left left' hleft => ?_
        refine .bind hr fun right right' hright => ?_
        refine .pure (Typed.like_ofValue ?_)
        rw [Typed.isString_congr (hleft rfl), Typed.isString_congr (hright rfl)]
        split
        · exact hleft rfl
        · split
          · rfl
          · simp only [Typed.arithmetic, hleft rfl, hright rfl]
  | .unary .not e => by
    have he (want : Bool) :
        Concurs (Typed.Like want) (ctx.read want e) ((ctx.inDialect d).read want e) :=
      concurs_read e
    unfold read
    split
    all_goals exact .bind (he _) fun _ _ _ => .pure Typed.like_ofTest
  | .unary .negate e => by
    unfold read
    refine .bind (concurs_read e) fun _ _ h => ?_
    exact .pure (Typed.like_ofValue (h rfl))
  | .conditional t a b => by
    unfold read
    refine .bind (concurs_read t) fun _ _ _ => ?_
    refine .bind (concurs_read a) fun _ _ ha => ?_
    refine .bind (concurs_read b) fun _ _ hb => ?_
    refine .pure (Typed.like_ofValue ?_)
    simp only [ha rfl, hb rfl]
  | .aggregate f arg => by
    unfold read
    refine .bind (concurs_readOption arg) fun t u h => ?_
    refine .bind (.lift (Typed.alike_aggregate f h)) fun _ _ h => ?_
    exact .pure (Typed.like_ofValue (h rfl))
  | .call method target args => by
    unfold read
    refine .bind (Part.concurs_call (like_partOption target) (like_parts args)) ?_
    exact fun _ _ h => .pure (Typed.like_ofValue (h rfl))
  | .source _ | .object _ _ | .param _ | .lambda _ | .query _ | .grouping _ _
  | .joinGroup _ _ => by
    unfold read
    exact .throw

theorem concurs_readOption : ∀ e,
    Concurs (Option.Rel (Typed.Like false)) (ctx.readOption e) ((ctx.inDialect d).readOption e)
  | none => .pure .none
  | some e => by
    unfold readOption
    exact .bind (concurs_read e) fun _ _ h => .pure (.some h)

theorem like_parts : ∀ es,
    List.Forall₂ Part.Like (ctx.parts es) ((ctx.inDialect d).parts es)
  | [] => by
    simp only [parts]
    exact .nil
  | e :: es => by
    simp only [parts]
    exact .cons ⟨rfl, concurs_read e⟩ (like_parts es)

theorem like_partOption : ∀ e,
    Option.Rel Part.Like (ctx.partOption e) ((ctx.inDialect d).partOption e)
  | none => by
    simp only [partOption]
    exact .none
  | some e => by
    simp only [partOption]
    exact .some ⟨rfl, concurs_read e⟩

end

theorem concurs_value (e : Expr) :
    Concurs (fun _ _ => True) (ctx.value e) ((ctx.inDialect d).value e) :=
  Concurs.bind (concurs_read e) fun _ _ _ => .pure trivial

theorem concurs_test (e : Expr) :
    Concurs (fun _ _ => True) (ctx.test e) ((ctx.inDialect d).test e) :=
  Concurs.bind (concurs_read e) fun _ _ _ => .pure trivial

theorem concurs_groupTerms (key : Expr) :
    Concurs (fun _ _ => True) (ctx.groupTerms key) ((ctx.inDialect d).groupTerms key) := by
  unfold groupTerms
  split
  · exact .imp (.mapM fun b _ => concurs_value b.value) fun _ _ _ => trivial
  · exact .bind (concurs_value key) fun _ _ _ => .pure trivial

theorem concurs_sortKeys (orders : List Order) :
    Concurs (fun keys keys' => keys.isEmpty = keys'.isEmpty) (ctx.sortKeys orders)
      ((ctx.inDialect d).sortKeys orders) := by
  refine .imp (R := List.Forall₂ fun _ _ => True) (.mapM fun o _ => ?_) ?_
  · exact .bind (concurs_value o.expr) fun _ _ _ => .pure trivial
  · rintro _ _ ⟨⟩ <;> rfl

/-! A context is itself in its own dialect. -/

theorem steady_test (e : Expr) : Steady (fun _ _ => True) (ctx.test e) :=
  concurs_test (d := ctx.dialect) e

theorem steady_groupTerms (key : Expr) : Steady (fun _ _ => True) (ctx.groupTerms key) :=
  concurs_groupTerms (d := ctx.dialect) key

theorem steady_sortKeys (orders : List Order) :
    Steady (fun keys keys' => keys.isEmpty = keys'.isEmpty) (ctx.sortKeys orders) :=
  concurs_sortKeys (d := ctx.dialect) orders

end Context

end Sql

/-! ## Layers with the same rows -/

/-- Layers that read and join the same rows, whatever their clauses. -/
structure Layer.SameRows (l l' : Layer) : Prop where
  source : l.source = l'.source
  isDerived : l.isDerived = l'.isDerived
  joins : l.joins = l'.joins

namespace Layer.SameRows

variable {schema : Schema} {dialect : Dialect} {l l' : Layer}

theorem source_eq (h : l.SameRows l') (id : Nat) :
    Context.source ⟨schema, dialect, l⟩ id = Context.source ⟨schema, dialect, l'⟩ id := by
  simp only [Context.source, sourceType?, join?, h.source, h.isDerived, h.joins]

theorem walk_eq (l l' : Layer) : ∀ row path,
    Context.walk ⟨schema, dialect, l⟩ row path = Context.walk ⟨schema, dialect, l'⟩ row path
  | _, [] => rfl
  | _, [_] => rfl
  | row, hop :: hop' :: hops => by
    unfold Context.walk
    refine bind_congr fun found => ?_
    simp only [walk_eq l l' found.1]

theorem resolve_eq (h : l.SameRows l') (id : Nat) (path : List String) :
    Context.resolve ⟨schema, dialect, l⟩ id path =
      Context.resolve ⟨schema, dialect, l'⟩ id path := by
  simp only [Context.resolve, h.source_eq, walk_eq l l']

theorem memberValue_eq (h : l.SameRows l') (target : Expr) (name : String) :
    Context.memberValue ⟨schema, dialect, l⟩ target name =
      Context.memberValue ⟨schema, dialect, l'⟩ target name := by
  simp only [Context.memberValue, h.resolve_eq]

theorem isPropertyOf_eq (h : l.SameRows l') (target : Expr) (name : String) :
    Context.isPropertyOf ⟨schema, dialect, l⟩ target name =
      Context.isPropertyOf ⟨schema, dialect, l'⟩ target name := by
  simp only [Context.isPropertyOf, shape_congr (sourceType?_congr h.source h.joins) h.isDerived]

mutual

/-- **Layers with the same rows read an expression alike.** -/
theorem read_eq (h : l.SameRows l') (wantTest : Bool) : ∀ e,
    Context.read ⟨schema, dialect, l⟩ wantTest e = Context.read ⟨schema, dialect, l'⟩ wantTest e
  | .member target name => by
    simp only [Context.read, h.isPropertyOf_eq, h.memberValue_eq, read_eq h false target]
  | .binary op a b => by
    simp only [Context.read, read_eq h true a, read_eq h true b, read_eq h false a,
      read_eq h false b]
  | .unary .not e => by
    have he (want : Bool) : Context.read ⟨schema, dialect, l⟩ want e =
        Context.read ⟨schema, dialect, l'⟩ want e := read_eq h want e
    unfold Context.read
    simp only [he]
  | .unary .negate e => by simp only [Context.read, read_eq h false e]
  | .conditional t a b => by
    simp only [Context.read, read_eq h true t, read_eq h false a, read_eq h false b]
  | .aggregate f arg => by simp only [Context.read, readOption_eq h arg]
  | .call method target args => by
    simp only [Context.read, partOption_eq h target, parts_eq h args]
  | .constant _ | .source _ | .object _ _ | .param _ | .lambda _ | .query _ | .grouping _ _
  | .joinGroup _ _ => by simp only [Context.read]

theorem readOption_eq (h : l.SameRows l') : ∀ e,
    Context.readOption ⟨schema, dialect, l⟩ e = Context.readOption ⟨schema, dialect, l'⟩ e
  | none => rfl
  | some e => by simp only [Context.readOption, read_eq h false e]

theorem parts_eq (h : l.SameRows l') : ∀ es,
    Context.parts ⟨schema, dialect, l⟩ es = Context.parts ⟨schema, dialect, l'⟩ es
  | [] => rfl
  | e :: es => by simp only [Context.parts, read_eq h false e, parts_eq h es]

theorem partOption_eq (h : l.SameRows l') : ∀ e,
    Context.partOption ⟨schema, dialect, l⟩ e = Context.partOption ⟨schema, dialect, l'⟩ e
  | none => rfl
  | some e => by simp only [Context.partOption, read_eq h false e]

end

theorem value_eq (h : l.SameRows l') :
    Context.value ⟨schema, dialect, l⟩ = Context.value ⟨schema, dialect, l'⟩ := by
  funext e
  simp only [Context.value, h.read_eq]

theorem test_eq (h : l.SameRows l') :
    Context.test ⟨schema, dialect, l⟩ = Context.test ⟨schema, dialect, l'⟩ := by
  funext e
  simp only [Context.test, h.read_eq]

theorem groupTerms_eq (h : l.SameRows l') :
    Context.groupTerms ⟨schema, dialect, l⟩ = Context.groupTerms ⟨schema, dialect, l'⟩ := by
  funext key
  simp only [Context.groupTerms, h.value_eq]

theorem sortKeys_eq (h : l.SameRows l') :
    Context.sortKeys ⟨schema, dialect, l⟩ = Context.sortKeys ⟨schema, dialect, l'⟩ := by
  funext orders
  simp only [Context.sortKeys, h.value_eq]

theorem joins_eq (h : l.SameRows l') :
    Context.joins ⟨schema, dialect, l⟩ = Context.joins ⟨schema, dialect, l'⟩ := by
  funext inner
  simp only [Context.joins, Context.joinKeys, h.joins, h.source_eq, h.value_eq]

theorem relation_eq (h : l.SameRows l') :
    Context.relation ⟨schema, dialect, l⟩ = Context.relation ⟨schema, dialect, l'⟩ := by
  funext inner
  simp only [Context.relation, Context.table, h.source]

/-- The columns of whole rows with the paths loaded along. -/
theorem selectList_eq (h : l.SameRows l') (id : Nat) (includes : List (List String)) :
    Context.selectList ⟨schema, dialect, l⟩ (.source id) includes =
      Context.selectList ⟨schema, dialect, l'⟩ (.source id) includes := by
  simp only [Context.selectList, Context.entityColumns, Context.rowColumns, h.source_eq,
    h.resolve_eq]

end Layer.SameRows

end QueryCompiler

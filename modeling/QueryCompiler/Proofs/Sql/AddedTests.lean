import QueryCompiler.Proofs.Sql.Outcomes
import QueryCompiler.Proofs.Sql.Rendered
/-!
# Tests added to a query

A test that is added to the whole rows of a query is read behind what selects and joins these rows
and behind the tests before it, and all else is read as it would be without the test. So if the test
can be read, the query compiles exactly if it did before. If it cannot, the query fails, and with
the error of the test unless it met another one before.

`Compiled.Interposed` is this comparison of two outcomes, for a test that comes to `v` in every
scope. It is carried from the clauses of a layer (`interposes_clauses`) through both halves of a
layer that is split, to the command of a draft (`Draft.interposed_command`).
-/

namespace QueryCompiler

open Sql

variable {α β : Type}

/-! ## Interposed outcomes -/

namespace Compiled

/-- The second of two steps is the first one with `v` interposed. If `v` is a success they are
alike. If it is an error the second fails, with that error or with the one of the first. -/
def Interposed (v : Compiled Unit) (R : α → α → Prop) (x y : Compiled α) : Prop :=
  match v with
  | .ok _ => Alike R x y
  | .error e => y = .error e ∨ ∃ e', x = .error e' ∧ y = .error e'

namespace Interposed

variable {v : Compiled Unit} {R : α → α → Prop} {S : β → β → Prop}

theorem bind_same {x : Compiled α} {f g : α → Compiled β}
    (h : ∀ a, x = .ok a → Interposed v S (f a) (g a)) : Interposed v S (x >>= f) (x >>= g) := by
  cases x with
  | ok a => exact h a rfl
  | error e =>
    cases v with
    | ok _ => exact rfl
    | error _ => exact .inr ⟨e, rfl, rfl⟩

theorem bind {x y : Compiled α} {f g : α → Compiled β} (h : Interposed v R x y)
    (hf : ∀ a b, R a b → Alike S (f a) (g b)) : Interposed v S (x >>= f) (y >>= g) := by
  cases v with
  | ok _ => exact Alike.bind h hf
  | error _ =>
    rcases h with rfl | ⟨e', rfl, rfl⟩
    · exact .inl rfl
    · exact .inr ⟨e', rfl, rfl⟩

end Interposed

end Compiled

namespace Sql

/-- The second of two readings is the first one with `v` interposed, whatever the scope they start
in. -/
def Interposes (v : Compiled Unit) (R : α → α → Prop) (x y : Reading α) : Prop :=
  ∀ s, Compiled.Interposed v (fun a b => R a.1 b.1) (x.run s) (y.run s)

/-- A reading comes to the outcome `v` in every scope. -/
def ComesTo (v : Compiled Unit) (x : Reading α) : Prop := ∀ s, (x.run s).outcome = v

namespace Interposes

variable {v : Compiled Unit} {R : α → α → Prop} {S : β → β → Prop} {x : Reading α}

theorem bind_same {f g : α → Reading β} (h : ∀ a, Interposes v S (f a) (g a)) :
    Interposes v S (x >>= f) (x >>= g) :=
  fun _ => .bind_same fun a _ => h a.1 a.2

theorem bind {y : Reading α} {f g : α → Reading β} (h : Interposes v R x y)
    (hf : ∀ a b, R a b → Concurs S (f a) (g b)) : Interposes v S (x >>= f) (y >>= g) :=
  fun s => (h s).bind fun a b hab => hf a.1 b.1 hab a.2 b.2

/-- A step that comes to `v` is interposed where there was none. -/
theorem of_comesTo {b : β} {f : α → β} (h : ComesTo v x) :
    Interposes v (fun _ _ => True) (pure b) (x >>= fun a => pure (f a)) := by
  intro s
  have hs := h s
  rw [StateT.run_bind]
  cases hx : x.run s with
  | ok r =>
    rw [hx] at hs
    subst hs
    trivial
  | error e =>
    rw [hx] at hs
    subst hs
    exact .inl rfl

theorem inLayer {y : Reading α} {l l' : Layer} (hjoins : l'.joins = l.joins)
    (h : Interposes v R x y) : Interposes v R (Reading.inLayer l x) (Reading.inLayer l' y) := by
  intro s
  rw [Reading.run_inLayer, Reading.run_inLayer]
  have haliases : Aliases.ofLayer l' = Aliases.ofLayer l := by
    unfold Aliases.ofLayer
    rw [hjoins]
  rw [haliases]
  exact (h _).bind fun _ _ hab => hab

end Interposes

end Sql

/-! ## Layers with a further test -/

def Expr.andThen (test : Expr) : Option Expr → Expr
  | none => test
  | some earlier => .binary .and earlier test

theorem Expr.conjoin_concat (tests : List Expr) (test : Expr) :
    Expr.conjoin (tests ++ [test]) = some (test.andThen (Expr.conjoin tests)) := by
  cases tests with
  | nil => rfl
  | cons e es => simp [Expr.conjoin, Expr.andThen]

/-- A layer with a further test, of its groups or of its rows. -/
def Layer.restricted (l : Layer) (test : Expr) : Bool → Layer
  | true => { l with having := some (test.andThen l.having) }
  | false => { l with predicate := some (test.andThen l.predicate) }

namespace Layer

variable {schema : Schema} {dialect : Dialect} {l : Layer} {test : Expr} {grouped nested : Bool}
  {v : Compiled Unit}

theorem restricted_sameRows : (l.restricted test grouped).SameRows l := by
  cases grouped <;> exact ⟨rfl, rfl, rfl⟩

@[simp] theorem restricted_any : (l.restricted test grouped).any = l.any := by
  cases grouped <;> rfl

@[simp] theorem restricted_aggregate : (l.restricted test grouped).aggregate = l.aggregate := by
  cases grouped <;> rfl

@[simp] theorem restricted_unions : (l.restricted test grouped).unions = l.unions := by
  cases grouped <;> rfl

@[simp] theorem restricted_select : (l.restricted test grouped).select = l.select := by
  cases grouped <;> rfl

/-- A layer that neither reduces its rows to one value nor unites others with them is read as its
rows. -/
theorem query_eq_rows (hany : l.any = false) (haggregate : l.aggregate = none)
    (hunions : l.unions = []) : l.query schema dialect nested =
      Context.rows ⟨schema, dialect, l⟩ (l.inner schema dialect) l.select nested := by
  rw [query_eq]
  simp [Context.query, hany, haggregate, Context.withUnions, inner, hunions, branches]

theorem interposes_tests (h : ComesTo v (Context.read ⟨schema, dialect, l⟩ true test))
    (earlier : Option Expr) :
    Interposes v (fun _ _ => True) (earlier.mapM (Context.test ⟨schema, dialect, l⟩))
      ((some (test.andThen earlier)).mapM (Context.test ⟨schema, dialect, l⟩)) := by
  have hbehind {o : Option Term} {f : Typed → Option Term} : Interposes v (fun _ _ => True) (pure o)
      (Context.read ⟨schema, dialect, l⟩ true test >>= fun t => pure (f t)) :=
    Interposes.of_comesTo h
  cases earlier with
  | none => simpa [Context.test, Expr.andThen] using hbehind
  | some e =>
    have hboth := Interposes.bind_same (x := Context.read ⟨schema, dialect, l⟩ true e) fun t =>
      hbehind (o := some t.term) (f := fun u => some (Typed.ofTest true (t.connect .and u)).term)
    simpa [Context.test, Expr.andThen, Context.read, BinaryOp.isLogical] using hboth

/-- The clauses of a layer with a further test: those of the layer, with the test interposed. -/
theorem interposes_clauses (h : ComesTo v (Context.read ⟨schema, dialect, l⟩ true test))
    (inner : Inner) (columns : Reading α) (orders : List Order) :
    Interposes v (fun a b => a.2.2.isEmpty = b.2.2.isEmpty)
      (Context.clauses ⟨schema, dialect, l⟩ inner true columns orders)
      (Context.clauses ⟨schema, dialect, l.restricted test grouped⟩ inner true columns orders) := by
  have hrows : (l.restricted test grouped).SameRows l := restricted_sameRows
  rw [Context.clauses_true, Context.clauses_true, hrows.relation_eq, hrows.joins_eq, hrows.test_eq,
    hrows.groupTerms_eq, hrows.sortKeys_eq]
  refine .bind_same fun a => .bind_same fun relation => ?_
  refine .bind_same fun joins => ?_
  cases grouped with
  | false =>
    refine .bind (interposes_tests h l.predicate) fun _ _ _ => ?_
    refine .bind (.option_mapM fun e _ => Context.steady_groupTerms e) fun _ _ _ => ?_
    refine .bind (.option_mapM fun e _ => Context.steady_test e) fun _ _ _ => ?_
    exact .bind (Context.steady_sortKeys orders) fun _ _ hkeys => .pure hkeys
  | true =>
    refine .bind_same fun predicate => .bind_same fun groupBy => ?_
    refine .bind (interposes_tests h l.having) fun _ _ _ => ?_
    exact .bind (Context.steady_sortKeys orders) fun _ _ hkeys => .pure hkeys

theorem interposes_rows {l' : Layer} {inner inner' : Inner} {select select' : Expr}
    (hjoins : l'.joins = l.joins) (hskip : l'.skip = l.skip)
    (h : Interposes v (fun a b => a.2.2.isEmpty = b.2.2.isEmpty)
      (Context.clauses ⟨schema, dialect, l⟩ inner true
        (Context.selectList ⟨schema, dialect, l⟩ select l.includes) (l.effectiveOrders schema))
      (Context.clauses ⟨schema, dialect, l'⟩ inner' true
        (Context.selectList ⟨schema, dialect, l'⟩ select' l'.includes)
        (l'.effectiveOrders schema))) :
    Interposes v (fun _ _ => True) (Context.rows ⟨schema, dialect, l⟩ inner select nested)
      (Context.rows ⟨schema, dialect, l'⟩ inner' select' nested) := by
  have hget : Concurs (fun _ _ => True) (get : Reading Scope) get :=
    Sure.concurs (fun s => ⟨(s, s), rfl⟩) fun s => ⟨(s, s), rfl⟩
  unfold Context.rows
  dsimp only
  rw [Context.block_eq, Context.block_eq, hskip]
  refine .bind (R := fun a b => a.2.2.isEmpty = b.2.2.isEmpty)
    (.inLayer hjoins (.bind h fun (a, b, keys) (a', b', keys') hkeys =>
      Concurs.bind hget fun _ _ _ => .pure hkeys)) ?_
  rintro ⟨list, block, keys⟩ ⟨list', block', keys'⟩ hkeys
  dsimp only at hkeys ⊢
  rw [hkeys]
  split
  · exact .throw
  · exact .pure trivial

/-- **A layer of whole rows with a further test**: its query, with the test interposed. -/
theorem interposes_query (hany : l.any = false) (haggregate : l.aggregate = none)
    (hunions : l.unions = []) (hselect : l.select = .source 0)
    (h : ComesTo v (Context.read ⟨schema, dialect, l⟩ true test)) :
    Interposes v (fun _ _ => True) (l.query schema dialect nested)
      ((l.restricted test grouped).query schema dialect nested) := by
  have hrows : (l.restricted test grouped).SameRows l := restricted_sameRows
  obtain ⟨hskip, hincludes, horders, hinner⟩ :
      (l.restricted test grouped).skip = l.skip ∧
        (l.restricted test grouped).includes = l.includes ∧
        (l.restricted test grouped).effectiveOrders schema = l.effectiveOrders schema ∧
        (l.restricted test grouped).inner schema dialect = l.inner schema dialect := by
    cases grouped <;> exact ⟨rfl, rfl, rfl, rfl⟩
  rw [query_eq_rows hany haggregate hunions, query_eq_rows (by simpa) (by simpa) (by simpa),
    restricted_select, hselect, hinner]
  refine interposes_rows hrows.joins hskip ?_
  rw [hincludes, horders, hrows.selectList_eq]
  exact interposes_clauses h _ _ _

/-- The outer half of a split layer of whole rows. -/
def outerHalf (source : Option String) (includes : List (List String)) (orders : List Order)
    (inner : Layer) : Layer :=
  { ofLayer source inner with hasMany := true, includes, orders, select := .source 0 }

/-- The outer half has no clauses but its ordering, so a test in the inner half is interposed in
both. -/
theorem interposes_outerHalf {source : Option String} {includes : List (List String)}
    {orders : List Order} {inner : Layer}
    (h : Interposes v (fun _ _ => True) (inner.query schema dialect true)
      ((inner.restricted test grouped).query schema dialect true)) :
    Interposes v (fun _ _ => True)
      ((outerHalf source includes orders inner).query schema dialect nested)
      ((outerHalf source includes orders (inner.restricted test grouped)).query schema dialect
        nested) := by
  have hrows : (outerHalf source includes orders (inner.restricted test grouped)).SameRows
      (outerHalf source includes orders inner) := ⟨rfl, rfl, rfl⟩
  have horders : (outerHalf source includes orders (inner.restricted test grouped)).effectiveOrders
      schema = (outerHalf source includes orders inner).effectiveOrders schema := by
    cases grouped <;> rfl
  rw [query_eq_rows rfl rfl rfl, query_eq_rows rfl rfl rfl]
  refine interposes_rows rfl rfl ?_
  rw [horders, show (outerHalf source includes orders inner).select = .source 0 from rfl,
    show (outerHalf source includes orders (inner.restricted test grouped)).select = .source 0
      from rfl, hrows.selectList_eq]
  rw [Context.clauses_true, Context.clauses_true, hrows.joins_eq, hrows.test_eq,
    hrows.groupTerms_eq, hrows.sortKeys_eq]
  refine .bind_same fun a => ?_
  refine .bind (R := fun _ _ => True)
    (.bind h fun _ _ _ => .pure trivial) fun _ _ _ => ?_
  -- no joins, no tests and no groups
  have hnone {α : Type} (a b : α) : Concurs (fun _ _ => True) (pure a) (pure b) := .pure trivial
  refine .bind (hnone _ _) fun _ _ _ => .bind (hnone _ _) fun _ _ _ => ?_
  refine .bind (hnone _ _) fun _ _ _ => .bind (hnone _ _) fun _ _ _ => ?_
  exact .bind (Context.steady_sortKeys _) fun _ _ hkeys => .pure hkeys

/-! ## Plans -/

/-- A layer of whole rows is split if the paths that it loads pass a collection. -/
theorem separateCollections_of_whole (hany : l.any = false) (haggregate : l.aggregate = none)
    (hunions : l.unions = []) (hselect : l.select = .source 0) :
    l.separateCollections schema = (do
      if ← l.includesCollection schema then l.split schema else return l) := by
  obtain ⟨shape, hshape, hflat⟩ : ∃ shape, l.shape schema (.source 0) = .ok shape ∧
      shape.isCollection = false := by
    unfold Layer.shape
    split
    · exact ⟨_, rfl, rfl⟩
    · exact ⟨_, rfl, rfl⟩
  have hbinds : l.bindsCollection schema (.source 0) = .ok false := by
    rw [bindsCollection_of_shape rfl hshape, hflat]
  unfold separateCollections
  simp only [hany, haggregate, hselect, hshape, Compiled.ok_bind, hflat, hbinds, hunions]
  cases l.includesCollection schema with
  | error e => rfl
  | ok reaches => cases reaches <;> rfl

theorem split_of_whole (hselect : l.select = .source 0) : l.split schema = (do
    let r ← (splitOuter schema l ⟨schema, l.source, true⟩ l.innerHalf).run []
    return outerHalf l.source l.includes r.1.2 { l.innerHalf with select := .source 0 }) := by
  have hwhole : l.isIdentity = true := by rw [isIdentity, hselect]; rfl
  unfold split
  simp only [hwhole, Bool.not_true, Bool.false_and, Bool.false_eq_true, if_false, if_true]
  change ((splitOuter schema l ⟨schema, l.source, true⟩ l.innerHalf).run [] >>= _) = _
  cases hrun : (splitOuter schema l ⟨schema, l.source, true⟩ l.innerHalf).run [] with
  | error e => rfl
  | ok r =>
    obtain ⟨⟨select, orders⟩, columns⟩ := r
    obtain rfl : select = .source 0 := select_of_splitOuter rfl _ _ _ trivial hrun
    rfl

end Layer

def Draft.command (schema : Schema) (config : Config) (d : Draft) : Compiled Command := do
  (← d.plan schema).command schema config

theorem Log.compile_eq {schema : Schema} {config : Config} (log : Log) :
    log.compile schema config = Draft.ofLog schema log >>= Draft.command schema config := by
  rw [Log.compile, Plan.ofLog_eq_bind, bind_assoc]
  rfl

section Commands

variable {schema : Schema} {config : Config} {v : Compiled Unit}

theorem Plan.interposed_command {q q' : Layer}
    (h : Interposes v (fun _ _ => True) (q.query schema config.dialect false)
      (q'.query schema config.dialect false)) :
    Compiled.Interposed v (fun _ _ => True) ((Plan.select q).command schema config)
      ((Plan.select q').command schema config) := by
  unfold Plan.command Plan.numberedStatement Plan.statement
  refine .bind (R := fun _ _ => True) ?_ fun _ _ _ => trivial
  refine .bind (R := fun _ _ => True) ?_ fun _ _ _ => trivial
  rw [StateT.run_bind, StateT.run_bind]
  exact .bind (h _) fun _ _ _ => trivial

theorem Draft.command_of_query {d : Draft} (h : d.modification = none) : d.command schema config =
    d.finished.separateCollections schema >>= fun q => (Plan.select q).command schema config := by
  simp only [command, plan, h, bind_assoc, pure_bind]

theorem Layer.interposed_separated {l : Layer} {test : Expr} {grouped : Bool} (hany : l.any = false)
    (haggregate : l.aggregate = none) (hunions : l.unions = []) (hselect : l.select = .source 0)
    (h : ∀ l' : Layer, l'.SameRows l →
      ComesTo v (Context.read ⟨schema, config.dialect, l'⟩ true test)) :
    Compiled.Interposed v (fun _ _ => True)
      (l.separateCollections schema >>= fun q => (Plan.select q).command schema config)
      ((l.restricted test grouped).separateCollections schema >>= fun q =>
        (Plan.select q).command schema config) := by
  -- the inner half of the restricted layer is the restricted inner half
  obtain ⟨hreaches, houter, hhalves⟩ :
      (l.restricted test grouped).includesCollection schema = l.includesCollection schema ∧
        splitOuter schema (l.restricted test grouped)
            ⟨schema, (l.restricted test grouped).source, true⟩
            (l.restricted test grouped).innerHalf =
          splitOuter schema l ⟨schema, l.source, true⟩ l.innerHalf ∧
        ∀ orders, outerHalf (l.restricted test grouped).source (l.restricted test grouped).includes
            orders { (l.restricted test grouped).innerHalf with select := .source 0 } =
          outerHalf l.source l.includes orders
            (restricted { l.innerHalf with select := .source 0 } test grouped) := by
    cases grouped <;> exact ⟨rfl, rfl, fun _ => rfl⟩
  rw [separateCollections_of_whole hany haggregate hunions hselect,
    separateCollections_of_whole (by simpa) (by simpa) (by simpa) (by simpa), hreaches, bind_assoc,
    bind_assoc]
  refine .bind_same fun reaches _ => ?_
  cases reaches with
  | false =>
    exact Plan.interposed_command
      (interposes_query hany haggregate hunions hselect (h l ⟨rfl, rfl, rfl⟩))
  | true =>
    rw [if_pos rfl, if_pos rfl, split_of_whole hselect, split_of_whole (by simpa),
      houter, bind_assoc, bind_assoc]
    refine .bind_same fun r _ => ?_
    rw [pure_bind, pure_bind, hhalves]
    exact Plan.interposed_command (interposes_outerHalf
      (interposes_query hany haggregate hunions rfl (h _ ⟨rfl, rfl, rfl⟩)))

/-- **A draft of whole rows with a further test**: its command, with the test interposed. -/
theorem Draft.interposed_command {d : Draft} {test : Expr} (hany : d.layer.any = false)
    (haggregate : d.layer.aggregate = none) (hmodification : d.modification = none)
    (hunions : d.layer.unions = []) (hrow : d.row = .source 0)
    (h : ∀ l : Layer, l.SameRows d.layer →
      ComesTo v (Context.read ⟨schema, config.dialect, l⟩ true test)) :
    Compiled.Interposed v (fun _ _ => True) (d.command schema config)
      ((d.restrict test).command schema config) := by
  have hfinished : (d.restrict test).finished = d.finished.restricted test d.grouped := by
    unfold restrict
    cases d.grouped <;> simp [finished, Layer.restricted, Expr.conjoin_concat]
  have hmodification' : (d.restrict test).modification = none := by
    unfold restrict
    split <;> exact hmodification
  rw [command_of_query hmodification, command_of_query hmodification', hfinished]
  refine Layer.interposed_separated hany haggregate hunions ?_ fun l hl =>
    h l ⟨hl.source, hl.isDerived, hl.joins⟩
  rw [finished, hrow]

end Commands

end QueryCompiler

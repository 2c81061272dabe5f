import QueryCompiler.Proofs.Plan.Exports
import QueryCompiler.Proofs.Refusals
import QueryCompiler.Sql.OfPlan
/-!
# Composed terms

While an expression is read, constants enter the scope, paths are followed to their columns, and
terms are formed of the terms that have been read before. `Formed` lists the ways to form a term.
`Composes` says of a step that it is made of these few, with the terms that are read ahead of it and
those that are read at its end. It holds of every expression (`Context.composes_read`), and of the
lists of terms in a clause, so what is to be known of reading them need only be shown of the ways to
form terms and of the columns of whole rows.
-/

namespace QueryCompiler

namespace Sql

namespace Term

/-! ## Formed terms -/

/-- A term as it is, or in parentheses. -/
inductive Wraps (t : Term) : Term → Prop where
  | same : Wraps t t
  | paren : Wraps t (paren t)

theorem wraps_wrap {t : Term} {place : Nat} {strict : Bool} : Wraps t (t.wrap place strict) := by
  unfold wrap
  split
  · exact .paren
  · exact .same

/-- The functions that are called by their name. -/
def functions : List String :=
  ["YEAR", "MONTH", "DAY", "LTRIM", "RTRIM", "UPPER", "LOWER", "REPLACE", "ABS"] ++
    [AggregateFunc.count, .sum, .max, .min, .average].map AggregateFunc.sqlName

/-- The mark for any text, at an end of a pattern that is left open. -/
def openEnd (isOpen : Bool) : List Term := if isOpen then [word "%"] else []

/-- **A term is formed of others**, which are listed in the order in which they are read. -/
inductive Formed : List Term → Term → Prop where
  | same {t : Term} : Formed [t] t
  | trans {ts : List Term} {u t : Term} (hu : Formed ts u) (ht : Formed [u] t) : Formed ts t
  | null : Formed [] null
  | truth {holds : Bool} : Formed [] (truth holds)
  | now {utc : Bool} : Formed [] (now utc)
  /-- the rows themselves are counted -/
  | rowCount : Formed [] (call (AggregateFunc.sqlName .count) [number 1])
  | tuple {ts : List Term} : Formed ts (tuple ts)
  | wrap {t : Term} {place : Nat} {strict : Bool} : Formed [t] (t.wrap place strict)
  | equalsBit {t : Term} {b : Bool} : Formed [t] (t.equalsBit b)
  | ofTest {t : Term} : Formed [t] (ofTest t)
  | not {t : Term} : Formed [t] (not t)
  | negate {t : Term} : Formed [t] (negate (t.wrap atomic false))
  | isNull {t t' : Term} (ht : Wraps t t') : Formed [t] (isNull t')
  | isNotNull {t t' : Term} (ht : Wraps t t') : Formed [t] (isNotNull t')
  | isNullOrEmpty {t : Term} :
    Formed [t] (paren (binary .or (isNull t) (binary .eq t (word ""))))
  | binaryNull {op : BinaryOp} {t t' : Term} (ht : Wraps t t') : Formed [t] (binary op t' null)
  | binary {op : BinaryOp} {l l' r r' : Term} (hl : Wraps l l') (hr : Wraps r r') :
    Formed [l, r] (binary op l' r')
  | coalesce {l r : Term} : Formed [l, r] (coalesce l r)
  | caseWhen {t a b : Term} : Formed [t, a, b] (caseWhen t a b)
  | concat {ts ts' : List Term} (hts : List.Forall₂ Wraps ts ts') : Formed ts (concat ts')
  | pattern {t t' : Term} {before behind : Bool} (ht : Wraps t t') :
    Formed [t] (concat (openEnd before ++ [t'] ++ openEnd behind))
  | call {function : String} {ts : List Term} (hfunction : function ∈ functions) :
    Formed ts (call function ts)
  | length {t : Term} : Formed [t] (length t)
  | datePart {part : String} {t : Term} (hpart : part ∈ ["HOUR", "MINUTE", "SECOND"]) :
    Formed [t] (datePart part t)
  | dateOnly {t : Term} : Formed [t] (dateOnly t)
  | trim {t : Term} : Formed [t] (trim t)
  | stringCast {t : Term} : Formed [t] (stringCast t)
  | round {t : Term} {digits : Option Term} : Formed (t :: digits.toList) (round t digits)
  /-- from a position that is written out -/
  | substringAt {t : Term} {n : Int} {len : Option Term} :
    Formed (t :: len.toList) (substring t (number n) len)
  /-- from a position that is read -/
  | substringFrom {t start start' : Term} {len : Option Term} (hstart : Wraps start start') :
    Formed (t :: start :: len.toList) (substring t (.binary .add start' (number 1)) len)
  | like {t t' p : Term} (ht : Wraps t t') : Formed [t, p] (like t' p)
  | isIn {t items : Term} : Formed [t, items] (isIn t items)

namespace Formed

variable {t l r : Typed} {op : BinaryOp} {wantTest : Bool} {ts : List Term}

theorem ofValue (h : Formed ts t.term) : Formed ts (Typed.ofValue wantTest t).term := by
  cases wantTest with
  | false => exact h
  | true =>
    change Formed ts t.asTest.term
    unfold Typed.asTest
    split
    · exact h
    · exact h.trans .equalsBit

theorem ofTestWanted {u : Term} (h : Formed ts u) :
    Formed ts (Typed.ofTest wantTest u).term := by
  cases wantTest with
  | false => exact h.trans .ofTest
  | true => exact h

theorem compareNull : Formed [t.term] (t.compareNull op) := by
  unfold Typed.compareNull
  split
  · exact .isNull wraps_wrap
  · exact .isNotNull wraps_wrap
  · exact .binaryNull wraps_wrap

theorem concatTwo : Formed [l.term, r.term] (l.concat r).term :=
  .concat (.cons wraps_wrap (.cons wraps_wrap .nil))

theorem property {u : Term} {name : String} (h : property u name = .ok t) :
    Formed [u] t.term := by
  unfold Sql.property at h
  split at h <;> cases h
  · exact .length
  · exact .call (by decide)
  · exact .call (by decide)
  · exact .call (by decide)
  · exact .datePart (by decide)
  · exact .datePart (by decide)
  · exact .datePart (by decide)
  · exact .dateOnly

theorem aggregate {func : AggregateFunc} {selector : Option Typed}
    (h : Typed.aggregate func selector = .ok t) :
    Formed (selector.toList.map (·.term)) t.term := by
  unfold Typed.aggregate at h
  split at h
  · cases h
    exact .call (by cases func <;> decide)
  · split at h
    · rename_i hcount
      cases h
      rw [eq_of_beq hcount]
      exact .rowCount
    · cases h

end Formed

end Term

open Term (Formed)

/-! ## Composed steps -/

def SelectList.terms (list : SelectList) : List Term := list.columns.map (·.1)

namespace SelectList

variable {list : SelectList}

@[simp] theorem terms_empty : ({} : SelectList).terms = [] := rfl

@[simp] theorem terms_push {t : Term} {preferred : String} :
    (list.push t preferred).terms = list.terms ++ [t] := by
  simp [terms, push]

@[simp] theorem terms_close {path : String} {start : Nat} :
    (list.close path start).terms = list.terms := rfl

end SelectList

def Reading.next (v : Value) (dbType : DbType) (size : Option Nat) : Reading Term := do
  let scope ← get
  let c : Constant := ⟨scope.constants.length + 1, v, dbType, size⟩
  set { scope with constants := scope.constants ++ [c] }
  return .constant c

/-- **A step composes terms**: with the terms `pre` read ahead of it, `post` are read at its end. It
adds constants to the scope, follows allowed paths to their columns or to whole rows and forms terms
of those that have been read, and refuses a query only in ways that are there to be used. -/
inductive Composes (ctx : Context) (allows : Nat × List String → Prop) :
    {α : Type} → List Term → Reading α → (α → List Term) → Prop where
  | done {α : Type} {pre : List Term} {a : α} {post : α → List Term} (h : post a = pre) :
    Composes ctx allows pre (pure a) post
  | form {α : Type} {pre ahead ts : List Term} {t : Term} {a : α} {post : α → List Term}
    (h : Formed ts t) (hpre : pre = ahead ++ ts) (hpost : post a = ahead ++ [t]) :
    Composes ctx allows pre (pure a) post
  | throw {α : Type} {pre : List Term} {e : CompileError} {post : α → List Term}
    (h : e.refusal? = none) : Composes ctx allows pre (throw e) post
  | bind {α β : Type} {pre : List Term} {x : Reading α} {f : α → Reading β} {mid : α → List Term}
    {post : β → List Term} (hx : Composes ctx allows pre x mid)
    (hf : ∀ a, Composes ctx allows (mid a) (f a) post) : Composes ctx allows pre (x >>= f) post
  | lift_bind {α β : Type} {pre : List Term} {x : Compiled α} {f : α → Reading β}
    {post : β → List Term} (hx : ∀ r, x.Spares r)
    (hf : ∀ a, x = .ok a → Composes ctx allows pre (f a) post) :
    Composes ctx allows pre (liftM x >>= f) post
  | next {pre : List Term} {v : Value} {dbType : DbType} {size : Option Nat} :
    Composes ctx allows pre (Reading.next v dbType size) fun t => pre ++ [t]
  | member {pre : List Term} {target : Expr} {name : String}
    (h : ∀ p, (Expr.member target name).memberPath? = some p → allows p) :
    Composes ctx allows pre (ctx.memberValue target name) fun t => pre ++ [t.term]
  | whole {pre : List Term} {id : Nat} {out : SelectList} (h : allows (id, [])) :
    Composes ctx allows (pre ++ out.terms) (do ctx.rowColumns (← ctx.source id) out)
      fun list => pre ++ list.terms
  | entity {pre : List Term} {e : Expr} {path : String} {out : SelectList}
    (h : ∀ p, e.memberPath? = some p → allows p) :
    Composes ctx allows (pre ++ out.terms) (ctx.entityColumns e path out)
      fun list => pre ++ list.terms

variable {ctx : Context} {allows : Nat × List String → Prop} {pre : List Term}

/-- A step without a state of its own, whose result is formed of what has been read. -/
theorem Composes.lift {x : Compiled Typed} {ts : List Term} (hx : ∀ r, x.Spares r)
    (h : ∀ t, x = .ok t → Formed ts t.term) :
    Composes ctx allows (pre ++ ts) (liftM x) fun t => pre ++ [t.term] := by
  rw [← bind_pure (liftM x : Reading Typed)]
  exact .lift_bind hx fun t ht => .form (h t ht) rfl rfl

namespace Composes

variable {α β : Type}

theorem throw_bind {e : CompileError} {f : α → Reading β} {post : β → List Term}
    (h : e.refusal? = none) : Composes ctx allows pre ((MonadExcept.throw e : Reading α) >>= f) post :=
  throw h

theorem mapM {f : β → Reading α} {l : List β} {term : α → Term}
    (h : ∀ b ∈ l, ∀ pre, Composes ctx allows pre (f b) fun a => pre ++ [term a]) :
    Composes ctx allows pre (l.mapM f) fun as => pre ++ as.map term := by
  induction l generalizing pre with
  | nil => exact .done (by simp)
  | cons b l ih =>
    rw [List.mapM_cons]
    refine .bind (h b (by simp) pre) fun a => ?_
    exact .bind (ih fun b hb => h b (by simp [hb])) fun as => .done (by simp)

theorem foldlM {f : α → β → Reading α} {l : List β} {post : α → List Term}
    (h : ∀ a, ∀ b ∈ l, Composes ctx allows (post a) (f a b) post) {a : α} :
    Composes ctx allows (post a) (l.foldlM f a) post := by
  induction l generalizing a with
  | nil => exact .done rfl
  | cons b l ih =>
    rw [List.foldlM_cons]
    exact .bind (h a b (by simp)) fun a => ih fun a b hb => h a b (by simp [hb])

end Composes

namespace Reading

mutual

theorem composes_constant {pre : List Term} {dbType : DbType} {size : Option Nat} : ∀ {v : Value},
    Composes ctx allows pre (constant dbType size v) fun t => pre ++ [t]
  | .null => .form .null (by simp) rfl
  | .list items => by
    unfold constant
    exact .bind composes_constants fun ts => .form .tuple rfl rfl
  | .bool _ | .int _ | .float _ | .decimal _ | .string _ | .dateTime _ | .guid _ => .next

theorem composes_constants {pre : List Term} : ∀ {vs : List Value},
    Composes ctx allows pre (constants vs) fun ts => pre ++ ts
  | [] => .done (by simp)
  | v :: vs => by
    unfold constants
    exact .bind composes_constant fun t => .bind composes_constants fun ts => .done (by simp)

end

end Reading

/-! ## Methods -/

theorem spares_property {r : Refusal} {t : Term} {name : String} : (property t name).Spares r := by
  unfold property
  split <;> first | exact .ok | exact .error rfl

theorem Typed.spares_aggregate {r : Refusal} {func : AggregateFunc} {selector : Option Typed} :
    (aggregate func selector).Spares r := by
  unfold aggregate
  split
  · exact .ok
  · split
    · exact .ok
    · exact .error rfl

/-- A part that is read as one term, composed behind those that have been read. -/
def Part.IsComposed (ctx : Context) (allows : Nat × List String → Prop) (p : Part) : Prop :=
  ∀ pre, Composes ctx allows pre p.value fun t => pre ++ [t.term]

namespace Part

variable {t arg : Part} {d : Dialect} {args : List Part}

theorem composes_inList {items : List Value} (harg : arg.IsComposed ctx allows) :
    Composes ctx allows pre (inList items arg) fun t => pre ++ [t.term] := by
  unfold inList
  split
  · exact .form .truth (by simp) rfl
  · refine .bind (harg pre) fun v => .bind Reading.composes_constant fun list => ?_
    exact .form .isIn (by simp) rfl

theorem composes_pattern {before behind : Bool} (harg : arg.IsComposed ctx allows) :
    Composes ctx allows pre (pattern d arg before behind) fun t => pre ++ [t] := by
  unfold pattern
  split
  · exact .throw rfl
  · exact Reading.composes_constant
  · exact .bind (harg pre) fun v => .form (.pattern Term.wraps_wrap) rfl rfl

theorem composes_like {before behind : Bool} (ht : t.IsComposed ctx allows)
    (harg : arg.IsComposed ctx allows) :
    Composes ctx allows pre (like d t arg before behind) fun t => pre ++ [t.term] := by
  refine .bind (ht pre) fun v => .bind (composes_pattern harg) fun pattern => ?_
  exact .form (.like Term.wraps_wrap) (by simp) rfl

theorem composes_equals (ht : t.IsComposed ctx allows) (harg : arg.IsComposed ctx allows) :
    Composes ctx allows pre (equals t arg) fun t => pre ++ [t.term] := by
  refine .bind (ht pre) fun v => ?_
  split
  · exact .form (.isNull .same) rfl rfl
  · exact .bind (harg _) fun w => .form (.binary .same .same) (by simp) rfl

theorem composes_length {length : Option Part} (hlength : ∀ p ∈ length, p.IsComposed ctx allows) :
    Composes ctx allows pre (length.mapM (·.value))
      fun len => pre ++ (len.map (·.term)).toList := by
  cases length with
  | none => exact .done (by simp)
  | some p => exact .bind (hlength p rfl pre) fun t => .done (by simp)

theorem composes_substring {length : Option Part} (ht : t.IsComposed ctx allows)
    (harg : arg.IsComposed ctx allows) (hlength : ∀ p ∈ length, p.IsComposed ctx allows) :
    Composes ctx allows pre (substring t arg length) fun t => pre ++ [t.term] := by
  unfold substring position
  refine .bind (ht pre) fun v => ?_
  -- a position that is written out is no term of its own
  split
  · rw [pure_bind]
    exact .bind (composes_length hlength) fun len => .form .substringAt (by simp) rfl
  · rw [bind_assoc]
    refine .bind (harg _) fun start => ?_
    rw [pure_bind]
    refine .bind (composes_length hlength) fun len => ?_
    exact .form (.substringFrom Term.wraps_wrap) (by simp) rfl

theorem composes_stringCall {function : String} (hfunction : function ∈ Term.functions)
    (hargs : ∀ p ∈ args, p.IsComposed ctx allows) :
    Composes ctx allows pre (stringCall function args) fun t => pre ++ [t.term] :=
  .bind (.mapM hargs) fun _ => .form (.call hfunction) rfl rfl

/-- **A call is composed of its target and arguments**, whichever of them it reads. -/
theorem composes_call {method : String} {target : Option Part}
    (htarget : ∀ p ∈ target, p.IsComposed ctx allows) (hargs : ∀ p ∈ args, p.IsComposed ctx allows) :
    Composes ctx allows pre (call d method target args) fun t => pre ++ [t.term] := by
  unfold call
  split
  -- membership in a list or a part of a string, then the other tests of strings
  case h_1 t arg =>
    split
    · exact composes_inList (hargs arg (by simp))
    · exact composes_like (htarget t rfl) (hargs arg (by simp))
  case h_2 list item =>
    split
    · exact composes_inList (hargs item (by simp))
    · exact .throw rfl
  case h_3 t arg | h_4 t arg => exact composes_like (htarget t rfl) (hargs arg (by simp))
  case h_5 t arg => exact composes_equals (htarget t rfl) (hargs arg (by simp))
  -- functions of strings
  case h_6 t start => exact composes_substring (htarget t rfl) (hargs start (by simp)) (by simp)
  case h_7 t start length =>
    refine composes_substring (htarget t rfl) (hargs start (by simp)) fun p hp => ?_
    exact hargs p (by simp_all)
  case h_8 t => exact .bind (htarget t rfl pre) fun v => .form .trim rfl rfl
  case h_9 t | h_10 t | h_11 t | h_12 t =>
    exact composes_stringCall (by decide) fun p hp => by simp_all
  case h_13 t =>
    refine .bind (htarget t rfl pre) fun v => ?_
    exact .lift (fun _ => spares_property) fun _ => Formed.property
  case h_14 t before behind =>
    refine composes_stringCall (by decide) fun p hp => ?_
    rcases List.mem_cons.1 hp with rfl | hp
    · exact htarget p rfl
    · exact hargs p hp
  case h_15 t => exact .bind (htarget t rfl pre) fun v => .form .stringCast rfl rfl
  case h_16 arg => exact .bind (hargs arg (by simp) pre) fun v => .form .isNullOrEmpty rfl rfl
  case h_17 part parts =>
    refine .bind (.mapM hargs) fun vs => .form (.concat ?_) rfl rfl
    rw [List.forall₂_map_left_iff, List.forall₂_map_right_iff, List.forall₂_same]
    exact fun _ _ => Term.wraps_wrap
  -- moments and numbers
  case h_18 | h_19 => exact .form .now (by simp) rfl
  case h_20 arg => exact .bind (hargs arg (by simp) pre) fun v => .form (.call (by decide)) rfl rfl
  case h_21 arg => exact .bind (hargs arg (by simp) pre) fun v => .form .round rfl rfl
  case h_22 arg digits =>
    refine .bind (hargs arg (by simp) pre) fun v => .bind (hargs digits (by simp) _) fun w => ?_
    exact .form .round (by simp) rfl
  case h_23 => exact .throw rfl

end Part

/-! ## Expressions -/

namespace Context

theorem spares_isPropertyOf {r : Refusal} {target : Expr} {name : String} :
    (ctx.isPropertyOf target name).Spares r := by
  unfold isPropertyOf
  split
  · exact .bind (Layer.spares_shape target) fun _ _ => .ok
  · exact .ok

mutual

/-- **An expression is read as one term, along its paths**, as a value or as a test. -/
theorem composes_read {pre : List Term} {wantTest : Bool} : ∀ {e : Expr}, (∀ p ∈ e.paths, allows p) →
    Composes ctx allows pre (ctx.read wantTest e) fun t => pre ++ [t.term]
  | .member target name, h => by
    unfold read
    refine .lift_bind (fun _ => spares_isPropertyOf) fun isProperty _ => ?_
    split
    · refine .bind (composes_read fun p hp => h p (by simp [Expr.paths, hp])) fun t => ?_
      refine .lift_bind (fun _ => spares_property) fun u hu => ?_
      exact .form (Formed.property hu).ofValue rfl rfl
    · refine .bind (.member fun p hp => h p (Expr.mem_paths_of_memberPath? hp)) fun t => ?_
      exact .form (.ofValue .same) rfl rfl
  | .constant v, _ => by
    unfold read
    split
    · exact .form .truth (by simp) rfl
    · exact .bind Reading.composes_constant fun t => .form (.ofValue .same) rfl rfl
  | .binary op l r, h => by
    have hl : ∀ p ∈ l.paths, allows p := fun p hp => h p (by simp [Expr.paths, hp])
    have hr : ∀ p ∈ r.paths, allows p := fun p hp => h p (by simp [Expr.paths, hp])
    unfold read
    split
    · refine .bind (composes_read hl) fun t => .bind (composes_read hr) fun u => ?_
      exact .form (.ofTestWanted (.binary Term.wraps_wrap Term.wraps_wrap)) (by simp) rfl
    · split
      · dsimp only
        -- the subject is the side that is not null, and is read alike on both
        split
        all_goals
          refine .bind (composes_read (by assumption)) fun subject => ?_
          split
          · exact .form Formed.compareNull.ofTestWanted rfl rfl
          · split
            · refine .bind Reading.composes_constant fun t => ?_
              rw [pure_bind]
              exact .form (.ofTestWanted (.binary Term.wraps_wrap Term.wraps_wrap)) (by simp) rfl
            · refine .bind (composes_read hr) fun other => ?_
              exact .form (.ofTestWanted (.binary Term.wraps_wrap Term.wraps_wrap)) (by simp) rfl
      · refine .bind (composes_read hl) fun t => .bind (composes_read hr) fun u => ?_
        refine .form (.ofValue ?_) (List.append_assoc _ _ _) rfl
        split
        · exact .coalesce
        · split
          · exact .concatTwo
          · exact .binary Term.wraps_wrap Term.wraps_wrap
  | .unary .not e, h => by
    have he : ∀ p ∈ e.paths, allows p := fun p hp => h p (by simpa [Expr.paths] using hp)
    unfold read
    split
    · exact .bind (composes_read he) fun t => .form (.ofTestWanted .equalsBit) rfl rfl
    · exact .bind (composes_read he) fun t => .form (.ofTestWanted .equalsBit) rfl rfl
    · exact .bind (composes_read he) fun t => .form (.ofTestWanted .not) rfl rfl
  | .unary .negate e, h => by
    unfold read
    refine .bind (composes_read fun p hp => h p (by simpa [Expr.paths] using hp)) fun t => ?_
    exact .form (.ofValue .negate) rfl rfl
  | .conditional t a b, h => by
    have ht : ∀ p ∈ t.paths, allows p := fun p hp => h p (by simp [Expr.paths, hp])
    have ha : ∀ p ∈ a.paths, allows p := fun p hp => h p (by simp [Expr.paths, hp])
    have hb : ∀ p ∈ b.paths, allows p := fun p hp => h p (by simp [Expr.paths, hp])
    unfold read
    refine .bind (composes_read ht) fun t => .bind (composes_read ha) fun a => ?_
    exact .bind (composes_read hb) fun b => .form (.ofValue .caseWhen) (by simp) rfl
  | .aggregate f arg, h => by
    have harg : ∀ p ∈ Expr.pathsOption arg, allows p := fun p hp => h p (by simpa [Expr.paths])
    unfold read
    refine .bind (composes_readOption harg) fun t => ?_
    refine .lift_bind (fun _ => Typed.spares_aggregate) fun u hu => ?_
    exact .form (Formed.aggregate hu).ofValue rfl rfl
  | .call method target args, h => by
    have htarget : ∀ p ∈ Expr.pathsOption target, allows p :=
      fun p hp => h p (by simp [Expr.paths, hp])
    have hargs : ∀ p ∈ Expr.pathsList args, allows p := fun p hp => h p (by simp [Expr.paths, hp])
    unfold read
    refine .bind (Part.composes_call (isComposed_partOption htarget) (isComposed_parts hargs))
      fun t => ?_
    exact .form (.ofValue .same) rfl rfl
  | .source _, _ | .object _ _, _ | .param _, _ | .lambda _, _ | .query _, _ | .grouping _ _, _
  | .joinGroup _ _, _ => by
    unfold read
    exact .throw rfl

theorem composes_readOption {pre : List Term} : ∀ {e : Option Expr},
    (∀ p ∈ Expr.pathsOption e, allows p) →
      Composes ctx allows pre (ctx.readOption e) fun t => pre ++ t.toList.map (·.term)
  | none, _ => .done (by simp)
  | some e, h => by
    unfold readOption
    exact .bind (composes_read h) fun t => .done (by simp)

theorem isComposed_parts : ∀ {es : List Expr}, (∀ p ∈ Expr.pathsList es, allows p) →
    ∀ part ∈ ctx.parts es, part.IsComposed ctx allows
  | [], _, part, hpart => by simp [parts] at hpart
  | e :: es, h, part, hpart => by
    rw [parts] at hpart
    rcases List.mem_cons.1 hpart with rfl | hpart
    · exact fun _ => composes_read fun p hp => h p (by simp [Expr.pathsList, hp])
    · exact isComposed_parts (fun p hp => h p (by simp [Expr.pathsList, hp])) part hpart

theorem isComposed_partOption : ∀ {e : Option Expr}, (∀ p ∈ Expr.pathsOption e, allows p) →
    ∀ part ∈ ctx.partOption e, part.IsComposed ctx allows
  | none, _, part, hpart => by simp [partOption] at hpart
  | some e, h, part, hpart => by
    obtain rfl : _ = part := by simpa [partOption] using hpart
    exact fun _ => composes_read h

end

theorem composes_value {e : Expr} (h : ∀ p ∈ e.paths, allows p) :
    Composes ctx allows pre (ctx.value e) fun t => pre ++ [t] :=
  .bind (composes_read h) fun _ => .done rfl

theorem composes_test {e : Expr} (h : ∀ p ∈ e.paths, allows p) :
    Composes ctx allows pre (ctx.test e) fun t => pre ++ [t] :=
  .bind (composes_read h) fun _ => .done rfl

/-! ## Select lists -/

mutual

theorem composes_bindingColumns {pre : List Term} {path member : String} {out : SelectList} :
    ∀ {e : Expr}, (∀ p ∈ e.paths, allows p) → Composes ctx allows (pre ++ out.terms)
      (ctx.bindingColumns path member out e) fun list => pre ++ list.terms
  | .object _ bindings, h => by
    unfold bindingColumns
    exact .bind (composes_objectColumns h) fun list => .done (by simp)
  | .source _, h | .member _ _, h | .constant _, h | .binary _ _ _, h | .unary _ _, h
  | .conditional _ _ _, h | .aggregate _ _, h | .call _ _ _, h | .param _, h | .lambda _, h
  | .query _, h | .grouping _ _, h | .joinGroup _ _, h => by
    unfold bindingColumns
    refine .lift_bind (fun _ => Layer.spares_shape _) fun shape _ => ?_
    split
    · exact .entity fun p hp => h p (Expr.mem_paths_of_memberPath? hp)
    · exact .entity fun p hp => h p (Expr.mem_paths_of_memberPath? hp)
    all_goals exact .bind (composes_value h) fun t => .done (by simp)

theorem composes_objectColumns {pre : List Term} {base : String} {out : SelectList} :
    ∀ {bindings : List Binding}, (∀ p ∈ Expr.pathsBindings bindings, allows p) →
      Composes ctx allows (pre ++ out.terms) (ctx.objectColumns base out bindings)
        fun list => pre ++ list.terms
  | [], _ => by
    unfold objectColumns
    exact .done rfl
  | ⟨m, v⟩ :: bs, h => by
    have hv : ∀ p ∈ v.paths, allows p := fun p hp => h p (by simp [Expr.pathsBindings, hp])
    unfold objectColumns
    refine .bind (composes_bindingColumns hv) fun list => ?_
    exact composes_objectColumns fun p hp => h p (by simp [Expr.pathsBindings, hp])

end

end Context

/-- The paths that a projection reads, with those that are loaded beside whole rows. -/
def selectPaths (select : Expr) (includes : List (List String)) : List (Nat × List String) :=
  select.paths ++ match select with
    | .source id => (Context.includedPaths includes).map fun x => (id, x.1)
    | _ => []

namespace Context

/-- **A select list is read along the paths of its projection.** -/
theorem composes_selectList {select : Expr} {includes : List (List String)}
    (h : ∀ p ∈ selectPaths select includes, allows p) :
    Composes ctx allows pre (ctx.selectList select includes) fun list => pre ++ list.terms := by
  have hselect : ∀ p ∈ select.paths, allows p := fun p hp => h p (List.mem_append_left _ hp)
  -- the list is empty at first, so that nothing is added to what has been read
  suffices hlist : Composes ctx allows (pre ++ ({} : SelectList).terms)
      (ctx.selectList select includes) fun list => pre ++ list.terms by simpa using hlist
  unfold selectList
  split
  · rename_i id
    rw [← bind_assoc]
    refine .bind (.whole (hselect _ (by simp [Expr.paths]))) fun out => ?_
    refine .foldlM fun out x hx => .entity fun p hp => ?_
    rw [Expr.memberPath?_follow x.1 (rfl : (Expr.source id).memberPath? = some (id, []))] at hp
    cases hp
    exact h _ (List.mem_append_right _ (List.mem_map_of_mem hx))
  · exact composes_objectColumns hselect
  · refine .lift_bind (fun _ => Layer.spares_shape _) fun shape _ => ?_
    split
    · exact .entity fun p hp => hselect p (Expr.mem_paths_of_memberPath? hp)
    · exact .bind (composes_value hselect) fun t => .done (by simp)

/-! ## Clauses -/

theorem composes_groupTerms {key : Expr} (h : ∀ p ∈ key.paths, allows p) :
    Composes ctx allows pre (ctx.groupTerms key) fun ts => pre ++ ts := by
  unfold groupTerms
  split
  · rename_i ty bindings
    rw [Expr.paths, Expr.pathsBindings_eq] at h
    have hterms : Composes ctx allows pre (bindings.mapM fun b => ctx.value b.value)
        fun ts => pre ++ ts.map id :=
      .mapM fun b hb _ => composes_value fun p hp => h p (List.mem_flatMap.2 ⟨b, hb, hp⟩)
    simpa only [List.map_id] using hterms
  · exact .bind (composes_value h) fun t => .done rfl

theorem composes_sortKeys {orders : List Order} (h : ∀ o ∈ orders, ∀ p ∈ o.expr.paths, allows p) :
    Composes ctx allows pre (ctx.sortKeys orders) fun keys => pre ++ keys.map (·.term) :=
  .mapM fun o ho _ => .bind (composes_value (h o ho)) fun _ => .done rfl

theorem composes_assignments {target : Entity} {construction : Expr}
    (h : ∀ p ∈ construction.paths, allows p) :
    Composes ctx allows pre (ctx.assignments target construction)
      fun as => pre ++ as.map (·.value) := by
  unfold assignments
  split
  · exact .throw rfl
  · exact .throw rfl
  · rename_i bindings _ hbindings
    obtain ⟨ty, rfl⟩ : ∃ ty, construction = .object ty bindings := by
      cases construction with
      | object ty bs =>
        cases hbindings
        exact ⟨ty, rfl⟩
      | _ => cases hbindings
    rw [Expr.paths, Expr.pathsBindings_eq] at h
    refine .mapM fun b hb pre => .lift_bind (fun _ => Entity.spares_column) fun column _ => ?_
    dsimp only
    split
    · exact .throw_bind rfl
    · split
      · exact .bind Reading.composes_constant fun t => .done rfl
      · refine .bind (composes_value fun p hp => ?_) fun t => .done rfl
        exact h p (List.mem_flatMap.2 ⟨b, hb, hp⟩)

end Context

end Sql

end QueryCompiler

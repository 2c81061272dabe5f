import QueryCompiler.Log.Basic
import QueryCompiler.Proofs.Expr.Binding
/-!
# The sources of expressions

An expression refers to members of its sources along paths, and `Expr.paths` lists them. A layer
says which of its sources an expression may read, and which of their members: rows that come from
another layer have only the members that this exports. `Expr.Reads` says that an expression keeps to
that. Members are folded when a lambda is bound, so a source is judged together with the member that
is asked of it.

An expression that a caller writes names no source (`Expr.isSurface`).
-/

namespace QueryCompiler

/-! ## Expressions that callers write -/

mutual

/-- Whether an expression has only the forms that a caller writes, in nested queries too. -/
def Expr.isSurface : Expr → Bool
  | .param _ | .constant _ => true
  | .member target _ => target.isSurface
  | .binary _ l r => l.isSurface && r.isSurface
  | .unary _ e => e.isSurface
  | .call _ target args => Expr.isSurfaceOption target && Expr.isSurfaceList args
  | .object _ bindings => Expr.isSurfaceBindings bindings
  | .lambda ⟨_, body⟩ => body.isSurface
  | .conditional t a b => t.isSurface && a.isSurface && b.isSurface
  | .query log => Expr.isSurfaceLog log
  | .source _ | .grouping _ _ | .joinGroup _ _ | .aggregate _ _ => false

def Expr.isSurfaceOption : Option Expr → Bool
  | none => true
  | some e => e.isSurface

def Expr.isSurfaceList : List Expr → Bool
  | [] => true
  | e :: es => e.isSurface && Expr.isSurfaceList es

def Expr.isSurfaceBindings : List Binding → Bool
  | [] => true
  | ⟨_, v⟩ :: bs => v.isSurface && Expr.isSurfaceBindings bs

/-- Whether lambdas and queries among operands have only such forms. -/
def Expr.isSurfaceOperands : List Operand → Bool
  | [] => true
  | .lambda ⟨_, body⟩ :: os => body.isSurface && Expr.isSurfaceOperands os
  | .query log :: os => Expr.isSurfaceLog log && Expr.isSurfaceOperands os
  | .constant _ :: os | .typeName _ :: os | .entity _ :: os | .entities _ :: os =>
    Expr.isSurfaceOperands os

def Expr.isSurfaceLog : List Operator → Bool
  | [] => true
  | ⟨_, operands⟩ :: ops => Expr.isSurfaceOperands operands && Expr.isSurfaceLog ops

end

/-- Whether a log and the queries nested in it have only the expressions that a caller writes. -/
def Log.isSurface (log : Log) : Bool := Expr.isSurfaceLog log

theorem Expr.isSurface_of_mem {o : Operand} {os : List Operand}
    (h : Expr.isSurfaceOperands os) (ho : o ∈ os) : Expr.isSurfaceOperands [o] = true := by
  induction os with
  | nil => cases ho
  | cons o' os ih =>
    have hparts : Expr.isSurfaceOperands [o'] = true ∧ Expr.isSurfaceOperands os = true := by
      cases o' with
      | lambda l =>
        obtain ⟨params, body⟩ := l
        simpa [isSurfaceOperands] using h
      | query log => simpa [isSurfaceOperands] using h
      | _ => exact ⟨rfl, h⟩
    rcases List.mem_cons.1 ho with rfl | ho
    · exact hparts.1
    · exact ih hparts.2 ho

namespace Operator

variable {op : Operator} {i : Nat}

theorem isSurface_lambda? {l : Lambda} (h : Expr.isSurfaceOperands op.operands)
    (hl : op.lambda? i = some l) : l.body.isSurface = true := by
  unfold lambda? at hl
  split at hl
  · rename_i l' hget
    cases hl
    have hsurface := Expr.isSurface_of_mem h (List.mem_of_getElem? hget)
    obtain ⟨params, body⟩ := l
    simpa [Expr.isSurfaceOperands] using hsurface
  · cases hl

theorem isSurface_query? {log : Log} (h : Expr.isSurfaceOperands op.operands)
    (hq : op.query? i = some log) : log.isSurface = true := by
  unfold query? at hq
  split at hq
  · rename_i log' hget
    cases hq
    have hsurface := Expr.isSurface_of_mem h (List.mem_of_getElem? hget)
    simpa [Expr.isSurfaceOperands, Log.isSurface] using hsurface
  · cases hq

end Operator

theorem Log.isSurface_of_mem {log : Log} {op : Operator} (h : log.isSurface)
    (hop : op ∈ log) :
    Expr.isSurfaceOperands op.operands = true := by
  induction log with
  | nil => cases hop
  | cons o log ih =>
    obtain ⟨kind, operands⟩ := o
    simp only [isSurface, Expr.isSurfaceLog, Bool.and_eq_true] at h
    rcases List.mem_cons.1 hop with rfl | hop
    · exact h.1
    · exact ih h.2 hop

/-! ## Paths -/

namespace Expr

mutual

/-- The paths of members in an expression, with their beginnings. The bodies of lambdas and nested
queries are not entered. -/
def paths : Expr → List (Nat × List String)
  | source id => [(id, [])]
  | member target name => (member target name).memberPath?.toList ++ target.paths
  | binary _ l r => l.paths ++ r.paths
  | unary _ e => e.paths
  | call _ target args => pathsOption target ++ pathsList args
  | object _ bindings => pathsBindings bindings
  | conditional t a b => t.paths ++ a.paths ++ b.paths
  | grouping k e => k.paths ++ e.paths
  | joinGroup _ e => e.paths
  | aggregate _ arg => pathsOption arg
  | param _ | constant _ | lambda _ | query _ => []

def pathsOption : Option Expr → List (Nat × List String)
  | none => []
  | some e => e.paths

def pathsList : List Expr → List (Nat × List String)
  | [] => []
  | e :: es => e.paths ++ pathsList es

def pathsBindings : List Binding → List (Nat × List String)
  | [] => []
  | ⟨_, v⟩ :: bs => v.paths ++ pathsBindings bs

end

theorem pathsList_eq (es : List Expr) : pathsList es = es.flatMap paths := by
  induction es with
  | nil => rfl
  | cons e es ih => rw [pathsList, ih, List.flatMap_cons]

theorem pathsBindings_eq (bs : List Binding) : pathsBindings bs = bs.flatMap (·.value.paths) := by
  induction bs with
  | nil => rfl
  | cons b bs ih =>
    obtain ⟨m, v⟩ := b
    rw [pathsBindings, ih, List.flatMap_cons]

theorem mem_paths_of_memberPath? {e : Expr} {p : Nat × List String} (h : e.memberPath? = some p) :
    p ∈ e.paths := by
  cases e with
  | source id =>
    cases h
    simp [paths]
  | member target name => simp [paths, h]
  | _ => cases h

/-! ## What expressions read -/

variable {e : Expr}

/-- The expressions that an expression is built from. -/
def parts : Expr → List Expr
  | param _ | constant _ | query _ | source _ => []
  | member target _ => [target]
  | binary _ l r => [l, r]
  | unary _ e => [e]
  | call _ target args => target.toList ++ args
  | object _ bindings => bindings.map (·.value)
  | lambda l => [l.body]
  | conditional t a b => [t, a, b]
  | grouping k e => [k, e]
  | joinGroup _ e => [e]
  | aggregate _ arg => arg.toList

attribute [simp] parts

theorem sizeOf_lt_of_mem_parts {p : Expr} (h : p ∈ e.parts) : sizeOf p < sizeOf e := by
  cases e with
  | param | constant | query | source => cases h
  | call method target args =>
    rcases List.mem_append.1 h with h | h
    · obtain rfl : target = some p := by simpa using h
      simp only [call.sizeOf_spec, Option.some.sizeOf_spec]
      omega
    · have hlt := List.sizeOf_lt_of_mem h
      simp only [call.sizeOf_spec]
      omega
  | object ty bindings =>
    obtain ⟨⟨m, v⟩, hb, rfl⟩ := List.mem_map.1 h
    have hlt := List.sizeOf_lt_of_mem hb
    simp only [Binding.mk.sizeOf_spec] at hlt
    simp only [object.sizeOf_spec]
    omega
  | lambda l =>
    obtain ⟨params, body⟩ := l
    obtain rfl : p = body := by simpa using h
    simp only [lambda.sizeOf_spec, Lambda.mk.sizeOf_spec]
    omega
  | aggregate func arg =>
    obtain rfl : arg = some p := by simpa using h
    simp only [aggregate.sizeOf_spec, Option.some.sizeOf_spec]
    omega
  | _ =>
    simp only [parts, List.mem_cons, List.not_mem_nil, or_false] at h
    rcases h with rfl | rfl | rfl <;> simp <;> omega

/-- **Induction along the expressions that an expression is built from.** -/
theorem induction_parts {motive : Expr → Prop}
    (h : ∀ e : Expr, (∀ p ∈ e.parts, motive p) → motive e) (e : Expr) : motive e :=
  h e fun p hp =>
    have : sizeOf p < sizeOf e := sizeOf_lt_of_mem_parts hp
    induction_parts h p
termination_by sizeOf e
decreasing_by assumption

/-- **Induction along object constructions**, down to what is none. -/
theorem induction_object {motive : Expr → Prop}
    (object : ∀ ty bs, (∀ b ∈ bs, motive b.value) → motive (.object ty bs))
    (other : ∀ e, (∀ ty bs, e ≠ .object ty bs) → motive e) (e : Expr) : motive e := by
  induction e using induction_parts with
  | h e ih =>
    cases e with
    | object ty bs => exact object ty bs fun b hb => ih b.value (List.mem_map_of_mem hb)
    | _ => exact other _ (by simp)

/-- Whether an expression is read by reading its parts. -/
def isComposed : Expr → Bool
  | source _ | member _ _ | query _ => false
  | _ => true

/-- An expression reads only the sources that are seen: a source as it stands, or with the member
that is asked of it. Queries nested in it are as a caller writes them. -/
inductive Reads (sees : Nat → Option String → Prop) : Option String → Expr → Prop where
  | source {id : Nat} {asked : Option String} (h : sees id asked) : Reads sees asked (source id)
  | member {target : Expr} {name : String} {asked : Option String}
    (h : Reads sees (some name) target) : Reads sees asked (member target name)
  | query {log : Log} {asked : Option String} (h : log.isSurface = true) :
    Reads sees asked (query log)
  | composed {e : Expr} {asked : Option String} (he : e.isComposed = true)
    (h : ∀ p ∈ e.parts, Reads sees none p) : Reads sees asked e

section Reads

variable {sees sees' : Nat → Option String → Prop} {asked : Option String}

theorem reads_iff (he : e.isComposed) :
    Reads sees asked e ↔ ∀ p ∈ e.parts, Reads sees none p := by
  refine ⟨fun h => ?_, .composed he⟩
  cases h with
  | composed _ h => exact h
  | _ => cases he

theorem Reads.mono (h : Reads sees asked e) (hsees : ∀ id asked, sees id asked → sees' id asked) :
    Reads sees' asked e := by
  induction h with
  | source h => exact .source (hsees _ _ h)
  | member _ ih => exact .member ih
  | query h => exact .query h
  | composed he _ ih => exact .composed he ih

theorem Reads.ask (h : Reads sees none e) (hsees : ∀ id m, sees id none → sees id (some m)) :
    Reads sees asked e := by
  cases asked with
  | none => exact h
  | some m =>
    cases h with
    | source h => exact .source (hsees _ _ h)
    | member h => exact .member h
    | query h => exact .query h
    | composed he h => exact .composed he h

theorem isSurface_of_mem_parts {p : Expr} (h : e.isSurface) (hp : p ∈ e.parts) :
    p.isSurface = true := by
  have hlist : ∀ es, isSurfaceList es = true → ∀ e ∈ es, e.isSurface = true := by
    intro es hes
    induction es with
    | nil => simp
    | cons e es ih => simp_all [isSurfaceList]
  have hbindings : ∀ bs, isSurfaceBindings bs = true → ∀ b ∈ bs, b.value.isSurface = true := by
    intro bs hbs
    induction bs with
    | nil => simp
    | cons b bs ih =>
      obtain ⟨m, v⟩ := b
      simp_all [isSurfaceBindings]
  cases e with
  | source | grouping | joinGroup | aggregate => cases h
  | query | param | constant => cases hp
  | member target name =>
    obtain rfl : p = target := by simpa using hp
    exact h
  | binary | conditional =>
    simp only [isSurface, Bool.and_eq_true] at h
    simp only [parts, List.mem_cons, List.not_mem_nil, or_false] at hp
    rcases hp with rfl | rfl | rfl <;> simp [h]
  | unary op e =>
    obtain rfl : p = e := by simpa using hp
    exact h
  | lambda l =>
    obtain ⟨params, body⟩ := l
    obtain rfl : p = body := by simpa using hp
    exact h
  | object ty bindings =>
    obtain ⟨b, hb, rfl⟩ := List.mem_map.1 hp
    exact hbindings bindings h b hb
  | call method target args =>
    simp only [isSurface, Bool.and_eq_true] at h
    rcases List.mem_append.1 hp with hp | hp
    · obtain rfl : target = some p := by simpa using hp
      exact h.1
    · exact hlist args h.2 p hp

theorem reads_of_isSurface (h : e.isSurface) : Reads sees asked e := by
  induction e using induction_parts generalizing asked with
  | h e ih =>
    have hparts : ∀ p ∈ e.parts, Reads sees none p :=
      fun p hp => ih p hp (isSurface_of_mem_parts h hp)
    cases e with
    | source | grouping | joinGroup | aggregate => cases h
    | query log => exact .query h
    | member target name => exact .member (ih target (by simp) h)
    | _ => exact .composed rfl hparts

/-! ## Paths of what is seen -/

theorem Reads.of_memberPath? (h : Reads sees asked e) {id : Nat} {path : List String}
    (hpath : e.memberPath? = some (id, path)) : sees id (path.head?.or asked) := by
  induction h generalizing path with
  | source h =>
    cases hpath
    exact h
  | member _ ih =>
    obtain ⟨⟨k, before⟩, hbefore, hp⟩ := Option.map_eq_some_iff.1 hpath
    cases hp
    have hsees := ih hbefore
    cases before <;> simpa using hsees
  | query => cases hpath
  | @composed e _ he =>
    cases e with
    | source | member => cases he
    | _ => cases hpath

theorem mem_paths_of_isComposed (he : e.isComposed) {p : Nat × List String}
    (hp : p ∈ e.paths) : ∃ part ∈ e.parts, p ∈ part.paths := by
  cases e with
  | source | member | query => cases he
  | param | constant | lambda => simp [paths] at hp
  | call method target args =>
    rw [paths, List.mem_append, pathsList_eq, List.mem_flatMap] at hp
    rcases hp with hp | ⟨a, ha, hp⟩
    · cases target with
      | none => simp [pathsOption] at hp
      | some t => exact ⟨t, by simp, hp⟩
    · exact ⟨a, by simp [ha], hp⟩
  | object ty bindings =>
    rw [paths, pathsBindings_eq, List.mem_flatMap] at hp
    obtain ⟨b, hb, hp⟩ := hp
    exact ⟨b.value, List.mem_map_of_mem hb, hp⟩
  | aggregate func arg =>
    cases arg with
    | none => simp [paths, pathsOption] at hp
    | some a => exact ⟨a, by simp, hp⟩
  | _ => simpa [paths, or_assoc] using hp

/-- **The paths of an expression start at sources that are seen**, with their first member if they
have one. -/
theorem Reads.of_mem_paths (h : Reads sees asked e) {id : Nat} {path : List String}
    (hp : (id, path) ∈ e.paths) :
    (∃ asked, sees id asked) ∧ ∀ m ∈ path.head?, sees id (some m) := by
  have hown {asked : Option String} {e : Expr} (h : Reads sees asked e)
      (hpath : e.memberPath? = some (id, path)) :
      (∃ asked, sees id asked) ∧ ∀ m ∈ path.head?, sees id (some m) := by
    have hsees := h.of_memberPath? hpath
    refine ⟨⟨_, hsees⟩, fun m hm => ?_⟩
    rwa [Option.mem_def.1 hm, Option.some_or] at hsees
  induction h with
  | source h =>
    simp only [paths, List.mem_singleton] at hp
    exact hown (.source h) (hp ▸ rfl)
  | @member target name asked h ih =>
    rw [paths, List.mem_append, Option.mem_toList] at hp
    rcases hp with hp | hp
    · have hmember : Reads sees asked (.member target name) := .member h
      exact hown hmember hp
    · exact ih hp
  | query => simp [paths] at hp
  | composed he _ ih =>
    obtain ⟨part, hpart, hp⟩ := mem_paths_of_isComposed he hp
    exact ih part hpart hp

/-! ## Binding -/

theorem substituteList_eq (env : List (String × Expr)) (es : List Expr) :
    substituteList env es = es.map (substitute env) := by
  induction es with
  | nil => rfl
  | cons e es ih => rw [substituteList, ih, List.map_cons]

theorem substituteBindings_eq (env : List (String × Expr)) (bs : List Binding) :
    substituteBindings env bs = bs.map fun b => ⟨b.member, b.value.substitute env⟩ := by
  induction bs with
  | nil => rfl
  | cons b bs ih =>
    obtain ⟨m, v⟩ := b
    rw [substituteBindings, ih, List.map_cons]

theorem substituteOption_eq (env : List (String × Expr)) (o : Option Expr) :
    substituteOption env o = o.map (substitute env) := by
  cases o <;> rfl

theorem reduceList_eq_mapM (g : GroupCall) (es : List Expr) :
    reduceList g es = es.mapM (reduceWith g) := by
  induction es with
  | nil => rfl
  | cons e es ih => rw [reduceList, ih, List.mapM_cons]

theorem reduceBindings_eq_mapM (g : GroupCall) (bs : List Binding) :
    reduceBindings g bs = bs.mapM fun b => do return ⟨b.member, ← b.value.reduceWith g⟩ := by
  induction bs with
  | nil => rfl
  | cons b bs ih =>
    obtain ⟨m, v⟩ := b
    simp [reduceBindings, ih, List.mapM_cons]

theorem reduceList_eq_ok {g : GroupCall} {es es' : List Expr} (h : reduceList g es = .ok es') :
    List.Forall₂ (fun e e' => e.reduceWith g = .ok e') es es' :=
  Compiled.mapM_eq_ok.1 (reduceList_eq_mapM g es ▸ h)

theorem reduceBindings_eq_ok {g : GroupCall} {bs bs' : List Binding}
    (h : reduceBindings g bs = .ok bs') :
    List.Forall₂ (fun b b' => b.value.reduceWith g = .ok b'.value) bs bs' := by
  rw [reduceBindings_eq_mapM, Compiled.mapM_eq_ok] at h
  refine h.imp fun b b' hb => ?_
  obtain ⟨v, hv, hpure⟩ := Compiled.bind_eq_ok.1 hb
  cases hpure
  exact hv

end Reads

end Expr

end QueryCompiler

import QueryCompiler.Proofs.Rows.Datum
/-!
# Expressions of row pipelines

The expressions that a row pipeline may use: parameters, members that the row has, constants,
operators, conditionals, and constructions of objects with distinct members. `Expr.kind?` accepts
them and tells whether an expression is a scalar or a row, and which members a row has.

Binding a lambda keeps both what an expression is and what it denotes (`Lambda.bind_sound`):
substitution puts a row in the place of a parameter, and reduction reads a member of a construction
off its binding.
-/

namespace QueryCompiler

open Compiled (bind_eq_ok pure_eq_ok)

variable {V : Type}

/-- What an expression of a row pipeline yields. -/
inductive ItemKind where
  | scalar
  /-- a row with members that can be read -/
  | row (members : List String)
  deriving DecidableEq, Repr

namespace ItemKind

def member? : ItemKind → String → Option ItemKind
  | row members, name => if members.contains name then some scalar else none
  | scalar, _ => none

end ItemKind

namespace Expr

variable (env : List (String × ItemKind)) (root : Option ItemKind)

mutual

/-- What an expression yields, for kinds of the parameters and of the root rows. There is none if
the expression is none of a row pipeline. -/
def kind? : Expr → Option ItemKind
  | param name => env.lookup name
  | source 0 => root
  | member target name => do (← kind? target).member? name
  | constant _ => some .scalar
  | binary _ l r => do
    let _ ← kind? l
    let _ ← kind? r
    return .scalar
  | unary _ e => do
    let _ ← kind? e
    return .scalar
  | conditional t a b => do
    let _ ← kind? t
    let _ ← kind? a
    let _ ← kind? b
    return .scalar
  | object _ bindings =>
    if bindsScalars bindings && decide (bindings.map (·.member)).Nodup then
      some (.row (bindings.map (·.member)))
    else none
  | _ => none

def bindsScalars : List Binding → Bool
  | [] => true
  | ⟨_, v⟩ :: bs => kind? v == some .scalar && bindsScalars bs

end

variable {env root}

theorem bindsScalars_iff {bindings : List Binding} : bindsScalars env root bindings = true ↔
    ∀ b ∈ bindings, b.value.kind? env root = some .scalar := by
  induction bindings with
  | nil => simp [bindsScalars]
  | cons b bs ih =>
    obtain ⟨m, v⟩ := b
    simp [bindsScalars, ih]

theorem kind?_object {ty : Option String} {bindings : List Binding} {k : ItemKind} :
    (object ty bindings).kind? env root = some k ↔
      (∀ b ∈ bindings, b.value.kind? env root = some .scalar) ∧
        (bindings.map (·.member)).Nodup ∧ k = .row (bindings.map (·.member)) := by
  rw [kind?]
  split
  · rename_i h
    simp only [Bool.and_eq_true, bindsScalars_iff, decide_eq_true_eq] at h
    exact ⟨fun hk => ⟨h.1, h.2, (Option.some.inj hk).symm⟩, fun hk => congrArg some hk.2.2.symm⟩
  · rename_i h
    simp only [Bool.and_eq_true, bindsScalars_iff, decide_eq_true_eq, not_and] at h
    simp only [reduceCtorEq, false_iff, not_and]
    intro hb hn
    exact absurd hn (h hb)

/-! ## Values of bindings -/

section Values

variable {I : Interpretation V} {denv : List (String × Datum V)} {droot : Datum V}

theorem evalBindings_eq_map (bindings : List Binding) : evalBindings I denv droot bindings =
    bindings.map fun b => ⟨b.member, b.value.eval I denv droot⟩ := by
  induction bindings with
  | nil => rfl
  | cons b bs ih =>
    obtain ⟨m, v⟩ := b
    rw [evalBindings, ih, List.map_cons]

theorem get?_evalBindings (bindings : List Binding) (name : String) :
    (Datum.record (evalBindings I denv droot bindings)).get? name =
      (Binding.find? bindings name).map (·.eval I denv droot) := by
  rw [evalBindings_eq_map, Datum.get?, Binding.find?, List.find?_map, Option.map_map,
    Option.map_map]
  rfl

theorem lookup_values {α β : Type} (f : α → β) (entries : List (String × α)) (name : String) :
    (entries.map fun x => (x.1, f x.2)).lookup name = (entries.lookup name).map f := by
  induction entries with
  | nil => rfl
  | cons x xs ih =>
    obtain ⟨k, v⟩ := x
    simp only [List.map_cons, List.lookup_cons, ih]
    cases name == k <;> rfl

mutual

/-- **The value of a substituted expression** is its value for the values put in. -/
theorem eval_substitute (σ : List (String × Expr)) : ∀ e : Expr,
    (e.substitute σ).eval I [] droot =
      e.eval I (σ.map fun x => (x.1, x.2.eval I [] droot)) droot
  | param name => by
    rw [substitute, eval, lookup_values]
    cases σ.lookup name with
    | none => rfl
    | some e => rfl
  | member target name => by rw [substitute, eval, eval, eval_substitute σ target]
  | constant _ | call _ _ _ | query _ | grouping _ _ | joinGroup _ _ | aggregate _ _ => rfl
  | lambda ⟨_, _⟩ => rfl
  | source 0 => rfl
  | source (_ + 1) => rfl
  | binary op l r => by
    rw [substitute, eval, eval, eval_substitute σ l, eval_substitute σ r]
  | unary op e => by rw [substitute, eval, eval, eval_substitute σ e]
  | conditional t a b => by
    rw [substitute, eval, eval, eval_substitute σ t, eval_substitute σ a, eval_substitute σ b]
  | object ty bindings => by rw [substitute, eval, eval, evalBindings_substitute σ bindings]

theorem evalBindings_substitute (σ : List (String × Expr)) : ∀ bs : List Binding,
    evalBindings I [] droot (substituteBindings σ bs) =
      evalBindings I (σ.map fun x => (x.1, x.2.eval I [] droot)) droot bs
  | [] => rfl
  | ⟨m, v⟩ :: bs => by
    rw [substituteBindings, evalBindings, evalBindings, eval_substitute σ v,
      evalBindings_substitute σ bs]

end

mutual

/-- An expression that does not use the root has the same value for every root. -/
theorem eval_root : ∀ {e : Expr} {k : ItemKind} (droot' : Datum V), e.kind? env none = some k →
    e.eval I denv droot = e.eval I denv droot'
  | param _, _, _, _ => rfl
  | constant _, _, _, _ => rfl
  | member target name, k, droot', h => by
    obtain ⟨kt, ht, -⟩ := Option.bind_eq_some_iff.1 h
    rw [eval, eval, eval_root droot' ht]
  | binary op l r, k, droot', h => by
    obtain ⟨kl, hl, h⟩ := Option.bind_eq_some_iff.1 h
    obtain ⟨kr, hr, -⟩ := Option.bind_eq_some_iff.1 h
    rw [eval, eval, eval_root droot' hl, eval_root droot' hr]
  | unary op e, k, droot', h => by
    obtain ⟨ke, he, -⟩ := Option.bind_eq_some_iff.1 h
    rw [eval, eval, eval_root droot' he]
  | conditional t a b, k, droot', h => by
    obtain ⟨kt, ht, h⟩ := Option.bind_eq_some_iff.1 h
    obtain ⟨ka, ha, h⟩ := Option.bind_eq_some_iff.1 h
    obtain ⟨kb, hb, -⟩ := Option.bind_eq_some_iff.1 h
    rw [eval, eval, eval_root droot' ht, eval_root droot' ha, eval_root droot' hb]
  | object ty bindings, k, droot', h => by
    rw [eval, eval, evalBindings_root droot' bindings (kind?_object.1 h).1]
  | source 0, _, _, h => by cases h

theorem evalBindings_root (droot' : Datum V) : ∀ (bs : List Binding),
    (∀ b ∈ bs, b.value.kind? env none = some .scalar) →
      evalBindings I denv droot bs = evalBindings I denv droot' bs
  | [], _ => rfl
  | ⟨m, v⟩ :: bs, h => by
    rw [evalBindings, evalBindings, eval_root droot' (h ⟨m, v⟩ (by simp)),
      evalBindings_root droot' bs fun b hb => h b (by simp [hb])]

end

end Values

/-! ## Kinds under substitution and reduction -/

@[simp] theorem map_member_substituteBindings (σ : List (String × Expr)) (bs : List Binding) :
    (substituteBindings σ bs).map (·.member) = bs.map (·.member) := by
  induction bs with
  | nil => rfl
  | cons b bs ih =>
    obtain ⟨m, v⟩ := b
    simp [substituteBindings, ih]

mutual

/-- Substitution keeps kinds when the expressions put in have those of the parameters. -/
theorem kind?_substitute {σ : List (String × Expr)}
    (hσ : ∀ name k, env.lookup name = some k →
      ∃ e, σ.lookup name = some e ∧ e.kind? [] root = some k) :
    ∀ {e : Expr} {k : ItemKind}, e.kind? env none = some k →
      (e.substitute σ).kind? [] root = some k
  | param name, k, h => by
    obtain ⟨e, he, hk⟩ := hσ name k h
    rw [substitute, he]
    exact hk
  | constant _, _, h => h
  | member target name, k, h => by
    obtain ⟨kt, ht, h⟩ := Option.bind_eq_some_iff.1 h
    exact Option.bind_eq_some_iff.2 ⟨kt, kind?_substitute hσ ht, h⟩
  | binary op l r, k, h => by
    obtain ⟨kl, hl, h⟩ := Option.bind_eq_some_iff.1 h
    obtain ⟨kr, hr, h⟩ := Option.bind_eq_some_iff.1 h
    exact Option.bind_eq_some_iff.2 ⟨kl, kind?_substitute hσ hl,
      Option.bind_eq_some_iff.2 ⟨kr, kind?_substitute hσ hr, h⟩⟩
  | unary op e, k, h => by
    obtain ⟨ke, he, h⟩ := Option.bind_eq_some_iff.1 h
    exact Option.bind_eq_some_iff.2 ⟨ke, kind?_substitute hσ he, h⟩
  | conditional t a b, k, h => by
    obtain ⟨kt, ht, h⟩ := Option.bind_eq_some_iff.1 h
    obtain ⟨ka, ha, h⟩ := Option.bind_eq_some_iff.1 h
    obtain ⟨kb, hb, h⟩ := Option.bind_eq_some_iff.1 h
    exact Option.bind_eq_some_iff.2 ⟨kt, kind?_substitute hσ ht,
      Option.bind_eq_some_iff.2 ⟨ka, kind?_substitute hσ ha,
        Option.bind_eq_some_iff.2 ⟨kb, kind?_substitute hσ hb, h⟩⟩⟩
  | object ty bindings, k, h => by
    obtain ⟨hscalar, hnodup, rfl⟩ := kind?_object.1 h
    rw [substitute, kind?_object, map_member_substituteBindings]
    exact ⟨scalar_substituteBindings hσ bindings hscalar, hnodup, rfl⟩
  | source 0, _, h => by cases h

theorem scalar_substituteBindings {σ : List (String × Expr)}
    (hσ : ∀ name k, env.lookup name = some k →
      ∃ e, σ.lookup name = some e ∧ e.kind? [] root = some k) :
    ∀ bs : List Binding, (∀ b ∈ bs, b.value.kind? env none = some .scalar) →
      ∀ b ∈ substituteBindings σ bs, b.value.kind? [] root = some .scalar
  | [], _ => by simp [substituteBindings]
  | ⟨m, v⟩ :: bs, h => by
    rw [substituteBindings]
    exact List.forall_mem_cons.2 ⟨kind?_substitute hσ (h ⟨m, v⟩ (by simp)),
      scalar_substituteBindings hσ bs fun b hb => h b (by simp [hb])⟩

end

/-- Two expressions that denote the same for every root row, whatever constants and operators
mean. -/
def Agrees (e e' : Expr) : Prop :=
  ∀ (V : Type) (I : Interpretation V) (droot : Datum V), e.eval I [] droot = e'.eval I [] droot

variable {onGroup : GroupCall}

theorem foldMember_sound {target e' : Expr} {name : String} {k kt : ItemKind}
    (ht : target.kind? [] root = some kt) (hk : kt.member? name = some k)
    (h : foldMember target name = .ok e') :
    e'.kind? [] root = some k ∧ e'.Agrees (member target name) := by
  rcases foldMember_cases h with ⟨ty, bindings, rfl, hv⟩ | ⟨element, rfl⟩ | rfl
  · obtain ⟨hscalar, -, rfl⟩ := kind?_object.1 ht
    obtain ⟨b, hb, -, rfl⟩ := mem_of_find? hv
    have hk : k = .scalar := by
      simp only [ItemKind.member?] at hk
      split at hk <;> simp_all
    refine ⟨hk ▸ hscalar b hb, fun V I droot => ?_⟩
    rw [eval, eval, get?_evalBindings, hv]
    rfl
  · cases ht
  · exact ⟨Option.bind_eq_some_iff.2 ⟨kt, ht, hk⟩, fun V I droot => rfl⟩

mutual

/-- **Reduction keeps kinds and values.** -/
theorem reduceWith_sound : ∀ {e e' : Expr} {k : ItemKind}, e.kind? [] root = some k →
    e.reduceWith onGroup = .ok e' → e'.kind? [] root = some k ∧ e'.Agrees e
  | param _, _, _, _, h => by cases h
  | constant _, _, _, hk, h => by
    cases h
    exact ⟨hk, fun _ _ _ => rfl⟩
  | source 0, _, _, hk, h => by
    cases h
    exact ⟨hk, fun _ _ _ => rfl⟩
  | member target name, e', k, hk, h => by
    obtain ⟨kt, ht, hk⟩ := Option.bind_eq_some_iff.1 hk
    obtain ⟨target', hr, hf⟩ := bind_eq_ok.1 h
    obtain ⟨ht', hagrees⟩ := reduceWith_sound ht hr
    obtain ⟨hk', hmember⟩ := foldMember_sound ht' hk hf
    refine ⟨hk', fun V I droot => ?_⟩
    rw [hmember V I droot, eval, eval, hagrees V I droot]
  | binary op l r, e', k, hk, h => by
    obtain ⟨kl, hkl, hk⟩ := Option.bind_eq_some_iff.1 hk
    obtain ⟨kr, hkr, hk⟩ := Option.bind_eq_some_iff.1 hk
    simp only [reduceWith, bind_eq_ok, pure_eq_ok] at h
    obtain ⟨l', hl, r', hr, rfl⟩ := h
    obtain ⟨hkl', hal⟩ := reduceWith_sound hkl hl
    obtain ⟨hkr', har⟩ := reduceWith_sound hkr hr
    refine ⟨Option.bind_eq_some_iff.2 ⟨kl, hkl', Option.bind_eq_some_iff.2 ⟨kr, hkr', hk⟩⟩, ?_⟩
    intro V I droot
    rw [eval, eval, hal V I droot, har V I droot]
  | unary op e, e', k, hk, h => by
    obtain ⟨ke, hke, hk⟩ := Option.bind_eq_some_iff.1 hk
    simp only [reduceWith, bind_eq_ok, pure_eq_ok] at h
    obtain ⟨f, hf, rfl⟩ := h
    obtain ⟨hkf, haf⟩ := reduceWith_sound hke hf
    refine ⟨Option.bind_eq_some_iff.2 ⟨ke, hkf, hk⟩, fun V I droot => ?_⟩
    rw [eval, eval, haf V I droot]
  | conditional t a b, e', k, hk, h => by
    obtain ⟨kt, hkt, hk⟩ := Option.bind_eq_some_iff.1 hk
    obtain ⟨ka, hka, hk⟩ := Option.bind_eq_some_iff.1 hk
    obtain ⟨kb, hkb, hk⟩ := Option.bind_eq_some_iff.1 hk
    simp only [reduceWith, bind_eq_ok, pure_eq_ok] at h
    obtain ⟨t', ht, a', ha, b', hb, rfl⟩ := h
    obtain ⟨hkt', hat⟩ := reduceWith_sound hkt ht
    obtain ⟨hka', haa⟩ := reduceWith_sound hka ha
    obtain ⟨hkb', hab⟩ := reduceWith_sound hkb hb
    refine ⟨Option.bind_eq_some_iff.2 ⟨kt, hkt', Option.bind_eq_some_iff.2 ⟨ka, hka',
      Option.bind_eq_some_iff.2 ⟨kb, hkb', hk⟩⟩⟩, fun V I droot => ?_⟩
    rw [eval, eval, hat V I droot, haa V I droot, hab V I droot]
  | object ty bindings, e', k, hk, h => by
    obtain ⟨hscalar, hnodup, rfl⟩ := kind?_object.1 hk
    simp only [reduceWith, bind_eq_ok, pure_eq_ok] at h
    obtain ⟨bindings', hb, rfl⟩ := h
    obtain ⟨hscalar', hmembers, hvalues⟩ := reduceBindings_sound hscalar hb
    refine ⟨kind?_object.2 ⟨hscalar', hmembers ▸ hnodup, by rw [hmembers]⟩, fun V I droot => ?_⟩
    rw [eval, eval, hvalues V I droot]

theorem reduceBindings_sound : ∀ {bs bs' : List Binding},
    (∀ b ∈ bs, b.value.kind? [] root = some .scalar) → reduceBindings onGroup bs = .ok bs' →
      (∀ b ∈ bs', b.value.kind? [] root = some .scalar) ∧
      bs'.map (·.member) = bs.map (·.member) ∧
      ∀ (V : Type) (I : Interpretation V) (droot : Datum V),
        evalBindings I [] droot bs' = evalBindings I [] droot bs
  | [], _, _, h => by
    cases h
    simp
  | ⟨m, v⟩ :: bs, bs', hk, h => by
    simp only [reduceBindings, bind_eq_ok, pure_eq_ok] at h
    obtain ⟨w, hw, ws, hws, rfl⟩ := h
    obtain ⟨hkw, haw⟩ := reduceWith_sound (hk ⟨m, v⟩ (by simp)) hw
    obtain ⟨hkws, hmembers, hvalues⟩ :=
      reduceBindings_sound (fun b hb => hk b (by simp [hb])) hws
    refine ⟨List.forall_mem_cons.2 ⟨hkw, hkws⟩, by rw [List.map_cons, hmembers, List.map_cons], ?_⟩
    intro V I droot
    rw [evalBindings, evalBindings, haw V I droot, hvalues V I droot]

end

end Expr

/-- **Binding a lambda to a row** gives an expression of the kind of the lambda, whose value is that
of the lambda for the value of the row. -/
theorem Lambda.bind_sound {l : Lambda} {row e : Expr} {root : Option ItemKind} {kr k : ItemKind}
    (hrow : row.kind? [] root = some kr)
    (hk : l.body.kind? (l.params.map (·, kr)) none = some k) (h : l.bind [row] = .ok e) :
    e.kind? [] root = some k ∧ ∀ (V : Type) (I : Interpretation V) (droot : Datum V),
      e.eval I [] droot = l.apply I (row.eval I [] droot) := by
  rw [Lambda.bind_eq] at h
  obtain ⟨σ, hσ, h⟩ := bind_eq_ok.1 h
  obtain ⟨hlength, rfl⟩ := Lambda.environment_eq_ok hσ
  obtain ⟨p, hp⟩ := List.length_eq_one_iff.1 hlength
  rw [hp] at h hk
  have hkind : (l.body.substitute [(p, row)]).kind? [] root = some k := by
    refine Expr.kind?_substitute (fun name kn hn => ?_) hk
    simp only [List.map_cons, List.map_nil, List.lookup_cons] at hn ⊢
    cases hname : name == p with
    | true =>
      rw [hname] at hn
      cases hn
      exact ⟨row, rfl, hrow⟩
    | false =>
      rw [hname] at hn
      cases hn
  obtain ⟨hk', hagrees⟩ := Expr.reduceWith_sound hkind h
  refine ⟨hk', fun V I droot => ?_⟩
  rw [hagrees V I droot, Expr.eval_substitute, Lambda.apply, hp]
  exact Expr.eval_root I.missing hk

end QueryCompiler

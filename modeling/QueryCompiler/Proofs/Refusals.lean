import QueryCompiler.Plan.Shape
import QueryCompiler.Proofs.Outcome
/-!
# Refusals that do not happen

Most ways to refuse a query are there to be used. A few guard against what no log gets to: rows
that are passed over without an ordering, rows of a number that a layer does not have, the group of a
join that it does not have, operands that are not there, and lambdas among them with parameters that
nothing is bound to. `Spares` says of a step that it does not refuse a query in such a way, with one
rule for each way to compose steps.
-/

namespace QueryCompiler

/-- The refusals that are followed through the compiler. -/
inductive Refusal where
  /-- rows are passed over without an ordering -/
  | order
  /-- there are no rows of a number -/
  | source
  /-- there is no join whose group is flattened -/
  | group
  /-- there is no operand of the kind that is needed -/
  | operand
  /-- a lambda has more or fewer parameters than there are rows, as the error says -/
  | arity (e : CompileError)

def CompileError.refusal? : CompileError → Option Refusal
  | missingOrder _ => some .order
  | ambiguous (.sourceOutOfScope _) => some .source
  | ambiguous (.groupJoinOutOfScope _) => some .group
  | invalidOperand _ (.missingLambda _) | invalidOperand _ .missingQuery
  | invalidOperand _ .missingInnerQuery | invalidOperand _ .unexpectedPayload => some .operand
  | e@(invalidOperand _ (.parameterCount _ _)) => some (.arity e)
  | _ => none

/-- A step does not fail with a refusal. -/
def Compiled.Spares {α : Type} (r : Refusal) (x : Compiled α) : Prop :=
  ∀ e, x = .error e → e.refusal? ≠ some r

/-- A step that keeps a state does not fail with a refusal. -/
def Spares {σ α : Type} (r : Refusal) (x : StateT σ Compiled α) : Prop :=
  ∀ s, Compiled.Spares r (x.run s)

/-! ## Composed steps -/

namespace Compiled

variable {α β : Type} {r : Refusal} {x : Compiled α}

theorem Spares.ok {a : α} : Spares r (.ok a : Compiled α) := by
  rintro e ⟨⟩

theorem Spares.error {e : CompileError} (h : e.refusal? = none) :
    Spares r (.error e : Compiled α) := by
  rintro _ ⟨⟩
  simp [h]

theorem Spares.bind {f : α → Compiled β} (hx : x.Spares r) (hf : ∀ a, x = .ok a → (f a).Spares r) :
    Spares r (x >>= f) := by
  cases x with
  | error e => exact fun e' he' => hx e' (congrArg Except.error (Except.error.inj he'))
  | ok a => exact hf a rfl

theorem Spares.mapM {f : α → Compiled β} {l : List α} (h : ∀ a ∈ l, (f a).Spares r) :
    Spares r (l.mapM f) := by
  intro e he
  obtain ⟨a, ha, hfail⟩ := mapM_eq_error he
  exact h a ha e hfail

theorem Spares.forM {f : α → Compiled PUnit} {l : List α} (h : ∀ a ∈ l, (f a).Spares r) :
    Spares r (l.forM f) := by
  induction l with
  | nil => exact .ok
  | cons a l ih =>
    change Spares r (f a >>= fun _ => l.forM f)
    exact .bind (h a (by simp)) fun _ _ => ih fun a ha => h a (by simp [ha])

/-- A run spares a refusal if each step does, from what the steps before it keep. -/
theorem Spares.foldlM {motive : β → Prop} {f : β → α → Compiled β} {l : List α} {b : β}
    (hb : motive b) (h : ∀ a ∈ l, ∀ b, motive b → (f b a).Spares r)
    (hkeep : ∀ a ∈ l, ∀ b b', motive b → f b a = .ok b' → motive b') :
    Spares r (l.foldlM f b) := by
  induction l generalizing b with
  | nil => exact .ok
  | cons a l ih =>
    rw [List.foldlM_cons]
    refine .bind (h a (by simp) b hb) fun b' hb' => ?_
    refine ih (hkeep a (by simp) b b' hb hb') (fun a ha => h a (by simp [ha])) ?_
    exact fun a ha => hkeep a (by simp [ha])

end Compiled

namespace Spares

variable {σ α β : Type} {r : Refusal} {x : StateT σ Compiled α}

theorem pure {a : α} : Spares r (Pure.pure a : StateT σ Compiled α) := fun _ => .ok

theorem throw {e : CompileError} (h : e.refusal? = none) :
    Spares r (MonadExcept.throw e : StateT σ Compiled α) :=
  fun _ => .error h

theorem throw_bind {e : CompileError} {f : β → StateT σ Compiled α} (h : e.refusal? = none) :
    Spares r ((MonadExcept.throw e : StateT σ Compiled β) >>= f) :=
  fun _ => .error h

theorem bind {f : α → StateT σ Compiled β} (hx : Spares r x) (hf : ∀ a, Spares r (f a)) :
    Spares r (x >>= f) :=
  fun s => .bind (hx s) fun (a, s') _ => hf a s'

theorem read : Spares r (get : StateT σ Compiled σ) := fun _ => .ok

theorem write {s : σ} : Spares r (set s : StateT σ Compiled PUnit) := fun _ => .ok

theorem update {f : σ → σ} : Spares r (modify f : StateT σ Compiled PUnit) := fun _ => .ok

theorem mapM {f : α → StateT σ Compiled β} {l : List α} (h : ∀ a ∈ l, Spares r (f a)) :
    Spares r (l.mapM f) := by
  induction l with
  | nil => exact pure
  | cons a l ih =>
    rw [List.mapM_cons]
    refine bind (h a (by simp)) fun b => ?_
    exact bind (ih fun a ha => h a (by simp [ha])) fun bs => pure

theorem forM {f : α → StateT σ Compiled PUnit} {l : List α} (h : ∀ a ∈ l, Spares r (f a)) :
    Spares r (l.forM f) := by
  induction l with
  | nil => exact pure
  | cons a l ih =>
    change Spares r (f a >>= fun _ => l.forM f)
    exact bind (h a (by simp)) fun _ => ih fun a ha => h a (by simp [ha])

end Spares

/-- A step that keeps what is known of the state, with a result as `post` says, and does not fail
with a refusal. -/
structure Keeps {σ α : Type} (inv : σ → Prop) (x : StateT σ Compiled α) (post : α → Prop) : Prop where
  yields : Yields inv x fun a s => inv s ∧ post a
  spares : ∀ r s, inv s → (x.run s).Spares r

namespace Keeps

variable {σ α β : Type} {inv : σ → Prop} {post : α → Prop} {result : β → Prop}

theorem pure {a : α} (h : post a) : Keeps inv (Pure.pure a) post :=
  ⟨Yields.pure fun _ hs => ⟨hs, h⟩, fun _ _ _ => .ok⟩

theorem throw {e : CompileError} (h : e.refusal? = none) : Keeps inv (MonadExcept.throw e) post :=
  ⟨Yields.throw, fun _ _ _ => .error h⟩

theorem bind {x : StateT σ Compiled α} {f : α → StateT σ Compiled β} (hx : Keeps inv x post)
    (hf : ∀ a, post a → Keeps inv (f a) result) : Keeps inv (x >>= f) result where
  yields := Yields.bind hx.yields fun a s b s' hs hrun => (hf a hs.2).yields s b s' hs.1 hrun
  spares r s hs := .bind (hx.spares r s hs) fun (a, s') hrun =>
    have ha := hx.yields s a s' hs hrun
    (hf a ha.2).spares r s' ha.1

theorem lift_bind {x : Compiled α} {f : α → StateT σ Compiled β} (hx : ∀ r, x.Spares r)
    (h : ∀ a, x = .ok a → Keeps inv (f a) result) : Keeps inv (liftM x >>= f) result where
  yields := Yields.lift_bind fun a ha => (h a ha).yields
  spares r s hs := .bind (.bind (hx r) fun _ _ => .ok) fun (a, s') hrun => by
    obtain ⟨_, ha, hpure⟩ := Compiled.bind_eq_ok.1 hrun
    cases hpure
    exact (h a ha).spares r s hs

theorem get_bind {f : σ → StateT σ Compiled α} (h : ∀ s, inv s → Keeps inv (f s) post) :
    Keeps inv (get >>= f) post :=
  ⟨fun s a s' hs hrun => (h s hs).yields s a s' hs hrun, fun r s hs => (h s hs).spares r s hs⟩

theorem write {s : σ} (h : inv s) : Keeps inv (set s) fun _ => True :=
  ⟨Yields.set ⟨h, trivial⟩, fun _ _ _ => .ok⟩

theorem discard {x : StateT σ Compiled α} (hx : Keeps inv x post) :
    Keeps inv (Functor.discard x) fun _ => True :=
  hx.bind fun _ _ => pure trivial

theorem forM {f : α → StateT σ Compiled PUnit} {l : List α}
    (h : ∀ a ∈ l, Keeps inv (f a) fun _ => True) : Keeps inv (l.forM f) fun _ => True := by
  induction l with
  | nil => exact pure trivial
  | cons a l ih =>
    change Keeps inv (f a >>= fun _ => l.forM f) _
    exact (h a (by simp)).bind fun _ _ => ih fun a ha => h a (by simp [ha])

theorem mapM {f : α → StateT σ Compiled β} {l : List α}
    (h : ∀ a ∈ l, Keeps inv (f a) result) : Keeps inv (l.mapM f) fun bs => ∀ b ∈ bs, result b := by
  induction l with
  | nil => exact pure (by simp)
  | cons a l ih =>
    rw [List.mapM_cons]
    refine bind (h a (by simp)) fun b hb => bind (ih fun a ha => h a (by simp [ha])) fun bs hbs => ?_
    exact pure (List.forall_mem_cons.2 ⟨hb, hbs⟩)

end Keeps

/-! ## Entities and shapes -/

theorem Schema.spares_entity {schema : Schema} {ty : String} {r : Refusal} :
    (schema.entity ty).Spares r := by
  unfold entity
  split
  · exact .ok
  · exact .error rfl

theorem Entity.spares_column {entity : Entity} {name : String} {r : Refusal} :
    (entity.column name).Spares r := by
  unfold column
  split
  · exact .ok
  · exact .error rfl

theorem Layer.spares_shape {schema : Schema} {l : Layer} {r : Refusal} (e : Expr) :
    (l.shape schema e).Spares r := by
  fun_induction l.shape schema e with
  | case3 target name ih =>
    refine .bind ih fun shape _ => ?_
    split
    · refine .bind Schema.spares_entity fun entity _ => ?_
      split
      · exact .ok
      · split
        · exact .ok
        · exact .error rfl
    · exact .error rfl
    all_goals exact .ok
  | case6 => exact .error rfl
  | _ => exact .ok

end QueryCompiler

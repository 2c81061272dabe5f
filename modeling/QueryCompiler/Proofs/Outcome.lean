import Mathlib.Data.List.Forall2
import QueryCompiler.Error
/-!
# Outcomes of composed steps

A composed step succeeds exactly when its parts do. The lemmas here take a successful run apart,
for steps that may fail and for steps that keep a state besides.
-/

namespace QueryCompiler

/-- Whatever stands in the second of two related lists is related to an item of the first. -/
theorem exists_of_forall₂ {α β : Type} {rel : α → β → Prop} {l : List α} {l' : List β}
    (h : List.Forall₂ rel l l') : ∀ b ∈ l', ∃ a ∈ l, rel a b := by
  induction h with
  | nil => simp
  | @cons a b l l' hab _ ih =>
    refine List.forall_mem_cons.2 ⟨⟨a, by simp, hab⟩, fun b hb => ?_⟩
    obtain ⟨a, ha, hab⟩ := ih b hb
    exact ⟨a, by simp [ha], hab⟩

/-- What stands at a place of the second of two related lists is related to what stands at that
place of the first. -/
theorem getElem?_of_forall₂ {α β : Type} {rel : α → β → Prop} {l : List α} {l' : List β}
    (h : List.Forall₂ rel l l') {i : Nat} {b : β} (hb : l'[i]? = some b) :
    ∃ a, l[i]? = some a ∧ rel a b := by
  induction h generalizing i with
  | nil => cases hb
  | @cons a _ l l' hab _ ih =>
    cases i with
    | zero =>
      cases hb
      exact ⟨a, rfl, hab⟩
    | succ i => exact ih hb

namespace Compiled

variable {α β : Type}

theorem bind_eq_ok {x : Compiled α} {f : α → Compiled β} {b : β} :
    x >>= f = .ok b ↔ ∃ a, x = .ok a ∧ f a = .ok b := by
  cases x with
  | error e => simp [bind, Except.bind]
  | ok a => simp [bind, Except.bind]

theorem bind_eq_error {x : Compiled α} {f : α → Compiled β} {e : CompileError} :
    x >>= f = .error e ↔ x = .error e ∨ ∃ a, x = .ok a ∧ f a = .error e := by
  cases x with
  | error e' => simp [bind, Except.bind]
  | ok a => simp [bind, Except.bind]

theorem exists_ok {x : Compiled α} (h : x.toOption.isSome) : ∃ a, x = .ok a := by
  cases x with
  | error e => cases h
  | ok a => exact ⟨a, rfl⟩

theorem ok_bind (a : α) (f : α → Compiled β) : (.ok a : Compiled α) >>= f = f a := rfl

/-- A sequence goes on the same way if it does so after what the first step gives. -/
theorem bind_congr_ok {x : Compiled α} {f g : α → Compiled β} (h : ∀ a, x = .ok a → f a = g a) :
    x >>= f = x >>= g := by
  cases x with
  | error e => rfl
  | ok a => exact h a rfl

@[simp] theorem pure_eq_ok {a b : α} : (pure a : Compiled α) = .ok b ↔ a = b := by
  simp [pure, Except.pure]

@[simp] theorem pure_eq_error {a : α} {e : CompileError} :
    (pure a : Compiled α) = .error e ↔ False := by
  simp [pure, Except.pure]

@[simp] theorem throw_eq_ok {e : CompileError} {a : α} :
    (throw e : Compiled α) = .ok a ↔ False := by
  simp [throw, throwThe, MonadExceptOf.throw]

theorem mapM_eq_ok {f : α → Compiled β} : ∀ {l : List α} {l' : List β},
    l.mapM f = .ok l' ↔ List.Forall₂ (fun a b => f a = .ok b) l l'
  | [], l' => by cases l' <;> simp
  | a :: l, l' => by
    simp only [List.mapM_cons, bind_eq_ok, pure_eq_ok, mapM_eq_ok, List.forall₂_cons_left_iff]
    constructor
    · rintro ⟨b, hb, bs, hbs, rfl⟩
      exact ⟨b, bs, hb, hbs, rfl⟩
    · rintro ⟨b, bs, hb, hbs, rfl⟩
      exact ⟨b, hb, bs, hbs, rfl⟩

theorem forM_eq_ok {f : α → Compiled Unit} {l : List α} :
    l.forM f = .ok () ↔ ∀ a ∈ l, f a = .ok () := by
  induction l with
  | nil => exact ⟨fun _ _ h => absurd h List.not_mem_nil, fun _ => rfl⟩
  | cons a l ih =>
    change (f a >>= fun _ => l.forM f) = .ok () ↔ _
    rw [bind_eq_ok, List.forall_mem_cons, ← ih]
    exact ⟨fun ⟨_, ha, hl⟩ => ⟨ha, hl⟩, fun ⟨ha, hl⟩ => ⟨(), ha, hl⟩⟩

theorem bind_pure_eq_error {x : Compiled α} {f : α → β} {e : CompileError} :
    (x >>= fun a => pure (f a)) = .error e ↔ x = .error e := by
  simp only [bind_eq_error, pure_eq_error, and_false, exists_false, or_false]

theorem mapM_eq_error {f : α → Compiled β} {l : List α} {e : CompileError}
    (h : l.mapM f = .error e) : ∃ a ∈ l, f a = .error e := by
  induction l with
  | nil => cases h
  | cons a l ih =>
    rw [List.mapM_cons] at h
    rcases bind_eq_error.1 h with h | ⟨_, -, h⟩
    · exact ⟨a, by simp, h⟩
    · obtain ⟨b, hb, h⟩ := ih (bind_pure_eq_error.1 h)
      exact ⟨b, by simp [hb], h⟩

/-- **What every step of a run keeps, the run keeps.** -/
theorem foldlM_induction {step : β → α → Compiled β} {motive : β → Prop} {l : List α}
    (hstep : ∀ a ∈ l, ∀ b b', motive b → step b a = .ok b' → motive b') {b b' : β}
    (hb : motive b) (h : l.foldlM step b = .ok b') : motive b' := by
  induction l generalizing b with
  | nil =>
    cases h
    exact hb
  | cons a l ih =>
    simp only [List.foldlM_cons, bind_eq_ok] at h
    obtain ⟨b₁, hb₁, h⟩ := h
    exact ih (fun a ha => hstep a (by simp [ha])) (hstep a (by simp) b b₁ hb hb₁) h

end Compiled

/-! ## Steps that keep a state -/

section Stateful

variable {σ α β : Type} {pre : σ → Prop}

/-- A step that starts in a state with `pre` and succeeds ends with `post`. -/
def Yields (pre : σ → Prop) (x : StateT σ Compiled α) (post : α → σ → Prop) : Prop :=
  ∀ s a s', pre s → x.run s = .ok (a, s') → post a s'

namespace Yields

variable {f : α → StateT σ Compiled β} {post : β → σ → Prop} {x : StateT σ Compiled α}

theorem pure {a : α} {post : α → σ → Prop} (h : ∀ s, pre s → post a s) :
    Yields pre (Pure.pure a) post := by
  intro s _ _ hs hrun
  cases hrun
  exact h s hs

theorem throw {e : CompileError} {post : α → σ → Prop} :
    Yields pre (MonadExcept.throw e) post := by
  intro s _ _ hs hrun
  cases hrun

theorem bind {mid : α → σ → Prop} (hx : Yields pre x mid) (hf : ∀ a, Yields (mid a) (f a) post) :
    Yields pre (x >>= f) post := by
  intro s b s' hs hrun
  obtain ⟨⟨a, s₁⟩, hx₁, hf₁⟩ := Compiled.bind_eq_ok.1 hrun
  exact hf a s₁ b s' (hx s a s₁ hs hx₁) hf₁

theorem lift_bind {x : Compiled α} (h : ∀ a, x = .ok a → Yields pre (f a) post) :
    Yields pre (liftM x >>= f) post := by
  intro s b s' hs hrun
  obtain ⟨⟨a, s₁⟩, hlift, hf⟩ := Compiled.bind_eq_ok.1 hrun
  obtain ⟨_, hx, hpure⟩ := Compiled.bind_eq_ok.1 hlift
  cases hpure
  exact h a hx s b s' hs hf

theorem get_bind {f : σ → StateT σ Compiled β} (h : ∀ s, pre s → Yields (· = s) (f s) post) :
    Yields pre (get >>= f) post :=
  fun s b s' hs hrun => h s hs s b s' rfl hrun

theorem set {s₀ : σ} {post : PUnit → σ → Prop} (h : post ⟨⟩ s₀) :
    Yields pre (MonadStateOf.set s₀) post := by
  intro s a s' hs hrun
  cases hrun
  exact h

theorem discard {post : σ → Prop} (hx : Yields pre x fun _ => post) :
    Yields pre (Functor.discard x) fun _ => post := by
  intro s a s' hs hrun
  obtain ⟨⟨b, s₁⟩, hb, hrun⟩ := Compiled.bind_eq_ok.1 hrun
  cases hrun
  exact hx s b s' hs hb

theorem imp {post post' : α → σ → Prop} (hx : Yields pre x post) (h : ∀ a s, post a s → post' a s) :
    Yields pre x post' :=
  fun s a s' hs hrun => h a s' (hx s a s' hs hrun)

theorem forM {f : α → StateT σ Compiled PUnit} {l : List α}
    (h : ∀ a ∈ l, Yields pre (f a) fun _ => pre) : Yields pre (l.forM f) fun _ => pre := by
  induction l with
  | nil => exact pure fun _ hs => hs
  | cons a l ih =>
    change Yields pre (f a >>= fun _ => l.forM f) _
    exact bind (h a (by simp)) fun _ => ih fun b hb => h b (by simp [hb])

theorem mapM {l : List α} (h : ∀ a ∈ l, Yields pre (f a) fun _ => pre) :
    Yields pre (l.mapM f) fun _ => pre := by
  induction l with
  | nil => exact pure fun _ hs => hs
  | cons a l ih =>
    rw [List.mapM_cons]
    refine bind (h a (by simp)) fun _ => bind (ih fun b hb => h b (by simp [hb])) fun _ => ?_
    exact pure fun _ hs => hs

theorem mapM_map {γ : Type} {g : β → γ} {g' : α → γ} {l : List α}
    (h : ∀ a ∈ l, Yields (fun _ => True) (f a) fun b _ => g b = g' a) :
    Yields (fun _ => True) (l.mapM f) fun bs _ => bs.map g = l.map g' := by
  induction l with
  | nil => exact pure fun _ _ => rfl
  | cons a l ih =>
    rw [List.mapM_cons]
    intro s bs s' _ hrun
    obtain ⟨⟨b, s₁⟩, hb, hrun⟩ := Compiled.bind_eq_ok.1 hrun
    obtain ⟨⟨rest, s₂⟩, hrest, hrun⟩ := Compiled.bind_eq_ok.1 hrun
    cases hrun
    have hhead := h a (by simp) s b s₁ trivial hb
    have htail := ih (fun a ha => h a (by simp [ha])) s₁ rest s' trivial hrest
    simp only [List.map_cons, hhead, htail]

theorem trivial : Yields pre x fun _ _ => True :=
  fun _ _ _ _ _ => True.intro

end Yields

end Stateful

end QueryCompiler

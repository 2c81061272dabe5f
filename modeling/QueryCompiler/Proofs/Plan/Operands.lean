import QueryCompiler.Proofs.Plan.Applied
/-!
# Operands that are there

What the accessors of an operator find is settled by the slots of its kind, once it is valid: an
operand is there unless its slot is optional (`Operator.accepts_or_isOptional`), and a lambda has as
many parameters as there are rows that it is bound to (`Operator.arity_eq`).
-/

namespace QueryCompiler

/-- The rows that the lambda at a position is bound to. `element` is a row that is joined, or its
group. -/
def Draft.rowsAt (d : Draft) (element : Expr) : OpKind → Nat → List Expr
  | .includePath, _ | .update, _ => [.source 0]
  | .selectMany, 1 | .join, 3 | .groupJoin, 3 | .groupJoinRight, 3 => [d.row, element]
  | .join, 2 | .groupJoin, 2 | .groupJoinRight, 2 => [element]
  | _, _ => [d.row]

def Slot.arity : Slot → Nat
  | lambda n | optionalLambda n => n
  | _ => 1

theorem Slot.arity_eq {s : Slot} {l : Lambda} (h : s.accepts (.lambda l)) :
    l.arity = s.arity := by
  cases s with
  | lambda | optionalLambda | updatePayload => simpa [accepts, arity] using h
  | _ => cases h

namespace Operator

variable {op : Operator} {i n : Nat} {s : Slot} {o : Operand}

theorem accepts_of_checkSlots {kind : OpKind} {slots : List Slot} {operands : List Operand}
    (h : checkSlots kind slots operands = .ok ()) (hs : slots[i]? = some s)
    (ho : operands[i]? = some o) : s.accepts o = true := by
  induction slots generalizing operands i with
  | nil => simp at hs
  | cons slot slots ih =>
    cases operands with
    | nil => simp at ho
    | cons operand operands =>
      unfold checkSlots at h
      split at h
      · rename_i haccepts
        cases i with
        | zero =>
          cases hs
          cases ho
          exact haccepts
        | succ i => exact ih h hs ho
      · cases h

section Valid

variable (h : op.validate = .ok ())

include h

theorem length_of_validate : (op.kind.slots.filter (!·.isOptional)).length ≤ op.operands.length ∧
    op.operands.length ≤ op.kind.slots.length ∧
    checkSlots op.kind op.kind.slots op.operands = .ok () := by
  unfold validate at h
  dsimp only at h
  split at h
  · cases h
  · rename_i hcount
    simp only [Bool.or_eq_true, decide_eq_true_eq, not_or, Nat.not_lt] at hcount
    exact ⟨hcount.1, hcount.2, h⟩

/-- **What fills a slot fits it**, and only an optional slot is left empty. -/
theorem accepts_or_isOptional (hs : op.kind.slots[i]? = some s) :
    (∃ o, op.operands[i]? = some o ∧ s.accepts o = true) ∨
      op.operands[i]? = none ∧ s.isOptional = true := by
  obtain ⟨hleast, -, hslots⟩ := length_of_validate h
  cases ho : op.operands[i]? with
  | some o => exact .inl ⟨o, rfl, accepts_of_checkSlots hslots hs ho⟩
  | none =>
    -- what may be left out comes last
    have hlast : ∀ s ∈ op.kind.slots.drop (op.kind.slots.filter (!·.isOptional)).length,
        s.isOptional = true := by
      cases op.kind <;> decide
    have hi := Nat.le_trans hleast (List.getElem?_eq_none_iff.1 ho)
    have hdrop : (op.kind.slots.drop (op.kind.slots.filter (!·.isOptional)).length)[i -
        (op.kind.slots.filter (!·.isOptional)).length]? = some s := by
      rw [List.getElem?_drop, Nat.add_sub_cancel' hi, hs]
    exact .inr ⟨rfl, hlast s (List.mem_of_getElem? hdrop)⟩

theorem isSome_lambda? (hs : op.kind.slots[i]? = some (.lambda n)) : (op.lambda? i).isSome := by
  rcases accepts_or_isOptional h hs with ⟨o, ho, haccepts⟩ | ⟨-, hoptional⟩
  · cases o with
    | lambda l => simp [lambda?, ho]
    | _ => cases haccepts
  · cases hoptional

theorem isSome_query? (hs : op.kind.slots[i]? = some .query) : (op.query? i).isSome := by
  rcases accepts_or_isOptional h hs with ⟨o, ho, haccepts⟩ | ⟨-, hoptional⟩
  · cases o with
    | query log => simp [query?, ho]
    | _ => cases haccepts
  · cases hoptional

/-- **A lambda has a parameter for each row that it is bound to.** -/
theorem arity_eq {l : Lambda} (hl : op.lambda? i = some l) (d : Draft) (element : Expr) :
    l.arity = (d.rowsAt element op.kind i).length := by
  obtain ⟨-, hlength, hslots⟩ := length_of_validate h
  have ho : op.operands[i]? = some (.lambda l) := by
    unfold lambda? at hl
    split at hl
    · cases hl
      assumption
    · cases hl
  have hi : i < op.kind.slots.length :=
    Nat.lt_of_lt_of_le (List.getElem?_eq_some_iff.1 ho).1 hlength
  have hrows : op.kind.slots.map Slot.arity =
      (List.range op.kind.slots.length).map fun i => (d.rowsAt element op.kind i).length := by
    cases op.kind <;> rfl
  rw [Slot.arity_eq (accepts_of_checkSlots hslots (List.getElem?_eq_getElem hi) ho)]
  simpa [hi] using congrArg (·[i]?) hrows

end Valid

end Operator

end QueryCompiler

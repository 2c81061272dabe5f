import QueryCompiler.Proofs.Plan.Groups
/-!
# Valid logs

The reader of a log treats operands that are not there: it refuses the query, or takes no rows for a
number of rows. None of this happens to a valid log (`Plan.ofLog_of_valid`), since what is read at a
position is what the slot of that position accepts.

A lambda that is given to a method of a group is not an operand, and validation does not look at it.
So a query may still be refused for the parameters of such a lambda (`Log.pairSums`).
-/

namespace QueryCompiler

variable {schema : Schema} {nested : Log → Compiled Layer}

theorem CompileError.eq_of_arity {e e' : CompileError} (h : e'.refusal? = some (.arity e)) :
    e' = e := by
  unfold refusal? at h
  split at h <;> simp_all

/-- Neither a valid operator nor a query that it nests lacks an operand. -/
theorem Plan.spares_operand_ofLogAt {depth : Nat} {log : Log} :
    (ofLogAt schema depth log).Spares .operand := by
  induction depth generalizing log with
  | zero => exact .error rfl
  | succ depth ih =>
    have happly (op : Operator) (hvalid : op.validate = .ok ()) (d : Draft) :
        (d.apply schema (nestedAt schema depth) op).Spares .operand :=
      Draft.spares_apply (by simp) hvalid (fun _ _ _ _ => Lambda.spares_bind (by simp)) (by simp)
        fun _ _ => spares_nestedAt ih
    exact spares_ofLogWith (motive := fun _ => True) (fun _ => trivial) (fun _ _ _ _ _ _ => trivial)
      fun op _ hvalid d _ => Draft.spares_step (happly op hvalid d) fun d₁ _ => happly op hvalid d₁

/-- **A number of rows is that of its operand.** -/
theorem Operator.rowCount_of_validate {op : Operator} (h : op.validate = .ok ())
    (hk : op.kind = .skip ∨ op.kind = .take) :
    ∃ n : Int64, 0 ≤ n.toInt ∧ op.operands = [.constant (.int n)] ∧
      op.rowCount? = some n.toInt.toNat := by
  have hslots : op.kind.slots = [.rowCount] := by
    rcases hk with hk | hk <;> rw [hk] <;> rfl
  obtain ⟨hleast, hlength, hvalid⟩ := length_of_validate h
  rw [hslots] at hleast hlength hvalid
  obtain ⟨o, ho⟩ := List.length_eq_one_iff.1 (Nat.le_antisymm hlength hleast)
  have haccepts := accepts_of_checkSlots (i := 0) hvalid rfl (by rw [ho]; rfl)
  unfold Slot.accepts at haccepts
  split at haccepts <;> simp_all [rowCount?]

/-- **As many rows are passed over or kept as the operand says.** -/
theorem Draft.apply_rowCount {d d' : Draft} {op : Operator} {n : Nat} (hn : op.rowCount? = some n)
    (h : d.apply schema nested op = .ok d') :
    (op.kind = .skip → d'.layer.skip = n) ∧ (op.kind = .take → d'.layer.take = n) := by
  obtain ⟨kind, operands⟩ := op
  constructor
  · rintro rfl
    change d.skip schema ((Operator.rowCount? ⟨.skip, operands⟩).getD 0) = .ok d' at h
    rw [hn] at h
    unfold skip at h
    extract_lets orders at h
    split at h <;> cases h
    rfl
  · rintro rfl
    change .ok (d.take ((Operator.rowCount? ⟨.take, operands⟩).getD 0)) = Except.ok d' at h
    rw [hn] at h
    cases h
    rfl

/-- **A valid log is planned from the operands that it has.** The plan is not refused for an operand
that is not there. If it is refused for the number of parameters of a lambda, so is the application of
an operator, and this is not for a lambda of its own: each has a parameter for every row that it is
bound to, and what is refused is a query that the operator nests, or what is found in the body of a
lambda once it is bound. And the rows that are passed over or kept are as many as the operand says. -/
theorem Plan.ofLog_of_valid (schema : Schema) {log : Log} (h : log.validate = .ok ()) :
    (∀ kind, (∀ i, ofLog schema log ≠ .error (.invalidOperand kind (.missingLambda i))) ∧
      ofLog schema log ≠ .error (.invalidOperand kind .missingQuery) ∧
      ofLog schema log ≠ .error (.invalidOperand kind .missingInnerQuery) ∧
      ofLog schema log ≠ .error (.invalidOperand kind .unexpectedPayload)) ∧
    (∀ kind n m, ofLog schema log = .error (.invalidOperand kind (.parameterCount n m)) →
      ∃ op ∈ log, ∃ d : Draft, d.apply schema (nestedAt schema log.nesting) op =
        .error (.invalidOperand kind (.parameterCount n m))) ∧
    ∀ op ∈ log, ∀ (nested : Log → Compiled Layer) (d : Draft),
      (∀ i l element, op.lambda? i = some l → l.arity = (d.rowsAt element op.kind i).length) ∧
      (∀ kind n m, d.apply schema nested op =
          .error (.invalidOperand kind (.parameterCount n m)) →
        (∃ inner, d.Nests op inner ∧
          nested inner = .error (.invalidOperand kind (.parameterCount n m))) ∨
        ∃ i l element, op.lambda? i = some l ∧ l.bind (d.rowsAt element op.kind i) =
          .error (.invalidOperand kind (.parameterCount n m))) ∧
      (op.kind = .skip ∨ op.kind = .take → ∃ n : Int64, 0 ≤ n.toInt ∧
        op.operands = [.constant (.int n)] ∧ op.rowCount? = some n.toInt.toNat ∧
        ∀ d', d.apply schema nested op = .ok d' →
          (op.kind = .skip → d'.layer.skip = n.toInt.toNat) ∧
          (op.kind = .take → d'.layer.take = n.toInt.toNat)) := by
  have hoperand (e : CompileError) (he : ofLog schema log = .error e) :
      e.refusal? ≠ some .operand := spares_operand_ofLogAt e he
  refine ⟨fun kind => ⟨?_, ?_, ?_, ?_⟩, fun kind n m he => ?_, fun op hop nested d => ?_⟩
  · exact fun i he => hoperand _ he rfl
  · exact fun he => hoperand _ he rfl
  · exact fun he => hoperand _ he rfl
  · exact fun he => hoperand _ he rfl
  · by_contra! hno
    have happly (op : Operator) (hop : op ∈ log) (d : Draft) : Compiled.Spares
        (.arity (.invalidOperand kind (.parameterCount n m)))
        (d.apply schema (nestedAt schema log.nesting) op) := by
      intro e he hrefusal
      rw [CompileError.eq_of_arity hrefusal] at he
      exact hno op hop d he
    refine spares_ofLogWith (motive := fun _ => True) (fun _ => trivial)
      (fun _ _ _ _ _ _ => trivial) (fun op hop _ d _ => ?_) _ he rfl
    exact Draft.spares_step (happly op hop d) fun d₁ _ => happly op hop d₁
  · have hvalid := Compiled.forM_eq_ok.1 h op hop
    refine ⟨fun i l element hl => op.arity_eq hvalid hl d element, fun kind n m he => ?_, fun hk => ?_⟩
    · by_contra! hno
      refine Draft.spares_apply (r := .arity _) (by simp) hvalid ?_ (by simp) ?_ _ he rfl
      · intro i l element hl e he hrefusal
        rw [CompileError.eq_of_arity hrefusal] at he
        exact hno.2 i l element hl he
      · intro inner hinner e he hrefusal
        rw [CompileError.eq_of_arity hrefusal] at he
        exact hno.1 inner hinner he
    · obtain ⟨n, hn, hoperands, hcount⟩ := Operator.rowCount_of_validate hvalid hk
      exact ⟨n, hn, hoperands, hcount, fun d' hd' => Draft.apply_rowCount hcount hd'⟩

/-- All orders but the first, by their numbers, each with a sum over two parameters. -/
def Log.pairSums : Log :=
  [.getSource "Order", .orderBy ⟨["o"], .member (.param "o") "Id"⟩, .skip 1,
    .groupBy ⟨["o"], .member (.param "o") "Id"⟩ none,
    .select ⟨["g"], .callOn (.param "g") "Sum"
      [.function ["x", "y"] (.member (.param "x") "Id")]⟩]

/-- That log is valid and passes over one row, and is refused for the lambda of the sum. -/
theorem Plan.ofLog_of_valid_pairSums :
    Log.pairSums.validate = .ok () ∧
      ofLog (.sales []) .pairSums = .error (.invalidOperand "lambda" (.parameterCount 1 2)) ∧
      (∃ op ∈ Log.pairSums, ∃ d : Draft, d.apply (.sales []) (nestedAt (.sales []) 0) op =
        .error (.invalidOperand "lambda" (.parameterCount 1 2))) ∧
      ∀ nested (d d' : Draft), d.apply (.sales []) nested (.skip 1) = .ok d' →
        d'.layer.skip = 1 := by
  have hvalid : Log.pairSums.validate = .ok () := rfl
  obtain ⟨-, harity, hoperators⟩ := ofLog_of_valid (.sales []) hvalid
  have herror : ofLog (.sales []) .pairSums =
      .error (.invalidOperand "lambda" (.parameterCount 1 2)) := by cbv
  refine ⟨hvalid, herror, harity _ _ _ herror, fun nested d d' hd' => ?_⟩
  obtain ⟨-, -, hcount⟩ := hoperators (.skip 1) (by simp [Log.pairSums]) nested d
  obtain ⟨n, -, hoperands, -, hskip⟩ := hcount (.inl rfl)
  cases hoperands
  exact (hskip d' hd').1 rfl

end QueryCompiler

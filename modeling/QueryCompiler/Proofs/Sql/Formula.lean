import QueryCompiler.Proofs.Sql.Tokens
/-!
# Reading SQL expressions back

What an SQL expression means is a formula. Tokens are read from left to right by precedence: `OR`
binds least, then `AND`, `NOT`, comparisons, `+` and `-`, then `*`, `/` and `%`, and the sign of a
number most. An operator that is waiting for its right side keeps its place on a stack. It takes what
has been read once an operator comes that does not bind more tightly, so operators associate to the
left.

`Stands` means that characters have been read to a formula above a stack, for all that may come next
at some level. From it the readings of operators, parentheses and functions follow.
-/

namespace QueryCompiler

/-- How tightly an operator binds in SQL. -/
def BinaryOp.level : BinaryOp → Nat
  | or => 1
  | and => 2
  | eq | ne | lt | le | gt | ge => 4
  | add | sub | concat => 5
  | mul | div | rem => 6
  | coalesce => 7

theorem BinaryOp.level_le (op : BinaryOp) : op.level ≤ 7 := by
  cases op <;> decide

namespace Sql

/-- What an SQL expression means. -/
inductive Formula where
  | column (row : Nat) (name : String)
  | number (n : Nat)
  | binary (op : BinaryOp) (left right : Formula)
  | not (f : Formula)
  | negate (f : Formula)
  | replaceNull (f replacement : Formula)
  | caseWhen (test ifTrue ifFalse : Formula)
  deriving DecidableEq, Repr

namespace Formula

/-- How tightly `NOT` binds. -/
def notLevel : Nat := 3

/-- How tightly the sign of a number binds. -/
def minusLevel : Nat := 7

/-- The level of what needs no parentheses anywhere. -/
def atomLevel : Nat := 8

/-- The same formula but for the grouping of chains of `AND` and chains of `OR`. -/
inductive Regrouped : Formula → Formula → Prop
  | refl (f : Formula) : Regrouped f f
  | symm {f g : Formula} : Regrouped f g → Regrouped g f
  | trans {f g h : Formula} : Regrouped f g → Regrouped g h → Regrouped f h
  | assoc {op : BinaryOp} (hop : op.isLogical = true) (f g h : Formula) :
    Regrouped (binary op (binary op f g) h) (binary op f (binary op g h))
  | binary {f f' g g' : Formula} (op : BinaryOp) :
    Regrouped f f' → Regrouped g g' → Regrouped (binary op f g) (binary op f' g')
  | not {f f' : Formula} : Regrouped f f' → Regrouped (not f) (not f')
  | negate {f f' : Formula} : Regrouped f f' → Regrouped (negate f) (negate f')
  | replaceNull {f f' g g' : Formula} :
    Regrouped f f' → Regrouped g g' → Regrouped (replaceNull f g) (replaceNull f' g')
  | caseWhen {t t' f f' g g' : Formula} : Regrouped t t' → Regrouped f f' → Regrouped g g' →
    Regrouped (caseWhen t f g) (caseWhen t' f' g')

end Formula

/-! ## Reading -/

/-- What waits for more to be read. -/
inductive Pending where
  /-- an operator and its left side -/
  | operator (op : BinaryOp) (left : Formula)
  | not
  | minus
  | opening
  /-- the name of rows, before and behind its point -/
  | row (n : Nat)
  | member (n : Nat)
  /-- the function that replaces null, before and behind its first argument -/
  | function
  | argument
  | replacement (f : Formula)
  /-- a case, before its test, before what is chosen if it holds, and before the other choice -/
  | case
  | test
  | ifTrue (test : Formula)
  | ifFalse (test ifTrue : Formula)

/-- What has been read: all that waits, the last of it first, and the operand behind it. -/
structure Reader where
  stack : List Pending
  operand : Option Formula

namespace Pending

open Formula

/-- Gives an operand to the operators before it that bind at some level or more tightly. -/
def settle (q : Nat) : List Pending → Formula → List Pending × Formula
  | operator op left :: σ, f =>
    if q ≤ op.level then settle q σ (.binary op left f) else (operator op left :: σ, f)
  | not :: σ, f => if q ≤ notLevel then settle q σ (.not f) else (not :: σ, f)
  | minus :: σ, f => if q ≤ minusLevel then settle q σ (.negate f) else (minus :: σ, f)
  | σ, f => (σ, f)

/-- Whether an operand may come that no operator before it takes at some level. -/
def opens (q : Nat) : List Pending → Bool
  | operator op _ :: _ => op.level < q
  | not :: _ => notLevel < q
  | minus :: _ => minusLevel < q
  | row _ :: _ | member _ :: _ | function :: _ | case :: _ => false
  | _ => true

/-- Whether `NOT` may stand behind what waits. -/
def admitsNot : List Pending → Bool
  | operator op _ :: _ => op.level < notLevel
  | minus :: _ => false
  | _ => true

end Pending

namespace Reader

open Pending

/-- A token where an operand is to start, with the values of parameters. -/
def shift (values : Nat → Option Nat) (σ : List Pending) : Token → Option Reader
  | .number n => some ⟨σ, some (.number n)⟩
  | .parameter k => (values k).map fun n => ⟨σ, some (.number n)⟩
  | .row n => some ⟨row n :: σ, none⟩
  | .point =>
    match σ with
    | row n :: σ => some ⟨member n :: σ, none⟩
    | _ => none
  | .name s =>
    match σ with
    | member n :: σ => some ⟨σ, some (.column n s)⟩
    | _ => none
  | .opening =>
    match σ with
    | function :: σ => some ⟨argument :: σ, none⟩
    | σ => some ⟨opening :: σ, none⟩
  | .notWord => if admitsNot σ then some ⟨not :: σ, none⟩ else none
  | .sign .sub => some ⟨minus :: σ, none⟩
  | .replaceNull => some ⟨function :: σ, none⟩
  | .caseWord => some ⟨case :: σ, none⟩
  | .whenWord =>
    match σ with
    | case :: σ => some ⟨test :: σ, none⟩
    | _ => none
  | _ => none

/-- A token behind an operand, to which the operators before it have been applied. -/
def reduce (σ : List Pending) (f : Formula) (token : Token) : Option Reader :=
  match token with
  | .sign op => some ⟨operator op (settle op.level σ f).2 :: (settle op.level σ f).1, none⟩
  | .closing =>
    match settle 0 σ f with
    | (opening :: σ, f) => some ⟨σ, some f⟩
    | (replacement g :: σ, f) => some ⟨σ, some (.replaceNull g f)⟩
    | _ => none
  | .comma =>
    match settle 0 σ f with
    | (argument :: σ, f) => some ⟨replacement f :: σ, none⟩
    | _ => none
  | .thenWord =>
    match settle 0 σ f with
    | (test :: σ, f) => some ⟨ifTrue f :: σ, none⟩
    | _ => none
  | .elseWord =>
    match settle 0 σ f with
    | (ifTrue t :: σ, f) => some ⟨ifFalse t f :: σ, none⟩
    | _ => none
  | .endWord =>
    match settle 0 σ f with
    | (ifFalse t a :: σ, f) => some ⟨σ, some (.caseWhen t a f)⟩
    | _ => none
  | _ => none

def step (values : Nat → Option Nat) (r : Reader) (token : Token) : Option Reader :=
  match r.operand with
  | none => shift values r.stack token
  | some f => reduce r.stack f token

def run (values : Nat → Option Nat) (r : Reader) (ts : List Token) : Option Reader :=
  ts.foldlM (step values) r

/-- The formula that has been read, if nothing is left to wait. -/
def result (r : Reader) : Option Formula :=
  r.operand.bind fun f =>
    match settle 0 r.stack f with
    | ([], f) => some f
    | _ => none

end Reader

def readFormula (d : Dialect) (values : Nat → Option Nat) (text : String) : Option Formula :=
  (Reader.run values ⟨[], none⟩ (tokens d .idle text.toList)).bind Reader.result

example : readFormula .sqlServer (fun _ => none) "1 - 2 - 3 < -4 * 5 OR NOT 6 = 7" =
    some (.binary .or
      (.binary .lt (.binary .sub (.binary .sub (.number 1) (.number 2)) (.number 3))
        (.binary .mul (.negate (.number 4)) (.number 5)))
      (.not (.binary .eq (.number 6) (.number 7)))) := by decide

/-! ## Levels -/

namespace Pending

variable {p q : Nat} {σ : List Pending} {f : Formula}

theorem settle_of_opens (h : opens q σ) : settle q σ f = (σ, f) := by
  rcases σ with _ | ⟨top, σ⟩
  · rfl
  · cases top with
    | operator op left | not | minus =>
      simp only [opens, decide_eq_true_eq] at h
      rw [settle, if_neg (by omega)]
    | _ => rfl

theorem opens_mono (h : opens p σ) (hpq : p ≤ q) : opens q σ = true := by
  rcases σ with _ | ⟨top, σ⟩
  · rfl
  · cases top with
    | operator op left | not | minus =>
      simp only [opens, decide_eq_true_eq] at h ⊢
      omega
    | _ => exact h

end Pending

/-- The level at which a token looks at the operand before it. -/
def Token.level : Token → Nat
  | .sign op => op.level
  | _ => 0

namespace Reader

open Pending Formula

variable {d : Dialect} {values : Nat → Option Nat} {r r' : Reader} {text text' w : List Char}
  {p q : Nat} {σ σ' : List Pending} {f g a : Formula} {token : Token} {op : BinaryOp}

/-- A token behind an operand tells no more than what settles at its level. -/
theorem reduce_congr (h : settle token.level σ f = settle token.level σ' g) :
    reduce σ f token = reduce σ' g token := by
  cases token <;> simp only [Token.level] at h <;> simp only [reduce, h]

/-! ## Texts that are read -/

/-- Characters lead from one state to another, whatever comes behind them. -/
def Leads (d : Dialect) (values : Nat → Option Nat) (r : Reader) (text : List Char) (r' : Reader) :
    Prop :=
  ∀ rest, run values r (tokens d .idle (text ++ rest)) = run values r' (tokens d .idle rest)

/-- **Characters are read to a formula above a stack**, as far as levels up to `p` can tell, if the
text breaks behind them. -/
def Stands (d : Dialect) (values : Nat → Option Nat) (r : Reader) (text : List Char) (p : Nat)
    (σ : List Pending) (a : Formula) : Prop :=
  ∃ σ' f, (∀ rest, Breaks rest → run values r (tokens d .idle (text ++ rest)) =
      run values ⟨σ', some f⟩ (tokens d .idle rest)) ∧
    ∀ q ≤ p, settle q σ' f = settle q σ a

theorem run_cons {ts : List Token} :
    run values r (token :: ts) = (step values r token).bind fun r' => run values r' ts := rfl

theorem Leads.single (hw : ∀ rest, tokens d .idle (w ++ rest) = token :: tokens d .idle rest)
    (hstep : step values r token = some r') : Leads d values r w r' := by
  intro rest
  rw [hw, run_cons, hstep]
  rfl

namespace Stands

theorem single (hw : ∀ rest, Breaks rest → tokens d .idle (w ++ rest) = token :: tokens d .idle rest)
    (hstep : step values r token = some ⟨σ, some a⟩) : Stands d values r w p σ a := by
  refine ⟨σ, a, fun rest hrest => ?_, fun _ _ => rfl⟩
  rw [hw rest hrest, run_cons, hstep]
  rfl

theorem lead (h : Leads d values r text r') (h' : Stands d values r' text' p σ a) :
    Stands d values r (text ++ text') p σ a := by
  obtain ⟨σ', f, hrun, hsettle⟩ := h'
  refine ⟨σ', f, fun rest hrest => ?_, hsettle⟩
  rw [List.append_assoc, h, hrun rest hrest]

theorem run_next (h : Stands d values r text p σ a) {rest : List Char} (hrest : Breaks rest)
    {ts : List Token} (htoken : tokens d .idle rest = token :: ts) (hlevel : token.level ≤ p)
    (hnext : reduce σ a token = some r') :
    run values r (tokens d .idle (text ++ rest)) = run values r' ts := by
  obtain ⟨σ', f, hrun, hsettle⟩ := h
  rw [hrun rest hrest, htoken, run_cons]
  have hreduce : step values ⟨σ', some f⟩ token = some r' :=
    (reduce_congr (hsettle _ hlevel)).trans hnext
  rw [hreduce]
  rfl

theorem next (h : Stands d values r text p σ a)
    (hw : ∀ rest, tokens d .idle (w ++ rest) = token :: tokens d .idle rest)
    (hbreaks : ∀ rest, Breaks (w ++ rest)) (hlevel : token.level ≤ p)
    (hnext : reduce σ a token = some r') : Leads d values r (text ++ w) r' := by
  intro rest
  rw [List.append_assoc]
  exact h.run_next (hbreaks rest) (hw rest) hlevel hnext

theorem last (h : Stands d values r text p σ a)
    (hw : ∀ rest, Breaks rest → tokens d .idle (w ++ rest) = token :: tokens d .idle rest)
    (hbreaks : ∀ rest, Breaks (w ++ rest)) (hlevel : token.level ≤ p)
    (hnext : reduce σ a token = some ⟨σ', some g⟩) :
    Stands d values r (text ++ w) q σ' g := by
  refine ⟨σ', g, fun rest hrest => ?_, fun _ _ => rfl⟩
  rw [List.append_assoc]
  exact h.run_next (hbreaks rest) (hw rest hrest) hlevel hnext

end Stands

/-! ## Formulas that are read -/

/-- **Characters tell a formula**, wherever an operand of a level may stand. -/
def Tells (d : Dialect) (values : Nat → Option Nat) (text : List Char) (p : Nat) (f : Formula) :
    Prop :=
  ∀ σ, opens p σ = true → ∃ a, Stands d values ⟨σ, none⟩ text p σ a ∧ Regrouped a f

/-- Characters tell the right side of an operator. -/
def TellsRight (d : Dialect) (values : Nat → Option Nat) (text : List Char) (op : BinaryOp)
    (f : Formula) : Prop :=
  ∀ left σ, opens op.level σ = true →
    ∃ a, Stands d values ⟨operator op left :: σ, none⟩ text op.level σ a ∧
      Regrouped a (.binary op left f)

namespace Tells

theorem right (h : Tells d values text p f) (hlt : op.level < p) :
    TellsRight d values text op f := by
  intro left σ hσ
  obtain ⟨a, ⟨σ', g, hrun, hsettle⟩, ha⟩ := h (operator op left :: σ) (by simpa [opens] using hlt)
  refine ⟨.binary op left a, ⟨σ', g, hrun, fun q hq => ?_⟩, .binary op (.refl left) ha⟩
  rw [hsettle q (by omega), settle, if_pos hq]

theorem sign {left : Formula} (hop : isSign op) (hp : op.level ≤ p)
    (hσ : opens op.level σ) (hleft : Stands d values r text p σ left)
    (hright : TellsRight d values text' op g) :
    ∃ b, Stands d values r (text ++ (" " ++ op.symbol ++ " ").toList ++ text') op.level σ b ∧
      Regrouped b (.binary op left g) := by
  obtain ⟨b, hb, hgroup⟩ := hright left σ hσ
  have hreduce : reduce σ left (.sign op) = some ⟨operator op left :: σ, none⟩ := by
    rw [reduce, settle_of_opens hσ]
  have hlead := hleft.next (fun _ => tokens_sign hop) (fun _ => by simp [Breaks]) hp hreduce
  exact ⟨b, Stands.lead hlead hb, hgroup⟩

/-- **An operator between its sides.** The left side may bind as tightly. -/
theorem binary (hop : isSign op) (hp : op.level ≤ p) (hleft : Tells d values text p f)
    (hright : TellsRight d values text' op g) :
    Tells d values (text ++ (" " ++ op.symbol ++ " ").toList ++ text') op.level (.binary op f g) := by
  intro σ hσ
  obtain ⟨a, ha, hgroup⟩ := hleft σ (opens_mono hσ hp)
  obtain ⟨b, hb, hgroup'⟩ := sign hop hp hσ ha hright
  exact ⟨b, hb, hgroup'.trans (.binary op hgroup (.refl g))⟩

theorem single (hw : ∀ rest, Breaks rest → tokens d .idle (w ++ rest) = token :: tokens d .idle rest)
    (hstep : ∀ σ, shift values σ token = some ⟨σ, some f⟩) : Tells d values w p f :=
  fun σ _ => ⟨f, Stands.single hw (hstep σ), .refl f⟩

theorem column {ref : ColumnRef} :
    Tells d values (ref.text d).toList p (.column ref.row ref.name) := by
  intro σ _
  refine ⟨_, ⟨σ, .column ref.row ref.name, fun rest hrest => ?_, fun _ _ => rfl⟩, .refl _⟩
  rw [tokens_column hrest]
  rfl

theorem parenthesized (h : Tells d values text p f) :
    Tells d values ("(".toList ++ text ++ ")".toList) q f := by
  intro σ hσ
  obtain ⟨a, ha, hgroup⟩ := h (opening :: σ) rfl
  have hshift : shift values σ .opening = some ⟨opening :: σ, none⟩ := by
    rcases σ with _ | ⟨top, σ⟩
    · rfl
    · cases top <;> first | rfl | cases hσ
  have hopen : Leads d values ⟨σ, none⟩ "(".toList ⟨opening :: σ, none⟩ :=
    Leads.single (fun _ => tokens_opening) hshift
  have hclose : reduce (opening :: σ) a .closing = some ⟨σ, some a⟩ := rfl
  exact ⟨a, (Stands.lead hopen ha).last (fun _ _ => tokens_closing) (fun _ => by simp [Breaks])
    (Nat.zero_le p) hclose, hgroup⟩

/-- **`NOT` before parentheses.** -/
theorem not (h : Tells d values text p f) :
    Tells d values ("NOT ".toList ++ ("(".toList ++ text ++ ")".toList)) notLevel (.not f) := by
  intro σ hσ
  have hadmits : admitsNot σ = true := by
    rcases σ with _ | ⟨top, σ⟩
    · rfl
    · cases top with
      | operator op left | minus => exact hσ
      | _ => rfl
  have hnot : Leads d values ⟨σ, none⟩ "NOT ".toList ⟨Pending.not :: σ, none⟩ :=
    Leads.single (fun _ => tokens_not) (if_pos hadmits)
  have hinner : Tells d values ("(".toList ++ text ++ ")".toList) atomLevel f := h.parenthesized
  obtain ⟨a, ⟨σ', g, hrun, hsettle⟩, hgroup⟩ := hinner (Pending.not :: σ) rfl
  refine ⟨.not a, Stands.lead hnot ⟨σ', g, hrun, fun q hq => ?_⟩, .not hgroup⟩
  rw [hsettle q (Nat.le_trans hq (by decide)), settle, if_pos hq]

/-- **A sign before what needs no parentheses.** -/
theorem negate (h : Tells d values text atomLevel f) :
    Tells d values ("-".toList ++ text) minusLevel (.negate f) := by
  intro σ _
  have hminus : Leads d values ⟨σ, none⟩ "-".toList ⟨minus :: σ, none⟩ :=
    Leads.single (fun _ => tokens_minus) rfl
  obtain ⟨a, ⟨σ', g, hrun, hsettle⟩, hgroup⟩ := h (minus :: σ) rfl
  refine ⟨.negate a, Stands.lead hminus ⟨σ', g, hrun, fun q hq => ?_⟩, .negate hgroup⟩
  rw [hsettle q (Nat.le_trans hq (by decide)), settle, if_pos hq]

/-- **A null that is replaced.** -/
theorem replaceNull {p' : Nat} (hf : Tells d values text p f) (hg : Tells d values text' p' g) :
    Tells d values (d.isnullFunction.toList ++ "(".toList ++ text ++ ", ".toList ++ text' ++
      ")".toList) q (.replaceNull f g) := by
  intro σ _
  have hcall : Leads d values ⟨σ, none⟩ (d.isnullFunction.toList ++ "(".toList)
      ⟨argument :: σ, none⟩ := by
    intro rest
    rw [List.append_assoc, tokens_isnull]
    rfl
  obtain ⟨a, ha, hgroup⟩ := hf (argument :: σ) rfl
  have hcomma : Leads d values ⟨σ, none⟩ (d.isnullFunction.toList ++ "(".toList ++ text ++
      ", ".toList) ⟨replacement a :: σ, none⟩ :=
    (Stands.lead hcall ha).next (fun _ => tokens_comma) (fun _ => by simp [Breaks])
      (Nat.zero_le p) rfl
  obtain ⟨b, hb, hgroup'⟩ := hg (replacement a :: σ) rfl
  exact ⟨.replaceNull a b, (Stands.lead hcomma hb).last (fun _ _ => tokens_closing)
    (fun _ => by simp [Breaks]) (Nat.zero_le p') rfl, .replaceNull hgroup hgroup'⟩

/-- **A case.** -/
theorem caseWhen {t : Formula} {test : List Char} {p₁ p₂ p₃ : Nat} (ht : Tells d values test p₁ t)
    (hf : Tells d values text p₂ f) (hg : Tells d values text' p₃ g) :
    Tells d values ("CASE WHEN ".toList ++ test ++ " THEN ".toList ++ text ++ " ELSE ".toList ++
      text' ++ " END".toList) q (.caseWhen t f g) := by
  intro σ _
  have hcase : Leads d values ⟨σ, none⟩ "CASE WHEN ".toList ⟨Pending.test :: σ, none⟩ := by
    intro rest
    rw [tokens_case]
    rfl
  obtain ⟨c, hc, hgroup⟩ := ht (Pending.test :: σ) rfl
  have hthen : Leads d values ⟨σ, none⟩ ("CASE WHEN ".toList ++ test ++ " THEN ".toList)
      ⟨ifTrue c :: σ, none⟩ :=
    (Stands.lead hcase hc).next (fun _ => tokens_then) (fun _ => by simp [Breaks])
      (Nat.zero_le p₁) rfl
  obtain ⟨a, ha, hgroup'⟩ := hf (ifTrue c :: σ) rfl
  have helse : Leads d values ⟨σ, none⟩ ("CASE WHEN ".toList ++ test ++ " THEN ".toList ++ text ++
      " ELSE ".toList) ⟨ifFalse c a :: σ, none⟩ :=
    (Stands.lead hthen ha).next (fun _ => tokens_else) (fun _ => by simp [Breaks])
      (Nat.zero_le p₂) rfl
  obtain ⟨b, hb, hgroup''⟩ := hg (ifFalse c a :: σ) rfl
  exact ⟨.caseWhen c a b, (Stands.lead helse hb).last (fun _ hrest => tokens_end hrest)
    (fun _ => by simp [Breaks]) (Nat.zero_le p₃) rfl, .caseWhen hgroup hgroup' hgroup''⟩

/-- **A whole text is read back as what it tells.** -/
theorem readFormula {s : String} (h : Tells d values s.toList p f) :
    ∃ a, Sql.readFormula d values s = some a ∧ Regrouped a f := by
  obtain ⟨a, ⟨σ, g, hrun, hsettle⟩, hgroup⟩ := h [] rfl
  have hall : run values ⟨[], none⟩ (tokens d .idle s.toList) = some ⟨σ, some g⟩ := by
    simpa [tokens, Cut.flush, run] using hrun [] trivial
  refine ⟨a, ?_, hgroup⟩
  have hdone : settle 0 σ g = ([], a) := hsettle 0 (Nat.zero_le p)
  simp [Sql.readFormula, hall, result, hdone]

end Tells

/-- **A chain on the right of its operator** is read as if it were grouped to the left. -/
theorem TellsRight.chain (hop : op.isLogical) (hleft : TellsRight d values text op f)
    (hright : TellsRight d values text' op g) :
    TellsRight d values (text ++ (" " ++ op.symbol ++ " ").toList ++ text') op (.binary op f g) := by
  have hsign : isSign op = true := by cases op <;> first | rfl | cases hop
  intro left σ hσ
  obtain ⟨a, ha, hgroup⟩ := hleft left σ hσ
  obtain ⟨b, hb, hgroup'⟩ := Tells.sign hsign (Nat.le_refl _) hσ ha hright
  refine ⟨b, hb, hgroup'.trans ?_⟩
  exact (Regrouped.binary op hgroup (.refl g)).trans (.assoc hop left f g)

end Reader

end Sql

end QueryCompiler

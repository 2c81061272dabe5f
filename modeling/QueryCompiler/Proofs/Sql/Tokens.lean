import QueryCompiler.Sql.Term
import QueryCompiler.Proofs.Sql.Scanning
/-!
# Tokens of SQL expressions

An expression is cut into words, quoted names and signs, character by character. A word goes on
while letters and digits follow, and a quoted name while its closing mark is doubled. So a text is
cut off from what comes behind it if that starts with a blank, a point, a comma or a parenthesis
(`Breaks`), and each part of an expression can be cut by itself.
-/

namespace QueryCompiler

namespace Sql

/-- A token of an expression. -/
inductive Token where
  | number (n : Nat)
  | parameter (n : Nat)
  /-- the name of numbered rows -/
  | row (n : Nat)
  /-- a quoted name -/
  | name (s : String)
  | sign (op : BinaryOp)
  | opening
  | closing
  | comma
  | point
  | notWord
  | caseWord
  | whenWord
  | thenWord
  | elseWord
  | endWord
  /-- the function that replaces null -/
  | replaceNull
  | unknown
  deriving DecidableEq, Repr

namespace Token

def digits? (cs : List Char) : Option Nat :=
  if cs.isEmpty || !cs.all Char.isDigit then none else some (Nat.ofDigitChars 10 cs 0)

/-- The words that are the same in all dialects. -/
def keywords : List (String × Token) :=
  [("AND", .sign .and), ("OR", .sign .or), ("NOT", .notWord), ("CASE", .caseWord),
    ("WHEN", .whenWord), ("THEN", .thenWord), ("ELSE", .elseWord), ("END", .endWord)]

def nullFunction : Dialect → String
  | .sqlServer => "ISNULL"
  | .mySql => "IFNULL"

def parameterMark : Dialect → Char
  | .sqlServer => '@'
  | .mySql => '?'

def ofWord (d : Dialect) (cs : List Char) : Token :=
  match keywords.find? (·.1.toList == cs) with
  | some (_, token) => token
  | none =>
    if cs = (nullFunction d).toList then .replaceNull
    else match cs with
      | 't' :: ds => (digits? ds).elim .unknown .row
      | c :: 'p' :: ds => if c = parameterMark d then (digits? ds).elim .unknown .parameter else .unknown
      | cs => (digits? cs).elim .unknown .number

def isWordChar (c : Char) : Bool :=
  c.isAlphanum || c == '_' || c == '@' || c == '?'

end Token

/-- Where the cutting of a text stands. -/
inductive Cut where
  | idle
  | word (cs : List Char)
  /-- behind `<` -/
  | less
  /-- behind `>` -/
  | greater
  | name (cs : List Char)
  /-- behind a closing mark, which ends the name unless another one follows -/
  | nameEnd (cs : List Char)

namespace Cut

/-- The token that is complete if nothing more belongs to it. -/
def flush (d : Dialect) : Cut → List Token
  | idle => []
  | word cs => [.ofWord d cs]
  | less => [.sign .lt]
  | greater => [.sign .gt]
  | name _ => [.unknown]
  | nameEnd cs => [.name (String.ofList cs)]

/-- The tokens of a character that is one by itself. -/
def signs (c : Char) : List Token :=
  match c with
  | ' ' => []
  | '(' => [.opening]
  | ')' => [.closing]
  | ',' => [.comma]
  | '.' => [.point]
  | '=' => [.sign .eq]
  | '+' => [.sign .add]
  | '-' => [.sign .sub]
  | '*' => [.sign .mul]
  | '/' => [.sign .div]
  | '%' => [.sign .rem]
  | _ => [.unknown]

def start (d : Dialect) (c : Char) : Cut × List Token :=
  if Token.isWordChar c then (word [c], [])
  else if c = d.nameOpen then (name [], [])
  else if c = '<' then (less, [])
  else if c = '>' then (greater, [])
  else (idle, signs c)

/-- A character that does not belong to what stands before it. -/
def separate (d : Dialect) (m : Cut) (c : Char) : Cut × List Token :=
  ((start d c).1, m.flush d ++ (start d c).2)

def step (d : Dialect) (m : Cut) (c : Char) : Cut × List Token :=
  match m with
  | word cs => if Token.isWordChar c then (word (cs ++ [c]), []) else separate d m c
  | less =>
    if c = '=' then (idle, [.sign .le])
    else if c = '>' then (idle, [.sign .ne])
    else separate d m c
  | greater => if c = '=' then (idle, [.sign .ge]) else separate d m c
  | name cs => if c = d.nameClose then (nameEnd cs, []) else (name (cs ++ [c]), [])
  | nameEnd cs => if c = d.nameClose then (name (cs ++ [c]), []) else separate d m c
  | idle => separate d m c

end Cut

def tokens (d : Dialect) (m : Cut) : List Char → List Token
  | [] => m.flush d
  | c :: cs => (m.step d c).2 ++ tokens d (m.step d c).1 cs

/-- Characters that do not belong to a word or a name before them. -/
def Breaks : List Char → Prop
  | [] => True
  | c :: _ => c ∈ [' ', '(', ')', ',', '.']

variable {d : Dialect} {cs rest : List Char} {n : Nat}

theorem tokens_of_breaks {m : Cut} (hrest : Breaks rest)
    (hm : (∃ cs, m = .word cs) ∨ ∃ cs, m = .nameEnd cs) :
    tokens d m rest = m.flush d ++ tokens d .idle rest := by
  cases rest with
  | nil => simp [tokens, Cut.flush]
  | cons c cs =>
    have hword : Token.isWordChar c = false := by
      revert hrest
      simp only [Breaks, List.mem_cons, List.not_mem_nil, or_false]
      rintro (rfl | rfl | rfl | rfl | rfl) <;> decide
    have hclose : c ≠ d.nameClose := by
      revert hrest
      simp only [Breaks, List.mem_cons, List.not_mem_nil, or_false]
      rintro (rfl | rfl | rfl | rfl | rfl) <;> cases d <;> decide
    have hstep : m.step d c = Cut.separate d m c := by
      rcases hm with ⟨ds, rfl⟩ | ⟨ds, rfl⟩ <;> simp [Cut.step, hword, hclose]
    rw [tokens, tokens, hstep]
    simp [Cut.step, Cut.separate, Cut.flush]

/-! ## Words -/

theorem tokens_word_append {ds : List Char} (h : cs.all Token.isWordChar) :
    tokens d (.word ds) (cs ++ rest) = tokens d (.word (ds ++ cs)) rest := by
  induction cs generalizing ds with
  | nil => simp
  | cons c cs ih =>
    obtain ⟨hc, hcs⟩ : Token.isWordChar c = true ∧ cs.all Token.isWordChar = true := by
      simpa using h
    rw [List.cons_append, tokens]
    simp only [Cut.step, hc, if_true, List.nil_append]
    rw [ih hcs, List.append_assoc, List.singleton_append]

/-- **A word is one token**, if the text breaks behind it. -/
theorem tokens_word (h : cs.all Token.isWordChar) (hne : cs ≠ []) (hrest : Breaks rest) :
    tokens d .idle (cs ++ rest) = .ofWord d cs :: tokens d .idle rest := by
  cases cs with
  | nil => exact absurd rfl hne
  | cons c cs =>
    obtain ⟨hc, hcs⟩ : Token.isWordChar c = true ∧ cs.all Token.isWordChar = true := by
      simpa using h
    rw [List.cons_append, tokens]
    simp only [Cut.step, Cut.separate, Cut.start, hc, if_true, Cut.flush, List.nil_append]
    rw [tokens_word_append hcs, tokens_of_breaks hrest (.inl ⟨_, rfl⟩)]
    rfl

namespace Token

theorem isWordChar_of_isDigit {c : Char} (h : c.isDigit) : isWordChar c = true := by
  simp [isWordChar, Char.isAlphanum, h]

theorem all_isDigit_toDigits : (Nat.toDigits 10 n).all Char.isDigit = true :=
  List.all_eq_true.2 fun _ hc => Nat.isDigit_of_mem_toDigits (by decide) (by decide) hc

theorem digits?_toDigits : digits? (Nat.toDigits 10 n) = some n := by
  have hne : (Nat.toDigits 10 n).isEmpty = false := by simp [Nat.toDigits_ne_nil]
  rw [digits?, hne, all_isDigit_toDigits]
  simp [Nat.ofDigitChars_ten_toDigits]

theorem all_isWordChar_toDigits : (Nat.toDigits 10 n).all isWordChar = true :=
  List.all_eq_true.2 fun c hc =>
    isWordChar_of_isDigit (List.all_eq_true.1 all_isDigit_toDigits c hc)

theorem ofWord_of_head? (d : Dialect) (cs : List Char) {c : Char} (hc : cs.head? = some c)
    (hkeyword : c ∉ "ANOCWTEI".toList) :
    keywords.find? (·.1.toList == cs) = none ∧ cs ≠ (nullFunction d).toList := by
  have hstarts : keywords.all (fun x => x.1.toList.head?.any "ANOCWTEI".toList.contains) = true := by
    decide
  constructor
  · refine List.find?_eq_none.2 fun x hx heq => ?_
    have hstart := List.all_eq_true.1 hstarts x hx
    rw [beq_iff_eq.1 heq, hc, Option.any_some, List.contains_iff_mem] at hstart
    exact hkeyword hstart
  · rintro rfl
    have hhead : (nullFunction d).toList.head? = some 'I' := by cases d <;> rfl
    rw [hhead] at hc
    cases hc
    exact hkeyword (by decide)

theorem ofWord_number : ofWord d (Nat.toDigits 10 n) = .number n := by
  have hall := List.all_eq_true.1 (all_isDigit_toDigits (n := n))
  obtain ⟨c, cs, hcs⟩ := List.exists_cons_of_ne_nil (Nat.toDigits_ne_nil (b := 10) (n := n))
  have hdigit : c.isDigit = true := hall c (by simp [hcs])
  have hletters : "ANOCWTEI".toList.all (!·.isDigit) = true := by decide
  have hkeyword : c ∉ "ANOCWTEI".toList := fun hmem => by
    simpa [hdigit] using List.all_eq_true.1 hletters c hmem
  obtain ⟨hfind, hnull⟩ := ofWord_of_head? d (Nat.toDigits 10 n) (by rw [hcs]; rfl) hkeyword
  have hvalue := digits?_toDigits (n := n)
  unfold ofWord
  rw [hfind]
  dsimp only
  rw [if_neg hnull]
  split
  next ds heq =>
    have ht : 't'.isDigit = true := hall 't' (by rw [heq]; simp)
    exact absurd ht (by decide)
  next c' ds heq =>
    have hp : 'p'.isDigit = true := hall 'p' (by rw [heq]; simp)
    exact absurd hp (by decide)
  next => rw [hvalue]; rfl

theorem ofWord_row : ofWord d ('t' :: Nat.toDigits 10 n) = .row n := by
  obtain ⟨hfind, hnull⟩ := ofWord_of_head? d ('t' :: Nat.toDigits 10 n) rfl (by decide)
  unfold ofWord
  rw [hfind]
  dsimp only
  rw [if_neg hnull]
  show (digits? (Nat.toDigits 10 n)).elim unknown row = row n
  rw [digits?_toDigits]
  rfl

theorem ofWord_parameter :
    ofWord d (parameterMark d :: 'p' :: Nat.toDigits 10 n) = .parameter n := by
  have hmark : parameterMark d ∉ "ANOCWTEI".toList := by cases d <;> decide
  obtain ⟨hfind, hnull⟩ := ofWord_of_head? d (parameterMark d :: 'p' :: Nat.toDigits 10 n) rfl hmark
  unfold ofWord
  rw [hfind]
  dsimp only
  rw [if_neg hnull]
  cases d <;> simp [parameterMark, digits?_toDigits]

end Token

theorem tokens_nat (hrest : Breaks rest) :
    tokens d .idle ((toString n).toList ++ rest) = .number n :: tokens d .idle rest := by
  rw [Nat.toString_eq_ofList_toDigits, String.toList_ofList,
    tokens_word Token.all_isWordChar_toDigits Nat.toDigits_ne_nil hrest, Token.ofWord_number]

theorem tokens_placeholder (hrest : Breaks rest) :
    tokens d .idle ((d.placeholder n).toList ++ rest) = .parameter n :: tokens d .idle rest := by
  have htext : (d.placeholder n).toList = Token.parameterMark d :: 'p' :: Nat.toDigits 10 n := by
    cases d <;>
      simp [Dialect.placeholder, Token.parameterMark]
  have hword : (Token.parameterMark d :: 'p' :: Nat.toDigits 10 n).all Token.isWordChar = true := by
    rw [List.all_cons, List.all_cons, Token.all_isWordChar_toDigits]
    cases d <;> decide
  rw [htext, tokens_word hword (by simp) hrest, Token.ofWord_parameter]

/-! ## Quoted names -/

theorem tokens_doubledName (ds : List Char) :
    tokens d (.name ds) (cs.flatMap (fun c => if c == d.nameClose then [c, c] else [c]) ++ rest) =
      tokens d (.name (ds ++ cs)) rest := by
  induction cs generalizing ds with
  | nil => simp
  | cons c cs ih =>
    rw [List.flatMap_cons, List.append_assoc]
    by_cases hc : c = d.nameClose
    · subst hc
      simpa [tokens, Cut.step] using ih (ds ++ [d.nameClose])
    · simpa [tokens, Cut.step, hc] using ih (ds ++ [c])

/-- **A quoted name is one token**, whatever the name. -/
theorem tokens_quote {name : String} (hrest : Breaks rest) :
    tokens d .idle ((d.quote name).toList ++ rest) = .name name :: tokens d .idle rest := by
  have hopen : Cut.idle.step d d.nameOpen = (.name [], []) := by cases d <;> rfl
  rw [Dialect.quote_eq, String.toList_ofList, List.cons_append, tokens, hopen, List.append_assoc,
    tokens_doubledName]
  have hclose : (Cut.name name.toList).step d d.nameClose = (.nameEnd name.toList, []) := by
    simp [Cut.step]
  simp only [List.nil_append, List.cons_append, tokens, hclose]
  rw [tokens_of_breaks hrest (.inr ⟨_, rfl⟩)]
  simp [Cut.flush]

theorem tokens_column {ref : ColumnRef} (hrest : Breaks rest) :
    tokens d .idle ((ref.text d).toList ++ rest) =
      .row ref.row :: .point :: .name ref.name :: tokens d .idle rest := by
  have htext : (ref.text d).toList =
      ('t' :: Nat.toDigits 10 ref.row) ++ '.' :: (d.quote ref.name).toList := by
    simp [ColumnRef.text, rowName]
  have hword : ('t' :: Nat.toDigits 10 ref.row).all Token.isWordChar = true := by
    rw [List.all_cons, Token.all_isWordChar_toDigits]
    decide
  have hpoint : Cut.idle.step d '.' = (.idle, [.point]) := by cases d <;> rfl
  rw [htext, List.append_assoc, tokens_word hword (by simp) (by simp [Breaks]), Token.ofWord_row,
    List.cons_append, tokens, hpoint, tokens_quote hrest]
  rfl

/-! ## Signs -/

/-- The operators that are written between their operands. -/
def isSign : BinaryOp → Bool
  | .concat | .coalesce => false
  | _ => true

/-- **An operator between blanks is one token.** -/
theorem tokens_sign {op : BinaryOp} (h : isSign op) :
    tokens d .idle ((" " ++ op.symbol ++ " ").toList ++ rest) =
      .sign op :: tokens d .idle rest := by
  cases op <;> first | (cases h; done) | (cases d <;> rfl)

/-! ## Words between operands -/

theorem tokens_opening : tokens d .idle ("(".toList ++ rest) = .opening :: tokens d .idle rest := by
  cases d <;> rfl

theorem tokens_closing : tokens d .idle (")".toList ++ rest) = .closing :: tokens d .idle rest := by
  cases d <;> rfl

theorem tokens_comma : tokens d .idle (", ".toList ++ rest) = .comma :: tokens d .idle rest := by
  cases d <;> rfl

theorem tokens_minus : tokens d .idle ("-".toList ++ rest) = .sign .sub :: tokens d .idle rest := by
  cases d <;> rfl

theorem tokens_not : tokens d .idle ("NOT ".toList ++ rest) = .notWord :: tokens d .idle rest := by
  cases d <;> rfl

theorem tokens_case :
    tokens d .idle ("CASE WHEN ".toList ++ rest) =
      .caseWord :: .whenWord :: tokens d .idle rest := by
  cases d <;> rfl

theorem tokens_then :
    tokens d .idle (" THEN ".toList ++ rest) = .thenWord :: tokens d .idle rest := by
  cases d <;> rfl

theorem tokens_else :
    tokens d .idle (" ELSE ".toList ++ rest) = .elseWord :: tokens d .idle rest := by
  cases d <;> rfl

theorem tokens_end (hrest : Breaks rest) :
    tokens d .idle (" END".toList ++ rest) = .endWord :: tokens d .idle rest := by
  have hblank : Cut.idle.step d ' ' = (.idle, []) := by cases d <;> rfl
  have hword : tokens d .idle ("END".toList ++ rest) = .endWord :: tokens d .idle rest :=
    tokens_word (by decide) (by decide) hrest
  rw [← hword]
  show (Cut.idle.step d ' ').2 ++ tokens d (Cut.idle.step d ' ').1 ("END".toList ++ rest) = _
  rw [hblank]
  rfl

theorem tokens_isnull :
    tokens d .idle (d.isnullFunction.toList ++ ("(".toList ++ rest)) =
      .replaceNull :: .opening :: tokens d .idle rest := by
  cases d <;> rfl

end Sql

end QueryCompiler

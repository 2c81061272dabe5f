import QueryCompiler.Sql.Dialect
/-!
# Scanning SQL text

A scan goes through a text from left to right and knows at each character whether it stands in a
string literal, in a quoted name or outside of both. Two characters outside of both may open a
comment. A text is tidy if a scan that stands outside before it stands outside behind it, with no
comment opened; tidy texts can be put one after the other. Names and constants are tidy whatever
they hold (`Dialect.tidy_quote`, `Value.tidy_literal`).
-/

namespace QueryCompiler

/-- Where a scan stands. -/
inductive ScanState where
  | plain
  /-- behind a hyphen that may open a comment -/
  | dash
  /-- behind a slash that may open a comment -/
  | slash
  | literal
  /-- behind a backslash in a literal -/
  | escape
  /-- behind an apostrophe in a literal, which ends it unless another one follows -/
  | literalEnd
  | identifier
  /-- behind a closing mark in an identifier, which ends it unless another one follows -/
  | identifierEnd
  deriving DecidableEq, Repr

namespace ScanState

/-- Whether every literal and name so far is closed. -/
def isOutside : ScanState → Bool
  | literal | escape | identifier => false
  | plain | dash | slash | literalEnd | identifierEnd => true

/-- The states outside literals and names in which no comment is half open. -/
def settled : List ScanState := [plain, literalEnd, identifierEnd]

end ScanState

namespace Dialect

open ScanState

/-- The mark before a name. -/
def nameOpen : Dialect → Char
  | sqlServer => '['
  | mySql => '\x60'

/-- The mark behind a name. -/
def nameClose : Dialect → Char
  | sqlServer => ']'
  | mySql => '\x60'

/-- Whether a backslash takes the meaning from the next character of a string. -/
def backslashEscapes : Dialect → Bool
  | sqlServer => false
  | mySql => true

/-- The state behind a character outside literals and names. -/
def scanOutside (d : Dialect) (c : Char) : ScanState :=
  if c = '\x27' then literal
  else if c = d.nameOpen then identifier
  else if c = '-' then dash
  else if c = '/' then slash
  else plain

/-- The state behind a character. -/
def scanStep (d : Dialect) (m : ScanState) (c : Char) : ScanState :=
  match m with
  | literal =>
    if c = '\x27' then literalEnd
    else if c = '\\' && d.backslashEscapes then escape
    else literal
  | escape => literal
  | literalEnd => if c = '\x27' then literal else d.scanOutside c
  | identifier => if c = d.nameClose then identifierEnd else identifier
  | identifierEnd => if c = d.nameClose then identifier else d.scanOutside c
  | plain | dash | slash => d.scanOutside c

/-- The state behind some characters. -/
def scan (d : Dialect) (m : ScanState) (cs : List Char) : ScanState :=
  cs.foldl d.scanStep m

/-- Whether a character completes the opening of a comment. -/
def completesComment (m : ScanState) (c : Char) : Bool :=
  (m == dash && c == '-') || (m == slash && c == '*')

/-- Whether a comment is opened within some characters. -/
def meetsComment (d : Dialect) (m : ScanState) : List Char → Bool
  | [] => false
  | c :: cs => completesComment m c || d.meetsComment (d.scanStep m c) cs

/-- Whether every string literal and every quoted name of a text is closed. -/
def closesAll (d : Dialect) (text : String) : Bool := (d.scan plain text.toList).isOutside

/-- Whether a comment is opened in a text, outside string literals and quoted names. -/
def opensComment (d : Dialect) (text : String) : Bool := d.meetsComment plain text.toList

variable {d : Dialect} {m : ScanState} {c : Char} {cs ds : List Char} {s t : String}

@[simp] theorem scan_nil : d.scan m [] = m := rfl

@[simp] theorem scan_cons : d.scan m (c :: cs) = d.scan (d.scanStep m c) cs := rfl

@[simp] theorem meetsComment_nil : d.meetsComment m [] = false := rfl

@[simp] theorem meetsComment_cons :
    d.meetsComment m (c :: cs) = (completesComment m c || d.meetsComment (d.scanStep m c) cs) := rfl

theorem scan_append : d.scan m (cs ++ ds) = d.scan (d.scan m cs) ds :=
  List.foldl_append

theorem meetsComment_append :
    d.meetsComment m (cs ++ ds) = (d.meetsComment m cs || d.meetsComment (d.scan m cs) ds) := by
  induction cs generalizing m with
  | nil => simp
  | cons c cs ih => simp [ih, Bool.or_assoc]

/-! ## Tidy texts -/

/-- A text that is scanned from outside to outside, and opens no comment. -/
def Tidy (d : Dialect) (text : String) : Prop :=
  ∀ m ∈ settled, d.scan m text.toList ∈ settled ∧ d.meetsComment m text.toList = false

instance : Decidable (d.Tidy s) := inferInstanceAs (Decidable (∀ m ∈ settled, _))

namespace Tidy

theorem empty : d.Tidy "" := fun _ hm => ⟨hm, rfl⟩

theorem append (hs : d.Tidy s) (ht : d.Tidy t) : d.Tidy (s ++ t) := by
  intro m hm
  obtain ⟨hmid, hfirst⟩ := hs m hm
  obtain ⟨hend, hsecond⟩ := ht _ hmid
  rw [String.toList_append, scan_append, meetsComment_append, hfirst, hsecond]
  exact ⟨hend, rfl⟩

theorem join {ss : List String} (h : ∀ s ∈ ss, d.Tidy s) : d.Tidy (String.join ss) := by
  induction ss with
  | nil => exact empty
  | cons s ss ih =>
    rw [String.join_cons]
    exact (h s (by simp)).append (ih fun t ht => h t (by simp [ht]))

theorem intercalate {separator : String} {ss : List String} (hsep : d.Tidy separator)
    (h : ∀ s ∈ ss, d.Tidy s) : d.Tidy (separator.intercalate ss) := by
  induction ss with
  | nil => exact empty
  | cons s ss ih =>
    have hs : d.Tidy s := h s (by simp)
    have hrest := ih fun t ht => h t (by simp [ht])
    cases ss with
    | nil => simpa using hs
    | cons t ts =>
      rw [String.intercalate_cons_cons]
      exact (hs.append hsep).append hrest

end Tidy

/-! ## Words and numbers -/

/-- A character that means nothing to a scan outside literals and names. -/
def isInert (c : Char) : Bool :=
  !(['\x27', '[', ']', '\x60', '-', '/'].contains c)

theorem scanOutside_of_inert (h : isInert c) : d.scanOutside c = plain := by
  have hne : ∀ x ∈ ['\x27', '[', ']', '\x60', '-', '/'], c ≠ x := by
    simpa [isInert] using h
  cases d <;> simp [scanOutside, nameOpen, hne]

theorem scanStep_of_inert (h : isInert c) (hm : m.isOutside) :
    d.scanStep m c = plain := by
  have hne : ∀ x ∈ ['\x27', '[', ']', '\x60', '-', '/'], c ≠ x := by
    simpa [isInert] using h
  have hclose : c ≠ d.nameClose := by cases d <;> simp [nameClose, hne]
  cases m <;> simp_all [scanStep, scanOutside_of_inert, isOutside]

theorem scan_inert (h : ∀ c ∈ cs, isInert c = true) (hm : m ∈ dash :: settled) (hcs : cs ≠ []) :
    d.scan m cs = plain ∧ d.meetsComment m cs = false := by
  induction cs generalizing m with
  | nil => exact absurd rfl hcs
  | cons c cs ih =>
    have hc : isInert c = true := h c (by simp)
    have hout : m.isOutside = true := by revert hm; cases m <;> decide
    have hnone : completesComment m c = false := by
      have hdash : c ≠ '-' := by rintro rfl; exact absurd hc (by decide)
      have hslash : m ≠ slash := by rintro rfl; revert hm; decide
      simp [completesComment, hdash, hslash]
    rw [scan_cons, meetsComment_cons, scanStep_of_inert hc hout, hnone, Bool.false_or]
    cases cs with
    | nil => exact ⟨rfl, rfl⟩
    | cons c' cs' => exact ih (fun x hx => h x (by simp [hx])) (by simp [settled]) (by simp)

/-- **A word is tidy.** -/
theorem tidy_word (h : s.toList.all isInert = true) : d.Tidy s := by
  intro m hm
  rcases hcs : s.toList with _ | ⟨c, cs⟩
  · exact ⟨hm, rfl⟩
  · have hword := scan_inert (d := d) (List.all_eq_true.1 h) (List.mem_cons_of_mem _ hm)
      (by simp [hcs])
    rw [← hcs, hword.1]
    exact ⟨by simp [settled], hword.2⟩

theorem isInert_of_isDigit (h : c.isDigit) : isInert c = true := by
  have hmarks : ['\x27', '[', ']', '\x60', '-', '/'].all (!·.isDigit) = true := by decide
  have hne : ∀ x ∈ ['\x27', '[', ']', '\x60', '-', '/'], c ≠ x := by
    rintro x hx rfl
    simpa [h] using List.all_eq_true.1 hmarks c hx
  simpa [isInert] using hne

theorem isInert_of_mem_toDigits {n : Nat} (h : c ∈ Nat.toDigits 10 n) : isInert c = true :=
  isInert_of_isDigit (Nat.isDigit_of_mem_toDigits (by decide) (by decide) h)

theorem tidy_nat {n : Nat} : d.Tidy (toString n) := by
  refine tidy_word (List.all_eq_true.2 fun c hc => ?_)
  rw [Nat.toString_eq_ofList_toDigits, String.toList_ofList] at hc
  exact isInert_of_mem_toDigits hc

theorem tidy_signed (hcs : cs ≠ []) (h : ∀ c ∈ cs, isInert c = true) :
    d.Tidy (String.ofList ('-' :: cs)) := by
  intro m hm
  have hstep : d.scanStep m '-' = dash := by
    cases d <;> revert hm <;> cases m <;> decide
  have hnone : completesComment m '-' = false := by revert hm; cases m <;> decide
  obtain ⟨hend, hclean⟩ := scan_inert (d := d) h (m := dash) (by simp) hcs
  rw [String.toList_ofList, scan_cons, meetsComment_cons, hstep, hnone, hend, hclean]
  exact ⟨by simp [settled], rfl⟩

/-- A character of a number: a digit, a point, or a letter of the words for numbers without
digits. -/
def isNumeralChar (c : Char) : Bool :=
  c.isDigit || ".NaNinf".toList.contains c

theorem isInert_of_isNumeralChar (h : isNumeralChar c) : isInert c = true := by
  have hletters : ".NaNinf".toList.all isInert = true := by decide
  rcases Bool.or_eq_true_iff.1 h with h | h
  · exact isInert_of_isDigit h
  · exact List.all_eq_true.1 hletters c (List.contains_iff_mem.1 h)

/-- Characters of a number, behind a sign if it is negative. -/
def IsNumeral (negative : Bool) (s : String) : Prop :=
  ∃ body : List Char, body ≠ [] ∧ body.all isNumeralChar = true ∧
    s = String.ofList (if negative then '-' :: body else body)

namespace IsNumeral

variable {negative : Bool}

theorem tidy (h : IsNumeral negative s) : d.Tidy s := by
  obtain ⟨body, hne, hchars, rfl⟩ := h
  have hinert : ∀ c ∈ body, isInert c = true := fun c hc =>
    isInert_of_isNumeralChar (List.all_eq_true.1 hchars c hc)
  cases negative with
  | true => exact tidy_signed hne hinert
  | false => exact tidy_word (by simpa using hinert)

theorem ne_empty (h : IsNumeral negative s) : s ≠ "" := by
  obtain ⟨body, hne, -, rfl⟩ := h
  cases negative <;> simp [← String.toList_inj, hne]

theorem head?_eq_iff (h : IsNumeral negative s) :
    s.toList.head? = some '-' ↔ negative = true := by
  obtain ⟨body, -, hchars, rfl⟩ := h
  cases negative with
  | true => simp
  | false =>
    have hhead : body.head? ≠ some '-' := by
      intro hhead
      have hminus := List.all_eq_true.1 hchars '-' (List.mem_of_head? hhead)
      exact absurd hminus (by decide)
    simpa using hhead

end IsNumeral

theorem isNumeralChar_toDigits {n : Nat} : (Nat.toDigits 10 n).all isNumeralChar = true :=
  List.all_eq_true.2 fun c hc => by
    rw [isNumeralChar, Nat.isDigit_of_mem_toDigits (by decide) (by decide) hc, Bool.true_or]

theorem isNumeral_nat (n : Nat) : IsNumeral false (toString n) :=
  ⟨_, Nat.toDigits_ne_nil, isNumeralChar_toDigits, Nat.toString_eq_ofList_toDigits⟩

theorem isNumeral_int (n : Int) : IsNumeral (n < 0) (toString n) := by
  cases n with
  | ofNat n =>
    have hsign : decide (Int.ofNat n < 0) = false := by simp
    rw [hsign]
    exact isNumeral_nat n
  | negSucc n =>
    have hsign : decide (Int.negSucc n < 0) = true := by simp
    rw [hsign]
    refine ⟨Nat.toDigits 10 (n + 1), Nat.toDigits_ne_nil, isNumeralChar_toDigits, ?_⟩
    have hdigits : Nat.toDigits 10 (n + 1) = (toString (n + 1)).toList := by
      rw [Nat.toString_eq_ofList_toDigits, String.toList_ofList]
    rw [hdigits, ← String.toList_inj]
    simp [toString, Int.repr]

theorem tidy_placeholder {n : Nat} : d.Tidy (d.placeholder n) := by
  cases d
  · exact .append (tidy_word (by decide)) tidy_nat
  · exact .append (tidy_word (by decide)) tidy_nat

/-! ## Literals and names -/

/-- Characters that leave a literal or a name open: each by itself, or as a mark that is doubled. -/
inductive Inside (d : Dialect) (inner : ScanState) : List Char → Prop
  | nil : Inside d inner []
  | one {c : Char} {cs : List Char} : d.scanStep inner c = inner → Inside d inner cs →
      Inside d inner (c :: cs)
  | two {c : Char} {cs : List Char} : d.scanStep (d.scanStep inner c) c = inner →
      Inside d inner cs → Inside d inner (c :: c :: cs)

/-- A literal or a quoted name. -/
inductive Enclosed (d : Dialect) : String → Prop
  | mk {first last : Char} {inner : ScanState} {cs : List Char} :
      (∀ m, m.isOutside = true → d.scanStep m first = inner) → inner.isOutside = false →
      Inside d inner cs → d.scanStep inner last ∈ settled →
      Enclosed d (String.ofList (first :: (cs ++ [last])))

theorem isOutside_of_mem_settled (hm : m ∈ settled) : m.isOutside = true := by
  revert hm
  cases m <;> decide

/-- Literals and names are left by their marks only, and not into a comment. -/
theorem scanStep_inside (hm : m.isOutside = false) (c x : Char) :
    completesComment m x = false ∧ completesComment (d.scanStep m c) x = false ∧
      ((d.scanStep m c).isOutside = true → c = '\x27' ∨ c = d.nameClose) := by
  cases m with
  | plain | dash | slash | literalEnd | identifierEnd => cases hm
  | literal | escape | identifier => grind [scanStep, completesComment, isOutside]

theorem Inside.scan_eq (h : Inside d m cs) : d.scan m cs = m := by
  induction h with
  | nil => rfl
  | one hc _ ih => rw [scan_cons, hc, ih]
  | two hc _ ih => rw [scan_cons, scan_cons, hc, ih]

theorem Inside.meetsComment_eq (h : Inside d m cs) (hm : m.isOutside = false) :
    d.meetsComment m cs = false := by
  induction h with
  | nil => rfl
  | @one c cs hc _ ih => simp [(scanStep_inside (d := d) hm c c).1, hc, ih]
  | @two c cs hc _ ih =>
    simp [(scanStep_inside (d := d) hm c c).1, (scanStep_inside (d := d) hm c c).2.1, hc, ih]

/-- **Literals and quoted names are tidy.** -/
theorem Enclosed.tidy (h : d.Enclosed s) : d.Tidy s := by
  obtain ⟨hopen, hinner, hcs, hclose⟩ := h
  rename_i first last inner cs
  intro m hm
  have hnone : completesComment m first = false := by
    revert hm
    cases m <;> simp [settled, completesComment]
  rw [String.toList_ofList, scan_cons, meetsComment_cons, hopen m (isOutside_of_mem_settled hm),
    hnone, scan_append, meetsComment_append, hcs.scan_eq, hcs.meetsComment_eq hinner]
  exact ⟨hclose, by simp [(scanStep_inside (d := d) hinner last last).1]⟩

theorem inside_name (cs : List Char) :
    Inside d identifier (cs.flatMap fun c => if c == d.nameClose then [c, c] else [c]) := by
  induction cs with
  | nil => exact .nil
  | cons c cs ih =>
    rw [List.flatMap_cons]
    split
    · exact .two (by grind [scanStep]) ih
    · exact .one (by grind [scanStep]) ih

theorem doubled_eq (x : Char) :
    (fun c => if c == x then [x, x] else [c]) = fun c => if c == x then [c, c] else [c] := by
  funext c
  by_cases hc : c = x
  · rw [hc]
  · simp [hc]

theorem quote_eq : d.quote s = String.ofList (d.nameOpen ::
    (s.toList.flatMap (fun c => if c == d.nameClose then [c, c] else [c]) ++ [d.nameClose])) := by
  rw [← String.toList_inj]
  cases d <;> simp only [quote, replaceChars, doubled_eq] <;> simp [nameOpen, nameClose]

theorem enclosed_quote : d.Enclosed (d.quote s) := by
  rw [quote_eq]
  refine .mk (fun m hm => ?_) (by rfl) (inside_name s.toList) (by simp [scanStep, settled])
  cases d <;> cases m <;> first | rfl | cases hm

theorem tidy_quote : d.Tidy (d.quote s) := enclosed_quote.tidy

theorem enclosed_literal (h : Inside d literal cs) :
    d.Enclosed (String.ofList ('\x27' :: (cs ++ ['\x27']))) := by
  refine .mk (fun m hm => ?_) (by rfl) h (by simp [scanStep, settled])
  cases d <;> cases m <;> first | rfl | cases hm

/-- The characters of a string literal, with those doubled that would end or change it. -/
def inString (d : Dialect) (c : Char) : List Char :=
  if c == '\x27' || (d.backslashEscapes && c == '\\') then [c, c] else [c]

theorem inside_string (cs : List Char) : Inside d literal (cs.flatMap d.inString) := by
  induction cs with
  | nil => exact .nil
  | cons c cs ih =>
    rw [List.flatMap_cons, inString]
    split
    · exact .two (by grind [scanStep]) ih
    · exact .one (by grind [scanStep]) ih

theorem inString_sqlServer : sqlServer.inString = fun c => if c == '\x27' then [c, c] else [c] := by
  funext c
  simp [inString, backslashEscapes]

theorem inString_mySql :
    mySql.inString = fun c => if c == '\x27' || c == '\\' then [c, c] else [c] := by
  funext c
  simp [inString, backslashEscapes]

theorem stringLiteral_eq {unicode : Bool} : d.stringLiteral unicode s =
    (if d = sqlServer ∧ unicode = true then "N" else "") ++
      String.ofList ('\x27' :: (s.toList.flatMap d.inString ++ ['\x27'])) := by
  rw [← String.toList_inj]
  cases d <;> cases unicode <;>
    simp [stringLiteral, replaceChars, inString_sqlServer, inString_mySql]

/-- **A string literal is tidy**, whatever the string. -/
theorem tidy_stringLiteral {unicode : Bool} : d.Tidy (d.stringLiteral unicode s) := by
  rw [stringLiteral_eq]
  refine Tidy.append ?_ (enclosed_literal (inside_string s.toList)).tidy
  split
  · exact tidy_word (by decide)
  · exact Tidy.empty

/-- Nothing in a string is doubled or escaped. -/
def isMute (c : Char) : Bool := c != '\x27' && c != '\\'

theorem inside_mute (h : cs.all isMute) : Inside d literal cs := by
  induction cs with
  | nil => exact .nil
  | cons c cs ih =>
    obtain ⟨hc, hcs⟩ : isMute c = true ∧ cs.all isMute = true := by simpa using h
    have hne : c ≠ '\x27' ∧ c ≠ '\\' := by simpa [isMute] using hc
    exact .one (by simp [scanStep, hne]) (ih hcs)

theorem enclosed_mute (h : s.toList.all isMute) : d.Enclosed ("'" ++ s ++ "'") := by
  have htext : "'" ++ s ++ "'" = String.ofList ('\x27' :: (s.toList ++ ['\x27'])) := by
    rw [← String.toList_inj]
    simp
  rw [htext]
  exact enclosed_literal (inside_mute h)

theorem isMute_of_isDigit (h : c.isDigit) : isMute c = true := by
  have hmarks : ['\x27', '\\'].all (!·.isDigit) = true := by decide
  have hne : ∀ x ∈ ['\x27', '\\'], c ≠ x := by
    rintro x hx rfl
    simpa [h] using List.all_eq_true.1 hmarks c hx
  simpa [isMute] using hne

end Dialect

open Dialect

/-! ## Constants -/

namespace Number

theorem Scientific.isNumeral_positional (x : Scientific) :
    IsNumeral x.negative x.positional := by
  have hzeros (n : Nat) : (List.replicate n '0').all isNumeralChar = true :=
    List.all_eq_true.2 fun c hc => by rw [List.eq_of_mem_replicate hc]; decide
  refine ⟨_, ?_, ?_, rfl⟩
  · split <;> simp [Nat.toDigits_ne_nil]
  · split
    · rw [List.all_append, isNumeralChar_toDigits, hzeros, Bool.and_true]
    · -- the point stands somewhere between the digits and the zeros before them
      have hpadded (n : Nat) : ∀ c ∈ List.replicate n '0' ++ Nat.toDigits 10 x.coefficient,
          isNumeralChar c = true := by
        rw [← List.all_eq_true, List.all_append, isNumeralChar_toDigits, hzeros, Bool.and_true]
      refine List.all_eq_true.2 fun c hc => ?_
      rcases List.mem_append.1 hc with hc | hc
      · exact hpadded _ c (List.mem_of_mem_take hc)
      · rcases List.mem_cons.1 hc with rfl | hc
        · decide
        · exact hpadded _ c (List.mem_of_mem_drop hc)

def isSigned (x : Float) : Bool :=
  if x.isNaN then false
  else if x.isInf then x < 0
  else (shortestScientific x).negative

theorem isNumeral_floatText (x : Float) : IsNumeral (isSigned x) (floatText x) := by
  unfold floatText isSigned
  split
  · exact ⟨"NaN".toList, by decide, by decide, by decide⟩
  · split
    · split
      next hneg => exact ⟨"inf".toList, by decide, by decide, by rw [decide_eq_true hneg]; rfl⟩
      next hneg => exact ⟨"inf".toList, by decide, by decide, by rw [decide_eq_false hneg]; rfl⟩
    · exact Scientific.isNumeral_positional _

end Number

theorem DateTime.isMute_padded {width n : Nat} : (padded width n).toList.all isMute = true := by
  refine List.all_eq_true.2 fun c hc => ?_
  rw [padded, String.toList_ofList] at hc
  rcases List.mem_append.1 hc with hc | hc
  · rw [List.eq_of_mem_replicate hc]
    decide
  · exact isMute_of_isDigit (Nat.isDigit_of_mem_toDigits (by decide) (by decide) hc)

theorem DateTime.isMute_millisecondText (t : DateTime) :
    t.millisecondText.toList.all isMute = true := by
  have hyear : (yearText t.year).toList.all isMute = true := by
    unfold yearText
    split
    · exact isMute_padded
    · rw [String.toList_append, List.all_append, isMute_padded, Bool.and_true]
      split <;> decide
  simp only [millisecondText, dateText, clockText, String.toList_append, List.all_append, hyear,
    isMute_padded, Bool.true_and, Bool.and_true]
  decide

theorem Guid.isMute_hexDigit {n : Nat} (h : n < 16) : isMute (hexDigit n) = true := by
  revert n
  decide

theorem Guid.isMute_text (g : Guid) : g.text.toList.all isMute = true := by
  have hdigits : ∀ c ∈ g.digits, isMute c = true := by
    intro c hc
    obtain ⟨i, _, rfl⟩ := List.mem_map.1 hc
    exact isMute_hexDigit (Nat.mod_lt _ (by decide))
  have htake (n : Nat) : (g.digits.take n).all isMute = true :=
    List.all_eq_true.2 fun c hc => hdigits c (List.mem_of_mem_take hc)
  have hdrop (n : Nat) : (g.digits.drop n).all isMute = true :=
    List.all_eq_true.2 fun c hc => hdigits c (List.mem_of_mem_drop hc)
  have hgroup (n k : Nat) : ((g.digits.drop n).take k).all isMute = true :=
    List.all_eq_true.2 fun c hc =>
      hdigits c (List.mem_of_mem_drop (List.mem_of_mem_take hc))
  simp only [text, String.toList_ofList, List.all_append, List.all_cons, htake, hdrop,
    hgroup]
  decide

namespace Value

variable {d : Dialect} {unicode : Bool}

mutual

/-- **A constant is tidy**, whatever it holds. -/
theorem tidy_literal : ∀ v : Value, d.Tidy (v.literal d unicode)
  | null => by
    rw [literal]
    exact tidy_word (by decide)
  | bool b => by
    rw [literal]
    cases b <;> exact tidy_word (by decide)
  | int n => by
    rw [literal]
    exact (isNumeral_int _).tidy
  | float x => by
    rw [literal]
    exact (Number.isNumeral_floatText x).tidy
  | decimal x => by
    rw [literal]
    exact (Number.Scientific.isNumeral_positional _).tidy
  | string s => by
    rw [literal]
    exact tidy_stringLiteral
  | dateTime t => by
    rw [literal]
    exact (enclosed_mute t.isMute_millisecondText).tidy
  | guid g => by
    rw [literal]
    exact (enclosed_mute g.isMute_text).tidy
  | list items => by
    rw [literal]
    have hitems : d.Tidy (", ".intercalate (literals d unicode items)) :=
      Tidy.intercalate (tidy_word (by decide)) (tidy_literals items)
    exact (Tidy.append (tidy_word (by decide)) hitems).append (tidy_word (by decide))

theorem tidy_literals : ∀ vs : List Value, ∀ s ∈ literals d unicode vs, d.Tidy s
  | [], s, hs => by simp [literals] at hs
  | v :: vs, s, hs => by
    rw [literals] at hs
    rcases List.mem_cons.1 hs with rfl | hs
    · exact tidy_literal v
    · exact tidy_literals vs s hs

end

theorem literal_ne_empty (v : Value) : v.literal d unicode ≠ "" := by
  cases v with
  | int n =>
    rw [literal]
    exact (isNumeral_int _).ne_empty
  | float x =>
    rw [literal]
    exact (Number.isNumeral_floatText x).ne_empty
  | decimal x =>
    rw [literal]
    exact (Number.Scientific.isNumeral_positional _).ne_empty
  | bool b => cases b <;> simp [literal]
  | string s => simp [literal, stringLiteral_eq, ← String.toList_inj]
  | null | dateTime t | guid g | list items => simp [literal]

/-- Whether a constant is a number below zero. -/
def isSigned : Value → Bool
  | int n => n.toInt < 0
  | float x => Number.isSigned x
  | decimal x => x.negative
  | _ => false

/-- A literal starts with a sign if it is a number below zero, and in no other case. -/
theorem head?_literal_eq_iff (v : Value) :
    (v.literal d unicode).toList.head? = some '-' ↔ v.isSigned = true := by
  cases v with
  | int n =>
    rw [literal]
    exact (isNumeral_int _).head?_eq_iff
  | float x =>
    rw [literal]
    exact (Number.isNumeral_floatText x).head?_eq_iff
  | decimal x =>
    rw [literal]
    exact (Number.Scientific.isNumeral_positional _).head?_eq_iff
  | bool b => cases b <;> simp [literal, isSigned]
  | string s =>
    rw [literal, stringLiteral_eq]
    split <;> simp [isSigned]
  | null | dateTime t | guid g | list items => simp [literal, isSigned]

end Value

end QueryCompiler

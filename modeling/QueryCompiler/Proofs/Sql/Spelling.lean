import QueryCompiler.Proofs.Sql.Scanning
import QueryCompiler.Proofs.Sql.Written
/-!
# Scripts under a scan

A script whose texts and constants are tidy is scanned from outside to outside, and a comment is
opened in it only where a sign stands right before a constant that has a sign itself
(`Script.Scans`). The signs of a script are those of negations, and what a negation applies to
starts with no sign of its own unless it is a constant. This is what `Term.WellSpelled` asks for, and
with it that functions have plain names. A term is then a phrase (`Term.phrase_script`): it is put
together from words, names and constants in few ways, and what is known of these is known of every
term, as that it is scanned (`Phrase.scans`).
-/

namespace QueryCompiler

theorem BinaryOp.precedence_le (op : BinaryOp) : op.precedence ≤ 6 := by
  cases op <;> decide

namespace Sql

open ScanState

variable {d : Dialect} {write : Constant → String}

/-- A way to write constants as tidy texts. -/
def WritesTidily (d : Dialect) (write : Constant → String) : Prop :=
  ∀ c, d.Tidy (write c) ∧ write c ≠ ""

/-! ## Signs -/

def Piece.isMinus : Piece → Bool
  | .text t => t == "-"
  | .constant _ => false

namespace Script

/-- Whether a constant with a sign comes first. -/
def startsNegative (write : Constant → String) : Script → Bool
  | .constant c :: _ => (write c).toList.head? == some '-'
  | _ => false

/-- Whether a sign stands right before a constant with a sign. -/
def doublesMinus (write : Constant → String) : Script → Bool
  | [] => false
  | piece :: s => (piece.isMinus && startsNegative write s) || doublesMinus write s

/-- What is said of all scripts put together one after the other is said of scripts between
separators. -/
theorem joined_induction {P : Script → Prop} {separator : String} (hnil : P [])
    (hsep : P (say separator)) (happend : ∀ {s t}, P s → P t → P (s ++ t)) :
    ∀ {ss : List Script}, (∀ s ∈ ss, P s) → P (joined separator ss)
  | [], _ => hnil
  | [s], h => h s (by simp)
  | s :: t :: rest, h => by
    rw [joined]
    have hrest : P (joined separator (t :: rest)) :=
      joined_induction hnil hsep happend fun u hu => h u (by simp_all)
    exact happend (happend (h s (by simp)) hsep) hrest

/-- Whether a script starts with a constant, or with a text that has no sign. -/
def isOperand : Script → Bool
  | .constant _ :: _ => true
  | .text t :: _ => t.toList.head?.any (· != '-')
  | [] => false

variable {s s' : Script}

theorem text_append : (s ++ s').text write = s.text write ++ s'.text write := by
  simp [text]

@[simp] theorem text_say {t : String} : (say t).text write = t := by
  simp [text, say]

@[simp] theorem text_constant {c : Constant} : text write [.constant c] = write c := by
  simp [text]

theorem doublesMinus_append (h : s.getLast?.any Piece.isMinus = false) :
    (s ++ s').doublesMinus write = (s.doublesMinus write || s'.doublesMinus write) := by
  induction s with
  | nil => rfl
  | cons piece s ih =>
    cases s with
    | nil =>
      have hpiece : piece.isMinus = false := by simpa using h
      simp [doublesMinus, hpiece]
    | cons next s =>
      have hnext : startsNegative write (next :: s ++ s') = startsNegative write (next :: s) := by
        cases next <;> rfl
      have hrest := ih (by simpa using h)
      rw [List.cons_append, doublesMinus, hnext, hrest, ← Bool.or_assoc]
      rfl

/-- A sign before a constant, found as two pieces one after the other. -/
theorem doublesMinus_iff : s.doublesMinus write = true ↔
    ∃ c, [.text "-", .constant c] <:+: s ∧ (write c).toList.head? = some '-' := by
  induction s with
  | nil => simp [doublesMinus]
  | cons piece s ih =>
    rw [doublesMinus, Bool.or_eq_true, ih]
    simp only [List.infix_cons_iff, or_and_right, exists_or]
    refine or_congr ?_ Iff.rfl
    cases piece with
    | constant c => simp [Piece.isMinus]
    | text t =>
      cases s with
      | nil => simp [startsNegative]
      | cons next s =>
        cases next with
        | text u => simp [startsNegative]
        | constant c =>
          constructor
          · intro h
            obtain ⟨rfl, hc⟩ : t = "-" ∧ (write c).toList.head? = some '-' := by
              simpa [startsNegative, Piece.isMinus] using h
            exact ⟨c, ⟨s, rfl⟩, hc⟩
          · rintro ⟨k, ⟨rest, hrest⟩, hk⟩
            cases hrest
            simpa [startsNegative, Piece.isMinus] using hk

/-! ## Scanned scripts -/

/-- **A scanned script**: from outside to outside, and a comment only from two signs. -/
def Scans (d : Dialect) (write : Constant → String) (s : Script) : Prop :=
  ∀ m ∈ settled, d.scan m (s.text write).toList ∈ settled ∧
    d.meetsComment m (s.text write).toList = s.doublesMinus write

namespace Scans

theorem nil : Scans d write [] := fun _ hm => ⟨hm, rfl⟩

theorem say {t : String} (h : d.Tidy t) : Scans d write (say t) := by
  intro m hm
  rw [text_say]
  have hsigns : (Script.say t).doublesMinus write = false := by
    simp [Script.say, doublesMinus, startsNegative]
  rw [hsigns]
  exact h m hm

theorem word {t : String} (h : t.toList.all Dialect.isInert) :
    Scans d write (Script.say t) :=
  say (Dialect.tidy_word h)

theorem constant (hw : WritesTidily d write) {c : Constant} : Scans d write [.constant c] := by
  intro m hm
  rw [text_constant]
  exact (hw c).1 m hm

theorem getLast? (h : Scans d write s) : s.getLast?.any Piece.isMinus = false := by
  rcases List.eq_nil_or_concat s with rfl | ⟨s, piece, rfl⟩
  · rfl
  · rw [List.concat_eq_append] at h ⊢
    rw [List.getLast?_append_of_ne_nil _ (by simp)]
    cases piece with
    | constant c => rfl
    | text t =>
      by_contra hminus
      obtain rfl : t = "-" := by simpa [Piece.isMinus] using hminus
      have hend := (h plain (by simp [settled])).1
      have hopen : ∀ m, d.scanStep m '-' ∉ settled := by
        intro m
        cases d <;> cases m <;> decide
      rw [text_append, String.toList_append, Dialect.scan_append] at hend
      exact hopen _ (by simpa [text] using hend)

/-- **Scanned scripts one after the other.** -/
theorem append (hs : Scans d write s) (hs' : Scans d write s') : Scans d write (s ++ s') := by
  intro m hm
  obtain ⟨hmid, hfirst⟩ := hs m hm
  obtain ⟨hend, hsecond⟩ := hs' _ hmid
  rw [text_append, String.toList_append, Dialect.scan_append, Dialect.meetsComment_append, hfirst,
    hsecond, doublesMinus_append hs.getLast?]
  exact ⟨hend, rfl⟩

theorem parenthesized (h : Scans d write s) : Scans d write (parenthesized s) :=
  ((word (by decide)).append h).append (word (by decide))

theorem exists_text_cons (hw : WritesTidily d write) (hs : s.isOperand) :
    ∃ c cs, (s.text write).toList = c :: cs ∧ (c == '-') = startsNegative write s := by
  rcases s with _ | ⟨piece, rest⟩
  · cases hs
  · have hcons : (text write (piece :: rest)).toList =
        (text write [piece]).toList ++ (text write rest).toList := by
      rw [← String.toList_append, ← text_append, List.singleton_append]
    rw [hcons]
    cases piece with
    | constant k =>
      rw [text_constant, startsNegative]
      rcases hk : (write k).toList with _ | ⟨c, cs⟩
      · exact absurd (String.toList_eq_nil_iff.1 hk) (hw k).2
      · exact ⟨c, cs ++ _, rfl, rfl⟩
    | text t =>
      have htext : text write [.text t] = t := text_say
      rcases ht : t.toList with _ | ⟨c, cs⟩
      · simp [isOperand, ht] at hs
      · have hc : c ≠ '-' := by simpa [isOperand, ht] using hs
        exact ⟨c, cs ++ _, by rw [htext, ht, List.cons_append], by simp [startsNegative, hc]⟩

/-- **A sign before a scanned script** opens a comment if a constant with a sign comes first. -/
theorem minus (hw : WritesTidily d write) (h : Scans d write s) (hs : s.isOperand) :
    Scans d write (Script.say "-" ++ s) := by
  obtain ⟨c, cs, htext, hsign⟩ := exists_text_cons hw hs
  intro m hm
  have hopen : d.scanStep m '-' = dash := by cases d <;> revert hm <;> cases m <;> decide
  have hnone : Dialect.completesComment m '-' = false := by revert hm; cases m <;> decide
  -- behind the sign the script is scanned as it is from outside, but for its first character
  have hstep : d.scanStep dash c = d.scanStep plain c := rfl
  have hplain : Dialect.completesComment plain c = false := rfl
  have hdash : Dialect.completesComment dash c = (c == '-') := by
    simp [Dialect.completesComment]
  obtain ⟨hend, hcomment⟩ := h plain (by simp [settled])
  rw [htext, Dialect.scan_cons] at hend
  rw [htext, Dialect.meetsComment_cons, hplain, Bool.false_or] at hcomment
  have hall : ((Script.say "-" ++ s).text write).toList = '-' :: c :: cs := by
    rw [text_append, text_say, String.toList_append, htext]
    rfl
  rw [hall, Dialect.scan_cons, Dialect.scan_cons, hopen, hstep, Dialect.meetsComment_cons,
    Dialect.meetsComment_cons, hnone, hopen, hdash, hstep, hcomment, hsign]
  exact ⟨hend, rfl⟩

end Scans

end Script

/-! ## Terms -/

/-- A character of a phrase. Outside of parentheses a phrase has no commas, and no word of it ends
like `FROM`. -/
def isPhraseChar (inside : Bool) (c : Char) : Bool :=
  Dialect.isInert c && c != '(' && c != ')' && (inside || (c != ',' && c != 'M'))

/-- A name of a function: no character in it separates anything, or means anything to a scan. -/
def isWord (s : String) : Bool :=
  s.toList.all (fun c => isPhraseChar true c && c != ',' && c != ' ') && !s.toList.isEmpty

namespace Term

def isNumber : Term → Bool
  | number _ => true
  | _ => false

mutual

/-- The names of functions are words, and what is negated is bound tightly and is no bare number. -/
def WellSpelled : Term → Prop
  | column _ | null | constant _ | number _ | word _ | truth _ | now _ => True
  | paren t | isNull t | isNotNull t | .not t | length t | dateOnly t | trim t
  | stringCast t => t.WellSpelled
  | negate t => t.precedence = atomic ∧ t.isNumber = false ∧ t.WellSpelled
  | binary _ l r | coalesce l r | like l r | isIn l r => l.WellSpelled ∧ r.WellSpelled
  | caseWhen t a b => t.WellSpelled ∧ a.WellSpelled ∧ b.WellSpelled
  | tuple ts | concat ts => AllSpelled ts
  | call function ts => isWord function = true ∧ AllSpelled ts
  | datePart part t => isWord part = true ∧ t.WellSpelled
  | substring t start len => t.WellSpelled ∧ start.WellSpelled ∧ OptionSpelled len
  | round t digits => t.WellSpelled ∧ OptionSpelled digits

def AllSpelled : List Term → Prop
  | [] => True
  | t :: ts => t.WellSpelled ∧ AllSpelled ts

def OptionSpelled : Option Term → Prop
  | none => True
  | some t => t.WellSpelled

end

variable {t : Term} {style : Style}

@[simp] theorem allSpelled_iff {ts : List Term} : AllSpelled ts ↔ ∀ t ∈ ts, t.WellSpelled := by
  induction ts with
  | nil => simp [AllSpelled]
  | cons t ts ih => simp [AllSpelled, ih]

@[simp] theorem optionSpelled_iff {t : Option Term} :
    OptionSpelled t ↔ ∀ u ∈ t, u.WellSpelled := by
  cases t <;> simp [OptionSpelled]

@[simp] theorem wellSpelled_wrap {place : Nat} {strict : Bool} :
    (t.wrap place strict).WellSpelled ↔ t.WellSpelled := by
  unfold wrap
  split
  · rw [WellSpelled]
  · rfl

theorem isNumber_wrap {place : Nat} {strict : Bool} (h : t.isNumber = false) :
    (t.wrap place strict).isNumber = false := by
  unfold wrap
  split
  · rfl
  · exact h

theorem precedence_le_atomic : t.precedence ≤ atomic := by
  cases t with
  | binary op l r => exact Nat.le_trans op.precedence_le (by decide)
  | _ => simp [precedence, atomic, testing, BinaryOp.precedence]

theorem precedence_wrap_atomic : (t.wrap atomic false).precedence = atomic := by
  have hle : t.precedence ≤ atomic := precedence_le_atomic
  unfold wrap
  split
  · rfl
  · rename_i h
    simp only [Bool.false_and, Bool.or_false, decide_eq_true_eq] at h
    omega

theorem isOperand_script (h : t.WellSpelled) (hatomic : t.precedence = atomic)
    (hnumber : t.isNumber = false) : (t.script style).isOperand = true := by
  cases t with
  | number n => cases hnumber
  | binary op l r =>
    have hlow := op.precedence_le
    rw [precedence, atomic] at hatomic
    omega
  | truth b | isNull t | isNotNull t | not t | negate t | concat ts | like t u | isIn t u =>
    simp [precedence, atomic, testing, BinaryOp.precedence] at hatomic
  | column ref =>
    simp [script, ColumnRef.text, rowName, Script.say, Script.isOperand]
  | word s =>
    rw [script, Dialect.stringLiteral_eq]
    split <;> simp [Script.say, Script.isOperand]
  | call function ts =>
    rw [WellSpelled, isWord] at h
    rcases hf : function.toList with _ | ⟨c, cs⟩
    · simp [hf] at h
    · have hc : c ≠ '-' := by rintro rfl; simp [hf, isPhraseChar, Dialect.isInert] at h
      simp [script, Script.call, Script.say, Script.isOperand, hf, hc]
  | datePart part t =>
    rw [WellSpelled, isWord] at h
    rcases hf : part.toList with _ | ⟨c, cs⟩
    · simp [hf] at h
    · have hc : c ≠ '-' := by rintro rfl; simp [hf, isPhraseChar, Dialect.isInert] at h
      rw [script]
      cases style.dialect with
      | sqlServer => rfl
      | mySql => simp [Dialect.datePart, Script.call, Script.say, Script.isOperand, hf, hc]
  | coalesce t u | length t | dateOnly t | trim t | stringCast t | now utc =>
    rw [script]
    cases style.dialect
    all_goals first | rfl | (cases utc <;> rfl)
  | substring t start len =>
    rw [script]
    cases style.dialect <;> cases len <;> rfl
  | round t digits =>
    rw [script]
    cases style.dialect <;> cases digits <;> rfl
  | null | constant c | tuple ts | paren t | caseWhen t a b =>
    rw [script]
    rfl

end Term

end Sql

namespace Dialect

open Sql

variable {d : Dialect}

theorem tidy_rowName {n : Nat} : d.Tidy (rowName n) :=
  .append (tidy_word (by decide)) tidy_nat

theorem tidy_columnRef {ref : ColumnRef} : d.Tidy (ref.text d) :=
  (tidy_rowName.append (tidy_word (by decide))).append tidy_quote

theorem tidy_symbol {op : BinaryOp} : d.Tidy (" " ++ op.symbol ++ " ") := by
  cases d <;> cases op <;> decide

end Dialect

namespace Sql

/-! ## Phrases -/

open Script (say parenthesized joined)

variable {d : Dialect} {write : Constant → String}

/-- **How an expression is put together** from words, names and constants. What is in parentheses is
a phrase by itself. -/
inductive Phrase (d : Dialect) : Bool → Script → Prop
  | nil {inside : Bool} : Phrase d inside []
  | words {inside : Bool} {w : String} : w.toList.all (isPhraseChar inside) = true →
      Phrase d inside (say w)
  | sign {inside : Bool} {op : BinaryOp} : Phrase d inside (say (" " ++ op.symbol ++ " "))
  | column {inside : Bool} {ref : ColumnRef} : Phrase d inside (say (ref.text d))
  | number {inside : Bool} {n : Int} : Phrase d inside (say (toString n))
  | literal {inside unicode : Bool} {s : String} :
      Phrase d inside (say (d.stringLiteral unicode s))
  | constant {inside : Bool} {c : Constant} : Phrase d inside [.constant c]
  | now {inside utc : Bool} : Phrase d inside (say (d.now utc))
  | append {inside : Bool} {s s' : Script} : Phrase d inside s → Phrase d inside s' →
      Phrase d inside (s ++ s')
  | minus {inside : Bool} {s : Script} : Phrase d inside s → s.isOperand = true →
      Phrase d inside (say "-" ++ s)
  | parenthesized {inside : Bool} {s : Script} : Phrase d true s → Phrase d inside (parenthesized s)
  | call {inside : Bool} {function : String} {args : List Script} : isWord function = true →
      Phrase d true (joined ", " args) → Phrase d inside (Script.call function args)
  | cast {inside : Bool} {s : Script} {ending : String} : Phrase d true s →
      ending ∈ [" AS NVARCHAR(MAX))", " AS CHAR)", " AS DATE)"] →
      Phrase d inside (say "CAST(" ++ s ++ say ending)

theorem tidy_of_isPhraseChar {inside : Bool} {w : String}
    (h : w.toList.all (isPhraseChar inside)) : d.Tidy w := by
  refine Dialect.tidy_word (List.all_eq_true.2 fun c hc => ?_)
  have hchar := List.all_eq_true.1 h c hc
  simp only [isPhraseChar, Bool.and_eq_true] at hchar
  exact hchar.1.1.1

theorem tidy_of_isWord {s : String} (h : isWord s) : d.Tidy s := by
  simp only [isWord, Bool.and_eq_true, List.all_eq_true] at h
  exact tidy_of_isPhraseChar (List.all_eq_true.2 fun c hc => (h.1 c hc).1.1)

namespace Phrase

variable {inside : Bool} {e s : Script}

theorem joined {separator : String} {ss : List Script} (hsep : Phrase d inside (say separator))
    (h : ∀ s ∈ ss, Phrase d inside s) : Phrase d inside (joined separator ss) :=
  Script.joined_induction nil hsep append h

theorem outsideWords {w : String} (h : w.toList.all (isPhraseChar false)) :
    Phrase d inside (say w) := by
  refine words (List.all_eq_true.2 fun c hc => ?_)
  have hchar := List.all_eq_true.1 h c hc
  simp only [isPhraseChar, Bool.false_or, Bool.and_eq_true] at hchar ⊢
  exact ⟨hchar.1, by simp [hchar.2]⟩

theorem arguments {args : List Script} (h : ∀ s ∈ args, Phrase d true s) :
    Phrase d true (Script.joined ", " args) :=
  joined (words (by decide)) h

/-- **A phrase is scanned** from outside to outside. -/
theorem scans (hw : WritesTidily d write) (h : Phrase d inside s) : s.Scans d write := by
  induction h with
  | nil => exact .nil
  | words hchars => exact .say (tidy_of_isPhraseChar hchars)
  | sign => exact .say Dialect.tidy_symbol
  | column => exact .say Dialect.tidy_columnRef
  | number => exact .say (Dialect.isNumeral_int _).tidy
  | literal => exact .say Dialect.tidy_stringLiteral
  | constant => exact .constant hw
  | @now _ utc => cases d <;> cases utc <;> exact .word (by decide)
  | append _ _ ih ih' => exact ih.append ih'
  | minus _ hoperand ih => exact ih.minus hw hoperand
  | parenthesized _ ih => exact ih.parenthesized
  | call hfunction _ ih => exact (Script.Scans.say (tidy_of_isWord hfunction)).append ih.parenthesized
  | @cast _ _ ending _ hending ih =>
    have hinert : ending.toList.all Dialect.isInert = true := by
      revert ending
      decide
    exact ((Script.Scans.word (by decide)).append ih).append (.word hinert)

/-! ## Wordings -/

theorem concat {parts : List Script} (h : ∀ inside, ∀ s ∈ parts, Phrase d inside s) :
    Phrase d inside (d.concat parts) := by
  cases d with
  | sqlServer => exact joined (outsideWords (by decide)) (h inside)
  | mySql => exact call (by decide) (arguments (h true))

theorem stringCast (h : Phrase d true e) : Phrase d inside (d.stringCast e) := by
  cases d <;> exact cast h (by decide)

theorem dateOnly (h : Phrase d true e) : Phrase d inside (d.dateOnly e) := by
  cases d with
  | sqlServer => exact cast h (by decide)
  | mySql => exact call (by decide) (arguments (by simpa using h))

theorem trim (h : Phrase d true e) : Phrase d inside (d.trim e) := by
  cases d with
  | sqlServer =>
    have hright : Phrase .sqlServer true (Script.call "RTRIM" [e]) :=
      call (by decide) (arguments (by simpa using h))
    exact call (by decide) (arguments (by simpa using hright))
  | mySql => exact call (by decide) (arguments (by simpa using h))

theorem datePart {part : String} (hpart : isWord part) (h : Phrase d true e) :
    Phrase d inside (d.datePart part e) := by
  cases d with
  | sqlServer =>
    have hword : Phrase .sqlServer true (say part) := by
      simp only [isWord, Bool.and_eq_true, List.all_eq_true] at hpart
      exact words (List.all_eq_true.2 fun c hc => (hpart.1 c hc).1.1)
    exact call (by decide) (arguments (by simpa using ⟨hword, h⟩))
  | mySql => exact call hpart (arguments (by simpa using h))

theorem substring {start : Script} {len : Option Script} (h : Phrase d true e)
    (hstart : Phrase d true start) (hlen : ∀ s ∈ len, Phrase d true s) :
    Phrase d inside (d.substring e start len) := by
  cases len with
  | some len =>
    have hlen : Phrase d true len := hlen len rfl
    cases d <;> exact call (by decide) (arguments (by simpa using ⟨h, hstart, hlen⟩))
  | none =>
    cases d with
    | sqlServer =>
      have hlength : Phrase .sqlServer true (Script.call "LEN" [e]) :=
        call (by decide) (arguments (by simpa using h))
      exact call (by decide) (arguments (by simpa using ⟨h, hstart, hlength⟩))
    | mySql => exact call (by decide) (arguments (by simpa using ⟨h, hstart⟩))

theorem round {digits : Option Script} (h : Phrase d true e)
    (hdigits : ∀ s ∈ digits, Phrase d true s) : Phrase d inside (d.round e digits) := by
  cases digits with
  | some digits =>
    have hdigits : Phrase d true digits := hdigits digits rfl
    cases d <;> exact call (by decide) (arguments (by simpa using ⟨h, hdigits⟩))
  | none =>
    cases d with
    | sqlServer =>
      have hzero : Phrase .sqlServer true (say "0") := words (by decide)
      exact call (by decide) (arguments (by simpa using ⟨h, hzero⟩))
    | mySql => exact call (by decide) (arguments (by simpa using h))

end Phrase

namespace Term

variable {style : Style}

mutual

/-- **A well spelled term is a phrase**, wherever it stands. -/
theorem phrase_script : ∀ {t : Term} (inside : Bool), t.WellSpelled →
    Phrase style.dialect inside (t.script style)
  | column ref, _, _ => by
    rw [script]
    exact .column
  | null, inside, _ => by
    rw [script]
    exact .outsideWords (by decide)
  | constant c, _, _ => by
    rw [script]
    exact .constant
  | number n, _, _ => by
    rw [script]
    exact .number
  | word s, _, _ => by
    rw [script]
    exact .literal
  | tuple ts, _, h => by
    rw [WellSpelled] at h
    rw [script]
    exact .parenthesized (.arguments (phrase_scripts true h))
  | paren t, _, h => by
    rw [WellSpelled] at h
    rw [script]
    exact .parenthesized (phrase_script true h)
  | truth holds, inside, _ => by
    rw [script]
    exact .outsideWords (by cases holds <;> decide)
  | binary op l r, inside, h => by
    rw [WellSpelled] at h
    rw [script]
    exact ((phrase_script inside h.1).append .sign).append (phrase_script inside h.2)
  | isNull t, inside, h | isNotNull t, inside, h => by
    rw [WellSpelled] at h
    rw [script]
    exact (phrase_script inside h).append (.outsideWords (by decide))
  | .not t, inside, h => by
    rw [WellSpelled] at h
    rw [script]
    exact .append (.outsideWords (by decide)) (.parenthesized (phrase_script true h))
  | negate t, inside, h => by
    rw [WellSpelled] at h
    rw [script]
    exact .minus (phrase_script inside h.2.2) (isOperand_script h.2.2 h.1 h.2.1)
  | concat ts, _, h => by
    rw [WellSpelled] at h
    rw [script]
    exact .concat fun inside => phrase_scripts inside h
  | coalesce t u, _, h => by
    rw [WellSpelled] at h
    rw [script]
    have hname : isWord style.dialect.isnullFunction = true := by cases style.dialect <;> decide
    exact .call hname (.arguments (by simpa using ⟨phrase_script true h.1, phrase_script true h.2⟩))
  | caseWhen t a b, inside, h => by
    rw [WellSpelled] at h
    rw [script]
    have htest := phrase_script inside h.1
    have htrue := phrase_script inside h.2.1
    have hfalse := phrase_script inside h.2.2
    exact ((((((Phrase.outsideWords (by decide)).append htest).append (Phrase.outsideWords (by decide))).append
      htrue).append (Phrase.outsideWords (by decide))).append hfalse).append (Phrase.outsideWords (by decide))
  | call function ts, _, h => by
    rw [WellSpelled] at h
    rw [script]
    exact .call h.1 (.arguments (phrase_scripts true h.2))
  | length t, _, h => by
    rw [WellSpelled] at h
    rw [script]
    have hname : isWord style.dialect.lengthFunction = true := by cases style.dialect <;> decide
    exact .call hname (.arguments (by simpa using phrase_script true h))
  | datePart part t, _, h => by
    rw [WellSpelled] at h
    rw [script]
    exact .datePart h.1 (phrase_script true h.2)
  | dateOnly t, _, h => by
    rw [WellSpelled] at h
    rw [script]
    exact .dateOnly (phrase_script true h)
  | now utc, _, _ => by
    rw [script]
    exact .now
  | substring t start len, _, h => by
    rw [WellSpelled] at h
    rw [script]
    exact .substring (phrase_script true h.1) (phrase_script true h.2.1)
      (phrase_scriptOption true h.2.2)
  | trim t, _, h => by
    rw [WellSpelled] at h
    rw [script]
    exact .trim (phrase_script true h)
  | stringCast t, _, h => by
    rw [WellSpelled] at h
    rw [script]
    exact .stringCast (phrase_script true h)
  | round t digits, _, h => by
    rw [WellSpelled] at h
    rw [script]
    exact .round (phrase_script true h.1) (phrase_scriptOption true h.2)
  | like t u, inside, h | isIn t u, inside, h => by
    rw [WellSpelled] at h
    rw [script]
    exact ((phrase_script inside h.1).append (.outsideWords (by decide))).append
      (phrase_script inside h.2)

theorem phrase_scripts (inside : Bool) : ∀ {ts : List Term}, AllSpelled ts →
    ∀ s ∈ scripts style ts, Phrase style.dialect inside s
  | [], _, s, hs => by simp [scripts] at hs
  | t :: ts, h, s, hs => by
    rw [AllSpelled] at h
    rw [scripts] at hs
    rcases List.mem_cons.1 hs with rfl | hs
    · exact phrase_script inside h.1
    · exact phrase_scripts inside h.2 s hs

theorem phrase_scriptOption (inside : Bool) : ∀ {t : Option Term}, OptionSpelled t →
    ∀ s ∈ scriptOption style t, Phrase style.dialect inside s
  | none, _, s, hs => by simp [scriptOption] at hs
  | some t, h, s, hs => by
    obtain rfl : t.script style = s := by simpa [scriptOption] using hs
    exact phrase_script inside h

end

/-- **A well spelled term is scanned** from outside to outside. -/
theorem scans_script (hw : WritesTidily style.dialect write) {t : Term} (h : t.WellSpelled) :
    (t.script style).Scans style.dialect write :=
  (phrase_script false h).scans hw

end Term

end Sql

end QueryCompiler

import QueryCompiler.Proofs.Sql.Comments
/-!
# Output names in SQL text

The output names of a query can be read from its text (`Dialect.outputNames`). The list behind
`SELECT` is cut at the commas outside of parentheses, string literals and quoted names, up to the
word `FROM`, and an item has the quoted name that it ends with. Hyphens are signs to this reading:
that a comment is opened where two of them meet is no matter of the list.

An expression is read over as part of its item (`Phrase.passes`): it closes every parenthesis that
it opens, it has no commas outside of them, and no word outside of them ends like `FROM`. So a list
of expressions with names is cut into just these (`Dialect.outputNames_select`).
-/

namespace QueryCompiler

open Sql ScanState

namespace Sql

/-! ## Reading -/

/-- How far a list of items has been read. -/
structure ListCut where
  mode : ScanState := .plain
  /-- how many parentheses are open -/
  depth : Nat := 0
  /-- the present item up to its last blank -/
  before : List Char := []
  /-- the present item from its last blank on -/
  word : List Char := []
  items : List (List Char) := []
  ended : Bool := false

namespace ListCut

def text (s : ListCut) : List Char := s.before ++ s.word

/-- The present item as an item of the list. Nothing stands behind a blank at its end. -/
def closed (item : List Char) : List (List Char) :=
  if item.getLast?.all (· == ' ') then [] else [item]

def step (d : Dialect) (s : ListCut) (c : Char) : ListCut :=
  let mode := d.scanStep s.mode c
  if s.ended then s
  else if mode.isOutside && s.depth == 0 && c == ',' then
    { s with mode, before := [], word := [], items := s.items ++ [s.text] }
  else if mode.isOutside && s.depth == 0 && c == ' ' then
    if s.word == " FROM".toList then
      { s with mode, items := s.items ++ closed s.before, ended := true }
    else { s with mode, before := s.text, word := [' '] }
  else
    let depth := if mode.isOutside && c == '(' then s.depth + 1
      else if mode.isOutside && c == ')' then s.depth - 1 else s.depth
    { s with mode, depth, word := s.word ++ [c] }

def run (d : Dialect) (s : ListCut) (cs : List Char) : ListCut :=
  cs.foldl (step d) s

end ListCut

end Sql

namespace Dialect

/-- The next character of an item, with the characters of the last quoted name in it. -/
def nameStep (d : Dialect) (s : ScanState × List Char) (c : Char) : ScanState × List Char :=
  let mode := d.scanStep s.1 c
  if mode != identifier then (mode, s.2)
  else if s.1 == identifier || (s.1 == identifierEnd && c == d.nameClose) then (mode, s.2 ++ [c])
  else (mode, [])

def outputName (d : Dialect) (item : List Char) : Option String :=
  let (mode, name) := item.foldl d.nameStep (plain, [])
  if mode == identifierEnd then some (String.ofList name) else none

/-- **The output names of the list that a query starts with**, one for each item. -/
def outputNames (d : Dialect) (text : String) : Option (List (Option String)) :=
  let cut := ListCut.run d {} text.toList
  if "SELECT ".toList.isPrefixOf text.toList && cut.ended then
    some (cut.items.map d.outputName)
  else none

end Dialect

namespace Sql

/-! ## Solid texts -/

variable {d : Dialect} {m : ScanState} {c : Char} {cs ds : List Char}

def cuts (c : Char) : Bool := [',', ' ', '(', ')'].contains c

/-- No character by which lists are cut stands outside literals and names. -/
def quiet (d : Dialect) (m : ScanState) : List Char → Bool
  | [] => true
  | c :: cs => !((d.scanStep m c).isOutside && cuts c) && quiet d (d.scanStep m c) cs

theorem quiet_append : quiet d m (cs ++ ds) = (quiet d m cs && quiet d (d.scan m cs) ds) := by
  induction cs generalizing m with
  | nil => rfl
  | cons c cs ih => simp [quiet, ih, Bool.and_assoc]

theorem quiet_of_all (h : cs.all (!cuts ·) = true) : quiet d m cs = true := by
  induction cs generalizing m with
  | nil => rfl
  | cons c cs ih =>
    obtain ⟨hc, hcs⟩ : cuts c = false ∧ cs.all (!cuts ·) = true := by simpa using h
    rw [quiet, hc, Bool.and_false, ih hcs]
    rfl

theorem cuts_scanStep (hm : m.isOutside = false) :
    ((d.scanStep m c).isOutside && cuts c) = false := by
  cases hout : (d.scanStep m c).isOutside with
  | false => rfl
  | true =>
    rcases (Dialect.scanStep_inside hm c c).2.2 hout with rfl | rfl
    · decide
    · cases d <;> decide

theorem quiet_inside (h : d.Inside m cs) (hm : m.isOutside = false) : quiet d m cs = true := by
  induction h with
  | nil => rfl
  | one hc _ ih => rw [quiet, cuts_scanStep hm, hc, ih]; rfl
  | two hc _ ih => rw [quiet, quiet, cuts_scanStep hm, hc, hm, ih]; rfl

namespace ListCut

variable {s : ListCut}

theorem run_append : run d s (cs ++ ds) = run d (run d s cs) ds :=
  List.foldl_append

theorem run_cons : run d s (c :: cs) = run d (step d s c) cs := rfl

theorem run_of_ended (h : s.ended) : run d s cs = s := by
  induction cs with
  | nil => rfl
  | cons c cs ih => rw [run_cons, step, if_pos h, ih]

theorem step_quiet (h : s.ended = false) (hc : ((d.scanStep s.mode c).isOutside && cuts c) = false) :
    step d s c = { s with mode := d.scanStep s.mode c, word := s.word ++ [c] } := by
  cases hout : (d.scanStep s.mode c).isOutside with
  | false => simp [step, h, hout]
  | true =>
    simp only [hout, Bool.true_and, cuts, List.contains_eq_mem, List.mem_cons, List.not_mem_nil,
      or_false, decide_eq_false_iff_not, not_or] at hc
    simp [step, h, hout, hc]

theorem step_opening (h : s.ended = false) (hm : (d.scanStep s.mode '(').isOutside = true) :
    step d s '(' = { s with
      mode := d.scanStep s.mode '(', depth := s.depth + 1, word := s.word ++ ['('] } := by
  simp [step, h, hm]

theorem step_closing (h : s.ended = false) (hm : (d.scanStep s.mode ')').isOutside = true) :
    step d s ')' = { s with
      mode := d.scanStep s.mode ')', depth := s.depth - 1, word := s.word ++ [')'] } := by
  simp [step, h, hm]

theorem run_quiet (h : s.ended = false) (hquiet : quiet d s.mode cs) :
    run d s cs = { s with mode := d.scan s.mode cs, word := s.word ++ cs } := by
  induction cs generalizing s with
  | nil => simp [run]
  | cons c cs ih =>
    simp only [quiet, Bool.and_eq_true, Bool.not_eq_true'] at hquiet
    have hrest := @ih { s with mode := d.scanStep s.mode c, word := s.word ++ [c] } h hquiet.2
    rw [run_cons, step_quiet h hquiet.1, hrest]
    simp

end ListCut

/-- A text that is read from outside to outside without a cut. -/
structure Solid (d : Dialect) (s : String) : Prop where
  outside {m : ScanState} : m.isOutside = true → (d.scan m s.toList).isOutside = true
  quiet {m : ScanState} : m.isOutside = true → quiet d m s.toList = true

/-- A character that means nothing to a scan but perhaps as part of a comment. -/
def isLoose (c : Char) : Bool := !(['\x27', '[', ']', '\x60'].contains c)

/-- A character that means nothing to the reading of a list. -/
def isSolidChar (c : Char) : Bool := isLoose c && !cuts c

theorem isNumeralChar_ne (h : Dialect.isNumeralChar c) :
    ∀ x ∈ ['\x27', '[', ']', '\x60', ',', ' ', '(', ')', 'M'], c ≠ x := by
  have hmarks : ['\x27', '[', ']', '\x60', ',', ' ', '(', ')', 'M'].all
      (!Dialect.isNumeralChar ·) = true := by decide
  rintro x hx rfl
  simpa [h] using List.all_eq_true.1 hmarks c hx

theorem scanStep_of_isLoose (h : isLoose c) (hm : m.isOutside) :
    (d.scanStep m c).isOutside = true := by
  have hne : c ≠ '\x27' ∧ c ≠ '[' ∧ c ≠ ']' ∧ c ≠ '\x60' := by simpa [isLoose] using h
  have hout : (d.scanOutside c).isOutside = true := by
    have hopen : c ≠ d.nameOpen := by cases d <;> simp [Dialect.nameOpen, hne]
    unfold Dialect.scanOutside
    rw [if_neg hne.1, if_neg hopen]
    split
    · rfl
    · split <;> rfl
  have hclose : c ≠ d.nameClose := by cases d <;> simp [Dialect.nameClose, hne]
  cases m with
  | plain | dash | slash => exact hout
  | literalEnd => simpa [Dialect.scanStep, hne.1] using hout
  | identifierEnd => simpa [Dialect.scanStep, hclose] using hout
  | literal | escape | identifier => cases hm

theorem scan_of_isLoose (h : ∀ c ∈ cs, isLoose c = true) (hm : m.isOutside) :
    (d.scan m cs).isOutside = true := by
  induction cs generalizing m with
  | nil => exact hm
  | cons c cs ih =>
    exact ih (fun x hx => h x (List.mem_cons_of_mem c hx)) (scanStep_of_isLoose (h c (by simp)) hm)

namespace Solid

variable {s t : String}

theorem append (hs : Solid d s) (ht : Solid d t) : Solid d (s ++ t) where
  outside hm := by
    rw [String.toList_append, Dialect.scan_append]
    exact ht.outside (hs.outside hm)
  quiet hm := by
    rw [String.toList_append, quiet_append, hs.quiet hm, ht.quiet (hs.outside hm)]
    rfl

theorem loose (h : s.toList.all isSolidChar) : Solid d s := by
  have hchars : ∀ c ∈ s.toList, isLoose c = true ∧ (!cuts c) = true := fun c hc =>
    Bool.and_eq_true_iff.1 (List.all_eq_true.1 h c hc)
  exact ⟨fun hm => scan_of_isLoose (fun c hc => (hchars c hc).1) hm,
    fun _ => quiet_of_all (List.all_eq_true.2 fun c hc => (hchars c hc).2)⟩

theorem enclosed (h : d.Enclosed s) : Solid d s := by
  obtain ⟨hopen, hinner, hcs, hclose⟩ := h
  refine ⟨fun {m} hm => ?_, fun {m} hm => ?_⟩
  · rw [String.toList_ofList, Dialect.scan_cons, Dialect.scan_append, hopen m hm, hcs.scan_eq]
    exact Dialect.isOutside_of_mem_settled hclose
  · rw [String.toList_ofList, Sql.quiet, hopen m hm, hinner, quiet_append, quiet_inside hcs hinner,
      hcs.scan_eq, Sql.quiet, cuts_scanStep hinner]
    rfl

end Solid

/-! ## Passing over expressions -/

namespace ListCut

/-- The reading stands outside literals and names, and the word before it is not `FROM`. -/
structure Open (s : ListCut) : Prop where
  outside : s.mode.isOutside = true
  ended : s.ended = false
  word : s.depth = 0 → s.word.getLast? ≠ some 'M'

/-- Some characters have been added to the present item. -/
structure Adds (s s' : ListCut) (cs : List Char) : Prop extends s'.Open where
  depth : s'.depth = s.depth
  items : s'.items = s.items
  text : s'.text = s.text ++ cs

end ListCut

open ListCut

/-- **A text that is read over as part of an item**, anywhere or only between parentheses. -/
def Passes (d : Dialect) (inside : Bool) (cs : List Char) : Prop :=
  ∀ s : ListCut, s.Open → (inside = true → 0 < s.depth) → s.Adds (run d s cs) cs

namespace Passes

variable {inside : Bool}

theorem nil : Passes d inside [] := fun s hs _ => ⟨hs, rfl, rfl, by simp [run]⟩

theorem append (h : Passes d inside cs) (h' : Passes d inside ds) : Passes d inside (cs ++ ds) := by
  intro s hs hdepth
  have hfirst := h s hs hdepth
  have hsecond := h' _ hfirst.toOpen fun hin => hfirst.depth ▸ hdepth hin
  rw [run_append]
  exact ⟨hsecond.toOpen, hsecond.depth.trans hfirst.depth, hsecond.items.trans hfirst.items,
    by rw [hsecond.text, hfirst.text, List.append_assoc]⟩

theorem inner (h : Passes d false cs) : Passes d inside cs := fun s hs _ => h s hs (by simp)

theorem solid {t : String} (h : Solid d t) (hne : t.toList ≠ [])
    (hlast : t.toList.getLast? ≠ some 'M') : Passes d inside t.toList := by
  intro s hs _
  rw [run_quiet hs.ended (h.quiet hs.outside)]
  refine ⟨⟨h.outside hs.outside, hs.ended, fun _ => ?_⟩, rfl, rfl, ?_⟩
  · rwa [List.getLast?_append_of_ne_nil _ hne]
  · simp [ListCut.text]

/-- A character that passes by itself. -/
def isFree (inside : Bool) (c : Char) : Bool :=
  isLoose c && c != '(' && c != ')' && (inside || (c != ',' && c != 'M'))

theorem char (h : isFree inside c) : Passes d inside [c] := by
  intro s hs hdepth
  simp only [isFree, Bool.and_eq_true, bne_iff_ne, Bool.or_eq_true] at h
  obtain ⟨⟨⟨hloose, hopen⟩, hclose⟩, hinside⟩ := h
  have hout : (d.scanStep s.mode c).isOutside = true := scanStep_of_isLoose hloose hs.outside
  by_cases hzero : s.depth = 0
  · obtain ⟨hcomma, hm⟩ : c ≠ ',' ∧ c ≠ 'M' := by
      refine hinside.resolve_left fun hin => ?_
      have hpos := hdepth hin
      omega
    by_cases hblank : c = ' '
    · subst hblank
      have hword : s.word ≠ [' ', 'F', 'R', 'O', 'M'] := fun heq =>
        hs.word hzero (by rw [heq]; rfl)
      have hstep : step d s ' ' =
          { s with mode := d.scanStep s.mode ' ', before := s.text, word := [' '] } := by
        simp [step, hs.ended, hout, hzero, hword]
      rw [run_cons, hstep]
      exact ⟨⟨hout, hs.ended, fun _ => by simp [run]⟩, rfl, rfl, rfl⟩
    · have hstep : step d s c = { s with mode := d.scanStep s.mode c, word := s.word ++ [c] } :=
        step_quiet hs.ended (by simp [cuts, hcomma, hblank, hopen, hclose])
      rw [run_cons, hstep]
      exact ⟨⟨hout, hs.ended, fun _ => by simp [run, hm]⟩, rfl, rfl, by simp [run, ListCut.text]⟩
  · have hstep : step d s c = { s with mode := d.scanStep s.mode c, word := s.word ++ [c] } := by
      simp [step, hs.ended, hzero, hopen, hclose]
    rw [run_cons, hstep]
    exact ⟨⟨hout, hs.ended, fun h => absurd h hzero⟩, rfl, rfl, by simp [run, ListCut.text]⟩

theorem free (h : cs.all (isFree inside)) : Passes d inside cs := by
  induction cs with
  | nil => exact nil
  | cons c cs ih =>
    obtain ⟨hc, hcs⟩ : isFree inside c = true ∧ cs.all (isFree inside) = true := by simpa using h
    exact append (char hc) (ih hcs)

theorem words (w : String) (h : w.toList.all (isFree inside)) : Passes d inside w.toList :=
  free h

theorem isFree_of_isPhraseChar (h : isPhraseChar inside c) : isFree inside c = true := by
  simp only [isPhraseChar, Dialect.isInert, Bool.and_eq_true, Bool.not_eq_true'] at h
  simp only [isFree, isLoose, Bool.and_eq_true, Bool.not_eq_true']
  refine ⟨⟨⟨?_, h.1.1.2⟩, h.1.2⟩, h.2⟩
  have hmarks := h.1.1.1
  simp only [List.contains_eq_mem, List.mem_cons, List.not_mem_nil, or_false,
    decide_eq_false_iff_not, not_or] at hmarks ⊢
  exact ⟨hmarks.1, hmarks.2.1, hmarks.2.2.1, hmarks.2.2.2.1⟩

/-- **Parentheses behind a name pass** with whatever passes between them. -/
theorem enclosed {f : List Char} (hf : f.all isSolidChar) (h : Passes d true cs) :
    Passes d inside (f ++ '(' :: (cs ++ [')'])) := by
  intro s hs _
  have hsolid : Solid d (String.ofList f) := .loose (by rwa [String.toList_ofList])
  have hquiet := hsolid.quiet hs.outside
  have hout := hsolid.outside hs.outside
  rw [String.toList_ofList] at hquiet hout
  -- the reading behind the opening parenthesis
  obtain ⟨s₁, hrun, hs₁, hdepth, hitems, htext⟩ : ∃ s₁ : ListCut, run d s (f ++ ['(']) = s₁ ∧
      s₁.Open ∧ s₁.depth = s.depth + 1 ∧ s₁.items = s.items ∧ s₁.text = s.text ++ f ++ ['('] := by
    have hopen := scanStep_of_isLoose (d := d) (c := '(') (by decide) hout
    rw [run_append, run_quiet hs.ended hquiet]
    exact ⟨_, step_opening hs.ended hopen, ⟨hopen, hs.ended, fun hzero => absurd hzero (Nat.succ_ne_zero _)⟩, rfl, rfl,
      by simp [ListCut.text]⟩
  have hadds : s₁.Adds (run d s₁ cs) cs := h s₁ hs₁ fun _ => by omega
  have hclose := scanStep_of_isLoose (d := d) (c := ')') (by decide) hadds.outside
  have hend : run d s (f ++ '(' :: (cs ++ [')'])) = step d (run d s₁ cs) ')' := by
    rw [show f ++ '(' :: (cs ++ [')']) = f ++ ['('] ++ cs ++ [')'] by simp, run_append, run_append,
      hrun]
    rfl
  rw [hend, step_closing hadds.ended hclose]
  refine ⟨⟨hclose, hadds.ended, fun _ => by simp⟩, ?_, hadds.items.trans hitems, ?_⟩
  · rw [hadds.depth, hdepth, Nat.add_sub_cancel]
  · have htext' := hadds.text
    rw [htext] at htext'
    simp only [ListCut.text] at htext' ⊢
    rw [← List.append_assoc, htext']
    simp

theorem getLast?_quote {name : String} : (d.quote name).toList.getLast? = some d.nameClose := by
  rw [Dialect.quote_eq, String.toList_ofList, ← List.cons_append, List.getLast?_concat]

theorem enclosedText {t : String} (h : d.Enclosed t) : Passes d inside t.toList := by
  refine solid (.enclosed h) ?_ ?_
  all_goals
    obtain ⟨-, hinner, -, hclose⟩ := h
    rw [String.toList_ofList, ← List.cons_append]
  · simp
  · rw [List.getLast?_concat]
    rintro ⟨⟩
    have hmark := (Dialect.scanStep_inside hinner 'M' 'M').2.2
      (Dialect.isOutside_of_mem_settled hclose)
    revert hmark
    cases d <;> decide

theorem quote {name : String} : Passes d inside (d.quote name).toList :=
  enclosedText Dialect.enclosed_quote

theorem isFree_of_isNumeralChar (h : Dialect.isNumeralChar c) :
    isFree inside c = true := by
  have hne := isNumeralChar_ne h
  simp [isFree, isLoose, hne]

theorem numeral {negative : Bool} {t : String} (h : Dialect.IsNumeral negative t) :
    Passes d inside t.toList := by
  obtain ⟨body, -, hchars, rfl⟩ := h
  have hbody : Passes d inside body := free (List.all_eq_true.2 fun c hc =>
    isFree_of_isNumeralChar (List.all_eq_true.1 hchars c hc))
  rw [String.toList_ofList]
  split
  · exact append (char (c := '-') (by cases inside <;> decide)) hbody
  · exact hbody

theorem column {ref : ColumnRef} : Passes d inside (ref.text d).toList := by
  have hrow : Passes d inside (toString ref.row).toList := numeral (Dialect.isNumeral_nat _)
  have hletter : Passes d inside "t".toList := free (by cases inside <;> decide)
  have hdot : Passes d inside ".".toList := free (by cases inside <;> decide)
  have hcolumn : Passes d inside (d.quote ref.name).toList := quote
  simpa [ColumnRef.text, rowName] using ((hletter.append hrow).append hdot).append hcolumn

theorem stringLiteral {unicode : Bool} {t : String} :
    Passes d inside (d.stringLiteral unicode t).toList := by
  rw [Dialect.stringLiteral_eq, String.toList_append]
  refine append ?_ (enclosedText (Dialect.enclosed_literal (Dialect.inside_string t.toList)))
  split
  · exact free (by cases inside <;> decide)
  · exact nil

theorem parenthesized (h : Passes d true cs) : Passes d inside ('(' :: (cs ++ [')'])) :=
  enclosed (f := []) rfl h

theorem now {utc : Bool} : Passes d inside (d.now utc).toList := by
  cases d <;> cases utc
  · exact enclosed (f := "GETDATE".toList) (by decide) nil
  · exact enclosed (f := "GETUTCDATE".toList) (by decide) nil
  · exact enclosed (f := "NOW".toList) (by decide) nil
  · exact enclosed (f := "UTC_TIMESTAMP".toList) (by decide) nil

theorem isSolidChar_of_isWord {w : String} (h : isWord w) :
    w.toList.all isSolidChar = true := by
  refine List.all_eq_true.2 fun c hc => ?_
  simp only [isWord, Bool.and_eq_true, List.all_eq_true, bne_iff_ne] at h
  obtain ⟨⟨hphrase, hcomma⟩, hblank⟩ := h.1 c hc
  have hfree := isFree_of_isPhraseChar hphrase
  simp only [isFree, Bool.and_eq_true, bne_iff_ne] at hfree
  simp [isSolidChar, cuts, hfree.1.1.1, hfree.1.1.2, hfree.1.2, hcomma, hblank]

theorem castEnding {ending : String}
    (h : ending ∈ [" AS NVARCHAR(MAX))", " AS CHAR)", " AS DATE)"]) :
    ∃ type : List Char, ending = String.ofList (type ++ [')']) ∧ Passes d true type := by
  simp only [List.mem_cons, List.not_mem_nil, or_false] at h
  rcases h with rfl | rfl | rfl
  · have hlength : Passes d true "NVARCHAR(MAX)".toList :=
      enclosed (f := "NVARCHAR".toList) (by decide) (words "MAX" (by decide))
    exact ⟨_, rfl, append (words " AS " (by decide)) hlength⟩
  · exact ⟨" AS CHAR".toList, rfl, free (by decide)⟩
  · exact ⟨" AS DATE".toList, rfl, free (by decide)⟩

theorem placeholder {n : Nat} : Passes d false (d.placeholder n).toList := by
  have hdigits : Passes d false (toString n).toList := numeral (Dialect.isNumeral_nat n)
  cases d <;> rw [Dialect.placeholder, String.toList_append] <;>
    exact append (free (by decide)) hdigits

theorem intercalate {separator : String} {ts : List String}
    (hseparator : Passes d inside separator.toList) (h : ∀ t ∈ ts, Passes d inside t.toList) :
    Passes d inside (separator.intercalate ts).toList := by
  induction ts with
  | nil => exact nil
  | cons t ts ih =>
    have ht : Passes d inside t.toList := h t (by simp)
    have hrest := ih fun u hu => h u (by simp [hu])
    cases ts with
    | nil => rwa [String.intercalate_singleton]
    | cons u us =>
      rw [String.intercalate_cons_cons, String.toList_append, String.toList_append]
      exact (ht.append hseparator).append hrest

end Passes

namespace Script

variable {write : Constant → String}

theorem toList_text_parenthesized {s : Script} :
    ((parenthesized s).text write).toList = '(' :: ((s.text write).toList ++ [')']) := by
  simp [parenthesized, text_append, -List.append_assoc]

theorem text_joined {separator : String} : ∀ {ss : List Script},
    (joined separator ss).text write = separator.intercalate (ss.map (text write))
  | [] => rfl
  | [s] => by simp [joined]
  | s :: t :: rest => by
    rw [joined, text_append, text_append, text_say, text_joined, List.map_cons, List.map_cons,
      List.map_cons, String.intercalate_cons_cons]

end Script

/-- **A phrase is read over**, if the constants in it are. -/
theorem Phrase.passes {write : Constant → String} {inside : Bool} {s : Script}
    (hwrite : ∀ c, Passes d false (write c).toList) (h : Phrase d inside s) :
    Passes d inside (s.text write).toList := by
  induction h with
  | nil => exact .nil
  | words hchars =>
    rw [Script.text_say]
    exact .free (List.all_eq_true.2 fun c hc =>
      Passes.isFree_of_isPhraseChar (List.all_eq_true.1 hchars c hc))
  | @sign inside op =>
    rw [Script.text_say]
    exact .free (by cases inside <;> cases op <;> decide)
  | column =>
    rw [Script.text_say]
    exact .column
  | number =>
    rw [Script.text_say]
    exact .numeral (Dialect.isNumeral_int _)
  | literal =>
    rw [Script.text_say]
    exact .stringLiteral
  | constant =>
    rw [Script.text_constant]
    exact (hwrite _).inner
  | @now _ utc =>
    rw [Script.text_say]
    exact .now
  | append _ _ ih ih' =>
    rw [Script.text_append, String.toList_append]
    exact ih.append ih'
  | minus _ _ ih =>
    rw [Script.text_append, String.toList_append, Script.text_say]
    exact (Passes.char (by rename_i inside _ _ _; cases inside <;> decide)).append ih
  | parenthesized _ ih =>
    rw [Script.toList_text_parenthesized]
    exact ih.parenthesized
  | call hfunction _ ih =>
    rw [Script.call, Script.text_append, String.toList_append, Script.text_say,
      Script.toList_text_parenthesized]
    exact ih.enclosed (Passes.isSolidChar_of_isWord hfunction)
  | @cast _ e ending _ hending ih =>
    obtain ⟨type, rfl, htype⟩ : ∃ type : List Char, ending = String.ofList (type ++ [')']) ∧
        Passes d true type := Passes.castEnding hending
    have htext : ((Script.say "CAST(" ++ e ++ Script.say (String.ofList (type ++ [')']))).text
        write).toList = "CAST".toList ++ '(' :: ((e.text write).toList ++ type ++ [')']) := by
      rw [Script.text_append, Script.text_append, Script.text_say, Script.text_say]
      simp
    rw [htext]
    exact (ih.append htype).enclosed (by decide)

end Sql

/-! ## Constants -/

namespace Value

open Number Dialect

variable {d : Dialect} {unicode : Bool}

mutual

/-- **A constant is read over**, whatever it holds. -/
theorem passes_literal : ∀ v : Value, Passes d false (v.literal d unicode).toList
  | null => by
    rw [literal]
    exact .free (by decide)
  | bool b => by
    rw [literal]
    exact .free (by cases b <;> decide)
  | int n => by
    rw [literal]
    exact .numeral (isNumeral_int _)
  | float x => by
    rw [literal]
    exact .numeral (isNumeral_floatText x)
  | decimal x => by
    rw [literal]
    exact .numeral (Scientific.isNumeral_positional _)
  | string s => by
    rw [literal]
    exact .stringLiteral
  | dateTime t => by
    rw [literal]
    exact .enclosedText (enclosed_mute t.isMute_millisecondText)
  | guid g => by
    rw [literal]
    exact .enclosedText (enclosed_mute g.isMute_text)
  | list items => by
    rw [literal]
    have hitems : Passes d true (", ".intercalate (literals d unicode items)).toList :=
      .intercalate (.free (by decide)) fun t ht => (passes_literals items t ht).inner
    simpa using hitems.parenthesized

theorem passes_literals : ∀ vs : List Value, ∀ t ∈ literals d unicode vs, Passes d false t.toList
  | [], t, ht => by simp [literals] at ht
  | v :: vs, t, ht => by
    rw [literals] at ht
    rcases List.mem_cons.1 ht with rfl | ht
    · exact passes_literal v
    · exact passes_literals vs t ht

end

end Value

theorem Config.passes_writeConstant (config : Config) (c : Constant) :
    Passes config.dialect false (config.writeConstant c).toList := by
  unfold writeConstant
  split
  · exact .placeholder
  · exact c.value.passes_literal

namespace Sql

/-! ## Lists of items -/

open ListCut

variable {d : Dialect} {m : ScanState} {c : Char} {cs : List Char} {s : ListCut}

/-- Behind a mark of a list, outside literals and names, a scan starts anew. -/
theorem scanStep_eq_plain (hc : c ∈ [' ', ',', '.']) (h : (d.scanStep m c).isOutside) :
    d.scanStep m c = plain := by
  simp only [List.mem_cons, List.not_mem_nil, or_false] at hc
  rcases hc with rfl | rfl | rfl <;> cases d <;> cases m <;> first | rfl | cases h

theorem scan_eq_plain (hlast : cs.getLast?.any [' ', '.'].contains)
    (h : (d.scan m cs).isOutside) : d.scan m cs = plain := by
  rcases List.eq_nil_or_concat cs with rfl | ⟨ds, c, rfl⟩
  · cases hlast
  · rw [List.concat_eq_append] at hlast h ⊢
    rw [List.getLast?_concat] at hlast
    rw [Dialect.scan_append] at h ⊢
    refine scanStep_eq_plain ?_ h
    have hc : c = ' ' ∨ c = '.' := by simpa using hlast
    rcases hc with rfl | rfl <;> simp

namespace ListCut

/-- The reading stands where a scan of the present item stands. -/
def Synced (d : Dialect) (s : ListCut) : Prop :=
  s.ended = false → s.mode = d.scan plain s.text

theorem Synced.step (h : s.Synced d) : (step d s c).Synced d := by
  unfold ListCut.step
  cases hended : s.ended with
  | true => simpa [hended] using h
  | false =>
    have hscan : d.scanStep s.mode c = d.scan plain (s.text ++ [c]) := by
      rw [h hended, Dialect.scan_append]
      rfl
    simp only [Bool.false_eq_true, if_false]
    split
    next hcomma =>
      simp only [Bool.and_eq_true, beq_iff_eq] at hcomma
      exact fun _ => scanStep_eq_plain (by simp [hcomma.2]) hcomma.1.1
    next =>
      split
      next hblank =>
        simp only [Bool.and_eq_true, beq_iff_eq] at hblank
        split
        · intro hend
          cases hend
        · intro _
          simpa [ListCut.text, hblank.2] using hscan
      next =>
        intro _
        simpa [ListCut.text] using hscan

theorem Synced.run (h : s.Synced d) : (run d s cs).Synced d := by
  induction cs generalizing s with
  | nil => exact h
  | cons c cs ih => exact ih h.step

theorem run_separator (h : s.Open) (hdepth : s.depth = 0) :
    run d s [',', ' '] = { before := [], word := [' '], items := s.items ++ [s.text] } := by
  have hout : (d.scanStep s.mode ',').isOutside = true := scanStep_of_isLoose (by decide) h.outside
  have hplain : d.scanStep s.mode ',' = plain := scanStep_eq_plain (by simp) hout
  have hcomma : step d s ',' = { items := s.items ++ [s.text] } := by
    simp [step, h.ended, hplain, hdepth, isOutside]
  rw [run_cons, hcomma]
  cases d <;> rfl

theorem run_from (h : s.Open) (hdepth : s.depth = 0) :
    (run d s " FROM ".toList).ended = true ∧
      (run d s " FROM ".toList).items = s.items ++ closed s.text := by
  have hout : (d.scanStep s.mode ' ').isOutside = true := scanStep_of_isLoose (by decide) h.outside
  have hplain : d.scanStep s.mode ' ' = plain := scanStep_eq_plain (by simp) hout
  have hword : s.word ≠ [' ', 'F', 'R', 'O', 'M'] := fun heq => h.word hdepth (by rw [heq]; rfl)
  have hblank : step d s ' ' = { before := s.text, word := [' '], items := s.items } := by
    simp [step, h.ended, hplain, hdepth, hword, isOutside]
  have hquiet : Sql.quiet d plain "FROM".toList = true := by cases d <;> rfl
  have hplain : d.scan plain "FROM".toList = plain := by cases d <;> rfl
  have hfrom := @run_quiet d "FROM".toList
    { before := s.text, word := [' '], items := s.items } rfl hquiet
  have hrun : run d s " FROM ".toList = step d
      { before := s.text, word := [' ', 'F', 'R', 'O', 'M'], items := s.items } ' ' := by
    rw [show " FROM ".toList = ' ' :: ("FROM".toList ++ [' ']) from rfl, run_cons, hblank, run_append,
      hfrom, hplain]
    rfl
  have hblank : (d.scanStep plain ' ').isOutside = true := scanStep_of_isLoose (by decide) rfl
  rw [hrun]
  simp [step, hblank]

end ListCut

/-! ## Names of items -/

theorem nameStep_fst {p : ScanState × List Char} : (d.nameStep p c).1 = d.scanStep p.1 c := by
  unfold Dialect.nameStep
  simp only
  split
  · rfl
  · split <;> rfl

theorem foldl_nameStep_fst {p : ScanState × List Char} :
    (cs.foldl d.nameStep p).1 = d.scan p.1 cs := by
  induction cs generalizing p with
  | nil => rfl
  | cons c cs ih => rw [List.foldl_cons, ih, nameStep_fst, Dialect.scan_cons]

theorem foldl_nameStep_name {name taken : List Char} :
    (name.flatMap fun c => if c == d.nameClose then [c, c] else [c]).foldl d.nameStep
      (identifier, taken) = (identifier, taken ++ name) := by
  induction name generalizing taken with
  | nil => simp
  | cons c cs ih =>
    rw [List.flatMap_cons, List.foldl_append]
    have hchar : (if c == d.nameClose then [c, c] else [c]).foldl d.nameStep (identifier, taken) =
        (identifier, taken ++ [c]) := by
      by_cases hc : c = d.nameClose
      · subst hc
        simp [Dialect.nameStep, Dialect.scanStep]
      · simp [Dialect.nameStep, Dialect.scanStep, hc]
    rw [hchar, ih, List.append_assoc]
    rfl

theorem outputName_quote {name : String} (h : d.scan plain cs = plain) :
    d.outputName (cs ++ (d.quote name).toList) = some name := by
  obtain ⟨taken, hcs⟩ : ∃ taken, cs.foldl d.nameStep (plain, []) = (plain, taken) :=
    ⟨_, Prod.ext (foldl_nameStep_fst.trans h) rfl⟩
  have hopen : d.nameStep (plain, taken) d.nameOpen = (identifier, []) := by cases d <;> rfl
  have hclose : d.nameStep (identifier, name.toList) d.nameClose = (identifierEnd, name.toList) := by
    simp [Dialect.nameStep, Dialect.scanStep]
  rw [Dialect.outputName, Dialect.quote_eq, String.toList_ofList, List.foldl_append, hcs,
    List.foldl_cons, hopen, List.foldl_append, foldl_nameStep_name, List.nil_append]
  simp [hclose]

/-- **An item of a list with its name**: a text, which is read over, and behind a blank or a dot the
quoted name. -/
def IsItem (d : Dialect) (item name : String) : Prop :=
  ∃ cs : List Char, Passes d false cs ∧ cs.getLast?.any [' ', '.'].contains = true ∧
    item.toList = cs ++ (d.quote name).toList

namespace ListCut

theorem run_item {item name : String} (h : IsItem d item name) (hs : s.Open) (hsync : s.Synced d) :
    s.Adds (run d s item.toList) item.toList ∧
      d.outputName (run d s item.toList).text = some name ∧
      closed (run d s item.toList).text = [(run d s item.toList).text] := by
  obtain ⟨cs, hpasses, hlast, hitem⟩ := h
  have hadds := hpasses s hs (by simp)
  have hadds' : s.Adds (run d s item.toList) item.toList := by
    rw [hitem]
    exact hpasses.append .quote s hs (by simp)
  have htext : (run d s item.toList).text = s.text ++ cs ++ (d.quote name).toList := by
    rw [hadds'.text, hitem, List.append_assoc]
  -- the scan of the item starts anew before the name
  have hplain : d.scan plain (s.text ++ cs) = plain := by
    have hmode : (run d s cs).mode = d.scan plain (run d s cs).text := hsync.run hadds.ended
    rw [hadds.text] at hmode
    refine scan_eq_plain ?_ (hmode ▸ hadds.outside)
    rwa [List.getLast?_append_of_ne_nil _ (by rintro rfl; cases hlast)]
  have hend : (run d s item.toList).text.getLast? = some d.nameClose := by
    rw [htext, List.getLast?_append_of_ne_nil _ (by simp [Dialect.quote_eq]), Passes.getLast?_quote]
  refine ⟨hadds', ?_, ?_⟩
  · rw [htext, outputName_quote hplain]
  · rw [closed, hend]
    cases d <;> rfl

/-- The list has ended, and its last items have the given names. -/
structure Ends (d : Dialect) (s s' : ListCut) (names : List String) : Prop where
  ended : s'.ended = true
  names : s'.items.map d.outputName = s.items.map d.outputName ++ names.map some

/-- **A list of items is cut into these.** -/
theorem run_items {items names : List String} (h : List.Forall₂ (IsItem d) items names)
    (hs : s.Open) (hdepth : s.depth = 0) (hsync : s.Synced d) (hclosed : closed s.text = []) :
    s.Ends d (run d s ((", ".intercalate items).toList ++ " FROM ".toList)) names := by
  induction h generalizing s with
  | nil =>
    obtain ⟨hended, hitems⟩ := run_from (d := d) hs hdepth
    rw [String.intercalate_nil, String.toList_empty, List.nil_append]
    exact ⟨hended, by rw [hitems, hclosed]; simp⟩
  | @cons item name items names hitem hrest ih =>
    obtain ⟨hadds, hname, hkept⟩ := run_item hitem hs hsync
    have hdepth' := hadds.depth.trans hdepth
    cases hrest with
    | nil =>
      obtain ⟨hended, hitems⟩ := run_from (d := d) hadds.toOpen hdepth'
      rw [String.intercalate_singleton, run_append]
      exact ⟨hended, by rw [hitems, hkept, hadds.items]; simp [hname]⟩
    | @cons item' name' items names hitem' hrest =>
      have hsep := run_separator (d := d) hadds.toOpen hdepth'
      -- behind the separator nothing but a blank of the next item has been read
      obtain ⟨hended, hnames⟩ := ih (s := run d (run d s item.toList) [',', ' '])
        (by rw [hsep]; exact ⟨rfl, rfl, by simp⟩) (by rw [hsep])
        (by rw [hsep]; exact fun _ => by cases d <;> rfl) (by rw [hsep]; rfl)
      rw [String.intercalate_cons_cons, String.toList_append, String.toList_append,
        List.append_assoc, List.append_assoc, run_append, run_append]
      refine ⟨hended, hnames.trans ?_⟩
      rw [hsep, hadds.items]
      simp [hname]

end ListCut

/-- **The output names of a list are those that its items are given.** -/
theorem outputNames_select {head : String} {items names : List String} (rest : String)
    (hhead : Passes d false head.toList) (hblank : ("SELECT " ++ head).toList.getLast? = some ' ')
    (h : List.Forall₂ (IsItem d) items names) :
    d.outputNames ("SELECT " ++ head ++ ", ".intercalate items ++ " FROM " ++ rest) =
      some (names.map some) := by
  have hinit : ({} : ListCut).Open := ⟨rfl, rfl, by simp⟩
  have hselect : Passes d false ("SELECT " ++ head).toList := by
    rw [String.toList_append]
    exact Passes.append (.free (by decide)) hhead
  have hadds := hselect {} hinit (by simp)
  have hsync : Synced d (run d {} ("SELECT " ++ head).toList) := Synced.run fun _ => rfl
  have hclosed : closed (run d {} ("SELECT " ++ head).toList).text = [] := by
    rw [hadds.text, ListCut.text, closed, List.nil_append, List.nil_append, hblank]
    rfl
  obtain ⟨hended, hnames⟩ := run_items h hadds.toOpen hadds.depth hsync hclosed
  have hrun : run d {} ("SELECT " ++ head ++ ", ".intercalate items ++ " FROM " ++ rest).toList =
      run d (run d {} ("SELECT " ++ head).toList)
        ((", ".intercalate items).toList ++ " FROM ".toList) := by
    rw [String.toList_append, String.toList_append, String.toList_append, List.append_assoc,
      List.append_assoc, run_append, ← List.append_assoc, run_append, run_of_ended hended]
  have hstart : "SELECT ".toList.isPrefixOf
      ("SELECT " ++ head ++ ", ".intercalate items ++ " FROM " ++ rest).toList = true := by
    rw [List.isPrefixOf_iff_prefix]
    simp [String.toList_append, List.append_assoc]
  unfold Dialect.outputNames
  rw [hrun]
  simp only [hstart, hended, hnames, hadds.items]
  rfl

/-- Commas and words in calls, literals and names are no part of the list. -/
example : Dialect.sqlServer.outputNames
      "SELECT TOP(3) CONCAT(t0.[a]], b], ' FROM ') AS [c, ]] FROM ], t0.[d] AS [d] FROM [e] t0" =
    some [some "c, ] FROM ", some "d"] := by
  decide +kernel

end Sql

end QueryCompiler

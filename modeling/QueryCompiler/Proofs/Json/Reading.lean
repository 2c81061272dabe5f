import Mathlib.Data.List.Forall2
import QueryCompiler.Json.Printer
import QueryCompiler.Json.Reader
/-!
# Printed JSON reads back

A text is read as a value (`Json.Reader.Reads`) if the reader takes just this text from the start of
any other in which it ends there, and finds the value. The bound on its steps is no hindrance: twice
the length of the text is enough. Each kind of value has one rule, so that a layout is read back if
it puts values together by these rules (`Json.ofWellFormed?_pretty`, `Json.ofWellFormed?_compact`).

Of the numbers only whole ones are covered, as far as the reader takes them for whole
(`Json.IsWhole`).
-/

namespace QueryCompiler.Json

open Number (floatBound)

variable {cs : List Char} {c : Char} {levels : Nat} {j : Json}

attribute [simp] depth depthList depthFields

namespace Reader

variable {n steps : Nat} {rest : List Char} {texts : List (List Char)} {js : List Json}
  {fs : List (String × Json)}

/-! ## Spacing -/

/-- Characters that the reader passes over. -/
def Spaced (w : List Char) : Prop := ∀ c ∈ w, Text.isSpacing c = true

theorem Spaced.nil : Spaced [] := by simp [Spaced]

theorem skipSpacing_append {w : List Char} (h : Spaced w) :
    skipSpacing (w ++ cs) = skipSpacing cs :=
  List.dropWhile_append_of_pos h

theorem skipSpacing_cons (h : Text.isSpacing c = false) : skipSpacing (c :: cs) = c :: cs := by
  simp [skipSpacing, h]

/-! ## Strings -/

theorem hexValue?_hexDigit (h : n < 16) : Guid.hexValue? (Guid.hexDigit n) = some n := by
  revert n
  decide

attribute [local simp] stringChars

theorem stringChars_plain {acc : List Char} (hquote : c ≠ '"') (hslash : c ≠ '\\')
    (hspace : 0x20 ≤ c.toNat) : stringChars acc (c :: rest) = stringChars (c :: acc) rest := by
  rw [stringChars.eq_def]
  simp [hquote, hslash, Nat.not_lt.2 hspace]

theorem stringChars_simple {x : Char} {acc : List Char} (hc : c ≠ 'u')
    (h : simpleEscape? c = some x) :
    stringChars acc ('\\' :: c :: rest) = stringChars (x :: acc) rest := by
  simp [hc, h]

theorem stringChars_code {a b d : Char} (h : hex4? a b c d = some n) (hn : n < 0xd800)
    (acc rest : List Char) :
    stringChars acc ('\\' :: 'u' :: a :: b :: c :: d :: rest) =
      stringChars (Char.ofNat n :: acc) rest := by
  simp [h, show ¬0xd800 ≤ n by omega, show ¬0xdc00 ≤ n by omega]

theorem stringChars_escapeChar (c : Char) (acc rest : List Char) :
    stringChars acc (escapeChar c ++ rest) = stringChars (c :: acc) rest := by
  by_cases hspecial : c ∈ ['"', '\\', '\n', '\r', '\t', '\x08', '\x0c']
  · simp only [List.mem_cons, List.not_mem_nil, or_false] at hspecial
    rcases hspecial with rfl | rfl | rfl | rfl | rfl | rfl | rfl
    all_goals exact stringChars_simple (by decide) (by decide)
  · simp only [List.mem_cons, List.not_mem_nil, or_false, not_or] at hspecial
    obtain ⟨hquote, hslash, hfeed, hreturn, htab, hback, hform⟩ := hspecial
    simp only [escapeChar, beq_iff_eq, hquote, hslash, hfeed, hreturn, htab, hback, hform, if_false]
    split
    next hcontrol =>
      have hhigh := hexValue?_hexDigit (n := c.toNat / 16) (by omega)
      have hlow := hexValue?_hexDigit (n := c.toNat % 16) (by omega)
      have hzero : Guid.hexValue? '0' = some 0 := by decide
      have hcode : hex4? '0' '0' (Guid.hexDigit (c.toNat / 16)) (Guid.hexDigit (c.toNat % 16)) =
          some c.toNat := by
        simp only [hex4?, hzero, hhigh, hlow, Option.bind_eq_bind, Option.bind_some]
        congr 1
        omega
      have hread := stringChars_code hcode (by omega) acc rest
      rwa [Char.ofNat_toNat] at hread
    next hcontrol => exact stringChars_plain hquote hslash (by omega)

theorem stringChars_escaped (cs acc rest : List Char) :
    stringChars acc (cs.flatMap escapeChar ++ '"' :: rest) = some (acc.reverse ++ cs, rest) := by
  induction cs generalizing acc with
  | nil =>
    rw [List.flatMap_nil, List.nil_append, stringChars.eq_def]
    simp
  | cons c cs ih =>
    rw [List.flatMap_cons, List.append_assoc, stringChars_escapeChar, ih, List.reverse_cons,
      List.append_assoc, List.singleton_append]

theorem string_escaped (s : String) (rest : List Char) :
    string (s.toList.flatMap escapeChar ++ '"' :: rest) = some (some s, rest) := by
  simp [string, stringChars_escaped]

/-! ## Numbers -/

/-- What may stand behind a value: the end of the text, spacing, a comma or a closing bracket. -/
def Ends : List Char → Prop
  | [] => True
  | c :: _ => Text.isSpacing c = true ∨ c ∈ [',', ']', '\x7d']

theorem Ends.not_isDigit (h : Ends (c :: rest)) :
    c.isDigit = false ∧ c ≠ '.' ∧ c ≠ 'e' ∧ c ≠ 'E' := by
  simp only [Ends, Text.isSpacing, Bool.or_eq_true, beq_iff_eq, List.mem_cons, List.not_mem_nil,
    or_false, or_assoc] at h
  rcases h with rfl | rfl | rfl | rfl | rfl | rfl | rfl <;> decide

theorem digitsValue_toDigits (n : Nat) : digitsValue (Nat.toDigits 10 n) = n := by
  have hfold : digitsValue (Nat.toDigits 10 n) = Nat.ofDigitChars 10 (Nat.toDigits 10 n) 0 := by
    simp only [digitsValue, Nat.ofDigitChars, Nat.mul_comm]
  rw [hfold, Nat.ofDigitChars_ten_toDigits]

theorem digits_append {ds : List Char} (hne : ds ≠ []) (hds : ∀ c ∈ ds, c.isDigit = true)
    (hrest : rest.head?.all (!·.isDigit)) : digits (ds ++ rest) = some (ds, rest) := by
  have htake : (ds ++ rest).takeWhile Char.isDigit = ds := by
    rw [List.takeWhile_append_of_pos hds]
    cases rest with
    | nil => simp
    | cons c rest => simp_all
  have hdrop : (ds ++ rest).dropWhile Char.isDigit = rest := by
    rw [List.dropWhile_append_of_pos hds]
    cases rest with
    | nil => simp
    | cons c rest => simp_all
  unfold digits
  rw [htake, hdrop]
  split
  · exact absurd rfl hne
  · rfl

/-- Only zero is written with a zero in front. -/
theorem head?_toDigits_ne (h : 0 < n) : (Nat.toDigits 10 n).head? ≠ some '0' := by
  induction n using Nat.strongRecOn with
  | ind n ih =>
    by_cases hlt : n < 10
    · have hdigit : ∀ d < 10, 0 < d → Nat.digitChar d ≠ '0' := by decide
      rw [Nat.toDigits_of_lt_base hlt]
      simpa using hdigit n hlt h
    · rw [Nat.toDigits_of_base_le (by decide) (by omega),
        List.head?_append_of_ne_nil _ Nat.toDigits_ne_nil]
      exact ih (n / 10) (by omega) (by omega)

theorem wholeDigits_toDigits (hrest : rest.head?.all (!·.isDigit)) :
    wholeDigits (Nat.toDigits 10 n ++ rest) = some (Nat.toDigits 10 n, rest) := by
  have hdigits : digits (Nat.toDigits 10 n ++ rest) = some (Nat.toDigits 10 n, rest) :=
    digits_append Nat.toDigits_ne_nil
      (fun c hc => Nat.isDigit_of_mem_toDigits (by decide) (by decide) hc) hrest
  rcases Nat.eq_zero_or_pos n with rfl | hpos
  · cases rest with
    | nil => simp [wholeDigits]
    | cons c rest => simp_all [wholeDigits]
  · unfold wholeDigits
    split
    next rest' heq =>
      have hhead := head?_toDigits_ne hpos
      have happend : (Nat.toDigits 10 n ++ rest).head? = (Nat.toDigits 10 n).head? :=
        List.head?_append_of_ne_nil _ Nat.toDigits_ne_nil
      rw [← happend, heq] at hhead
      simp at hhead
    next => exact hdigits

theorem Ends.head? (h : Ends rest) : rest.head?.all (!·.isDigit) := by
  cases rest with
  | nil => rfl
  | cons c rest => simp [h.not_isDigit]

theorem unsignedNumber_toDigits (negative : Bool) (hzero : negative = true → 0 < n)
    (hn : n < floatBound) (hrest : Ends rest) :
    unsignedNumber negative (Nat.toDigits 10 n ++ rest) =
      some (.integer (if negative then -(n : Int) else n), rest) := by
  have hfraction : fractionDigits rest = some ([], rest) := by
    unfold fractionDigits
    split
    next => exact absurd rfl hrest.not_isDigit.2.1
    next => rfl
  have hpower : exponent rest = some (none, rest) := by
    unfold exponent
    split
    next => exact absurd rfl hrest.not_isDigit.2.2.1
    next => exact absurd rfl hrest.not_isDigit.2.2.2
    next => rfl
  have hsigned : (negative && n == 0) = false := by
    cases negative with
    | false => rfl
    | true => simpa using Nat.ne_of_gt (hzero rfl)
  simp only [unsignedNumber, wholeDigits_toDigits hrest.head?, hfraction, hpower,
    Option.bind_eq_bind, Option.bind_some, List.append_nil, digitsValue_toDigits, hsigned]
  simp [hn]

theorem toString_ofNat (n : Nat) : (toString (Int.ofNat n)).toList = Nat.toDigits 10 n := by
  rw [show toString (Int.ofNat n) = toString n from rfl, Nat.toString_eq_ofList_toDigits,
    String.toList_ofList]

theorem toString_negSucc (n : Nat) :
    (toString (Int.negSucc n)).toList = '-' :: Nat.toDigits 10 (n + 1) := by
  have hdigits : Nat.toDigits 10 (n + 1) = (toString (n + 1)).toList := by
    rw [Nat.toString_eq_ofList_toDigits, String.toList_ofList]
  rw [hdigits]
  simp [toString, Int.repr]

theorem toDigits_eq_cons (n : Nat) : ∃ c cs, Nat.toDigits 10 n = c :: cs ∧ c.isDigit = true := by
  cases h : Nat.toDigits 10 n with
  | nil => exact absurd h Nat.toDigits_ne_nil
  | cons c cs =>
    have hc : c ∈ Nat.toDigits 10 n := by simp [h]
    exact ⟨c, cs, rfl, Nat.isDigit_of_mem_toDigits (by decide) (by decide) hc⟩

/-- **A whole number in the range of floats is read back.** -/
theorem number_toString {n : Int} (hn : n.natAbs < floatBound) (hrest : Ends rest) :
    number ((toString n).toList ++ rest) = some (.integer n, rest) := by
  cases n with
  | ofNat n =>
    have hread := unsignedNumber_toDigits (n := n) false (by simp) hn hrest
    obtain ⟨c, cs, htext, hc⟩ := toDigits_eq_cons n
    rw [toString_ofNat]
    rw [htext] at hread ⊢
    unfold number
    split
    next heq =>
      obtain rfl : c = '-' := (List.cons.inj heq).1
      exact absurd hc (by decide)
    next => exact hread
  | negSucc n =>
    have hread := unsignedNumber_toDigits (n := n + 1) true (by simp) hn hrest
    rw [toString_negSucc]
    exact hread

/-- A whole number starts with a digit or its sign. -/
theorem toString_eq_cons (n : Int) :
    ∃ c cs, (toString n).toList = c :: cs ∧ (c.isDigit = true ∨ c = '-') := by
  cases n with
  | ofNat n =>
    obtain ⟨c, cs, htext, hc⟩ := toDigits_eq_cons n
    exact ⟨c, cs, by rw [toString_ofNat, htext], .inl hc⟩
  | negSucc n => exact ⟨_, _, toString_negSucc n, .inr rfl⟩

/-! ## Values -/

theorem value_spaced {w : List Char} (hw : Spaced w) :
    value steps levels (w ++ cs) = value steps levels cs := by
  cases steps with
  | zero => rfl
  | succ steps => rw [value, value, skipSpacing_append hw]

/-- **A text that is read as a value**, by a reader that goes on for long enough. -/
structure Reads (j : Json) (cs : List Char) : Prop where
  depth : j.depth ≤ cs.length
  starts : ∃ c cs', cs = c :: cs' ∧ Text.isSpacing c = false ∧ c ≠ ']'
  value {steps levels : Nat} {rest : List Char} : 2 * cs.length ≤ steps → j.depth ≤ levels →
    Ends rest → value steps levels (cs ++ rest) = some (j, rest)

/-- A text that is read as a field: the name in quotes, a colon and the value. -/
inductive ReadsField : String × Json → List Char → Prop
  | mk {k : String} {j : Json} {w cs : List Char} :
      (Spaced w) → Reads j cs →
      ReadsField (k, j) ((quote k).toList ++ ':' :: (w ++ cs))

theorem Ends.spaced {w : List Char} {c : Char} {rest : List Char}
    (hw : Spaced w) (hc : c ∈ [',', ']', '\x7d']) :
    Ends (w ++ c :: rest) := by
  cases w with
  | nil => exact .inr hc
  | cons c w => exact .inl (hw c (by simp))

theorem Ends.comma : Ends (',' :: rest) :=
  Or.inr (by simp)

theorem skipSpacing_closing {w : List Char} {c : Char} {rest : List Char}
    (hw : Spaced w) (hc : c ∈ [',', ']', '\x7d']) :
    skipSpacing (w ++ c :: rest) = c :: rest := by
  rw [skipSpacing_append hw]
  refine skipSpacing_cons ?_
  simp only [List.mem_cons, List.not_mem_nil, or_false] at hc
  rcases hc with rfl | rfl | rfl <;> decide

theorem length_intercalate_cons {sep cs' : List Char} :
    (List.intercalate sep (cs :: cs' :: texts)).length =
      cs.length + sep.length + (List.intercalate sep (cs' :: texts)).length := by
  simp [List.intercalate]
  omega

theorem intercalate_cons_append {sep cs' : List Char} :
    List.intercalate sep (cs :: cs' :: texts) ++ rest =
      cs ++ (sep ++ (List.intercalate sep (cs' :: texts) ++ rest)) := by
  simp [List.intercalate]

/-- **Values between commas are read as the items of an array.** -/
theorem items_intercalate {w w' : List Char} (hw : Spaced w)
    (hw' : Spaced w') (h : List.Forall₂ Reads js texts) (hne : js ≠ [])
    {v : List Char} (hv : Spaced v)
    (hsteps : 2 * (List.intercalate (',' :: w) texts).length + 1 ≤ steps)
    (hlevels : depthList js ≤ levels) (rest : List Char) :
    items steps levels (v ++ (List.intercalate (',' :: w) texts ++ (w' ++ ']' :: rest))) =
      some (js, rest) := by
  induction h generalizing v steps with
  | nil => exact absurd rfl hne
  | @cons j cs js texts hj hjs ih =>
    obtain ⟨steps, rfl⟩ : ∃ n, steps = n + 1 := ⟨steps - 1, by omega⟩
    simp only [depthList, Nat.max_le] at hlevels
    rw [items, value_spaced hv]
    cases hjs with
    | nil =>
      rw [List.intercalate_singleton] at hsteps ⊢
      rw [hj.value (by omega) hlevels.1 (Ends.spaced hw' (by simp))]
      simp only [skipSpacing_closing hw' (by simp : ']' ∈ [',', ']', '\x7d'])]
    | @cons j' cs' js texts hj' hjs =>
      rw [length_intercalate_cons, List.length_cons] at hsteps
      rw [intercalate_cons_append, List.cons_append, hj.value (by omega) hlevels.1 Ends.comma]
      simp only [skipSpacing_cons (by decide : Text.isSpacing ',' = false)]
      rw [ih (by simp) hw (by omega) hlevels.2]
      rfl

theorem fields_succ {v text tail : List Char} {k : String} (hv : Spaced v)
    (h : ReadsField (k, j) text) (hsteps : 2 * text.length ≤ steps) (hlevels : j.depth ≤ levels)
    (htail : Ends tail) :
    fields (steps + 1) levels (v ++ (text ++ tail)) =
      match skipSpacing tail with
      | ',' :: rest => (fields steps levels rest).map fun (fs, rest) => ((some k, j) :: fs, rest)
      | '\x7d' :: rest => some ([(some k, j)], rest)
      | _ => none := by
  obtain ⟨hw, hj⟩ := h
  simp only [List.length_append, List.length_cons] at hsteps
  rw [fields, skipSpacing_append hv]
  simp only [quote, String.toList_ofList, List.cons_append, List.append_assoc, List.nil_append,
    skipSpacing_cons (by decide : Text.isSpacing '"' = false), string_escaped,
    skipSpacing_cons (by decide : Text.isSpacing ':' = false)]
  rewrite [value_spaced hw, hj.value (by omega) hlevels htail]
  rfl

/-- **Fields between commas are read as the fields of an object.** -/
theorem fields_intercalate {w w' : List Char} (hw : Spaced w)
    (hw' : Spaced w') (h : List.Forall₂ ReadsField fs texts) (hne : fs ≠ [])
    {v : List Char} (hv : Spaced v)
    (hsteps : 2 * (List.intercalate (',' :: w) texts).length + 1 ≤ steps)
    (hlevels : depthFields fs ≤ levels) (rest : List Char) :
    fields steps levels (v ++ (List.intercalate (',' :: w) texts ++ (w' ++ '\x7d' :: rest))) =
      some (fs.map fun (k, j) => (some k, j), rest) := by
  induction h generalizing v steps with
  | nil => exact absurd rfl hne
  | @cons f text fs texts hf hfs ih =>
    obtain ⟨steps, rfl⟩ : ∃ n, steps = n + 1 := ⟨steps - 1, by omega⟩
    simp only [depthFields, Nat.max_le] at hlevels
    cases hfs with
    | nil =>
      rw [List.intercalate_singleton] at hsteps ⊢
      rw [fields_succ hv hf (by omega) hlevels.1 (Ends.spaced hw' (by simp))]
      simp only [skipSpacing_closing hw' (by simp : '\x7d' ∈ [',', ']', '\x7d'])]
      rfl
    | @cons f' text' fs texts hf' hfs =>
      rw [length_intercalate_cons, List.length_cons] at hsteps
      rw [intercalate_cons_append, List.cons_append,
        fields_succ hv hf (by omega) hlevels.1 Ends.comma]
      simp only [skipSpacing_cons (by decide : Text.isSpacing ',' = false)]
      rw [ih (by simp) hw (by omega) hlevels.2]
      rfl

theorem mapM_names (fs : List (String × Json)) :
    (fs.map fun (k, j) => (some k, j)).mapM (m := Option)
      (fun (k, j) => k.map fun k => (k, j)) = some fs := by
  rw [List.mapM_map]
  induction fs with
  | nil => rfl
  | cons f fs ih =>
    rw [List.mapM_cons]
    simp_all

theorem ofFields_some (fs : List (String × Json)) :
    ofFields (fs.map fun (k, j) => (some k, j)) = .object fs := by
  rewrite [ofFields, mapM_names]
  rfl

theorem depthList_le (h : List.Forall₂ Reads js texts) (sep : List Char) :
    depthList js ≤ (List.intercalate sep texts).length := by
  induction h with
  | nil => simp
  | cons hj hjs ih =>
    have hdepth := hj.depth
    cases hjs with
    | nil => simpa using hdepth
    | cons _ _ =>
      rw [length_intercalate_cons]
      rw [depthList, Nat.max_le]
      omega

theorem ReadsField.depth_le {f : String × Json} {text : List Char} (h : ReadsField f text) :
    f.2.depth ≤ text.length := by
  obtain ⟨-, hj⟩ := h
  have hdepth := hj.depth
  simp only [List.length_append, List.length_cons]
  omega

theorem depthFields_le (h : List.Forall₂ ReadsField fs texts) (sep : List Char) :
    depthFields fs ≤ (List.intercalate sep texts).length := by
  induction h with
  | nil => simp
  | cons hf hfs ih =>
    have hdepth := hf.depth_le
    cases hfs with
    | nil => simpa using hdepth
    | cons _ _ =>
      rw [length_intercalate_cons]
      rw [depthFields, Nat.max_le]
      omega

namespace Reads

theorem null : Reads .null "null".toList where
  depth := by simp
  starts := ⟨_, _, rfl, by decide⟩
  value {steps levels rest} hsteps _ _ := by
    obtain ⟨steps, rfl⟩ : ∃ n, steps = n + 1 := ⟨steps - 1, by simp at hsteps; omega⟩
    rfl

theorem bool (b : Bool) : Reads (.bool b) (if b then "true" else "false").toList where
  depth := by simp
  starts := by cases b <;> exact ⟨_, _, rfl, by decide⟩
  value {steps levels rest} hsteps _ _ := by
    obtain ⟨steps, rfl⟩ : ∃ n, steps = n + 1 := ⟨steps - 1, by cases b <;> simp at hsteps <;> omega⟩
    cases b <;> rfl

theorem integer {n : Int} (hn : n.natAbs < floatBound) :
    Reads (.integer n) (toString n).toList := by
  obtain ⟨c, cs, htext, hc⟩ := toString_eq_cons n
  have hspacing : Text.isSpacing c = false := by
    cases h : Text.isSpacing c with
    | false => rfl
    | true =>
      simp only [Text.isSpacing, Bool.or_eq_true, beq_iff_eq, or_assoc] at h
      rcases h with rfl | rfl | rfl | rfl <;> exact absurd hc (by decide)
  refine ⟨by simp, ⟨c, cs, htext, hspacing, ?_⟩, ?_⟩
  · rintro rfl
    exact absurd hc (by decide)
  · intro steps levels rest hsteps _ hrest
    have hnumber := number_toString hn hrest
    rw [htext] at hsteps hnumber ⊢
    rw [List.length_cons] at hsteps
    obtain ⟨steps, rfl⟩ : ∃ n, steps = n + 1 := ⟨steps - 1, by omega⟩
    rw [Reader.value, List.cons_append, skipSpacing_cons hspacing]
    split
    all_goals simp_all

theorem string (s : String) : Reads (.string s) (quote s).toList := by
  simp only [quote, String.toList_ofList, List.cons_append]
  refine ⟨by simp, ⟨_, _, rfl, by decide⟩, ?_⟩
  intro steps levels rest hsteps _ _
  simp only [List.cons_append, List.length_cons, List.append_assoc, List.nil_append] at hsteps ⊢
  obtain ⟨steps, rfl⟩ : ∃ n, steps = n + 1 := ⟨steps - 1, by omega⟩
  rw [Reader.value, skipSpacing_cons (by decide)]
  simp only [string_escaped]
  rfl

variable {v w w' : List Char}

theorem array (hv : Spaced v) (hw : Spaced w)
    (hw' : Spaced w') (h : List.Forall₂ Reads js texts) :
    Reads (.array js) ('[' :: (v ++ (List.intercalate (',' :: w) texts ++ (w' ++ [']'])))) where
  depth := by
    have hdepth := depthList_le h (',' :: w)
    simp only [Json.depth, List.length_cons, List.length_append]
    omega
  starts := ⟨_, _, rfl, by decide⟩
  value {steps levels rest} hsteps hlevels hrest := by
    simp only [List.length_cons, List.length_append] at hsteps
    simp only [Json.depth] at hlevels
    obtain ⟨steps, rfl⟩ : ∃ n, steps = n + 1 := ⟨steps - 1, by omega⟩
    simp only [List.cons_append, List.append_assoc, List.nil_append]
    rw [Reader.value, skipSpacing_cons (by decide)]
    simp only [show (levels == 0) = false by simp; omega, Bool.false_eq_true, if_false,
      skipSpacing_append hv]
    cases h with
    | nil => simp [skipSpacing_closing hw']
    | @cons j cs js texts hj hjs =>
      have hlevels' : depthList (j :: js) ≤ levels - 1 := by omega
      have hsteps' : 2 * (List.intercalate (',' :: w) (cs :: texts)).length + 1 ≤ steps := by omega
      have hitems := items_intercalate hw hw' (.cons hj hjs) (by simp) .nil hsteps'
        hlevels' rest
      obtain ⟨c, cs, rfl, hc, hclosing⟩ := hj.starts
      obtain ⟨tail, htail⟩ :
          ∃ tail, List.intercalate (',' :: w) ((c :: cs) :: texts) = c :: tail := by
        cases texts <;> exact ⟨_, rfl⟩
      rw [htail] at hitems ⊢
      simp only [List.nil_append, List.cons_append, skipSpacing_cons hc] at hitems ⊢
      split
      next heq => exact absurd (List.cons.inj heq).1 hclosing
      next => rw [hitems]; rfl

theorem object (hv : Spaced v) (hw : Spaced w)
    (hw' : Spaced w') (h : List.Forall₂ ReadsField fs texts) :
    Reads (.object fs)
      ('\x7b' :: (v ++ (List.intercalate (',' :: w) texts ++ (w' ++ ['\x7d'])))) where
  depth := by
    have hdepth := depthFields_le h (',' :: w)
    simp only [Json.depth, List.length_cons, List.length_append]
    omega
  starts := ⟨_, _, rfl, by decide⟩
  value {steps levels rest} hsteps hlevels hrest := by
    simp only [List.length_cons, List.length_append] at hsteps
    simp only [Json.depth] at hlevels
    obtain ⟨steps, rfl⟩ : ∃ n, steps = n + 1 := ⟨steps - 1, by omega⟩
    simp only [List.cons_append, List.append_assoc, List.nil_append]
    rw [Reader.value, skipSpacing_cons (by decide)]
    simp only [show (levels == 0) = false by simp; omega, Bool.false_eq_true, if_false,
      skipSpacing_append hv]
    cases h with
    | nil => simp [skipSpacing_closing hw']
    | @cons f text fs texts hf hfs =>
      have hlevels' : depthFields (f :: fs) ≤ levels - 1 := by omega
      have hsteps' : 2 * (List.intercalate (',' :: w) (text :: texts)).length + 1 ≤ steps := by
        omega
      have hfields := fields_intercalate hw hw' (.cons hf hfs) (by simp) .nil hsteps'
        hlevels' rest
      obtain ⟨tail, htail⟩ : ∃ tail, List.intercalate (',' :: w) (text :: texts) = '"' :: tail := by
        obtain ⟨-, -⟩ := hf
        simp only [quote, String.toList_ofList, List.cons_append]
        cases texts <;> exact ⟨_, rfl⟩
      rw [htail] at hfields ⊢
      simp only [List.nil_append, List.cons_append,
        skipSpacing_cons (by decide : Text.isSpacing '"' = false)] at hfields ⊢
      split
      next heq => exact absurd (List.cons.inj heq).1 (by decide)
      next => rw [hfields, Option.map_some, ofFields_some]

end Reads

end Reader

/-! ## Layouts -/

mutual

/-- All numbers are whole and in the range of floats, and no part is hollow. -/
@[simp] def isWhole : Json → Bool
  | array items => wholeList items
  | object fields => wholeFields fields
  | integer n => n.natAbs < floatBound
  | null | bool _ | string _ => true
  | decimal _ | hollow => false

@[simp] def wholeList : List Json → Bool
  | [] => true
  | j :: js => j.isWhole && wholeList js

@[simp] def wholeFields : List (String × Json) → Bool
  | [] => true
  | (_, j) :: fs => j.isWhole && wholeFields fs

end

open Reader (Reads ReadsField Spaced)

theorem isSpacing_newline {level : Nat} (h : c ∈ (newline level).toList) :
    Text.isSpacing c = true := by
  simp only [newline, String.toList_ofList, List.mem_cons, List.mem_replicate] at h
  rcases h with rfl | ⟨-, rfl⟩ <;> rfl

/-- Brackets over several lines put spacing around their items and behind the commas. -/
theorem bracketed_eq (level : Nat) (opening closing : String) (texts : List String) :
    ∃ v w w' : List Char, Spaced v ∧ Spaced w ∧
      Spaced w' ∧
      (bracketed opening closing level texts).toList = opening.toList ++ (v ++
        (List.intercalate (',' :: w) (texts.map String.toList) ++ (w' ++ closing.toList))) := by
  cases texts with
  | nil => exact ⟨[], [], [], .nil, .nil, .nil, by simp [bracketed]⟩
  | cons text texts =>
    refine ⟨(newline (level + 1)).toList, (newline (level + 1)).toList, (newline level).toList,
      fun _ => isSpacing_newline, fun _ => isSpacing_newline, fun _ => isSpacing_newline, ?_⟩
    simp only [bracketed, String.toList_append, String.toList_intercalate, List.append_assoc]
    rfl

mutual

theorem reads_prettyAt (level : Nat) :
    ∀ j : Json, j.isWhole = true → Reads j (j.prettyAt level).toList
  | .null => fun _ => by simpa only [prettyAt, scalarText] using Reads.null
  | .bool b => fun _ => by simpa only [prettyAt, scalarText] using Reads.bool b
  | .integer n => fun h => by
    simp only [isWhole, decide_eq_true_eq] at h
    simpa only [prettyAt, scalarText] using Reads.integer h
  | .string s => fun _ => by simpa only [prettyAt, scalarText] using Reads.string s
  | .array js => fun h => by
    obtain ⟨v, w, w', hv, hw, hw', htext⟩ :=
      bracketed_eq level "[" "]" (prettyList (level + 1) js)
    rw [prettyAt, htext]
    rw [isWhole] at h
    exact Reads.array hv hw hw' (reads_prettyList (level + 1) js h)
  | .object fs => fun h => by
    obtain ⟨v, w, w', hv, hw, hw', htext⟩ :=
      bracketed_eq level "\x7b" "\x7d" (prettyFields (level + 1) fs)
    rw [prettyAt, htext]
    rw [isWhole] at h
    exact Reads.object hv hw hw' (reads_prettyFields (level + 1) fs h)
  | .decimal _ => fun h => by simp at h
  | .hollow => fun h => by simp at h

theorem reads_prettyList (level : Nat) : ∀ js : List Json, wholeList js = true →
    List.Forall₂ Reads js ((prettyList level js).map String.toList)
  | [] => fun _ => by simp [prettyList]
  | j :: js => fun h => by
    simp only [wholeList, Bool.and_eq_true] at h
    exact .cons (reads_prettyAt level j h.1) (reads_prettyList level js h.2)

theorem reads_prettyFields (level : Nat) : ∀ fs : List (String × Json), wholeFields fs = true →
    List.Forall₂ ReadsField fs ((prettyFields level fs).map String.toList)
  | [] => fun _ => by simp [prettyFields]
  | (k, j) :: fs => fun h => by
    simp only [wholeFields, Bool.and_eq_true] at h
    refine .cons ?_ (reads_prettyFields level fs h.2)
    simp only [String.toList_append, List.append_assoc]
    exact ReadsField.mk (w := [' ']) (by simp [Reader.Spaced, Text.isSpacing]) (reads_prettyAt level j h.1)

end

mutual

theorem reads_compact : ∀ j : Json, j.isWhole = true → Reads j j.compact.toList
  | .null => fun _ => by simpa only [compact, scalarText] using Reads.null
  | .bool b => fun _ => by simpa only [compact, scalarText] using Reads.bool b
  | .integer n => fun h => by
    simp only [isWhole, decide_eq_true_eq] at h
    simpa only [compact, scalarText] using Reads.integer h
  | .string s => fun _ => by simpa only [compact, scalarText] using Reads.string s
  | .array js => fun h => by
    rw [isWhole] at h
    simpa [compact, String.toList_intercalate] using
      Reads.array .nil .nil .nil (reads_compactList js h)
  | .object fs => fun h => by
    rw [isWhole] at h
    simpa [compact, String.toList_intercalate] using
      Reads.object .nil .nil .nil (reads_compactFields fs h)
  | .decimal _ => fun h => by simp at h
  | .hollow => fun h => by simp at h

theorem reads_compactList : ∀ js : List Json, wholeList js = true →
    List.Forall₂ Reads js ((compactList js).map String.toList)
  | [] => fun _ => by simp [compactList]
  | j :: js => fun h => by
    simp only [wholeList, Bool.and_eq_true] at h
    exact .cons (reads_compact j h.1) (reads_compactList js h.2)

theorem reads_compactFields : ∀ fs : List (String × Json), wholeFields fs = true →
    List.Forall₂ ReadsField fs ((compactFields fs).map String.toList)
  | [] => fun _ => by simp [compactFields]
  | (k, j) :: fs => fun h => by
    simp only [wholeFields, Bool.and_eq_true] at h
    refine .cons ?_ (reads_compactFields fs h.2)
    simp only [String.toList_append, List.append_assoc]
    exact ReadsField.mk .nil (reads_compact j h.1)

end

/-! ## Whole texts -/

/-- A text is read whole as the value it is read as, under any bound on nesting that this keeps. -/
theorem readWhole?_of_reads (h : Reads j cs) (hlevels : j.depth ≤ levels) :
    readWhole? levels cs = some j := by
  have hsteps : 2 * cs.length ≤ 2 * cs.length + 2 := by omega
  have hvalue := h.value hsteps hlevels (show Reader.Ends [] from trivial)
  rw [List.append_nil] at hvalue
  rw [readWhole?, hvalue]
  rfl

/-- **A printed value is read back.** -/
theorem ofWellFormed?_pretty (h : j.isWhole) : ofWellFormed? j.pretty = some j :=
  have hreads : Reads j j.pretty.toList := reads_prettyAt 0 j h
  readWhole?_of_reads hreads hreads.depth

/-- **A value on one line is read back.** -/
theorem ofWellFormed?_compact (h : j.isWhole) : ofWellFormed? j.compact = some j :=
  have hreads : Reads j j.compact.toList := reads_compact j h
  readWhole?_of_reads hreads hreads.depth

mutual

theorem isSound_of_isWhole : ∀ j : Json, j.isWhole = true → j.isSound = true
  | .array js => fun h => by
    rw [isWhole] at h
    rw [isSound, soundList_of_wholeList js h]
  | .object fs => fun h => by
    rw [isWhole] at h
    rw [isSound, soundFields_of_wholeFields fs h]
  | .null | .bool _ | .integer _ | .string _ => fun _ => by rw [isSound]
  | .decimal _ => fun h => by simp at h
  | .hollow => fun h => by simp at h

theorem soundList_of_wholeList : ∀ js : List Json, wholeList js = true → soundList js = true
  | [] => fun _ => rfl
  | j :: js => fun h => by
    simp only [wholeList, Bool.and_eq_true] at h
    rw [soundList, isSound_of_isWhole j h.1, soundList_of_wholeList js h.2]
    rfl

theorem soundFields_of_wholeFields :
    ∀ fs : List (String × Json), wholeFields fs = true → soundFields fs = true
  | [] => fun _ => rfl
  | (_, j) :: fs => fun h => by
    simp only [wholeFields, Bool.and_eq_true] at h
    rw [soundFields, isSound_of_isWhole j h.1, soundFields_of_wholeFields fs h.2]
    rfl

end

/-- A text that is read for its value is read back if it is not nested too deep. -/
theorem ofText?_compact (h : j.isWhole) (hdepth : j.depth ≤ maxDepth) :
    ofText? j.compact = some j := by
  rw [ofText?, readWhole?_of_reads (reads_compact j h) hdepth, Option.filter_some,
    isSound_of_isWhole j h]
  rfl

end QueryCompiler.Json

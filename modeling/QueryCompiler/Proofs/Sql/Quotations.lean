import QueryCompiler.Proofs.Sql.Scanning
/-!
# Reading quotations

A server reads a string literal, or a quoted name, up to the mark that closes it. A closing mark that
is doubled stands for itself, and where the backslash escapes, it gives a meaning to the character
behind it. Whatever is quoted is read back as it was, and the reading ends where the quotation ends,
exactly if no further closing mark stands behind it (`Dialect.reads_quotations`).
-/

namespace QueryCompiler

namespace Dialect

/-! ## Reading -/

/-- What a character behind a backslash stands for. Before the wildcards of a pattern the backslash
is kept. -/
def unescaped : Char → List Char
  | '0' => ['\x00']
  | 'b' => ['\x08']
  | 't' => ['\t']
  | 'n' => ['\n']
  | 'r' => ['\r']
  | 'Z' => ['\x1a']
  | '%' => ['\\', '%']
  | '_' => ['\\', '_']
  | c => [c]

/-- Reads up to a closing mark: what was quoted, and what is left. -/
def readQuoted (close : Char) (escapes : Bool) : List Char → Option (List Char × List Char)
  | [] => none
  | [c] => if c = close then some ([], []) else none
  | c :: c' :: cs =>
    if c = close then
      if c' = close then (readQuoted close escapes cs).map fun (read, rest) => (close :: read, rest)
      else some ([], c' :: cs)
    else if escapes && c == '\\' then
      (readQuoted close escapes cs).map fun (read, rest) => (unescaped c' ++ read, rest)
    else (readQuoted close escapes (c' :: cs)).map fun (read, rest) => (c :: read, rest)

/-- What stands behind the mark that opens a string literal, also of a national string. -/
def openString : List Char → Option (List Char)
  | 'N' :: '\x27' :: cs | '\x27' :: cs => some cs
  | _ => none

/-- What stands behind the mark that opens a name. -/
def openName (d : Dialect) : List Char → Option (List Char)
  | [] => none
  | c :: cs => if c = d.nameOpen then some cs else none

/-- Reads on behind an opening mark, if there is one: what was quoted, and the text behind it. -/
def readBehind (close : Char) (escapes : Bool) (opened : Option (List Char)) :
    Option (String × String) := do
  let (read, rest) ← readQuoted close escapes (← opened)
  return (String.ofList read, String.ofList rest)

/-- Reads the string literal that a text starts with. -/
def readString (d : Dialect) (text : String) : Option (String × String) :=
  readBehind '\x27' d.backslashEscapes (openString text.toList)

/-- Reads the quoted name that a text starts with. -/
def readName (d : Dialect) (text : String) : Option (String × String) :=
  readBehind d.nameClose false (d.openName text.toList)

/-! ## Quoted characters -/

variable {d : Dialect} {close : Char} {escapes : Bool} {cs rest : List Char}

/-- A character as it is quoted: doubled if it would end the quotation or change what follows. -/
def doubled (close : Char) (escapes : Bool) (c : Char) : List Char :=
  if c == close || (escapes && c == '\\') then [c, c] else [c]

theorem unescaped_backslash : unescaped '\\' = ['\\'] := rfl

theorem readQuoted_close_cons (h : rest.head? ≠ some close) :
    readQuoted close escapes (close :: rest) = some ([], rest) := by
  cases rest with
  | nil => simp [readQuoted]
  | cons c rest =>
    have hc : c ≠ close := by simpa using h
    simp [readQuoted, hc]

theorem readQuoted_close_close : readQuoted close escapes (close :: close :: rest) =
    (readQuoted close escapes rest).map fun (read, rest) => (close :: read, rest) := by
  simp [readQuoted]

theorem readQuoted_cons {c : Char} (hclose : c ≠ close) (hescape : (escapes && c == '\\') = false) :
    readQuoted close escapes (c :: rest) =
      (readQuoted close escapes rest).map fun (read, rest) => (c :: read, rest) := by
  cases rest with
  | nil => simp [readQuoted, hclose]
  | cons c' rest => simp only [readQuoted, hclose, hescape, if_false, Bool.false_eq_true]

/-- **Quoted characters are read as they were**, whatever follows them. -/
theorem readQuoted_flatMap_doubled (hclose : close ≠ '\\') :
    readQuoted close escapes (cs.flatMap (doubled close escapes) ++ rest) =
      (readQuoted close escapes rest).map fun (read, rest) => (cs ++ read, rest) := by
  induction cs with
  | nil => simp
  | cons c cs ih =>
    rw [List.flatMap_cons, List.append_assoc]
    by_cases hc : c = close
    · subst hc
      simp only [doubled, BEq.rfl, Bool.true_or, if_true, List.cons_append, List.nil_append]
      rw [readQuoted_close_close, ih, Option.map_map]
      rfl
    · by_cases hescape : (escapes && c == '\\') = true
      · obtain ⟨rfl, rfl⟩ : escapes = true ∧ c = '\\' := by simpa using hescape
        simp only [doubled, BEq.rfl, Bool.true_and, Bool.or_true, if_true, List.cons_append,
          List.nil_append]
        rw [readQuoted]
        simp only [hc, if_false, Bool.true_and, BEq.rfl, if_true, unescaped_backslash]
        rw [ih, Option.map_map]
        rfl
      · have hplain : (escapes && c == '\\') = false := by simpa using hescape
        have hdoubled : doubled close escapes c = [c] := by simp [doubled, hc, hplain]
        rw [hdoubled, List.singleton_append, readQuoted_cons hc hplain, ih, Option.map_map]
        rfl

/-- **A quotation ends with its closing mark**, unless another one follows. -/
theorem readQuoted_quotation_iff (hclose : close ≠ '\\') :
    readQuoted close escapes (cs.flatMap (doubled close escapes) ++ close :: rest) =
      some (cs, rest) ↔ rest.head? ≠ some close := by
  rw [readQuoted_flatMap_doubled hclose]
  constructor
  · intro hread hhead
    obtain ⟨rest, rfl⟩ := List.head?_eq_some_iff.1 hhead
    -- the closing mark is read as one of the quoted characters, so that more is read than was quoted
    rw [readQuoted_close_close, Option.map_map] at hread
    obtain ⟨⟨read, left⟩, -, hread⟩ := Option.map_eq_some_iff.1 hread
    simp at hread
  · intro hhead
    rw [readQuoted_close_cons hhead]
    simp

/-! ## Literals and names -/

theorem openString_stringLiteral {unicode : Bool} {s r : String} :
    openString (d.stringLiteral unicode s ++ r).toList =
      some (s.toList.flatMap (doubled '\x27' d.backslashEscapes) ++ '\x27' :: r.toList) := by
  have hchars : d.inString = doubled '\x27' d.backslashEscapes := rfl
  rw [stringLiteral_eq, hchars]
  split <;> simp [openString]

theorem openName_quote {s r : String} :
    d.openName (d.quote s ++ r).toList =
      some (s.toList.flatMap (doubled d.nameClose false) ++ d.nameClose :: r.toList) := by
  have hchars : (fun c => if c == d.nameClose then [c, c] else [c]) = doubled d.nameClose false := by
    funext c
    simp [doubled]
  rw [quote_eq, hchars]
  simp [openName]

theorem readBehind_some_iff {s r : String} :
    readBehind close escapes (some cs) = some (s, r) ↔
      readQuoted close escapes cs = some (s.toList, r.toList) := by
  simp only [readBehind, Option.bind_eq_bind, Option.bind_some]
  constructor
  · intro hread
    obtain ⟨⟨read, rest⟩, hquoted, hread⟩ := Option.bind_eq_some_iff.1 hread
    cases hread
    simpa using hquoted
  · intro hquoted
    simp [hquoted]

/-- A string literal is read back, and nothing behind it. -/
theorem readString_stringLiteral_iff {unicode : Bool} {s r : String} :
    d.readString (d.stringLiteral unicode s ++ r) = some (s, r) ↔ r.toList.head? ≠ some '\x27' := by
  rw [readString, openString_stringLiteral, readBehind_some_iff]
  exact readQuoted_quotation_iff (by decide)

/-- A quoted name is read back, and nothing behind it. -/
theorem readName_quote_iff {s r : String} :
    d.readName (d.quote s ++ r) = some (s, r) ↔ r.toList.head? ≠ some d.nameClose := by
  rw [readName, openName_quote, readBehind_some_iff]
  exact readQuoted_quotation_iff (by cases d <;> decide)

/-- **String literals and quoted names are read back**, whatever they hold: reading takes exactly the
quotation and gives what was quoted, unless its closing mark stands behind it once more. -/
theorem reads_quotations (d : Dialect) (unicode : Bool) (s r : String) :
    (d.readString (d.stringLiteral unicode s ++ r) = some (s, r) ↔
      r.toList.head? ≠ some '\x27') ∧
    (d.readName (d.quote s ++ r) = some (s, r) ↔ r.toList.head? ≠ some d.nameClose) :=
  ⟨readString_stringLiteral_iff, readName_quote_iff⟩

example : mySql.readString "'it\\'s \\n ''so''' OR 1 = 1" = some ("it's \n 'so'", " OR 1 = 1") := by
  decide

end Dialect

end QueryCompiler

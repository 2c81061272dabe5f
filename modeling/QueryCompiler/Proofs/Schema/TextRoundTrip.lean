import QueryCompiler.Proofs.Schema.Layout
/-!
# Schema text reads back

Every layout of a schema is read back as the schema (`Schema.ofText_layout`). The readers have no
look at word boundaries, they try one form after the other and stop where none fits, so each lemma
says of a part of the text that its reader takes this part and nothing of what follows. What may
follow a member is `Closes`: blanks, and then a comma or a closing parenthesis. No flag, no foreign
key and no size starts like that.

The bounds on the steps are no hindrance. They start as the length of the text, and each step takes
a character.
-/

namespace QueryCompiler.Schema

variable {es : List Entity} {s : Schema}

namespace Grammar

variable {w cs b t : List Char} {c : Char} {name : String} {steps : Nat} {fs : List Flag}
  {names : List String} {fk : ForeignKey} {ms : List Member} {e : Entity}

/-! ## Spacing and names -/

theorem spacing_append (hw : Spaces w) (hcs : spacing cs = cs) : spacing (w ++ cs) = cs := by
  rw [spacing, List.dropWhile_append_of_pos hw]
  exact hcs

theorem someSpacing_append (hw : SomeSpaces w) (hcs : spacing cs = cs) :
    someSpacing (w ++ cs) = some cs := by
  obtain ⟨hne, hspaces⟩ := hw
  cases w with
  | nil => exact absurd rfl hne
  | cons c w =>
    have hw : Spaces w := fun c' hc' => hspaces c' (List.mem_cons_of_mem c hc')
    rw [List.cons_append, someSpacing, if_pos (hspaces c (by simp)), spacing_append hw hcs]

/-- The text does not go on with a character of a name. -/
def Apart (cs : List Char) : Prop :=
  ∀ c ∈ cs.head?, Text.isIdentifierChar c = false

theorem not_isIdentifierChar (h : Text.isSpacing c) : Text.isIdentifierChar c = false := by
  simp only [Text.isSpacing, Bool.or_eq_true, beq_iff_eq, or_assoc] at h
  rcases h with rfl | rfl | rfl | rfl <;> decide

theorem apart_cons (h : Text.isIdentifierChar c = false) : Apart (c :: cs) := by
  simpa [Apart] using h

theorem Spaces.apart (hw : Spaces w) (hcs : Apart cs) : Apart (w ++ cs) := by
  cases w with
  | nil => exact hcs
  | cons c w => exact apart_cons (not_isIdentifierChar (hw c (by simp)))

theorem SomeSpaces.apart (hw : SomeSpaces w) : Apart (w ++ cs) := by
  obtain ⟨hne, hspaces⟩ := hw
  cases w with
  | nil => exact absurd rfl hne
  | cons c w => exact apart_cons (not_isIdentifierChar (hspaces c (by simp)))

theorem Blanks.apart (hb : Blanks b) (hcs : Apart cs) : Apart (b ++ cs) := by
  cases hb with
  | nil => exact hcs
  | space hc _ => exact apart_cons (not_isIdentifierChar hc)
  | comment _ _ _ => exact apart_cons (by decide)

theorem isIdentifier_iff {s : String} : Text.isIdentifier s = true ↔
    ∃ c cs, s.toList = c :: cs ∧ ∀ x ∈ c :: cs, Text.isIdentifierChar x = true := by
  simp only [Text.isIdentifier, Bool.and_eq_true, Bool.not_eq_true', List.all_eq_true]
  cases s.toList with
  | nil => simp
  | cons c cs => simp

theorem isIdentifier_name (t : DbType) : Text.isIdentifier t.name = true := by
  cases t <;> decide

theorem not_isSpacing (h : Text.isIdentifierChar c) : Text.isSpacing c = false := by
  cases hspacing : Text.isSpacing c with
  | false => rfl
  | true =>
    rw [not_isIdentifierChar hspacing] at h
    exact absurd h (by decide)

theorem spacing_name (h : Text.isIdentifier name) :
    spacing (name.toList ++ cs) = name.toList ++ cs := by
  obtain ⟨c, name', hname, hchars⟩ := isIdentifier_iff.1 h
  have hc : Text.isSpacing c = false := not_isSpacing (hchars c (by simp))
  rw [hname, List.cons_append, spacing, List.dropWhile_cons, hc]
  rfl

theorem identifier_append (h : Text.isIdentifier name) (hcs : Apart cs) :
    identifier (name.toList ++ cs) = some (name, cs) := by
  obtain ⟨c, name', hname, hchars⟩ := isIdentifier_iff.1 h
  have htake : cs.takeWhile Text.isIdentifierChar = [] := by
    cases cs with
    | nil => rfl
    | cons c cs => simp [hcs c (by simp)]
  have hdrop : cs.dropWhile Text.isIdentifierChar = cs := by
    cases cs with
    | nil => rfl
    | cons c cs => simp [hcs c (by simp)]
  have hlist : String.ofList (c :: name') = name := by rw [← hname, String.ofList_toList]
  unfold identifier
  rw [hname, List.takeWhile_append_of_pos hchars, List.dropWhile_append_of_pos hchars, htake, hdrop,
    List.append_nil]
  simp only [hlist]

theorem exactly_append (word cs : List Char) : exactly word (word ++ cs) = some cs := by
  simp [exactly]

theorem exactly_cons (c : Char) (cs : List Char) : exactly [c] (c :: cs) = some cs :=
  exactly_append [c] cs

theorem exactly_arrow (cs : List Char) : exactly ['=', '>'] ('=' :: '>' :: cs) = some cs :=
  exactly_append ['=', '>'] cs

theorem keyword_append {word : String} (h : word.toList.map Char.toLower = word.toList)
    (cs : List Char) : keyword word (word.toList ++ cs) = some cs := by
  simp [keyword, h]

/-! ## Blanks -/

/-- The text starts with neither spacing nor a comment. -/
structure Bare (cs : List Char) : Prop where
  spacing : spacing cs = cs
  someSpacing : someSpacing cs = none
  comment : comment cs = none

theorem bare_nil : Bare [] :=
  ⟨rfl, rfl, rfl⟩

theorem bare_cons (hc : Text.isSpacing c = false) (hne : c ≠ '-') : Bare (c :: cs) := by
  refine ⟨?_, ?_, ?_⟩
  · simp [Grammar.spacing, hc]
  · simp [Grammar.someSpacing, hc]
  · simp [Grammar.comment, exactly, hne.symm]

theorem bare_name (h : Text.isIdentifier name) : Bare (name.toList ++ cs) := by
  obtain ⟨c, name', hname, hchars⟩ := isIdentifier_iff.1 h
  have hc := hchars c (by simp)
  rw [hname, List.cons_append]
  refine bare_cons (not_isSpacing hc) ?_
  rintro rfl
  exact absurd hc (by decide)

theorem spacing_blanks (hb : Blanks b) (hcs : Bare cs) :
    ∃ b', Blanks b' ∧ b'.length ≤ b.length ∧ spacing (b ++ cs) = b' ++ cs := by
  induction hb with
  | nil => exact ⟨[], .nil, Nat.le_refl _, hcs.spacing⟩
  | space hc _ ih =>
    obtain ⟨b', hb', hlength, hspacing⟩ := ih
    refine ⟨b', hb', Nat.le_succ_of_le hlength, ?_⟩
    rw [List.cons_append, spacing, List.dropWhile_cons, if_pos hc]
    exact hspacing
  | comment htext hend hb _ => exact ⟨_, .comment htext hend hb, Nat.le_refl _, rfl⟩

theorem comment_append {text lineEnd : List Char} (htext : ∀ c ∈ text, c ≠ '\r' ∧ c ≠ '\n')
    (hend : lineEnd = ['\n'] ∨ lineEnd = ['\r', '\n']) :
    comment ('-' :: '-' :: (text ++ (lineEnd ++ cs))) = some (lineEnd ++ cs) := by
  have hline : (text ++ (lineEnd ++ cs)).dropWhile (fun c => c != '\r' && c != '\n') =
      lineEnd ++ cs := by
    rw [List.dropWhile_append_of_pos (by simpa using htext)]
    rcases hend with rfl | rfl <;> rfl
  have hhyphens : exactly ['-', '-'] ('-' :: '-' :: (text ++ (lineEnd ++ cs))) =
      some (text ++ (lineEnd ++ cs)) := rfl
  rw [comment, hhyphens, Option.bind_eq_bind, Option.bind_some]
  simp only [hline]
  rcases hend with rfl | rfl <;> rfl

theorem blankAt_append (hb : Blanks b) (hcs : Bare cs) (hsteps : b.length ≤ steps) :
    blankAt steps (b ++ cs) = cs := by
  induction steps generalizing b with
  | zero =>
    obtain rfl : b = [] := List.length_eq_zero_iff.1 (Nat.le_zero.1 hsteps)
    rfl
  | succ steps ih =>
    cases hb with
    | nil => rw [List.nil_append, blankAt, hcs.someSpacing, hcs.comment, Option.or_none]
    | @space c w hc hw =>
      -- A run of spacing is one step, so the blanks left over need not be those after `c`.
      obtain ⟨b', hb', hlength, hspacing⟩ := spacing_blanks hw hcs
      rw [List.length_cons] at hsteps
      rw [List.cons_append, blankAt, someSpacing, if_pos hc, Option.some_or, hspacing]
      exact ih hb' (by omega)
    | @comment text lineEnd w htext hend hw =>
      have hrest : Blanks (lineEnd ++ w) := by
        rcases hend with rfl | rfl
        · exact .space rfl hw
        · exact .space rfl (.space rfl hw)
      simp only [List.length_cons, List.length_append] at hsteps
      have hnone : someSpacing ('-' :: '-' :: (text ++ (lineEnd ++ w)) ++ cs) = none := rfl
      have hcomment : comment ('-' :: '-' :: (text ++ (lineEnd ++ w)) ++ cs) =
          some (lineEnd ++ w ++ cs) := by
        simp only [List.cons_append, List.append_assoc]
        exact comment_append htext hend
      rw [blankAt, hnone, hcomment, Option.none_or]
      exact ih hrest (by rw [List.length_append]; omega)

/-- **Blanks are passed over.** -/
theorem blank_append (hb : Blanks b) (hcs : Bare cs) : blank (b ++ cs) = cs :=
  blankAt_append hb hcs (by rw [List.length_append]; omega)

theorem Blanks.append {b' : List Char} (hb : Blanks b) (hb' : Blanks b') : Blanks (b ++ b') := by
  induction hb with
  | nil => exact hb'
  | space hc _ ih => exact .space hc ih
  | comment htext hend _ ih =>
    simp only [List.cons_append, List.append_assoc]
    exact .comment htext hend ih

/-- What follows a member: blanks, and then a comma or a closing parenthesis. -/
inductive Closes : List Char → Prop
  | mk {b cs : List Char} {c : Char} : Blanks b → c = ',' ∨ c = ')' → Closes (b ++ c :: cs)

theorem Closes.apart (h : Closes cs) : Apart cs := by
  obtain ⟨hb, rfl | rfl⟩ := h
  · exact hb.apart (apart_cons (by decide))
  · exact hb.apart (apart_cons (by decide))

theorem Closes.exactly_paren (h : Closes cs) : exactly ['('] cs = none := by
  obtain ⟨hb, hc⟩ := h
  cases hb with
  | nil => rcases hc with rfl | rfl <;> rfl
  | @space c w hspace _ =>
    have hne : c ≠ '(' := by
      rintro rfl
      exact absurd hspace (by decide)
    simp [exactly, hne.symm]
  | comment _ _ _ => rfl

/-- Behind the spacing after a member stands a mark and no word. -/
theorem Closes.spacing (h : Closes cs) : ∃ c cs', spacing cs = c :: cs' ∧ c ∈ ['-', ',', ')'] := by
  obtain ⟨hb, hc⟩ := h
  induction hb with
  | nil => rcases hc with rfl | rfl <;> exact ⟨_, _, rfl, by simp⟩
  | space hspace _ ih =>
    obtain ⟨c, cs', hspacing, hmark⟩ := ih
    refine ⟨c, cs', ?_, hmark⟩
    rw [List.cons_append, Grammar.spacing, List.dropWhile_cons, if_pos hspace]
    exact hspacing
  | comment _ _ _ _ => exact ⟨_, _, rfl, by simp⟩

/-- What needs spacing before it and starts with no mark does not follow a member. -/
theorem Closes.bind_eq_none {α : Type} {cs : List Char} {f : List Char → Option α} (h : Closes cs)
    (hf : ∀ c ∈ ['-', ',', ')'], ∀ cs, f (c :: cs) = none) : (someSpacing cs).bind f = none := by
  obtain ⟨c, cs', hspacing, hmark⟩ := h.spacing
  cases cs with
  | nil => rfl
  | cons c₀ cs =>
    by_cases hspace : Text.isSpacing c₀ = true
    · rw [Grammar.spacing, List.dropWhile_cons, if_pos hspace] at hspacing
      rw [someSpacing, if_pos hspace, Grammar.spacing, hspacing, Option.bind_some, hf c hmark]
    · rw [someSpacing, if_neg hspace, Option.bind_none]

/-! ## Columns -/

theorem FlagText.spacing {f : Flag} (h : FlagText f t) : spacing (t ++ cs) = t ++ cs := by
  cases h <;> rfl

theorem columnFlag_append {w' : List Char} (hw : Spaces w) (hw' : Spaces w')
    (hname : Text.isIdentifier name) :
    columnFlag ("column".toList ++ '(' :: (w ++ (name.toList ++ (w' ++ ')' :: cs)))) =
      some (.column name, cs) := by
  have hend : Apart (w' ++ ')' :: cs) := hw'.apart (apart_cons (by decide))
  simp only [columnFlag, keyword_append (by decide : "column".toList.map Char.toLower = _),
    Option.bind_eq_bind, Option.bind_some, exactly_cons, spacing_append hw (spacing_name hname),
    identifier_append hname hend, spacing_append hw' (rfl : spacing (')' :: cs) = _)]

/-- A flag is read. None of the words is the start of another. -/
theorem flag_append {f : Flag} (h : FlagText f t)
    (hname : ∀ name, f = .column name → Text.isIdentifier name = true) (cs : List Char) :
    flag (t ++ cs) = some (f, cs) := by
  cases h with
  | key => rfl
  | identity => rfl
  | nullable => rfl
  | rowVersion => rfl
  | ignore => rfl
  | column hw hw' =>
    simp only [List.append_assoc, List.cons_append, List.nil_append]
    rw [flag, columnFlag_append hw hw' (hname _ rfl)]
    rfl

theorem flag_mark : ∀ c ∈ ['-', ',', ')'], ∀ cs, flag (c :: cs) = none := by
  intro c hc cs
  simp only [List.mem_cons, List.not_mem_nil, or_false] at hc
  rcases hc with rfl | rfl | rfl <;> rfl

/-- **Flags are read up to the end of their member.** -/
theorem flagsAt_append (h : FlagsText fs t)
    (hnames : ∀ name, .column name ∈ fs → Text.isIdentifier name = true) (hcs : Closes cs)
    (hsteps : t.length ≤ steps) : flagsAt steps (t ++ cs) = (fs, cs) := by
  induction h generalizing steps with
  | nil =>
    cases steps with
    | zero => rfl
    | succ steps => rw [List.nil_append, flagsAt, hcs.bind_eq_none flag_mark]
  | @cons f fs w t ts hw ht hts ih =>
    have hpos : 0 < w.length := List.length_pos_of_ne_nil hw.1
    simp only [List.length_append] at hsteps
    obtain ⟨steps, rfl⟩ : ∃ n, steps = n + 1 := ⟨steps - 1, by omega⟩
    have hname : ∀ name, f = .column name → Text.isIdentifier name = true := fun name hf =>
      hnames name (by simp [hf])
    have hrest : flagsAt steps (ts ++ cs) = (fs, cs) :=
      ih (fun name hmem => hnames name (List.mem_cons_of_mem f hmem)) (by omega)
    simp only [List.append_assoc]
    rw [flagsAt, someSpacing_append hw ht.spacing, Option.bind_some, flag_append ht hname]
    simp only [hrest]

theorem FlagsText.apart (h : FlagsText fs t) (hcs : Closes cs) : Apart (t ++ cs) := by
  cases h with
  | nil => exact hcs.apart
  | cons hw _ _ =>
    simp only [List.append_assoc]
    exact hw.apart

theorem FlagsText.exactly_paren (h : FlagsText fs t) (hcs : Closes cs) :
    exactly ['('] (t ++ cs) = none := by
  cases h with
  | nil => exact hcs.exactly_paren
  | @cons f fs w t ts hw _ _ =>
    obtain ⟨hne, hspaces⟩ := hw
    cases w with
    | nil => exact absurd rfl hne
    | cons c w =>
      have hc : c ≠ '(' := by
        rintro rfl
        exact absurd (hspaces '(' (by simp)) (by decide)
      simp [exactly, hc.symm]

theorem sizeValue?_toDigits {n : Nat} (h : n < UInt32.size) :
    sizeValue? (Nat.toDigits 10 n) = some n := by
  have hvalue := Json.Reader.digitsValue_toDigits n
  rw [Json.Reader.digitsValue] at hvalue
  simp only [sizeValue?, hvalue, if_pos h]

theorem toLower_ne_of_isDigit (h : c.isDigit) : c.toLower ≠ 'm' := by
  have hcodes : ∀ n < 58, 48 ≤ n → (Char.ofNat n).toLower ≠ 'm' := by decide
  simp only [Char.isDigit, Bool.and_eq_true, decide_eq_true_eq, ge_iff_le, UInt32.le_iff_toNat_le]
    at h
  rw [← Char.ofNat_toNat c]
  exact hcodes c.toNat (Nat.lt_succ_of_le h.2) h.1

theorem typeSize_sizeText {n : Nat} (h : n < UInt32.size) (cs : List Char) :
    typeSize (sizeText (some n) ++ cs) = some (some n, cs) := by
  have hdigits : ∀ c ∈ Nat.toDigits 10 n, c.isDigit = true := fun c hc =>
    Nat.isDigit_of_mem_toDigits (by decide) (by decide) hc
  have hmax : keyword "max" (Nat.toDigits 10 n ++ ')' :: cs) = none := by
    obtain ⟨c, cs', htext, hc⟩ := Json.Reader.toDigits_eq_cons n
    simp [keyword, htext, (toLower_ne_of_isDigit hc).symm]
  have htake : (Nat.toDigits 10 n ++ ')' :: cs).takeWhile Char.isDigit = Nat.toDigits 10 n := by
    rw [List.takeWhile_append_of_pos hdigits]
    simp
  have hdrop : (Nat.toDigits 10 n ++ ')' :: cs).dropWhile Char.isDigit = ')' :: cs := by
    rw [List.dropWhile_append_of_pos hdigits]
    simp
  simp only [sizeText, List.cons_append, List.append_assoc, List.nil_append, typeSize, exactly_cons,
    Option.bind_eq_bind, Option.bind_some, hmax, htake, hdrop]
  split
  next hnil => exact absurd hnil Nat.toDigits_ne_nil
  next => rw [sizeValue?_toDigits h]

/-- **The type, size and flags of a column are read.** -/
theorem columnDecl_append {dbType : DbType} {size : Option Nat}
    (hsize : size.all (· < UInt32.size) = true) (h : FlagsText fs t)
    (hnames : ∀ name, .column name ∈ fs → Text.isIdentifier name = true) (hcs : Closes cs) :
    columnDecl (dbType.name.toList ++ (sizeText size ++ (t ++ cs))) =
      some (.column dbType.name size fs, cs) := by
  have hflags : flagsAt (t ++ cs).length (t ++ cs) = (fs, cs) :=
    flagsAt_append h hnames hcs (by rw [List.length_append]; omega)
  have happart : Apart (sizeText size ++ (t ++ cs)) := by
    cases size with
    | none => exact h.apart hcs
    | some n => exact apart_cons (by decide)
  have htypeSize : (typeSize (sizeText size ++ (t ++ cs))).getD (none, sizeText size ++ (t ++ cs)) =
      (size, t ++ cs) := by
    cases size with
    | none =>
      have hnone : typeSize (t ++ cs) = none := by
        simp only [typeSize, h.exactly_paren hcs, Option.bind_eq_bind, Option.bind_none]
      simp only [sizeText, List.nil_append, hnone, Option.getD_none]
    | some n =>
      have hn : n < UInt32.size := by simpa using hsize
      rw [typeSize_sizeText hn, Option.getD_some]
  simp only [columnDecl, identifier_append (isIdentifier_name dbType) happart, htypeSize, hflags,
    Option.bind_eq_bind, Option.bind_some]

theorem navigationDecl_name (t : DbType) (cs : List Char) :
    navigationDecl (t.name.toList ++ cs) = none := by
  have hword : multiplicity (t.name.toList ++ cs) = none := by cases t <;> rfl
  simp only [navigationDecl, hword, Option.bind_eq_bind, Option.bind_none]

/-- What a flag sets, it sets for good, and only a name is set anew. -/
theorem foldl_apply_flags (fs : List Flag) (c : Column) :
    (fs.foldl Flag.apply c).key = (c.key || decide (.key ∈ fs)) ∧
    (fs.foldl Flag.apply c).identity = (c.identity || decide (.identity ∈ fs)) ∧
    (fs.foldl Flag.apply c).nullable = (c.nullable || decide (.nullable ∈ fs)) ∧
    (fs.foldl Flag.apply c).excluded = (c.excluded || decide (.ignore ∈ fs)) ∧
    (fs.foldl Flag.apply c).rowVersion = (c.rowVersion || decide (.rowVersion ∈ fs)) ∧
    (fs.foldl Flag.apply c).dbType = c.dbType ∧ (fs.foldl Flag.apply c).size = c.size := by
  induction fs generalizing c with
  | nil => simp
  | cons f fs ih =>
    rw [List.foldl_cons]
    obtain ⟨hkey, hidentity, hnullable, hexcluded, hrowVersion, hdbType, hsize⟩ := ih (f.apply c)
    rw [hkey, hidentity, hnullable, hexcluded, hrowVersion, hdbType, hsize]
    cases f <;> simp [Flag.apply]

theorem foldl_apply_column {c : Column} {column : String}
    (honly : ∀ name, .column name ∈ fs → name = column)
    (hstated : c.column = column ∨ .column column ∈ fs) :
    (fs.foldl Flag.apply c).column = column := by
  induction fs generalizing c with
  | nil => simpa using hstated
  | cons f fs ih =>
    rw [List.foldl_cons]
    refine ih (fun name hmem => honly name (List.mem_cons_of_mem f hmem)) ?_
    cases f with
    | column name => exact .inl (honly name (by simp))
    | key | identity | nullable | rowVersion | ignore => simpa [Flag.apply] using hstated

/-- **Flags that state a column make it**, where a timestamp is a row version. -/
theorem States.foldl_apply {c : Column} (h : States name c fs)
    (htimestamp : c.dbType = .timestamp → c.rowVersion = true) :
    fs.foldl Flag.apply { Column.new name c.dbType with size := c.size } = c := by
  obtain ⟨hkey, hidentity, hnullable, hexcluded, hrowVersion, hdbType, hsize⟩ :=
    foldl_apply_flags fs { Column.new name c.dbType with size := c.size }
  have hcolumn : (fs.foldl Flag.apply { Column.new name c.dbType with size := c.size }).column =
      c.column :=
    foldl_apply_column (fun _ hmem => h.column hmem) (h.column_mem.imp_left Eq.symm)
  have hversion : (c.dbType == .timestamp || decide (.rowVersion ∈ fs)) = c.rowVersion := by
    rw [Bool.eq_iff_iff, Bool.or_eq_true, beq_iff_eq, decide_eq_true_eq]
    exact ⟨fun hset => hset.elim htimestamp h.rowVersion, fun hset => (h.rowVersion_mem hset).symm⟩
  simp only [Column.new, Bool.false_or, h.key, h.identity, h.nullable, h.ignore,
    Bool.decide_eq_true, hversion] at hkey hidentity hnullable hexcluded hrowVersion hdbType hsize hcolumn
  cases c
  rw [Column.mk.injEq]
  exact ⟨hcolumn, hdbType, hsize, hkey, hidentity, hnullable, hexcluded, hrowVersion⟩

theorem ofWord?_name (t : DbType) : DbType.ofWord? t.name = some t := by
  cases t <;> decide +kernel

/-! ## Navigations -/

/-- What follows a list of names: spacing, and then a mark that is no comma. -/
inductive Ends : List Char → Prop
  | mk {w cs : List Char} {c : Char} : Spaces w → c = '=' ∨ c = ')' → Ends (w ++ c :: cs)

theorem Ends.apart (h : Ends cs) : Apart cs := by
  obtain ⟨hw, rfl | rfl⟩ := h
  · exact hw.apart (apart_cons (by decide))
  · exact hw.apart (apart_cons (by decide))

theorem Ends.exactly_comma (h : Ends cs) : exactly [','] (spacing cs) = none := by
  obtain ⟨hw, rfl | rfl⟩ := h
  · rw [spacing_append hw rfl]
    rfl
  · rw [spacing_append hw rfl]
    rfl

theorem MoreNamesText.apart (h : MoreNamesText names t) (hcs : Ends cs) : Apart (t ++ cs) := by
  cases h with
  | nil => exact hcs.apart
  | cons hw _ _ =>
    simp only [List.append_assoc, List.cons_append]
    exact hw.apart (apart_cons (by decide))

theorem moreNames_append (h : MoreNamesText names t)
    (hnames : ∀ name ∈ names, Text.isIdentifier name = true) (hcs : Ends cs)
    (hsteps : t.length ≤ steps) : moreNames steps (t ++ cs) = (names, cs) := by
  induction h generalizing steps with
  | nil =>
    cases steps with
    | zero => rfl
    | succ steps => rw [List.nil_append, moreNames, hcs.exactly_comma, Option.bind_none]
  | @cons name names w w' t hw hw' ht ih =>
    simp only [List.length_append, List.length_cons] at hsteps
    obtain ⟨steps, rfl⟩ : ∃ n, steps = n + 1 := ⟨steps - 1, by omega⟩
    have hname := hnames name (by simp)
    have hrest : moreNames steps (t ++ cs) = (names, cs) :=
      ih (fun x hx => hnames x (List.mem_cons_of_mem name hx)) (by omega)
    simp only [List.append_assoc, List.cons_append]
    rw [moreNames, spacing_append hw (by rfl), exactly_cons, Option.bind_some,
      spacing_append hw' (spacing_name hname), identifier_append hname (ht.apart hcs)]
    simp only [hrest]

theorem NamesText.spacing (h : NamesText names t)
    (hnames : ∀ name ∈ names, Text.isIdentifier name = true) : spacing (t ++ cs) = t ++ cs := by
  obtain ⟨_⟩ := h
  rw [List.append_assoc]
  exact spacing_name (hnames _ (by simp))

theorem nameList_append (h : NamesText names t)
    (hnames : ∀ name ∈ names, Text.isIdentifier name = true) (hcs : Ends cs) :
    nameList (t ++ cs) = some (names, cs) := by
  obtain ⟨ht⟩ := h
  rename_i name names t
  have hmore : moreNames (t ++ cs).length (t ++ cs) = (names, cs) :=
    moreNames_append ht (fun x hx => hnames x (List.mem_cons_of_mem name hx)) hcs
      (by rw [List.length_append]; omega)
  rw [List.append_assoc, nameList, identifier_append (hnames name (by simp)) (ht.apart hcs)]
  simp only [Option.bind_eq_bind, Option.bind_some, hmore]

/-- **A foreign key is read.** -/
theorem foreignKey_append (h : ForeignKeyText fk t) (hfk : fk.isPrintable) (cs : List Char) :
    foreignKey (t ++ cs) = some (fk, cs) := by
  obtain ⟨hw, hw₁, hw₂, hw₃, hw₄, howner, htarget⟩ := h
  rename_i ownerKeys targetKeys w w₁ w₂ w₃ w₄ owner target
  simp only [ForeignKey.isPrintable, Bool.and_eq_true, List.all_eq_true, List.mem_append] at hfk
  have howners : ∀ name ∈ ownerKeys, Text.isIdentifier name = true := fun name hname =>
    hfk.2 name (.inl hname)
  have htargets : ∀ name ∈ targetKeys, Text.isIdentifier name = true := fun name hname =>
    hfk.2 name (.inr hname)
  have harrow : Ends (w₂ ++ '=' :: '>' :: (w₃ ++ (target ++ (w₄ ++ ')' :: cs)))) :=
    .mk hw₂ (.inl rfl)
  have hclose : Ends (w₄ ++ ')' :: cs) := .mk hw₄ (.inr rfl)
  simp only [List.append_assoc, List.cons_append, List.nil_append]
  simp only [foreignKey, keyword_append (by decide : "fk".toList.map Char.toLower = _),
    Option.bind_eq_bind, Option.bind_some, spacing_append hw (rfl : spacing ('(' :: _) = _),
    exactly_cons, spacing_append hw₁ (howner.spacing howners),
    nameList_append howner howners harrow,
    spacing_append hw₂ (rfl : spacing ('=' :: _) = _), exactly_arrow,
    spacing_append hw₃ (htarget.spacing htargets), nameList_append htarget htargets hclose,
    spacing_append hw₄ (rfl : spacing (')' :: _) = _)]

theorem ForeignKeyText.spacing (h : ForeignKeyText fk t) : spacing (t ++ cs) = t ++ cs := by
  obtain ⟨_⟩ := h
  rfl

theorem multiplicity_append (many : Bool) (cs : List Char) :
    multiplicity (multiplicityText many ++ cs) = some (many, cs) := by
  cases many <;> rfl

theorem foreignKey_mark : ∀ c ∈ ['-', ',', ')'], ∀ cs, foreignKey (c :: cs) = none := by
  intro c hc cs
  simp only [List.mem_cons, List.not_mem_nil, or_false] at hc
  rcases hc with rfl | rfl | rfl <;> rfl

theorem navigationDecl_append {target : String} {many : Bool} (hw : SomeSpaces w)
    (htarget : Text.isIdentifier target) (hcs : Closes cs) :
    navigationDecl (multiplicityText many ++ (w ++ (target.toList ++ cs))) =
      some (.navigation many target none, cs) := by
  simp only [navigationDecl, multiplicity_append, Option.bind_eq_bind, Option.bind_some,
    someSpacing_append hw (spacing_name htarget), identifier_append htarget hcs.apart,
    hcs.bind_eq_none foreignKey_mark]

theorem navigationDecl_append_keyed {target : String} {many : Bool} {w' : List Char}
    (hw : SomeSpaces w) (hw' : SomeSpaces w') (ht : ForeignKeyText fk t)
    (htarget : Text.isIdentifier target) (hfk : fk.isPrintable) (cs : List Char) :
    navigationDecl (multiplicityText many ++ (w ++ (target.toList ++ (w' ++ (t ++ cs))))) =
      some (.navigation many target (some fk), cs) := by
  simp only [navigationDecl, multiplicity_append, Option.bind_eq_bind, Option.bind_some,
    someSpacing_append hw (spacing_name htarget), identifier_append htarget hw'.apart,
    someSpacing_append hw' ht.spacing, foreignKey_append ht hfk]

/-! ## Members -/

/-- A declaration that stands for a member. -/
structure Declares (d : String × MemberDecl) (m : Member) : Prop where
  name : d.1 = m.name
  kind (entity : String) : d.2.kind entity m.name = .ok m.kind

theorem kind_append {kind : MemberKind} (h : KindText name kind t) (hkind : kind.isPrintable)
    (hcs : Closes cs) :
    ∃ d : MemberDecl, (navigationDecl (t ++ cs) <|> columnDecl (t ++ cs)) = some (d, cs) ∧
      ∀ entity, d.kind entity name = .ok kind := by
  cases h with
  | @column c flags t hstates hflags =>
    simp only [MemberKind.isPrintable, Bool.and_eq_true, Bool.or_eq_true, bne_iff_ne] at hkind
    obtain ⟨⟨hcolumn, hsize⟩, htimestamp⟩ := hkind
    have hnames : ∀ x, .column x ∈ flags → Text.isIdentifier x = true := fun x hx =>
      (hstates.column hx).symm ▸ hcolumn
    have hmake := hstates.foldl_apply fun heq => htimestamp.resolve_left (· heq)
    simp only [List.append_assoc]
    refine ⟨.column c.dbType.name c.size flags, ?_, fun entity => ?_⟩
    · rw [navigationDecl_name, columnDecl_append hsize hflags hnames hcs]
      rfl
    · simp only [MemberDecl.kind, ofWord?_name, hmake]
  | @navigation target many w hw =>
    simp only [MemberKind.isPrintable, Option.all_none, Bool.and_true] at hkind
    simp only [List.append_assoc]
    refine ⟨.navigation many target none, ?_, fun entity => rfl⟩
    rw [navigationDecl_append hw hkind hcs]
    rfl
  | @keyed target many fk w w' t hw hw' ht =>
    simp only [MemberKind.isPrintable, Option.all_some, Bool.and_eq_true] at hkind
    simp only [List.append_assoc]
    refine ⟨.navigation many target (some fk), ?_, fun entity => rfl⟩
    rw [navigationDecl_append_keyed hw hw' ht hkind.1 hkind.2]
    rfl

theorem KindText.spacing {kind : MemberKind} (h : KindText name kind t) :
    spacing (t ++ cs) = t ++ cs := by
  cases h with
  | @column c _ _ _ _ =>
    simp only [List.append_assoc]
    exact spacing_name (isIdentifier_name c.dbType)
  | @navigation _ many _ _ => cases many <;> rfl
  | @keyed _ many _ _ _ _ _ _ _ => cases many <;> rfl

/-- **A member is read.** -/
theorem member_append {m : Member} (h : MemberText m t) (hm : m.isPrintable)
    (hcs : Closes cs) : ∃ d, member (t ++ cs) = some (d, cs) ∧ Declares d m := by
  obtain ⟨hb, hw, ht⟩ := h
  rename_i name kind b w t
  simp only [Member.isPrintable, Bool.and_eq_true] at hm
  obtain ⟨d, hd, hkind⟩ := kind_append ht hm.2 hcs
  refine ⟨(name, d), ?_, rfl, hkind⟩
  simp only [List.append_assoc]
  simp only [member, blank_append hb (bare_name hm.1), identifier_append hm.1 hw.apart,
    someSpacing_append hw ht.spacing, Option.bind_eq_bind, Option.bind_some, hd]

theorem MoreMembersText.closes (h : MoreMembersText ms t) (hb : Blanks b) (cs : List Char) :
    Closes (t ++ (b ++ ')' :: cs)) := by
  cases h with
  | nil => exact .mk hb (.inr rfl)
  | cons hb' _ _ =>
    simp only [List.append_assoc, List.cons_append]
    exact .mk hb' (.inl rfl)

/-- **Members after the first are read.** -/
theorem moreMembers_append (h : MoreMembersText ms t) (hms : ∀ m ∈ ms, m.isPrintable = true)
    (hb : Blanks b) (cs : List Char) (hsteps : t.length ≤ steps) :
    ∃ ds, moreMembers steps (t ++ (b ++ ')' :: cs)) = (ds, b ++ ')' :: cs) ∧
      List.Forall₂ Declares ds ms := by
  induction h generalizing steps with
  | nil =>
    refine ⟨[], ?_, .nil⟩
    cases steps with
    | zero => rfl
    | succ steps =>
      have hclose : exactly [','] (')' :: cs) = none := rfl
      rw [List.nil_append, moreMembers, blank_append hb (bare_cons (by decide) (by decide)), hclose,
        Option.bind_none]
  | @cons m ms b' t ts hb' ht hts ih =>
    simp only [List.length_append, List.length_cons] at hsteps
    obtain ⟨steps, rfl⟩ : ∃ n, steps = n + 1 := ⟨steps - 1, by omega⟩
    obtain ⟨d, hd, hm⟩ := member_append ht (hms m (by simp)) (hts.closes hb cs)
    obtain ⟨ds, hds, hrest⟩ := ih (fun m' hm' => hms m' (List.mem_cons_of_mem m hm'))
      (by omega : ts.length ≤ steps)
    refine ⟨d :: ds, ?_, .cons hm hrest⟩
    simp only [List.append_assoc, List.cons_append]
    rw [moreMembers, blank_append hb' (bare_cons (by decide) (by decide)), exactly_cons,
      Option.bind_some, hd]
    simp only [hds]

/-! ## Entities -/

/-- A declaration that stands for an entity. -/
structure Declaration.Stands (d : Declaration) (e : Entity) : Prop where
  name : d.name = e.ty
  table : d.table = some e.table
  members : List.Forall₂ Declares d.members e.members

theorem tableName_append {table : String} {w' : List Char} (hw : Spaces w) (hw' : Spaces w')
    (htable : Text.isIdentifier table) (hcs : Apart cs) :
    tableName (w ++ '=' :: '>' :: (w' ++ (table.toList ++ cs))) = some (table, cs) := by
  simp only [tableName, spacing_append hw (rfl : spacing ('=' :: _) = _), exactly_arrow,
    Option.bind_eq_bind, Option.bind_some, spacing_append hw' (spacing_name htable),
    identifier_append htable hcs]

/-- **An entity is read.** -/
theorem declaration_append (h : EntityText e t) (he : e.isPrintable) (cs : List Char) :
    ∃ d : Declaration, declaration (t ++ cs) = some (d, cs) ∧ d.Stands e := by
  obtain ⟨hb, hw, hw₁, hw₂, hb₁, hm, hms, hb₂⟩ := h
  rename_i ty table m ms b b₁ b₂ w w₁ w₂ t ts
  simp only [Entity.isPrintable, Bool.and_eq_true, List.all_eq_true] at he
  obtain ⟨⟨⟨⟨hty, htable⟩, -⟩, -⟩, hmembers⟩ := he
  obtain ⟨d, hd, hfirst⟩ := member_append hm (hmembers m (by simp)) (hms.closes hb₂ cs)
  obtain ⟨ds, hds, hmore⟩ := moreMembers_append hms
    (fun m' hm' => hmembers m' (List.mem_cons_of_mem m hm')) hb₂ cs
    (by simp : ts.length ≤ (ts ++ (b₂ ++ ')' :: cs)).length)
  refine ⟨⟨ty, some table, d :: ds⟩, ?_, rfl, rfl, .cons hfirst hmore⟩
  have hword (cs : List Char) : blank (b ++ ("entity".toList ++ cs)) = "entity".toList ++ cs :=
    blank_append hb (bare_cons (by decide) (by decide))
  have hopen (cs : List Char) : blank (b₁ ++ '(' :: cs) = '(' :: cs :=
    blank_append hb₁ (bare_cons (by decide) (by decide))
  have hclose : blank (b₂ ++ ')' :: cs) = ')' :: cs :=
    blank_append hb₂ (bare_cons (by decide) (by decide))
  have hty' (cs : List Char) : Apart (w₁ ++ '=' :: cs) := hw₁.apart (apart_cons (by decide))
  have htable' (cs : List Char) : Apart (b₁ ++ '(' :: cs) := hb₁.apart (apart_cons (by decide))
  simp only [List.append_assoc, List.cons_append, List.nil_append]
  simp only [declaration, hword, keyword_append (by decide : "entity".toList.map Char.toLower = _),
    someSpacing_append hw (spacing_name hty), identifier_append hty (hty' _),
    tableName_append hw₁ hw₂ htable (htable' _), hopen, hd, hds, hclose, exactly_cons,
    Option.bind_eq_bind, Option.bind_some]

theorem EntityText.length_pos (h : EntityText e t) : 0 < t.length := by
  obtain ⟨_, _, _, _, _, _, _, _⟩ := h
  refine List.length_pos_of_ne_nil fun hnil => ?_
  rw [List.append_eq_nil_iff] at hnil
  exact absurd hnil.2 (by simp)

theorem declaration_blanks (hb : Blanks b) : declaration b = none := by
  have hblank : blank b = [] := by
    rw [← List.append_nil b]
    exact blank_append hb bare_nil
  have hword : keyword "entity" [] = none := rfl
  simp only [declaration, hblank, hword, Option.bind_eq_bind, Option.bind_none]

theorem declarationsAt_append (h : EntitiesText es t) (hes : ∀ e ∈ es, e.isPrintable = true)
    (hb : Blanks b) (hsteps : t.length ≤ steps) :
    ∃ ds, declarationsAt steps (t ++ b) = (ds, b) ∧ List.Forall₂ Declaration.Stands ds es := by
  induction h generalizing steps with
  | nil =>
    refine ⟨[], ?_, .nil⟩
    cases steps with
    | zero => rfl
    | succ steps => rw [List.nil_append, declarationsAt, declaration_blanks hb]
  | @cons e es t ts he hts ih =>
    have hpos := he.length_pos
    rw [List.length_append] at hsteps
    obtain ⟨steps, rfl⟩ : ∃ n, steps = n + 1 := ⟨steps - 1, by omega⟩
    obtain ⟨d, hd, hstands⟩ := declaration_append he (hes e (by simp)) (ts ++ b)
    obtain ⟨ds, hds, hrest⟩ := ih (fun e' he' => hes e' (List.mem_cons_of_mem e he'))
      (by omega : ts.length ≤ steps)
    refine ⟨d :: ds, ?_, .cons hstands hrest⟩
    rw [List.append_assoc, declarationsAt, hd]
    simp only [hds]

theorem blank_entities {b' : List Char} (hb : Blanks b) (h : EntitiesText es t) (hb' : Blanks b') :
    ∃ t' b'', EntitiesText es t' ∧ Blanks b'' ∧ blank (b ++ (t ++ b')) = t' ++ b'' := by
  cases h with
  | nil =>
    refine ⟨[], [], .nil, .nil, ?_⟩
    have hblank := blank_append (hb.append hb') bare_nil
    rw [List.append_nil] at hblank
    exact hblank
  | cons he hes =>
    obtain ⟨hb₀, hw, hw₁, hw₂, hb₁, hm, hms, hb₂⟩ := he
    refine ⟨_, b', .cons (.mk .nil hw hw₁ hw₂ hb₁ hm hms hb₂) hes, hb', ?_⟩
    simp only [List.append_assoc, List.nil_append]
    rw [← List.append_assoc]
    exact blank_append (hb.append hb₀) (bare_cons (by decide) (by decide))

/-- **The entities of a text are read, and nothing is left.** -/
theorem declarations_append {b' : List Char} (hb : Blanks b) (h : EntitiesText es t)
    (hes : ∀ e ∈ es, e.isPrintable = true) (hb' : Blanks b') :
    ∃ ds, declarations (b ++ (t ++ b')) = (ds, []) ∧ List.Forall₂ Declaration.Stands ds es := by
  obtain ⟨t', b'', ht', hb'', hstart⟩ := blank_entities hb h hb'
  obtain ⟨ds, hds, hstands⟩ := declarationsAt_append ht' hes hb''
    (by simp : t'.length ≤ (t' ++ b'').length)
  have hrest := blank_append hb'' bare_nil
  rw [List.append_nil] at hrest
  refine ⟨ds, ?_, hstands⟩
  simp only [declarations, hstart, hds, hrest]

/-! ## From declarations to a schema -/

/-- **Members of different names are added one after another.** `done` holds those added before. -/
theorem addMembers_eq {entity : String} {ds : List (String × MemberDecl)} {done : List Member}
    (h : List.Forall₂ Declares ds ms) (hdistinct : ((done ++ ms).map Member.name).Nodup) :
    addMembers entity done ds = .ok (done ++ ms) := by
  induction h generalizing done with
  | nil => simp [addMembers]
  | @cons d m ds ms hd _ ih =>
    obtain ⟨name, decl⟩ := d
    obtain ⟨rfl, hkind⟩ := hd
    have hnew : done.any (·.name == m.name) = false := by
      rw [List.any_eq_false]
      intro x hx heq
      rw [List.map_append, List.nodup_append] at hdistinct
      exact hdistinct.2.2 x.name (List.mem_map_of_mem hx) m.name (by simp) (by simpa using heq)
    have hrest : addMembers entity (done ++ [m]) ds = .ok (done ++ [m] ++ ms) :=
      ih (by simpa using hdistinct)
    rw [List.append_assoc, List.singleton_append] at hrest
    simp only [addMembers, hkind, hnew]
    exact hrest

theorem Declaration.Stands.register_eq {d : Declaration} (h : d.Stands e)
    (he : e.isPrintable) (s : Schema) : d.register s = .ok (s.register e) := by
  obtain ⟨hname, htable, hmembers⟩ := h
  simp only [Entity.isPrintable, Bool.and_eq_true, decide_eq_true_eq] at he
  have hadd : addMembers d.name [] d.members = .ok e.members :=
    addMembers_eq hmembers (by simpa using he.1.2)
  rw [Declaration.register, hadd]
  simp only [hname, htable, Option.getD_some]
  rfl

theorem foldlM_register {ds : List Declaration} (h : List.Forall₂ Declaration.Stands ds es)
    (hes : ∀ e ∈ es, e.isPrintable = true) (s : Schema) :
    ds.foldlM Declaration.register s = .ok (es.foldl Schema.register s) := by
  induction h generalizing s with
  | nil => rfl
  | @cons d e ds es hd _ ih =>
    rw [List.foldlM_cons, hd.register_eq (hes e (by simp))]
    exact ih (fun e' he' => hes e' (List.mem_cons_of_mem e he')) _

end Grammar

open Grammar

theorem perm_insertSorted {ty : String} {entity : Entity} {entries : List (String × Entity)}
    (h : ∀ x ∈ entries, x.1 ≠ ty) :
    (insertSorted ty entity entries).Perm ((ty, entity) :: entries) := by
  induction entries with
  | nil => exact .refl _
  | cons x entries ih =>
    have hne : ty ≠ x.1 := (h x (by simp)).symm
    rw [insertSorted, if_neg hne]
    split
    · exact .refl _
    · exact ((ih fun y hy => h y (List.mem_cons_of_mem x hy)).cons x).trans (.swap _ _ _)

/-- Entities of different types are all registered. -/
theorem perm_foldl_register (h : (s.entities.map (·.1) ++ es.map Entity.ty).Nodup) :
    (es.foldl register s).entities.Perm (es.map (fun e => (e.ty, e)) ++ s.entities) := by
  induction es generalizing s with
  | nil => exact .refl _
  | cons e es ih =>
    have hnew : ∀ x ∈ s.entities, x.1 ≠ e.ty := fun x hx =>
      (List.nodup_append.1 h).2.2 x.1 (List.mem_map_of_mem hx) e.ty (by simp)
    have hinsert : (s.register e).entities.Perm ((e.ty, e) :: s.entities) := perm_insertSorted hnew
    have hdistinct : ((s.register e).entities.map (·.1) ++ es.map Entity.ty).Nodup := by
      refine (((hinsert.map (·.1)).append_right _).nodup_iff).2 ?_
      rw [List.map_cons] at h
      exact (List.perm_middle.nodup_iff).1 h
    rw [List.foldl_cons]
    refine (ih hdistinct).trans ((hinsert.append_left _).trans ?_)
    exact List.perm_middle

theorem eq_of_perm {s' : Schema} (h : s.entities.Perm s'.entities) : s = s' := by
  obtain ⟨entries, hsorted⟩ := s
  obtain ⟨entries', hsorted'⟩ := s'
  obtain rfl : entries = entries' := by
    refine h.eq_of_pairwise ?_ hsorted hsorted'
    intro x y _ _ hxy hyx
    exact absurd (String.lt_trans hxy hyx) (String.lt_irrefl _)
  rfl

/-- **Entities registered in any order make the schema that holds them**, if it has each under its
own type. -/
theorem foldl_register_eq (h : es.Perm (s.entities.map (·.2)))
    (hkeyed : ∀ x ∈ s.entities, x.1 = x.2.ty) : es.foldl register empty = s := by
  have hentries : (s.entities.map (·.2)).map (fun e => (e.ty, e)) = s.entities := by
    rw [List.map_map]
    conv_rhs => rw [← List.map_id s.entities]
    refine List.map_congr_left fun x hx => ?_
    rw [Function.comp_apply, ← hkeyed x hx, id]
  have htypes : (s.entities.map (·.2)).map Entity.ty = s.entities.map (·.1) := by
    rw [List.map_map]
    exact List.map_congr_left fun x hx => (hkeyed x hx).symm
  have hdistinct : (s.entities.map (·.1)).Nodup :=
    List.pairwise_map.2 (s.sorted.imp fun hlt => Std.ne_of_lt hlt)
  have hnew : (empty.entities.map (·.1) ++ es.map Entity.ty).Nodup := by
    refine (h.map Entity.ty).nodup_iff.2 ?_
    rwa [htypes]
  refine eq_of_perm ((perm_foldl_register hnew).trans ?_)
  have hall := h.map fun e => (e.ty, e)
  rw [hentries] at hall
  rwa [show empty.entities = [] from rfl, List.append_nil]

/-- **Every layout of a schema is read back as the schema**, and there is one. -/
theorem ofText_layout (s : Schema) (h : s.isPrintable = true) :
    (∃ text, s.Layout text) ∧ ∀ text, s.Layout text → ofText text = .ok s := by
  refine ⟨exists_layout h, ?_⟩
  rintro _ ⟨hperm, hb, ht, hb'⟩
  rename_i es b b' t
  simp only [isPrintable, List.all_eq_true, Bool.and_eq_true, beq_iff_eq] at h
  have hes : ∀ e ∈ es, e.isPrintable = true := by
    intro e he
    obtain ⟨x, hx, rfl⟩ := List.mem_map.1 (hperm.mem_iff.1 he)
    exact (h x hx).2
  obtain ⟨ds, hds, hstands⟩ := declarations_append hb ht hes hb'
  simp only [ofText, String.toList_ofList, hds, List.isEmpty_nil, if_true]
  rw [foldlM_register hstands hes, foldl_register_eq hperm fun x hx => (h x hx).1]

/-- Two entities, with names that are words of the grammar. -/
def clients : Schema :=
  (empty.register ⟨"Client", "Clients", [
    ⟨"key", .column { column := "Ключ", dbType := .nVarChar, size := some 32, key := true }⟩,
    ⟨"Stamp", .column (Column.new "Stamp" .timestamp)⟩]⟩).register ⟨"Account", "Account", [
    ⟨"ref", .navigation { target := "Client", foreignKey := some ⟨["A", "B"], ["key", "fk"]⟩ }⟩]⟩

def clientsText : String :=
  "-- rows\n entity Client=>Clients(key nvarchar(32)\tkey column( Ключ) -- name\r\n," ++
    "Stamp timestamp)entity Account => Account(ref ref Client fk (A,B =>key, fk)) "

theorem layout_clients : clients.Layout clientsText := by
  have hkey : States "key" { column := "Ключ", dbType := .nVarChar, size := some 32, key := true }
      [.key, .column "Ключ"] := by
    constructor <;> simp
  have hstamp : States "Stamp" (Column.new "Stamp" .timestamp) [] := by
    constructor <;> simp [Column.new]
  have hname : Blanks " -- name\r\n".toList :=
    .space rfl (@Blanks.comment " name".toList _ _ (by simp) (.inr rfl) .nil)
  have hrows : Blanks "-- rows\n ".toList :=
    @Blanks.comment " rows".toList _ _ (by simp) (.inl rfl) (.space rfl .nil)
  have hclient : EntityText ⟨"Client", "Clients", [⟨"key", .column _⟩, ⟨"Stamp", .column _⟩]⟩ _ :=
    .mk .nil someSpaces_space spaces_nil spaces_nil .nil
    (.mk .nil someSpaces_space (.column hkey (.cons (by decide : SomeSpaces ['\t']) .key
      (.cons someSpaces_space (.column someSpaces_space.2 spaces_nil) .nil))))
    (.cons hname (.mk .nil someSpaces_space (.column hstamp .nil)) .nil) .nil
  have hkeys : ForeignKeyText ⟨["A", "B"], ["key", "fk"]⟩ _ :=
    .mk someSpaces_space.2 spaces_nil someSpaces_space.2 spaces_nil spaces_nil
      (.mk (.cons spaces_nil spaces_nil .nil)) (.mk (.cons spaces_nil someSpaces_space.2 .nil))
  have haccount : EntityText ⟨"Account", "Account", [⟨"ref", .navigation
      { target := "Client", foreignKey := some ⟨["A", "B"], ["key", "fk"]⟩ }⟩]⟩ _ :=
    .mk .nil someSpaces_space someSpaces_space.2 someSpaces_space.2 .nil
    (.mk .nil someSpaces_space (.keyed someSpaces_space someSpaces_space hkeys)) .nil .nil
  have hlayout := Layout.mk (s := clients) (.swap _ _ _) hrows (.cons hclient (.cons haccount .nil))
    (.space (rfl : Text.isSpacing ' ' = true) .nil)
  refine Eq.mp (congrArg clients.Layout ?_) hlayout
  decide +kernel

/-- The clients are read back from the text. -/
theorem ofText_layout_clients : ofText clientsText = .ok clients :=
  (ofText_layout clients (by decide)).2 clientsText layout_clients

end QueryCompiler.Schema

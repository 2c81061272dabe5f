import Mathlib.Data.List.Infix
import QueryCompiler.Compile
import QueryCompiler.Proofs.Sql.Quotations
/-!
# Patterns

A pattern of `LIKE` is cut into wildcards: `%` stands for any characters, `_` for one, and the others
for themselves. One dialect has sets of characters in brackets, the other takes the meaning from a
character behind a backslash. A string that is escaped is matched by itself alone
(`Dialect.acceptsAll_escaped_iff`). So with `%` behind it, before it or on both sides, it is matched by
the strings that start with it, end with it or contain it, and a server receives this pattern
whether the constant is written out or passed as a parameter (`Dialect.likes_exactly`).
-/

namespace QueryCompiler

/-- A part of a pattern. -/
inductive Wildcard where
  /-- just this character -/
  | char (c : Char)
  /-- any one character -/
  | one
  /-- any characters, or none -/
  | any
  /-- a character in one of the ranges, or in none of them -/
  | set (negated : Bool) (ranges : List (Char × Char))
  deriving DecidableEq, Repr

namespace Wildcard

/-- Whether a character matches. -/
def accepts : Wildcard → Char → Bool
  | char c, x => x == c
  | one, _ | any, _ => true
  | set negated ranges, x => (ranges.any fun (low, high) => low ≤ x && x ≤ high) != negated

/-- Whether some characters match, from the first to the last. -/
def acceptsAll : List Wildcard → List Char → Bool
  | [], text => text.isEmpty
  | any :: ws, text => text.tails.any (acceptsAll ws)
  | _ :: _, [] => false
  | w :: ws, c :: cs => w.accepts c && acceptsAll ws cs

/-- The ranges of a set: two characters with a hyphen between them, or a character by itself. -/
def rangesOf : List Char → List (Char × Char)
  | low :: '-' :: high :: cs => (low, high) :: rangesOf cs
  | c :: cs => (c, c) :: rangesOf cs
  | [] => []

/-- The set that some characters in brackets stand for. -/
def setOf : List Char → Wildcard
  | '^' :: cs => set true (rangesOf cs)
  | cs => set false (rangesOf cs)

/-- The parts of a pattern with sets, outside of a set or behind some characters of one. Nothing
matches a set that is not closed. -/
def ofBrackets : Option (List Char) → List Char → List Wildcard
  | none, [] => []
  | none, '%' :: cs => any :: ofBrackets none cs
  | none, '_' :: cs => one :: ofBrackets none cs
  | none, '[' :: cs => ofBrackets (some []) cs
  | none, c :: cs => char c :: ofBrackets none cs
  | some _, [] => [set false []]
  | some inside, ']' :: cs => setOf inside :: ofBrackets none cs
  | some inside, c :: cs => ofBrackets (some (inside ++ [c])) cs

def ofEscapes : List Char → List Wildcard
  | '\\' :: c :: cs => char c :: ofEscapes cs
  | '%' :: cs => any :: ofEscapes cs
  | '_' :: cs => one :: ofEscapes cs
  | c :: cs => char c :: ofEscapes cs
  | [] => []

/-- A part that just one character matches. -/
structure Just (c : Char) (w : Wildcard) : Prop where
  ne_any : w ≠ any
  accepts : ∀ x, w.accepts x = true ↔ x = c

theorem just_char (c : Char) : Just c (char c) := ⟨by simp, by simp [accepts]⟩

/-- A set of one range that starts and ends with the same character. -/
theorem just_set (c : Char) : Just c (set false [(c, c)]) where
  ne_any := by simp
  accepts x := by
    simp only [accepts, List.any_cons, List.any_nil, Bool.or_false, Bool.bne_false,
      Bool.and_eq_true, decide_eq_true_eq]
    exact ⟨fun ⟨hlow, hhigh⟩ => Char.le_antisymm hhigh hlow,
      fun h => h ▸ ⟨Char.le_refl x, Char.le_refl x⟩⟩

end Wildcard

namespace Dialect

open Wildcard

def wildcards : Dialect → List Char → List Wildcard
  | sqlServer => ofBrackets none
  | mySql => ofEscapes

def likes (d : Dialect) (pattern text : String) : Bool :=
  acceptsAll (d.wildcards pattern.toList) text.toList

/-! ## Escaped strings -/

/-- A character as it is escaped in a pattern. -/
def inPattern : Dialect → Char → List Char
  | sqlServer, c => if c == '[' || c == '%' || c == '_' then ['[', c, ']'] else [c]
  | mySql, c => if c == '\\' || c == '%' || c == '_' then ['\\', c] else [c]

variable {d : Dialect} {c : Char} {cs p text : List Char} {s : String}

theorem toList_likeEscape : (d.likeEscape s).toList = s.toList.flatMap d.inPattern := by
  cases d <;> simp only [likeEscape, replaceChars, String.toList_ofList] <;> rfl

/-- **An escaped character is one part of a pattern**, which only this character matches. -/
theorem exists_just_inPattern (d : Dialect) (c : Char) (p : List Char) :
    ∃ w, Just c w ∧ d.wildcards (d.inPattern c ++ p) = w :: d.wildcards p := by
  cases d with
  | sqlServer =>
    by_cases hc : c = '[' ∨ c = '%' ∨ c = '_'
    · refine ⟨set false [(c, c)], just_set c, ?_⟩
      rcases hc with rfl | rfl | rfl <;> rfl
    · obtain ⟨hset, hany, hone⟩ := not_or.1 hc |>.imp_right not_or.1
      refine ⟨char c, just_char c, ?_⟩
      simp [inPattern, hset, hany, hone, wildcards, ofBrackets]
  | mySql =>
    by_cases hc : c = '\\' ∨ c = '%' ∨ c = '_'
    · refine ⟨char c, just_char c, ?_⟩
      rcases hc with rfl | rfl | rfl <;> rfl
    · obtain ⟨hescape, hany, hone⟩ := not_or.1 hc |>.imp_right not_or.1
      refine ⟨char c, just_char c, ?_⟩
      simp [inPattern, hescape, hany, hone, wildcards, ofEscapes]

theorem acceptsAll_just_iff {w : Wildcard} {ws : List Wildcard} (h : Just c w) :
    acceptsAll (w :: ws) text = true ↔
      ∃ rest, text = c :: rest ∧ acceptsAll ws rest = true := by
  cases text with
  | nil =>
    cases w with
    | any => exact absurd rfl h.ne_any
    | _ => simp [acceptsAll]
  | cons x rest =>
    have hmatches : acceptsAll (w :: ws) (x :: rest) =
        (w.accepts x && acceptsAll ws rest) := by
      cases w with
      | any => exact absurd rfl h.ne_any
      | _ => rfl
    rw [hmatches, Bool.and_eq_true, h.accepts]
    simp

/-- **Before an escaped string stands just that string**, and what follows matches what follows. -/
theorem acceptsAll_escaped_iff :
    acceptsAll (d.wildcards (cs.flatMap d.inPattern ++ p)) text = true ↔
      ∃ rest, text = cs ++ rest ∧ acceptsAll (d.wildcards p) rest = true := by
  induction cs generalizing text with
  | nil => simp
  | cons c cs ih =>
    obtain ⟨w, hjust, hparts⟩ := exists_just_inPattern d c (cs.flatMap d.inPattern ++ p)
    rw [List.flatMap_cons, List.append_assoc, hparts, acceptsAll_just_iff hjust]
    constructor
    · rintro ⟨rest, rfl, hrest⟩
      obtain ⟨rest, rfl, hmatches⟩ := ih.1 hrest
      exact ⟨rest, rfl, hmatches⟩
    · rintro ⟨rest, rfl, hmatches⟩
      exact ⟨cs ++ rest, rfl, ih.2 ⟨rest, rfl, hmatches⟩⟩

/-! ## Any characters -/

theorem wildcards_nil : d.wildcards [] = [] := by cases d <;> rfl

theorem wildcards_percent : d.wildcards ('%' :: p) = any :: d.wildcards p := by
  cases d <;> simp [wildcards, ofBrackets, ofEscapes]

theorem acceptsAll_any_iff {ws : List Wildcard} :
    acceptsAll (any :: ws) text = true ↔ ∃ rest, rest <:+ text ∧ acceptsAll ws rest = true := by
  simp [acceptsAll]

theorem likes_behind_iff {t : String} :
    d.likes (d.likeEscape s ++ "%") t = true ↔ s.toList <+: t.toList := by
  rw [likes, String.toList_append, toList_likeEscape, acceptsAll_escaped_iff]
  constructor
  · rintro ⟨rest, htext, -⟩
    exact ⟨rest, htext.symm⟩
  · rintro ⟨rest, htext⟩
    refine ⟨rest, htext.symm, ?_⟩
    show acceptsAll (d.wildcards ['%']) rest = true
    rw [wildcards_percent, wildcards_nil, acceptsAll_any_iff]
    exact ⟨[], List.nil_suffix, rfl⟩

theorem likes_before_iff {t : String} :
    d.likes ("%" ++ d.likeEscape s) t = true ↔ s.toList <:+ t.toList := by
  have hpattern : ("%" ++ d.likeEscape s).toList = '%' :: (s.toList.flatMap d.inPattern ++ []) := by
    simp [toList_likeEscape]
  rw [likes, hpattern, wildcards_percent, acceptsAll_any_iff]
  simp only [acceptsAll_escaped_iff, wildcards_nil]
  constructor
  · rintro ⟨rest, hsuffix, end_, rfl, hend⟩
    obtain rfl : end_ = [] := by simpa [acceptsAll] using hend
    simpa using hsuffix
  · intro hsuffix
    exact ⟨s.toList, hsuffix, [], by simp, rfl⟩

theorem likes_around_iff {t : String} :
    d.likes ("%" ++ d.likeEscape s ++ "%") t = true ↔ s.toList <:+: t.toList := by
  have hpattern : ("%" ++ d.likeEscape s ++ "%").toList =
      '%' :: (d.likeEscape s ++ "%").toList := by simp
  rw [likes, hpattern, wildcards_percent, acceptsAll_any_iff, List.infix_iff_prefix_suffix]
  refine exists_congr fun rest => ?_
  rw [and_comm]
  refine and_congr_left fun _ => ?_
  simpa [likes] using likes_behind_iff (d := d) (s := s) (t := String.ofList rest)

end Dialect

/-! ## Patterns of a query -/

open Sql (Constant Part Reading Scope Typed)

/-- The string of a constant as a server receives it: as the value of the parameter that the text
names, or by reading the string literal in the text, whatever follows it. -/
def Config.Receives (config : Config) (c : Constant) (s : String) : Prop :=
  if config.parameterized then
    (config.parameter c).name = config.writeConstant c ∧ (config.parameter c).value = .string s
  else ∀ r : String, r.toList.head? ≠ some '\x27' →
    config.dialect.readString (config.writeConstant c ++ r) = some (s, r)

theorem Config.receives_string {config : Config} {c : Constant} {s : String}
    (h : c.value = .string s) : config.Receives c s := by
  unfold Receives
  split
  · rename_i hparameterized
    exact ⟨by simp [parameter, writeConstant, hparameterized], h⟩
  · rename_i hinline
    intro r hr
    have htext : config.writeConstant c =
        config.dialect.stringLiteral config.unicodeLiterals s := by
      simp [writeConstant, hinline, h, Value.literal]
    rw [htext]
    exact Dialect.readString_stringLiteral_iff.2 hr

/-- **Escaped patterns are exact**: they are matched by the strings that start with, end with or
contain the escaped one, and a server receives the same pattern from a literal as from a parameter. -/
theorem Dialect.likes_exactly (d : Dialect) (s : String) :
    (∀ t, d.likes (d.likeEscape s ++ "%") t = true ↔ s.toList <+: t.toList) ∧
    (∀ t, d.likes ("%" ++ d.likeEscape s) t = true ↔ s.toList <:+ t.toList) ∧
    (∀ t, d.likes ("%" ++ d.likeEscape s ++ "%") t = true ↔ s.toList <:+: t.toList) ∧
    ∀ (value : Reading Typed) (before behind : Bool) (scope : Scope), ∃ c : Constant,
      (Part.pattern d ⟨.constant (.string s), value⟩ before behind).run scope =
        .ok (.constant c, { scope with constants := scope.constants ++ [c] }) ∧
      ∀ config : Config, config.dialect = d → config.Receives c
        ((if before then "%" else "") ++ d.likeEscape s ++ (if behind then "%" else "")) :=
  ⟨fun _ => likes_behind_iff, fun _ => likes_before_iff, fun _ => likes_around_iff,
    fun _ _ _ _ => ⟨_, rfl, fun _ _ => Config.receives_string rfl⟩⟩

example : Dialect.sqlServer.likes "[^a-c]_[-%]%" "d1%" = true ∧
    Dialect.mySql.likes "\\%_" "%%%" = false := by decide

end QueryCompiler

/-!
# Text: comparison that ignores ASCII case

Operator names, member names and type names are matched without regard to the case of the letters
`A` to `Z`. No other character has a case here: `É` and `é` stay apart.
-/

namespace QueryCompiler.Text

/-- The text with the letters `A` to `Z` lowered. -/
def lowerAscii (s : String) : String :=
  s.map Char.toLower

/-- Two texts that differ at most in the case of ASCII letters. -/
def sameIgnoringCase (a b : String) : Bool :=
  lowerAscii a == lowerAscii b

theorem sameIgnoringCase_iff {a b : String} :
    sameIgnoringCase a b ↔ lowerAscii a = lowerAscii b := by
  simp [sameIgnoringCase]

@[simp] theorem sameIgnoringCase_self (a : String) : sameIgnoringCase a a = true := by
  simp [sameIgnoringCase]

end QueryCompiler.Text

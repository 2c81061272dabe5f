/-!
# Fresh names

A name that is taken gets the first free number behind it.
-/

namespace QueryCompiler.Text

/-- The `n`-th candidate for a name: the name itself, then the name with a number. -/
def candidate (preferred : String) : Nat → String
  | 0 => preferred
  | n + 1 => preferred ++ toString (n + 1)

/-- The first candidate that is not taken. Among one more candidate than there are names taken, one
is free. -/
def freshName (taken : List String) (preferred : String) : String :=
  (((List.range (taken.length + 1)).map (candidate preferred)).find?
    (!taken.contains ·)).getD preferred

end QueryCompiler.Text

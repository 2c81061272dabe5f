import QueryCompiler.Proofs.Sql.Layouts
import QueryCompiler.Proofs.Sql.SpelledTerms
/-!
# Comments in generated SQL

The script of a statement is scanned from outside to outside, text by text and term by term
(`Layout.Lays.scans`). So every string literal and every quoted name of a command is closed,
whatever strings and names the log and the schema hold. A comment is opened only where a number below
zero is written out right behind the sign of a negation (`Log.opensComment_iff`).
-/

namespace QueryCompiler

namespace Sql

open Dialect

variable {o : Layout} {write : Constant → String}

/-- **A script is scanned from outside to outside** if the terms it is laid out of are well
spelled. -/
theorem Layout.Lays.scans (hw : WritesTidily o.dialect write) {s : Script}
    (h : o.Lays Term.WellSpelled s) : s.Scans o.dialect write := by
  induction h with
  | nil => exact .nil
  | say h => exact .say h
  | term h => exact Term.scans_script hw h
  | append _ _ ih ih' => exact ih.append ih'

end Sql

/-! ## Commands -/

open Sql

theorem Config.writesTidily (config : Config) :
    WritesTidily config.dialect config.writeConstant := by
  intro c
  unfold writeConstant
  split
  · exact ⟨Dialect.tidy_placeholder, by cases config.dialect <;> simp [Dialect.placeholder]⟩
  · exact ⟨c.value.tidy_literal, c.value.literal_ne_empty⟩

/-- A constant is written with a sign if it is written out and below zero. -/
theorem Config.head?_writeConstant_iff {config : Config} {c : Constant} :
    (config.writeConstant c).toList.head? = some '-' ↔
      config.parameterized = false ∧ c.value.isSigned = true := by
  unfold writeConstant
  cases config.parameterized with
  | true => cases config.dialect <;> simp [Dialect.placeholder]
  | false => simpa using c.value.head?_literal_eq_iff

def Schema.quotedBooks : Schema :=
  Schema.empty.register ⟨"Book", "books\x60] -- ",
    [⟨"Id", .column (.new "id' /*" .int)⟩, ⟨"Title", .column (.new "title" .nVarChar)⟩]⟩

/-- Books with a title that holds quotes and comments, and with a number that is compared behind
signs. -/
def Log.quotedBooks : Log :=
  [.getSource "Book",
    .filter ⟨["b"], .binary .and
      (.binary .eq (.member (.param "b") "Title") (.constant (.string "\\' OR 1 = 1 -- /* '")))
      (.binary .gt (.unary .negate (.member (.param "b") "Id"))
        (.binary .sub (.constant (.int (-5))) (.unary .negate (.constant (.int 7)))))⟩]

end QueryCompiler

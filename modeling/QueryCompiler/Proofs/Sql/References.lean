import QueryCompiler.Proofs.Expr.Sources
import QueryCompiler.Proofs.Sql.Written
/-!
# References to rows

Terms refer to columns of numbered rows. This module lists the columns that a term, a clause or a
block refers to, and the rows that a block introduces. What is said of every layer of a statement is
said of its blocks, each with the columns that are referred to beside it (`Statement.AllBlocks`).
-/

namespace QueryCompiler

open Sql

namespace Sql

/-! ## Columns -/

namespace Term

mutual

def refs : Term → List ColumnRef
  | column ref => [ref]
  | null | constant _ | number _ | word _ | truth _ | now _ => []
  | tuple ts | concat ts | call _ ts => refsList ts
  | paren t | isNull t | isNotNull t | not t | negate t | length t | datePart _ t | dateOnly t
  | trim t | stringCast t => t.refs
  | binary _ l r | coalesce l r | like l r | isIn l r => l.refs ++ r.refs
  | caseWhen t a b => t.refs ++ a.refs ++ b.refs
  | substring t start len => t.refs ++ start.refs ++ refsOption len
  | round t digits => t.refs ++ refsOption digits

def refsList : List Term → List ColumnRef
  | [] => []
  | t :: ts => t.refs ++ refsList ts

def refsOption : Option Term → List ColumnRef
  | none => []
  | some t => t.refs

end

attribute [simp] refs

@[simp] theorem refsList_eq (ts : List Term) : refsList ts = ts.flatMap refs := by
  induction ts with
  | nil => rfl
  | cons t ts ih => rw [refsList, ih, List.flatMap_cons]

@[simp] theorem refsOption_eq (t : Option Term) : refsOption t = t.toList.flatMap refs := by
  cases t <;> simp [refsOption]

@[simp] theorem refs_wrap (t : Term) (place : Nat) (strict : Bool) :
    (t.wrap place strict).refs = t.refs := by
  unfold wrap
  split
  · rw [refs]
  · rfl

@[simp] theorem refs_equalsBit (t : Term) (b : Bool) : (t.equalsBit b).refs = t.refs := by
  simp [equalsBit, bit]

@[simp] theorem refs_ofTest (t : Term) : (ofTest t).refs = t.refs := by
  simp [ofTest]

end Term

/-! ## Clauses -/

def SelectList.refs (list : SelectList) : List ColumnRef :=
  list.columns.flatMap (·.1.refs)

/-- The columns in the `ON` of a join. -/
def JoinedRelation.refs (j : JoinedRelation) : List ColumnRef :=
  (j.on.getD []).flatMap fun (l, r) => l.refs ++ r.refs

/-- The columns in the `ON` of a navigation. -/
def NavigationJoin.refs (n : NavigationJoin) : List ColumnRef :=
  n.on.flatMap fun (l, r) => [l, r]

namespace Block

/-- The rows that a block introduces, in the order of the text. -/
def rows (b : Block) : List Nat :=
  0 :: (b.joins.map (·.row) ++ b.navigations.map (·.row))

def refs (b : Block) : List ColumnRef :=
  b.joins.flatMap (·.refs) ++ b.navigations.flatMap (·.refs) ++
    b.predicate.toList.flatMap Term.refs ++ (b.groupBy.getD []).flatMap Term.refs ++
    b.having.toList.flatMap Term.refs

end Block

/-- The block of a query, and the columns that are referred to beside it. -/
def Query.head? : Query → Option (Block × List ColumnRef)
  | rows block list orders _ _ _ _ => some (block, list.refs ++ orders.flatMap (·.term.refs))
  | existence block => some (block, [])
  | aggregate value block => some (block, value.refs)
  | aggregateOver _ _ _ | union _ _ => none

/-- The block of an update or delete, and the columns that are referred to beside it. -/
def Statement.head? : Statement → Option (Block × List ColumnRef)
  | update _ assignments block => some (block, assignments.flatMap (·.value.refs))
  | delete block => some (block, [])
  | query _ | insertQuery _ _ _ | insertRows _ _ _ _ | updateByKey _ _ _ | deleteByKey _ _ => none

/-- `P` holds of every block of a statement and the columns that are referred to beside it. -/
def Statement.AllBlocks (P : Block → List ColumnRef → Prop) (s : Statement) : Prop :=
  (s.All fun q => ∀ b refs, q.head? = some (b, refs) → P b refs) ∧
    ∀ b refs, s.head? = some (b, refs) → P b refs

end Sql

end QueryCompiler

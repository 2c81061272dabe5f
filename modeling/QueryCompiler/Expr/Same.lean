import QueryCompiler.Expr.Basic
/-!
# When two expressions are the same

Sameness is by form, down to the constants, which are the same when they denote the same. It
decides when an expression is already an exported column.
-/

namespace QueryCompiler

/-- Whether two payloads have the same type and the same values in the same order. -/
def EntityValue.same (a b : EntityValue) : Bool :=
  a.ty == b.ty && a.values == b.values

instance : BEq EntityValue := ⟨EntityValue.same⟩

mutual

def Expr.same : Expr → Expr → Bool
  | .param a, .param b => a == b
  | .member t a, .member u b => t.same u && a == b
  | .constant v, .constant w => v == w
  | .binary o l r, .binary p m s => o == p && l.same m && r.same s
  | .unary o e, .unary p f => o == p && e.same f
  | .call m t as, .call n u bs => m == n && Expr.sameOption t u && Expr.sameList as bs
  | .object t as, .object u bs => t == u && Expr.sameBindings as bs
  | .lambda ⟨ps, b⟩, .lambda ⟨qs, c⟩ => ps == qs && b.same c
  | .conditional t a b, .conditional u c d => t.same u && a.same c && b.same d
  | .query as, .query bs => Expr.sameLog as bs
  | .source a, .source b => a == b
  | .grouping k e, .grouping l f => k.same l && e.same f
  | .joinGroup i e, .joinGroup j f => i == j && e.same f
  | .aggregate f a, .aggregate g b => f == g && Expr.sameOption a b
  | _, _ => false

def Expr.sameOption : Option Expr → Option Expr → Bool
  | none, none => true
  | some a, some b => a.same b
  | _, _ => false

def Expr.sameList : List Expr → List Expr → Bool
  | [], [] => true
  | a :: as, b :: bs => a.same b && Expr.sameList as bs
  | _, _ => false

def Expr.sameBindings : List Binding → List Binding → Bool
  | [], [] => true
  | ⟨m, a⟩ :: as, ⟨n, b⟩ :: bs => m == n && a.same b && Expr.sameBindings as bs
  | _, _ => false

def Expr.sameOperands : List Operand → List Operand → Bool
  | [], [] => true
  | .lambda ⟨ps, a⟩ :: as, .lambda ⟨qs, b⟩ :: bs =>
    ps == qs && a.same b && Expr.sameOperands as bs
  | .constant v :: as, .constant w :: bs => v == w && Expr.sameOperands as bs
  | .typeName t :: as, .typeName u :: bs => t == u && Expr.sameOperands as bs
  | .query l :: as, .query m :: bs => Expr.sameLog l m && Expr.sameOperands as bs
  | .entity e :: as, .entity f :: bs => e == f && Expr.sameOperands as bs
  | .entities es :: as, .entities fs :: bs => es == fs && Expr.sameOperands as bs
  | _, _ => false

def Expr.sameLog : List Operator → List Operator → Bool
  | [], [] => true
  | ⟨k, as⟩ :: os, ⟨l, bs⟩ :: ps => k == l && Expr.sameOperands as bs && Expr.sameLog os ps
  | _, _ => false

end

instance : BEq Expr := ⟨Expr.same⟩

end QueryCompiler

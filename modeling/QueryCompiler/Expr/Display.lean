import QueryCompiler.Expr.Basic
/-!
# Expressions as shown in messages
-/

namespace QueryCompiler.Expr

mutual

/-- The text of an expression. Binary operations stand in parentheses, a nested query is named by
its length, and a group by its key. -/
def display : Expr → String
  | param name => name
  | member target name => target.display ++ "." ++ name
  | constant v => v.display
  | binary op l r => "(" ++ l.display ++ " " ++ op.symbol ++ " " ++ r.display ++ ")"
  | unary .not e => "!" ++ e.display
  | unary .negate e => "-" ++ e.display
  | call method none args => method ++ "(" ++ ", ".intercalate (displayList args) ++ ")"
  | call method (some target) args =>
    target.display ++ "." ++ method ++ "(" ++ ", ".intercalate (displayList args) ++ ")"
  | object ty bindings =>
    "new " ++ (match ty with | some ty => ty ++ " " | none => "") ++ "\x7b " ++
      ", ".intercalate (displayBindings bindings) ++ " \x7d"
  | lambda ⟨params, body⟩ => "(" ++ ", ".intercalate params ++ ") => " ++ body.display
  | conditional t a b => "(" ++ t.display ++ " ? " ++ a.display ++ " : " ++ b.display ++ ")"
  | query log => "<query of " ++ toString log.length ++ " operators>"
  | source id => "$" ++ toString id
  | grouping key _ => "group(" ++ key.display ++ ")"
  | joinGroup join _ => "join_group(" ++ toString join ++ ")"
  | aggregate func none => func.sqlName ++ "()"
  | aggregate func (some arg) => func.sqlName ++ "(" ++ arg.display ++ ")"

def displayList : List Expr → List String
  | [] => []
  | e :: es => e.display :: displayList es

def displayBindings : List Binding → List String
  | [] => []
  | ⟨m, v⟩ :: bs => (m ++ " = " ++ v.display) :: displayBindings bs

end

end QueryCompiler.Expr

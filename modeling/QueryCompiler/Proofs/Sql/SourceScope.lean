import QueryCompiler.Proofs.Plan.Groups
import QueryCompiler.Proofs.Sql.TermByTerm
/-!
# Rows in scope

A well-scoped layer has the rows of every number that its expressions show, since a number up to the
count of its joins is that of the root or of a join. So the statement of a well-scoped plan never
misses rows. `Plan.wellScoped_ofLog` has this for every log with the expressions of a caller,
together with the scopes themselves: one number that leaks across the boundary of a layer would be
missed there, or read other rows.
-/

namespace QueryCompiler

variable {schema : Schema}

/-- The rows of a number up to the count of the joins are found. -/
theorem Layer.WellScoped.finds {l : Layer} (h : l.WellScoped) {id : Nat}
    (hid : id ≤ l.joins.length) : l.Finds .source id := by
  intro _
  cases id with
  | zero => exact .inl rfl
  | succ i =>
    have hnumbered : l.Numbered := fun i j hj => (h.joins i j hj).source
    rw [hnumbered.join?_succ, List.getElem?_eq_getElem hid]
    exact .inr rfl

theorem Layer.WellScoped.findsIn {l : Layer} (h : l.WellScoped) {e : Expr}
    (he : e.InScope l.joins.length) : l.FindsIn .source e := by
  intro id hid
  have hle : id ≤ l.joins.length := he _ hid
  exact h.finds hle

/-- **A well-scoped plan gives no cause to miss rows.** -/
theorem Plan.WellScoped.safe {p : Plan} (h : p.WellScoped) : p.Safe .source where
  layers l hl m hm := by
    have hm : m.WellScoped := h.layers l hl m hm
    exact ⟨fun hr => (by cases hr), fun e he => hm.findsIn (hm.exprs e he)⟩
  construction scope e he := by
    have hscope : scope.WellScoped := by
      refine (h.layers scope ?_).self
      cases p with
      | update target payload scope' =>
        cases payload with
        | entity value => cases he
        | assignments construction =>
          cases he
          rfl
      | _ => cases he
    exact hscope.findsIn (h.construction scope e he)

/-- **Plans of logs are well scoped, and so nothing is out of scope.** Let the lambdas of a log, and
of the queries nested in it, have only the forms that a caller writes. In every layer of its plan
the joins are in order and the expressions in scope, and so is the construction of an update. Under
no configuration is its command refused for want of rows, nor is the log refused for want of a
group. -/
theorem Plan.wellScoped_ofLog {log : Log} (hlog : log.isSurface = true) :
    (∀ p, Plan.ofLog schema log = .ok p →
      p.All Layer.WellScoped ∧
      (∀ scope e, p.construction? = some (scope, e) → e.InScope scope.joins.length) ∧
      ∀ config id, p.command schema config ≠ .error (.ambiguous (.sourceOutOfScope id))) ∧
    ∀ index, Plan.ofLog schema log ≠ .error (.ambiguous (.groupJoinOutOfScope index)) := by
  refine ⟨fun p hp => ?_, fun index herror => spares_ofLogAt hlog _ herror rfl⟩
  have hscoped := wellScoped_ofLogAt hp hlog
  refine ⟨hscoped.layers, hscoped.construction, fun config id herror => ?_⟩
  exact spares_command hscoped.safe config _ herror rfl

/-- The lines of orders, as the groups of a join that are flattened again, each with all lines of its
order. -/
def Log.linesOfOrders : Log :=
  [.getSource "Order",
    .joinOf .groupJoin [.getSource "Line"] ⟨["o"], .member (.param "o") "Id"⟩
      ⟨["l"], .member (.param "l") "OrderId"⟩
      ⟨["o", "g"], .construct none [("Order", .param "o"), ("Lines", .param "g")]⟩,
    .selectMany ⟨["t"], .member (.param "t") "Lines"⟩
      (some ⟨["t", "l"], .construct none [("Number", .member (.param "l") "OrderId"),
        ("All", .member (.member (.param "t") "Order") "Lines")]⟩)]

/-- The plan of these lines: the join stands in the inner half of a split. -/
def Layer.linesOfOrders : Layer :=
  { ofLayer (some "Order") { ofSource "Order" with
      joins := [⟨.inner, 1, .table "Line", some "Line", [.member (.source 0) "Id"],
        [.member (.source 1) "OrderId"]⟩]
      select := .construct none [("Id", .member (.source 0) "Id"),
        ("Number", .member (.source 1) "OrderId")] } with
    hasMany := true
    select := .construct none [("Number", .member (.source 0) "Number"),
      ("All", .member (.source 0) "Lines")] }

/-- That plan is well scoped, and its rows are found. -/
theorem Plan.wellScoped_ofLog_linesOfOrders :
    Log.linesOfOrders.isSurface = true ∧
      Plan.ofLog (.sales []) Log.linesOfOrders = .ok (.select Layer.linesOfOrders) ∧
      Layer.linesOfOrders.All Layer.WellScoped ∧
      ∀ config id, (Plan.select Layer.linesOfOrders).command (.sales []) config ≠
        .error (.ambiguous (.sourceOutOfScope id)) := by
  have hlog : Log.linesOfOrders.isSurface = true := by cbv
  have hp : Plan.ofLog (.sales []) Log.linesOfOrders = .ok (.select Layer.linesOfOrders) := by cbv
  obtain ⟨hscoped, -, hfound⟩ := (Plan.wellScoped_ofLog hlog).1 _ hp
  exact ⟨hlog, hp, hscoped _ rfl, hfound⟩

end QueryCompiler

import QueryCompiler.Proofs.Plan.Terminator
import QueryCompiler.Proofs.Rows.Derived
/-!
# Plans of row pipelines

The plan of a row pipeline, read layer by layer, has the items that its operators leave one after
the other (`Plan.items?_ofLog`).

Operators are not run in the order of the log: a draft collects them as clauses. `Draft.Represents`
ties the two readings together: the items processed so far are those of the draft, were it finished
now. Every operator keeps this on a layer that is open to it, and starting a new layer keeps it too.
-/

namespace QueryCompiler

open Compiled (bind_eq_ok)

variable {V : Type} [DecidableEq V] {I : Interpretation V} {tables : String → List (Datum V)}
  {schema : Schema} {nested : Log → Compiled Layer}

namespace Draft

/-! ## The items of a draft -/

/-- Whether a row passes the tests collected so far. -/
def passes (I : Interpretation V) (d : Draft) (r : Datum V) : Bool :=
  d.filters.all fun test => I.holds (test.eval I [] r)

/-- The items of a draft before they are paged. -/
def mapped (I : Interpretation V) (d : Draft) (rows : List (Datum V)) : List (Datum V) :=
  (Order.sort I d.layer.orders (rows.filter (d.passes I))).map fun r => d.row.eval I [] r

omit [DecidableEq V] in
theorem kept_conjoin (c : Clauses) (tests : List Expr) (rows : List (Datum V))
    (hc : c.predicate = Expr.conjoin tests) :
    c.kept I rows = rows.filter fun r => tests.all fun test => I.holds (test.eval I [] r) := by
  have hfold : ∀ (tests : List Expr) (e : Expr) (r : Datum V),
      I.holds ((tests.foldl (.binary .and) e).eval I [] r) =
        (I.holds (e.eval I [] r) && tests.all fun test => I.holds (test.eval I [] r)) := by
    intro tests
    induction tests with
    | nil => simp
    | cons test tests ih =>
      intro e r
      rw [List.foldl_cons, ih, Expr.eval, I.holds_and, List.all_cons, Bool.and_assoc]
  unfold Clauses.kept
  rw [hc]
  cases tests with
  | nil => simp [Expr.conjoin]
  | cons test tests =>
    simp only [Expr.conjoin, hfold, List.all_cons]

omit [DecidableEq V] in
theorem mapped_of_fresh {d : Draft} (hfilters : d.filters = []) (horders : d.layer.orders = [])
    (rows : List (Datum V)) : d.mapped I rows = rows.map fun r => d.row.eval I [] r := by
  have hpasses : d.passes I = fun _ => true := by
    funext r
    simp [passes, hfilters]
  simp only [mapped, hpasses, horders, List.filter_true, Order.sort_nil]

/-! ## Drafts and the items processed so far -/

/-- How far a draft is open to the next operator. -/
def EndsAs (d : Draft) : Ending → Prop
  | .opened => d.taken = false ∧ d.closed = false ∧ d.skipped = false ∧
      d.layer.skip = 0 ∧ d.layer.take = 0 ∧ d.layer.distinct = false
  | .skipping => d.taken = false ∧ d.closed = false ∧ d.skipped = true ∧
      d.layer.take = 0 ∧ d.layer.distinct = false
  | .closed => d.taken = true ∨ d.closed = true

/-- **The items processed so far are those of a draft** over the rows it reads, at a stage of a row
pipeline. -/
structure Represents (I : Interpretation V) (tables : String → List (Datum V)) (schema : Schema)
    (d : Draft) (s : Stage) (items rows : List (Datum V)) (root : ItemKind) : Prop where
  items_eq : items = d.layer.page (d.mapped I rows)
  reads : Layer.rows? I tables d.layer.source d.layer.subquery = some rows
  clauses : Layer.isPipeline d.layer.toClauses d.layer.joins d.layer.unions = true
  ungrouped : d.grouped = false
  havings : d.havings = []
  rootKind : Layer.RootKind schema d.layer.source root
  rowKind : d.row.kind? [] (some root) = some s.kind
  ending : d.EndsAs s.ending
  unordered : s.ending = .opened → s.ordered = false → d.layer.orders = []
  inherited : ∀ orders, d.layer.inheritedOrders schema = some orders → Order.Sorted I orders rows

variable {d d' : Draft} {s s' : Stage} {items rows : List (Datum V)} {root : ItemKind}
  {op : Operator}

theorem page_of_opened {c : Clauses} (hskip : c.skip = 0) (htake : c.take = 0)
    (hdistinct : c.distinct = false) (items : List (Datum V)) : c.page items = items := by
  simp [Clauses.page, hskip, htake, hdistinct]

namespace Represents

variable (h : Represents I tables schema d s items rows root)

include h

theorem clauses_eq :
    d.layer.joins = [] ∧ d.layer.unions = [] ∧ d.layer.any = false ∧ d.layer.groupBy = none ∧
      d.layer.aggregate = none ∧ d.layer.includes = [] ∧ d.layer.having = none := by
  simpa [Layer.isPipeline, and_assoc] using h.clauses

theorem select_finished : d.finished.select = d.row := by
  have hkind := h.rowKind
  unfold finished
  dsimp only
  split
  · rename_i hrow
    rw [hrow] at hkind
    cases hkind
  · rfl

theorem kind_finished : d.finished.select.kind? [] (some root) = some s.kind := by
  rw [h.select_finished]
  exact h.rowKind

theorem includes_finished : d.finished.includes = [] := by
  obtain ⟨-, -, -, -, -, hincludes, -⟩ := h.clauses_eq
  simp [finished, hincludes]

/-- **The items are those of the finished draft.** -/
theorem itemsOver_finished : d.finished.itemsOver I rows = items := by
  have hkept : d.finished.kept I rows = rows.filter (d.passes I) :=
    kept_conjoin d.finished.toClauses d.filters rows rfl
  rw [h.items_eq, Clauses.itemsOver, hkept, h.select_finished]
  rfl

theorem items?_finished : d.finished.items? I tables = some items := by
  obtain ⟨hjoins, hunions, hany, hgroup, haggregate, -, -⟩ := h.clauses_eq
  have hpipeline : Layer.isPipeline d.finished.toClauses d.finished.joins d.finished.unions := by
    simp only [Layer.isPipeline, h.includes_finished]
    simp [finished, hjoins, hunions, hany, hgroup, haggregate, h.havings, Expr.conjoin]
  have hlayer : d.finished = ⟨d.finished.toClauses, d.layer.subquery, d.finished.joins,
    d.finished.unions⟩ := rfl
  have hsource : d.finished.source = d.layer.source := rfl
  rw [hlayer, Layer.items?, if_pos hpipeline, hsource, h.reads, Option.map_some,
    h.itemsOver_finished]

theorem exists_row {x : Datum V} (hx : x ∈ items) : ∃ r, x = d.row.eval I [] r := by
  rw [h.items_eq] at hx
  obtain ⟨r, -, rfl⟩ := List.mem_map.1 ((Layer.page_sublist _ _).mem hx)
  exact ⟨r, rfl⟩

/-! ## New layers -/

/-- **A new layer over a draft represents the same items.** -/
theorem wrap (hI : I.RespectsSame) (hwrap : d.wrap schema = .ok d') :
    ∃ rows' root', Represents I tables schema d' ⟨s.kind, false, .opened⟩ items rows' root' := by
  obtain ⟨row, source, hrow, rfl⟩ := wrap_eq_ok hwrap
  have hclosed : { d.finished with includes := [] } = d.finished := by
    obtain ⟨-, -, -, -, -, hincludes, -⟩ := h.clauses_eq
    simp [finished, hincludes]
  rw [hclosed] at hrow ⊢
  rw [h.includes_finished]
  have hroot : Layer.RootKind schema d.finished.source root := h.rootKind
  obtain ⟨root', hroot', hkind', heval⟩ := Layer.derivedRow_sound hroot h.kind_finished hrow
  -- the rows above are the items below, under the names of the output columns
  refine ⟨items.map (Layer.asRow d.finished.select), root', ?_⟩
  constructor
  case items_eq =>
    have hread : ∀ x ∈ items, row.eval I [] (Layer.asRow d.finished.select x) = x := by
      intro x hx
      obtain ⟨r, rfl⟩ := h.exists_row hx
      rw [← h.select_finished]
      exact heval V I r
    have hitems : items.map (fun x => row.eval I [] (Layer.asRow d.finished.select x)) = items := by
      rw [List.map_congr_left hread, List.map_id']
    rw [page_of_opened rfl rfl rfl, mapped_of_fresh rfl rfl, List.map_map]
    exact hitems.symm
  case reads =>
    simp only [Layer.ofLayer, Layer.rows?, h.items?_finished, Option.map_some]
  case clauses => rfl
  case ungrouped => rfl
  case havings => rfl
  case rootKind => exact hroot'
  case rowKind => exact hkind'
  case ending => exact ⟨rfl, rfl, rfl, rfl, rfl, rfl⟩
  case unordered => exact fun _ _ => rfl
  case inherited =>
    intro orders horders
    rw [← h.itemsOver_finished]
    exact Layer.sorted_inheritedOrders hI rfl h.kind_finished horders rows

/-! ## Operators -/

/-- A draft starts a new layer where the pipeline does. -/
theorem mustClose_eq (kind : OpKind) : d.mustClose kind = s.mustClose kind := by
  obtain ⟨-, hunions, -⟩ := h.clauses_eq
  have hending := h.ending
  unfold Draft.mustClose Stage.mustClose
  rw [hunions, h.ungrouped]
  cases hs : s.ending with
  | opened =>
    rw [hs] at hending
    obtain ⟨htaken, hclosed, hskipped, -⟩ := hending
    simp [htaken, hclosed, hskipped]
  | skipping =>
    rw [hs] at hending
    obtain ⟨htaken, hclosed, hskipped, -⟩ := hending
    simp [htaken, hclosed, hskipped]
  | closed =>
    rw [hs] at hending
    rcases hending with h | h <;> simp [h]

theorem before (hI : I.RespectsSame) (hd : d.mustClose op.kind = true ∧ d.wrap schema = .ok d' ∨
      d.mustClose op.kind = false ∧ d' = d) :
    ∃ rows' root', Represents I tables schema d' (s.before op.kind) items rows' root' := by
  unfold Stage.before
  rcases hd with ⟨hclose, hwrap⟩ | ⟨hopen, rfl⟩
  · rw [h.mustClose_eq] at hclose
    rw [if_pos hclose]
    exact h.wrap hI hwrap
  · rw [h.mustClose_eq] at hopen
    rw [if_neg (by simp [hopen])]
    exact ⟨rows, root, h⟩

theorem page_eq (hs : s.ending = .opened) (xs : List (Datum V)) : d.layer.page xs = xs := by
  have hending := h.ending
  rw [hs] at hending
  obtain ⟨-, -, -, hskip, htake, hdistinct⟩ := hending
  exact page_of_opened hskip htake hdistinct xs

theorem items_of_opened (hs : s.ending = .opened) : items = d.mapped I rows := by
  rw [h.items_eq, h.page_eq hs]

theorem bound {l : Lambda} {e : Expr} {k : ItemKind} (hl : op.lambda 0 = .ok l)
    (hk : op.yields? s.kind = some k) (hb : d.bindRow l = .ok e) :
    e.kind? [] (some root) = some k ∧
      ∀ r, e.eval I [] r = op.valueFor I (d.row.eval I [] r) := by
  have hlambda : op.lambda? 0 = some l := by
    unfold Operator.lambda at hl
    split at hl
    · rename_i hsome
      cases hl
      exact hsome
    · cases hl
  simp only [Operator.yields?, hlambda, Option.bind_eq_bind, Option.bind_some] at hk
  obtain ⟨hkind, heval⟩ := Lambda.bind_sound h.rowKind hk hb
  refine ⟨hkind, fun r => ?_⟩
  simp only [Operator.valueFor, hlambda]
  exact heval V I r

/-- A test commutes with the mapping and the ordering that come before it. -/
theorem filter (hs : s.ending = .opened) (hk : op.kind = .filter) {test : Expr}
    (htest : ∀ r, test.eval I [] r = op.valueFor I (d.row.eval I [] r)) :
    Represents I tables schema (d.restrict test) s (op.items I items) rows root := by
  have hd : d.restrict test = { d with filters := d.filters ++ [test] } := by
    simp [restrict, h.ungrouped]
  rw [hd]
  refine { h with items_eq := ?_ }
  rw [h.page_eq hs, h.items_of_opened hs]
  have hpasses : ∀ r, passes I { d with filters := d.filters ++ [test] } r =
      (I.holds (op.valueFor I (d.row.eval I [] r)) && d.passes I r) := by
    intro r
    simp [passes, htest, Bool.and_comm]
  simp only [Operator.items, hk, mapped, List.filter_map, Order.filter_sort, List.filter_filter,
    Function.comp_def, funext hpasses]

/-- A projection maps what the one before it has made of a row. -/
theorem select (hs : s.ending = .opened) (hk : op.kind = .select) {row : Expr} {k : ItemKind}
    (hrow : row.kind? [] (some root) = some k)
    (heval : ∀ r, row.eval I [] r = op.valueFor I (d.row.eval I [] r)) :
    Represents I tables schema { d with row } { s with kind := k } (op.items I items) rows
      root := by
  refine { h with items_eq := ?_, rowKind := hrow }
  rw [h.page_eq hs, h.items_of_opened hs]
  simp only [Operator.items, hk, mapped, List.map_map]
  exact List.map_congr_left fun r _ => (heval r).symm

/-- A first ordering of a layer orders rows as it orders the items made of them. -/
theorem order (hs : s.ending = .opened) (hordered : s.ordered = false) {descending : Bool}
    (hk : op.kind = if descending then .orderByDescending else .orderBy) {key : Expr}
    (heval : ∀ r, key.eval I [] r = op.valueFor I (d.row.eval I [] r)) :
    Represents I tables schema
      { d with layer := { d.layer with orders := orderKeys descending key } }
      { s with ordered := true } (op.items I items) rows root := by
  have hcompare : ∀ r s, Order.compareAll I (orderKeys descending key) r s =
      let c := op.compareItems I (d.row.eval I [] r) (d.row.eval I [] s)
      if descending then c.swap else c := by
    intro r s
    rw [Order.compareAll_orderKeys, Order.compare, heval, heval, Operator.compareItems]
  refine { h with items_eq := ?_, unordered := fun _ htrue => by cases htrue }
  refine .trans ?_ (h.page_eq hs _).symm
  rw [h.items_of_opened hs, mapped, mapped, h.unordered hs hordered, Order.sort_nil]
  cases descending with
  | false =>
    simp only [Operator.items, hk]
    exact (Order.map_sort _ (fun r s => by rw [hcompare]; rfl) _).symm
  | true =>
    simp only [Operator.items, hk]
    exact (Order.map_sort _ (fun r s => by rw [hcompare]; rfl) _).symm

/-- Rows that stand in the ordering which a layer inherits are not moved by it. -/
theorem mapped_inherited {n : Nat} {orders : List Order}
    (ho : orders = if n > 0 && d.layer.orders.isEmpty then (d.layer.inheritedOrders schema).getD []
      else d.layer.orders) :
    mapped I { d with layer := { d.layer with orders, skip := n }, skipped := n > 0 } rows =
      d.mapped I rows := by
  have hsort : Order.sort I orders (rows.filter (d.passes I)) =
      Order.sort I d.layer.orders (rows.filter (d.passes I)) := by
    rw [ho]
    split
    · rename_i hnew
      have hempty : d.layer.orders = [] := by simpa using (Bool.and_eq_true_iff.1 hnew).2
      rw [hempty, Order.sort_nil]
      cases hinherited : d.layer.inheritedOrders schema with
      | none => exact Order.sort_nil _
      | some inner => exact Order.sort_of_sorted ((h.inherited inner hinherited).filter _)
    · rfl
  exact congrArg (List.map fun r => d.row.eval I [] r) hsort

/-- Passing over rows pages by the ordering of the layer, or by one in which the rows already
stand. -/
theorem skip (hs : s.ending = .opened) (hk : op.kind = .skip) {n : Nat} (hn : op.rowCount? = some n)
    {orders : List Order}
    (ho : orders = if n > 0 && d.layer.orders.isEmpty then (d.layer.inheritedOrders schema).getD []
      else d.layer.orders) :
    Represents I tables schema
      { d with layer := { d.layer with orders, skip := n }, skipped := n > 0 }
      (if n > 0 then { s with ending := .skipping } else s) (op.items I items) rows root := by
  have hending := h.ending
  rw [hs] at hending
  obtain ⟨htaken, hclosed, -, -, htake, hdistinct⟩ := hending
  have hitems : op.items I items = Clauses.page { d.layer.toClauses with orders, skip := n }
      (mapped I { d with layer := { d.layer with orders, skip := n }, skipped := n > 0 } rows) := by
    rw [h.mapped_inherited ho, ← h.items_of_opened hs]
    simp [Operator.items, hk, hn, Clauses.page, htake, hdistinct]
  by_cases hpos : n > 0
  · rw [if_pos hpos]
    refine { h with items_eq := hitems, ending := ?_, unordered := fun hopen => by cases hopen }
    exact ⟨htaken, hclosed, by simpa using hpos, htake, hdistinct⟩
  · rw [if_neg hpos]
    refine { h with items_eq := hitems, ending := ?_, unordered := ?_ }
    · rw [hs]
      exact ⟨htaken, hclosed, by simpa using hpos, Nat.eq_zero_of_not_pos hpos, htake, hdistinct⟩
    · intro hopen hordered
      rw [ho, if_neg (by simp [hpos])]
      exact h.unordered hopen hordered

/-- A bound on the rows is the last thing that a layer does. -/
theorem take (hs : s.ending ≠ .closed) (hk : op.kind = .take) {n : Nat} (hn : op.rowCount? = some n)
    (hpos : 0 < n) :
    Represents I tables schema (d.take n) { s with ending := .closed } (op.items I items) rows
      root := by
  have htake : d.layer.take = 0 := by
    have hending := h.ending
    cases hend : s.ending with
    | opened =>
      rw [hend] at hending
      exact hending.2.2.2.2.1
    | skipping =>
      rw [hend] at hending
      exact hending.2.2.2.1
    | closed => exact absurd hend hs
  have hpage : ∀ xs : List (Datum V), (d.take n).layer.page xs = (d.layer.page xs).take n := by
    intro xs
    simp [Clauses.page, Draft.take, htake, hpos]
  refine { h with items_eq := ?_, ending := .inl ?_, unordered := fun hopen => by cases hopen }
  · rw [hpage]
    simp only [Operator.items, hk, hn, Option.getD_some]
    exact congrArg (List.take n) h.items_eq
  · simpa [Draft.take] using hpos

/-- Items are made distinct after they are mapped, in the order of the layer. -/
theorem distinct (hs : s.ending = .opened) (hk : op.kind = .distinct) :
    Represents I tables schema { d with layer := { d.layer with distinct := true }, closed := true }
      { s with ending := .closed } (op.items I items) rows root := by
  have hending := h.ending
  rw [hs] at hending
  obtain ⟨-, -, -, hskip, htake, -⟩ := hending
  refine { h with items_eq := ?_, ending := .inr rfl, unordered := fun hopen => by cases hopen }
  rw [h.items_of_opened hs]
  simp only [Operator.items, hk, Clauses.page, hskip, htake]
  rfl

theorem asSubquery (hk : op.kind = .asSubquery) :
    Represents I tables schema { d with closed := true } { s with ending := .closed }
      (op.items I items) rows root := by
  refine { h with items_eq := ?_, ending := .inr rfl, unordered := fun hopen => by cases hopen }
  simp only [Operator.items, hk]
  exact h.items_eq

/-- **An operator does to the items what it does to the draft**, on a layer that is open to it. -/
theorem applied (hopen : s.mustClose op.kind = false) (hafter : op.after? s = some s')
    (happlied : Applied schema nested d op d') :
    Represents I tables schema d' s' (op.items I items) rows root := by
  have hclosed : s.ending ≠ .closed := by
    intro hs
    simp [Stage.mustClose, hs] at hopen
  -- after a skip, only a limit is still taken into the layer
  have hopened : op.kind ≠ .take → s.ending = .opened := by
    intro hk
    cases hs : s.ending with
    | opened => rfl
    | skipping => simp [Stage.mustClose, hs, hk] at hopen
    | closed => exact absurd hs hclosed
  cases happlied with
  | filter hk hl hb =>
    simp only [Operator.after?, hk, Option.map_eq_some_iff] at hafter
    obtain ⟨k, hyields, rfl⟩ := hafter
    exact h.filter (hopened (by simp [hk])) hk (h.bound hl hyields hb).2
  | select hk hl hb =>
    simp only [Operator.after?, hk, Option.map_eq_some_iff] at hafter
    obtain ⟨k, hyields, rfl⟩ := hafter
    obtain ⟨hkind, heval⟩ := h.bound hl hyields hb
    exact h.select (hopened (by simp [hk])) hk hkind heval
  | @order _ _ descending hk hl hb =>
    have hs : s.ending = .opened := hopened (by rw [hk]; split <;> simp)
    have hafter : s.ordered = false ∧ ∃ k, op.yields? s.kind = some k ∧
        { s with ordered := true } = s' := by
      cases descending <;> simpa [Operator.after?, hk] using hafter
    obtain ⟨hordered, k, hyields, rfl⟩ := hafter
    exact h.order hs hordered hk (h.bound hl hyields hb).2
  | skip hk hn ho =>
    simp only [Operator.after?, hk, Option.map_eq_some_iff] at hafter
    obtain ⟨n, hcount, rfl⟩ := hafter
    rw [hcount, Option.getD_some] at hn
    subst hn
    exact h.skip (hopened (by simp [hk])) hk hcount ho
  | take hk =>
    simp only [Operator.after?, hk, Option.bind_eq_some_iff] at hafter
    obtain ⟨n, hcount, hafter⟩ := hafter
    split at hafter
    · rename_i hpos
      cases hafter
      rw [hcount, Option.getD_some]
      exact h.take hclosed hk hcount hpos
    · cases hafter
  | distinct hk =>
    simp only [Operator.after?, hk, Option.some.injEq] at hafter
    subst hafter
    exact h.distinct (hopened (by simp [hk])) hk
  | asSubquery hk =>
    simp only [Operator.after?, hk, Option.some.injEq] at hafter
    subst hafter
    exact h.asSubquery hk
  -- the other operators have no place in a pipeline
  | @refineOrder _ _ descending hk => cases descending <;> simp [Operator.after?, hk] at hafter
  | selectMany hk | group hk | any hk | union hk | includePath hk =>
    simp [Operator.after?, hk] at hafter
  | join hk | modify hk => rcases hk with hk | hk | hk <;> simp [Operator.after?, hk] at hafter
  | first hk | aggregate hk =>
    unfold Operator.after? at hafter
    split at hafter <;> simp_all [OpKind.isFirst, OpKind.aggregate?]

/-! ## Whole logs -/

/-- **A step keeps the items.** -/
theorem step (hI : I.RespectsSame) (hscan : op.scan s = some s')
    (hstep : d.step schema nested op = .ok d') :
    ∃ rows' root', Represents I tables schema d' s' (op.items I items) rows' root' := by
  obtain ⟨-, d₁, d₂, hd₁, happlied, rfl⟩ := step_eq_ok hstep
  obtain ⟨rows₁, root₁, h₁⟩ := h.before hI hd₁
  have hopen : (s.before op.kind).mustClose op.kind = false := by
    unfold Stage.before
    split
    · rfl
    · rename_i hopen
      simpa using hopen
  have h₂ := h₁.applied hopen hscan happlied
  exact ⟨rows₁, root₁, { h₂ with items_eq := h₂.items_eq }⟩

omit h

/-- **So does a run**: by induction on the operators, from one draft to the next. -/
theorem run (hI : I.RespectsSame) : ∀ {ops : Log} {d d' : Draft} {s s' : Stage}
    {items rows : List (Datum V)} {root : ItemKind},
    Represents I tables schema d s items rows root →
      ops.foldlM (fun s op => op.scan s) s = some s' →
        ops.foldlM (Draft.step schema nested) d = .ok d' →
          ∃ rows' root', Represents I tables schema d' s' (Log.items I ops items) rows' root'
  | [], _, _, _, _, _, _, _, h, hscan, hrun => by
    cases hscan
    cases hrun
    exact ⟨_, _, h⟩
  | op :: ops, _, _, _, _, _, _, _, h, hscan, hrun => by
    rw [List.foldlM_cons] at hscan hrun
    obtain ⟨s₁, hs₁, hscan⟩ := Option.bind_eq_some_iff.1 hscan
    obtain ⟨d₁, hd₁, hrun⟩ := bind_eq_ok.1 hrun
    obtain ⟨rows₁, root₁, h₁⟩ := h.step hI hs₁ hd₁
    have hrest := run hI h₁ hscan hrun
    exact hrest

theorem start {ty : String} {entity : Entity} (hentity : schema.get? ty = some entity) :
    Represents I tables schema (ofSource ty) (.start entity) (tables ty) (tables ty)
      (.row entity.readable) := by
  have hentity' : schema.entity ty = .ok entity := by simp [Schema.entity, hentity]
  constructor
  case items_eq =>
    rw [page_of_opened rfl rfl rfl, mapped_of_fresh rfl rfl]
    exact (List.map_id' _).symm
  case reads => rfl
  case clauses => rfl
  case ungrouped => rfl
  case havings => rfl
  case rootKind =>
    intro ty' hty
    cases hty
    exact ⟨entity, hentity', rfl⟩
  case rowKind => rfl
  case ending => exact ⟨rfl, rfl, rfl, rfl, rfl, rfl⟩
  case unordered => exact fun _ _ => rfl
  case inherited => exact fun _ horders => by cases horders

end Represents

end Draft

/-! ## Ratios

A log whose plan takes a ratio for the key of an ordering, as both divide by the same number. -/

def Schema.trades : Schema :=
  Schema.empty.register ⟨"Trade", "trades", [⟨"Change", .column (.new "change" .float)⟩]⟩

/-- Trades ordered by the ratio of their change to a number, all but the first, each with the ratio
to another number. -/
def Log.ratios (v w : Value) : Log :=
  [.orderBy ⟨["t"], .binary .div (.member (.param "t") "Change") (.constant v)⟩,
    .select ⟨["t"], .object none
      [⟨"Ratio", .binary .div (.member (.param "t") "Change") (.constant w)⟩]⟩,
    .asSubquery, .skip 1]

def Layer.ratios (v w : Value) : Layer :=
  { ofSource "Trade" with
    orders := [⟨.binary .div (.member (.source 0) "Change") (.constant v), false⟩]
    select := .object none
      [⟨"Ratio", .binary .div (.member (.source 0) "Change") (.constant w)⟩] }

def Layer.laterRatios (v w : Value) : Layer :=
  { ofLayer none (ratios v w) with
    orders := [⟨.member (.source 0) "Ratio", false⟩]
    skip := 1
    select := .object none [⟨"Ratio", .member (.source 0) "Ratio"⟩] }

theorem Log.isPipeline_ratios (v w : Value) :
    Log.isPipeline Schema.trades "Trade" (Log.ratios v w) := by cbv

namespace Draft

def ratios (v w : Value) : Draft where
  layer := { Layer.ratios v w with select := .source 0 }
  row := (Layer.ratios v w).select
  closed := true
  applied := 3

def overRatios (v w : Value) : Draft where
  layer := .ofLayer none (.ratios v w)
  row := .object none [⟨"Ratio", .member (.source 0) "Ratio"⟩]

/-- The ratio is taken for the key of the ordering, if the numbers are the same. -/
theorem skip_overRatios {v w : Value} (h : w == v) :
    (overRatios v w).skip Schema.trades 1 = .ok { overRatios v w with
      layer := { Layer.laterRatios v w with select := .source 0 }, skipped := true } := by
  have hexported : (Layer.ratios v w).exported? Schema.trades
      (.binary .div (.member (.source 0) "Change") (.constant v)) =
        some (.member (.source 0) "Ratio") := by
    have hsame : w.same v = true := h
    simp [Layer.exported?, Layer.ratios, Layer.ofSource, BEq.beq, Expr.same, hsame]
  have hinherited : (overRatios v w).layer.inheritedOrders Schema.trades =
      some [⟨.member (.source 0) "Ratio", false⟩] := by
    have horders : (Layer.ratios v w).orders =
      [⟨.binary .div (.member (.source 0) "Change") (.constant v), false⟩] := rfl
    simp [overRatios, Layer.inheritedOrders, Layer.ofLayer, horders, hexported]
  have hempty : (overRatios v w).layer.orders = [] := rfl
  unfold skip
  rw [hinherited, hempty]
  rfl

end Draft

theorem Plan.ofLog_ratios {v w : Value} (h : w == v) :
    Plan.ofLog Schema.trades (.getSource "Trade" :: Log.ratios v w) =
      .ok (.select (.laterRatios v w)) := by
  have hvalid : Log.validate (.getSource "Trade" :: Log.ratios v w) = .ok () := by cbv
  have hstart : Draft.start Schema.trades (.getSource "Trade" :: Log.ratios v w) =
      .ok (.ofSource "Trade", Log.ratios v w) := by cbv
  have hinner : ∀ nested, ((Log.ratios v w).take 3).foldlM (Draft.step Schema.trades nested)
      (.ofSource "Trade") = .ok (.ratios v w) := by
    intro nested
    cbv
  have hwrap : (Draft.ratios v w).wrap Schema.trades = .ok (.overRatios v w) := by cbv
  have houter : ∀ nested, (Draft.ratios v w).step Schema.trades nested (.skip 1) =
      ((Draft.overRatios v w).skip Schema.trades 1 >>= fun d =>
        .ok { d with applied := d.applied + 1 }) := by
    intro nested
    have hclose : (Draft.ratios v w).mustClose (Operator.skip 1).kind = true := rfl
    have hterminal : (Draft.ratios v w).terminal = none := rfl
    rw [Draft.step, hterminal]
    simp only [hclose, if_true, hwrap]
    rfl
  have hrun : ∀ nested, (Log.ratios v w).foldlM (Draft.step Schema.trades nested)
      (.ofSource "Trade") = .ok { Draft.overRatios v w with
        layer := { Layer.laterRatios v w with select := .source 0 }
        skipped := true
        applied := 1 } := by
    intro nested
    have hlog : Log.ratios v w = (Log.ratios v w).take 3 ++ [.skip 1] := rfl
    rw [hlog, List.foldlM_append, hinner]
    refine bind_eq_ok.2 ⟨_, rfl, ?_⟩
    rw [List.foldlM_cons, houter, Draft.skip_overRatios h]
    rfl
  rw [Plan.ofLog, Plan.ofLogAt, Plan.ofLogWith]
  refine bind_eq_ok.2 ⟨_, hvalid, bind_eq_ok.2 ⟨_, hstart, ?_⟩⟩
  refine bind_eq_ok.2 ⟨_, hrun _, ?_⟩
  cbv

/-- Numbers by their signs: that of a ratio is the product of those of its sides. -/
def Interpretation.signs (sign : Value → Int) : Interpretation Int where
  constant v := .scalar (sign v)
  binary
    | .div, .scalar a, .scalar b => .scalar (a * b)
    | .and, .scalar a, .scalar b => .scalar (if a > 0 && b > 0 then 1 else 0)
    | _, _, _ => .scalar 0
  unary _ a := a
  conditional _ a _ := a
  holds
    | .scalar a => a > 0
    | .record _ => false
  le a b := a ≤ b
  missing := .scalar 0
  holds_and a b := by
    cases a <;> cases b <;> simp
    split <;> simp_all
  le_total a b := by simpa using Int.le_total a b
  le_trans a b c := by simpa using Int.le_trans

def Datum.trades : List (Datum Int) :=
  [.record [⟨"Change", .scalar (-1)⟩], .record [⟨"Change", .scalar 1⟩]]

def Value.intSign (v : Value) : Int :=
  (v.int?.map fun n => n.toInt.sign).getD 0

theorem Interpretation.respectsSame_intSign : (signs Value.intSign).RespectsSame := by
  intro v w h
  have hint : v.int? = w.int? := by
    cases v <;> cases w <;> simp_all [BEq.beq, Value.same, Value.int?]
  have hsign : v.intSign = w.intSign := by rw [Value.intSign, Value.intSign, hint]
  exact congrArg Datum.scalar hsign

/-- The sign of a number, which zeros have too. -/
def Value.signBit : Value → Int
  | .float x => if x.toBits >>> 63 = 0 then 1 else -1
  | .int n => if 0 ≤ n.toInt then 1 else -1
  | _ => 1

theorem mergeSort_pair {α : Type} (le : α → α → Bool) (a b : α) :
    [a, b].mergeSort le = if le a b then [a, b] else [b, a] := by
  rw [List.mergeSort]
  simp [List.MergeSort.Internal.splitInTwo, List.merge]

/-- Ratios to numbers of different signs come in the opposite order, and the plan orders by them. -/
theorem Layer.items?_laterRatios {v w : Value} {sign : Value → Int} (hv : sign v = 1)
    (hw : sign w = -1) :
    (laterRatios v w).items? (.signs sign) (fun _ => Datum.trades) =
      some [.record [⟨"Ratio", .scalar 1⟩]] := by
  simp [laterRatios, ratios, items?, rows?, ofLayer, ofSource, empty, isPipeline, Datum.trades,
    Clauses.itemsOver, Clauses.page, Clauses.kept, Order.sort, mergeSort_pair, Order.compareAll,
    Order.compare, Expr.eval, Expr.evalBindings, Datum.get?, Datum.compare, Datum.order,
    Interpretation.signs, hv, hw]

theorem Log.items_ratios {v w : Value} {sign : Value → Int} (hv : sign v = 1) (hw : sign w = -1) :
    Log.items (.signs sign) (Log.ratios v w) Datum.trades =
      [.record [⟨"Ratio", .scalar (-1)⟩]] := by
  have hcount : Operator.rowCount? ⟨.skip, [Operator.countOperand 1]⟩ = some 1 := rfl
  simp [Log.items, Log.ratios, Datum.trades, Operator.items, Operator.orderBy, Operator.select,
    Operator.asSubquery, Operator.skip, Operator.ofLambdas, Operator.lambda?, Operator.valueFor,
    Operator.compareItems, mergeSort_pair, Lambda.apply, Expr.eval, Expr.evalBindings, Datum.get?,
    Datum.compare, Datum.order, Interpretation.signs, hv, hw, hcount]

/-! ## Plans -/

/-- **The plan of a row pipeline has the items of the pipeline.** Read layer by layer, the plan
gives what the operators leave of the rows of the table, one after the other. -/
theorem Plan.items?_ofLog {ty : String} {ops : Log} {p : Layer} (hI : I.RespectsSame)
    (hpipeline : Log.isPipeline schema ty ops)
    (h : Plan.ofLog schema (.getSource ty :: ops) = .ok (.select p)) :
    p.items? I tables = some (Log.items I ops (tables ty)) := by
  obtain ⟨s, hscan⟩ := Option.isSome_iff_exists.1 hpipeline
  obtain ⟨entity, hentity, hscan⟩ := Option.bind_eq_some_iff.1 hscan
  simp only [ofLog, ofLogAt, ofLogWith, bind_eq_ok] at h
  obtain ⟨⟨⟩, -, ⟨d₀, ops'⟩, hstart, d, hrun, hplan⟩ := h
  have hstart' : Draft.start schema (.getSource ty :: ops) = .ok (Draft.ofSource ty, ops) := by
    simp [Draft.start, Operator.getSource, Schema.entity, hentity]
  rw [hstart'] at hstart
  cases hstart
  have hfirst : Draft.Represents I tables schema (Draft.ofSource ty) (.start entity) (tables ty)
      (tables ty) (.row entity.readable) := .start hentity
  obtain ⟨rows, root, hd⟩ := hfirst.run hI hscan hrun
  have hroot : Layer.RootKind schema d.finished.source root := hd.rootKind
  rw [Layer.separateCollections_of_kind hroot hd.kind_finished hd.includes_finished
    (Draft.plan_eq_select hplan)]
  exact hd.items?_finished

/-- All but the first of two ratios to one number, paged by the ratio. -/
theorem Plan.items?_ofLog_ratios :
    (Interpretation.signs Value.intSign).RespectsSame ∧
      Log.isPipeline Schema.trades "Trade" (Log.ratios (.int 2) (.int 2)) ∧
      Plan.ofLog Schema.trades (.getSource "Trade" :: Log.ratios (.int 2) (.int 2)) =
        .ok (.select (.laterRatios (.int 2) (.int 2))) ∧
      (Layer.laterRatios (.int 2) (.int 2)).items? (.signs Value.intSign) (fun _ => Datum.trades) =
        some (Log.items (.signs Value.intSign) (Log.ratios (.int 2) (.int 2)) Datum.trades) := by
  have hI := Interpretation.respectsSame_intSign
  have hpipeline := Log.isPipeline_ratios (.int 2) (.int 2)
  have hplan : Plan.ofLog Schema.trades (.getSource "Trade" :: Log.ratios (.int 2) (.int 2)) =
    .ok (.select (.laterRatios (.int 2) (.int 2))) := Plan.ofLog_ratios rfl
  let tables : String → List (Datum Int) := fun _ => Datum.trades
  have hitems : (Layer.laterRatios (.int 2) (.int 2)).items? (.signs Value.intSign) tables = _ :=
    Plan.items?_ofLog hI hpipeline hplan
  exact ⟨hI, hpipeline, hplan, hitems⟩

/-- The number of lines of each order, in a column behind the lines themselves. -/
def Log.lineCounts : Log :=
  [.select ⟨["o"], .object none [⟨"Count", .member (.param "o") "Lines"⟩]⟩]

def Layer.lineCounts : Layer :=
  { ofLayer (some "Order") { ofSource "Order" with
      select := .object none [⟨"Id", .member (.source 0) "Id"⟩] } with
    hasMany := true
    select := .object none [⟨"Count", .member (.source 0) "Lines"⟩] }

def Datum.orders : List (Datum Int) :=
  [.record [⟨"Lines", .scalar 3⟩, ⟨"Id", .scalar 1⟩]]

/-- Two ways to lose items. Zeros of either sign are the same constant, so that the plan orders by
ratios to the other one. And a column behind a navigation of the same name is taken for the
navigation, so that it is not read at all. -/
theorem Plan.items?_ne_items :
    (Log.isPipeline Schema.trades "Trade" (Log.ratios (.float 0.0) (.float (-0.0))) ∧
      Plan.ofLog Schema.trades
        (.getSource "Trade" :: Log.ratios (.float 0.0) (.float (-0.0))) =
          .ok (.select (.laterRatios (.float 0.0) (.float (-0.0)))) ∧
      (Layer.laterRatios (.float 0.0) (.float (-0.0))).items? (.signs Value.signBit)
          (fun _ => Datum.trades) ≠
        some (Log.items (.signs Value.signBit) (Log.ratios (.float 0.0) (.float (-0.0)))
          Datum.trades)) ∧
    (Plan.ofLog Schema.hiddenColumn (.getSource "Order" :: Log.lineCounts) =
        .ok (.select .lineCounts) ∧
      Layer.lineCounts.items? (.signs Value.signBit) (fun _ => Datum.orders) ≠
        some (Log.items (.signs Value.signBit) Log.lineCounts Datum.orders)) := by
  refine ⟨⟨Log.isPipeline_ratios _ _, Plan.ofLog_ratios (by decide), ?_⟩, by cbv, ?_⟩
  · rw [Layer.items?_laterRatios (by decide) (by decide), Log.items_ratios (by decide) (by decide)]
    decide
  · have hplan : Layer.lineCounts.items? (.signs Value.signBit) (fun _ => Datum.orders) =
        some [.record [⟨"Count", .scalar 0⟩]] := by
      simp [Layer.lineCounts, Layer.items?, Layer.rows?, Layer.ofLayer, Layer.ofSource, Layer.empty,
        Layer.isPipeline, Datum.orders, Clauses.itemsOver, Clauses.page, Clauses.kept, Expr.eval,
        Expr.evalBindings, Datum.get?, Interpretation.signs]
    have hlog : Log.items (.signs Value.signBit) Log.lineCounts Datum.orders =
        [.record [⟨"Count", .scalar 3⟩]] := rfl
    rw [hplan, hlog]
    decide

end QueryCompiler

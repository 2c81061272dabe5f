import QueryCompiler.Proofs.Plan.Normal
/-!
# The tests of a log

A log tests rows with `Where`, and with the tests that operators such as `First` and `Count` may
carry. `Log.tests` lists them in the order of the log, each bound to the row at its place, with the
layer it is made in and whether the rows of that layer are grouped by then. The plan of the log
carries exactly these tests: layer by layer, from the innermost on, those of rows and then those of
groups (`Plan.carries_ofLog`). None is lost, none is repeated.

A draft holds the tests of its own layer, and the layers below carry the others. What is held grows
by the test of each operator and by nothing else (`Draft.Holds`, `Holds.step`).
-/

namespace QueryCompiler

variable {schema : Schema} {nested : Log → Compiled Layer}

/-! ## Tests -/

/-- Where an operator stands: the number of its layer, from the innermost on, and whether the rows
of that layer are grouped before it. -/
structure Site where
  layer : Nat
  grouped : Bool

/-- A test of the rows, or groups, at a site. -/
structure Test extends Site where
  expr : Expr

def Operator.test? (op : Operator) : Option Lambda :=
  match op.kind with
  | .filter | .any | .first | .firstOrDefault | .single | .singleOrDefault | .count =>
    op.lambda? 0
  | _ => none

theorem Operator.test?_of_isFirst {op : Operator} (h : op.kind.isFirst) :
    op.test? = op.lambda? 0 := by
  unfold test?
  cases hk : op.kind <;> first | rfl | (rw [hk] at h; cases h)

theorem Operator.test?_of_aggregate? {op : Operator} {func : AggregateFunc}
    (h : op.kind.aggregate? = some func) :
    op.test? = if func = .count then op.lambda? 0 else none := by
  unfold test?
  cases hk : op.kind <;> rw [hk] at h <;> cases h <;> rfl

namespace Site

def next (p : Site) : Site := ⟨p.layer + 1, false⟩

def after (p : Site) (op : Operator) : Site :=
  { p with grouped := p.grouped || op.kind == .groupBy }

theorem after_of_ne {p : Site} {op : Operator} (h : op.kind ≠ .groupBy) : p.after op = p := by
  have hk : (op.kind == .groupBy) = false := beq_false_of_ne h
  simp [after, hk]

end Site

namespace Draft

/-- The site of an operator behind a draft. -/
def siteOf (d : Draft) (site : Site) (kind : OpKind) : Site :=
  if d.mustClose kind then site.next else site

/-- The test that an operator at a site makes of the rows of a draft. -/
def testAt (d : Draft) (site : Site) (op : Operator) : Compiled (Option Test) :=
  op.test?.mapM fun l => do return ⟨site, ← d.bindRow l⟩

/-- The tests that operators make, each bound to the row it is read against. -/
def testsFrom (schema : Schema) (nested : Log → Compiled Layer) :
    Site → Draft → Log → Compiled (List Test)
  | _, _, [] => return []
  | site, d, op :: ops => do
    let site := d.siteOf site op.kind
    let current ← d.opened schema op.kind
    let test ← current.testAt site op
    let rest ← testsFrom schema nested (site.after op) (← d.step schema nested op) ops
    return test.toList ++ rest

end Draft

def Log.tests (schema : Schema) (log : Log) : Compiled (List Test) := do
  let (d, ops) ← Draft.start schema log
  d.testsFrom schema (Plan.nestedAt schema log.nesting) ⟨0, false⟩ ops

/-! ## Layers that carry tests -/

namespace Layer

mutual

/-- A layer and those below it, from the innermost on. -/
def chain : Layer → List Layer
  | ⟨clauses, subquery, joins, unions⟩ =>
    chainBelow subquery ++ [⟨clauses, subquery, joins, unions⟩]

def chainBelow : Option Layer → List Layer
  | none => []
  | some l => l.chain

end

/-- A layer tests its rows by the first expressions and its groups by the second, and by no
others. -/
def Carries (l : Layer) (part : List Expr × List Expr) : Prop :=
  l.predicate = Expr.conjoin part.1 ∧ l.having = Expr.conjoin part.2

theorem chain_eq (l : Layer) : l.chain = chainBelow l.subquery ++ [l] := by
  obtain ⟨clauses, subquery, joins, unions⟩ := l
  rw [chain]

end Layer

/-- The tests of layers, from the innermost on: in each, those of rows and then those of groups. -/
def Test.listing (parts : List (List Expr × List Expr)) : List Test :=
  parts.zipIdx.flatMap fun (part, i) =>
    part.1.map (fun e => ⟨⟨i, false⟩, e⟩) ++ part.2.map (fun e => ⟨⟨i, true⟩, e⟩)

theorem Test.listing_concat (parts : List (List Expr × List Expr)) (tests havings : List Expr) :
    listing (parts ++ [(tests, havings)]) = listing parts ++
      (tests.map (fun e => ⟨⟨parts.length, false⟩, e⟩) ++
        havings.map (fun e => ⟨⟨parts.length, true⟩, e⟩)) := by
  simp [listing, List.zipIdx_append]

theorem Test.listing_concat_nil (parts : List (List Expr × List Expr)) :
    listing (parts ++ [([], [])]) = listing parts := by
  simp [listing_concat]

/-! ## What a draft holds -/

namespace Draft

variable {d d' : Draft} {op : Operator} {site : Site} {parts : List (List Expr × List Expr)}

/-- The tests of the layers below and of a draft itself. -/
def held (d : Draft) (parts : List (List Expr × List Expr)) : List Test :=
  Test.listing (parts ++ [(d.filters, d.havings)])

/-- A draft stands at a site over layers that carry tests. -/
structure Holds (d : Draft) (site : Site) (parts : List (List Expr × List Expr)) : Prop where
  layer : parts.length = site.layer
  grouped : d.grouped = site.grouped
  havings : d.grouped = false → d.havings = []
  below : List.Forall₂ Layer.Carries (Layer.chainBelow d.layer.subquery) parts

/-- A layer over the same rows that has the tests of the draft carries what is held. -/
theorem Holds.chain (h : d.Holds site parts) {l : Layer} (hbelow : l.subquery = d.layer.subquery)
    (hl : l.Carries (d.filters, d.havings)) :
    List.Forall₂ Layer.Carries l.chain (parts ++ [(d.filters, d.havings)]) := by
  rw [Layer.chain_eq, hbelow]
  exact List.rel_append h.below (.cons hl .nil)

/-- **A new layer starts with no tests**, over one that carries those of the finished draft. -/
theorem Holds.opened {kind : OpKind} (h : d.Holds site parts)
    (hd : d.opened schema kind = .ok d') :
    ∃ parts', d'.Holds (d.siteOf site kind) parts' ∧ d'.held parts' = d.held parts := by
  unfold Draft.opened at hd
  unfold siteOf
  split at hd
  · rename_i hclose
    rw [if_pos hclose]
    obtain ⟨row, source, -, rfl⟩ := wrap_eq_ok hd
    refine ⟨parts ++ [(d.filters, d.havings)], ⟨?_, rfl, fun _ => rfl, ?_⟩, ?_⟩
    · simp [Site.next, h.layer]
    · exact h.chain rfl ⟨rfl, rfl⟩
    · exact Test.listing_concat_nil _
  · rename_i hopen
    cases hd
    rw [if_neg hopen]
    exact ⟨parts, h, rfl⟩

/-- **A test joins those that are held**, behind all of them. -/
theorem Holds.restrict (h : d.Holds site parts) (test : Expr) :
    (d.restrict test).Holds site parts ∧
      (d.restrict test).held parts = d.held parts ++ [⟨site, test⟩] := by
  obtain ⟨layer, grouped⟩ := site
  obtain ⟨rfl : parts.length = layer, rfl : d.grouped = grouped, hhavings, hbelow⟩ := h
  unfold Draft.restrict
  cases hg : d.grouped with
  | true =>
    refine ⟨⟨rfl, rfl, by simp, hbelow⟩, ?_⟩
    simp [held, Test.listing_concat]
  | false =>
    -- no group has been tested yet, so the test stands behind all others
    have hnone : d.havings = [] := hhavings hg
    refine ⟨⟨rfl, rfl, fun _ => hnone, hbelow⟩, ?_⟩
    simp [held, Test.listing_concat, hnone]

theorem Holds.congr (h : d.Holds site parts) (hbelow : d'.layer.subquery = d.layer.subquery)
    (hgrouped : d'.grouped = d.grouped) (hfilters : d'.filters = d.filters)
    (hhavings : d'.havings = d.havings) :
    d'.Holds site parts ∧ d'.held parts = d.held parts := by
  refine ⟨⟨h.layer, hgrouped.trans h.grouped, fun hg => ?_, ?_⟩, ?_⟩
  · rw [hhavings]
    exact h.havings (hgrouped ▸ hg)
  · rw [hbelow]
    exact h.below
  · rw [held, held, hfilters, hhavings]

theorem Holds.restrictBy (h : d.Holds site parts) (hr : d.restrictBy op = .ok d')
    (htest : op.test? = op.lambda? 0) :
    d'.Holds site parts ∧ ∃ test, d.testAt site op = .ok test ∧
      d'.held parts = d.held parts ++ test.toList := by
  rw [testAt, htest]
  rcases restrictBy_eq_ok hr with ⟨hl, rfl⟩ | ⟨l, test, hl, hb, rfl⟩
  · rw [hl]
    exact ⟨h, none, rfl, by simp⟩
  · rw [hl]
    obtain ⟨hholds, hheld⟩ := h.restrict test
    refine ⟨hholds, some ⟨site, test⟩, ?_, by simpa using hheld⟩
    simp [hb, bind, Except.bind]

/-- A draft that an operator without a test leaves with the same tests. -/
theorem Holds.untested (hd : d.Holds site parts) (htest : op.test? = none)
    (hk : op.kind ≠ .groupBy) (hbelow : d'.layer.subquery = d.layer.subquery)
    (hgrouped : d'.grouped = d.grouped) (hfilters : d'.filters = d.filters)
    (hhavings : d'.havings = d.havings) :
    d'.Holds (site.after op) parts ∧ ∃ test, d.testAt site op = .ok test ∧
      d'.held parts = d.held parts ++ test.toList := by
  obtain ⟨hholds, hheld⟩ := hd.congr hbelow hgrouped hfilters hhavings
  rw [Site.after_of_ne hk, testAt, htest]
  exact ⟨hholds, none, rfl, by simpa using hheld⟩

/-- **An operator adds the test that it carries, and no other.** -/
theorem Applied.holds (h : Applied schema nested d op d') (hd : d.Holds site parts) :
    d'.Holds (site.after op) parts ∧ ∃ test, d.testAt site op = .ok test ∧
      d'.held parts = d.held parts ++ test.toList := by
  have hbelow := h.subquery_eq
  cases h with
  | @filter l test hk hl hb =>
    have htest : op.test? = some l := by
      simp only [Operator.test?, hk]
      unfold Operator.lambda at hl
      split at hl
      · rename_i l' hl'
        cases hl
        exact hl'
      · cases hl
    obtain ⟨hholds, hheld⟩ := hd.restrict test
    rw [Site.after_of_ne (by simp [hk]), testAt, htest]
    refine ⟨hholds, some ⟨site, test⟩, ?_, by simpa using hheld⟩
    simp [hb, bind, Except.bind]
  | group hk =>
    refine ⟨⟨hd.layer, ?_, by simp, hd.below⟩, none, ?_, ?_⟩
    · simp [Site.after, hk]
    · simp [testAt, Operator.test?, hk]
    · simp [held]
  | selectMany hk _ _ hf =>
    obtain ⟨joins, rfl⟩ := hf.frame
    exact hd.untested (by simp [Operator.test?, hk]) (by simp [hk]) hbelow rfl rfl rfl
  | join hk | modify hk =>
    refine hd.untested ?_ ?_ hbelow rfl rfl rfl
    · rcases hk with hk | hk | hk <;> simp [Operator.test?, hk]
    · rcases hk with hk | hk | hk <;> simp [hk]
  | @order _ _ descending hk | @refineOrder _ _ descending hk =>
    refine hd.untested ?_ ?_ hbelow rfl rfl rfl
    · cases descending <;> simp [Operator.test?, hk]
    · cases descending <;> simp [hk]
  | select hk | skip hk | take hk | distinct hk | asSubquery hk | union hk | includePath hk =>
    exact hd.untested (by simp [Operator.test?, hk]) (by simp [hk]) hbelow rfl rfl rfl
  | any hk hr =>
    obtain ⟨hholds, htest⟩ := hd.restrictBy hr (by simp [Operator.test?, hk])
    rw [Site.after_of_ne (by simp [hk])]
    exact ⟨{ hholds with }, htest⟩
  | first hk hr =>
    obtain ⟨hholds, htest⟩ := hd.restrictBy hr (Operator.test?_of_isFirst hk)
    rw [Site.after_of_ne (by rintro h; rw [h] at hk; cases hk)]
    exact ⟨{ hholds with }, htest⟩
  | @aggregate func d₁ selector hk hs =>
    have hne : op.kind ≠ .groupBy := by rintro h; rw [h] at hk; cases hk
    have htest := Operator.test?_of_aggregate? hk
    rcases hs with ⟨rfl, hr, -⟩ | ⟨hcount, rfl, -⟩
    · obtain ⟨hholds, htest⟩ := hd.restrictBy hr (htest.trans (if_pos rfl))
      rw [Site.after_of_ne hne]
      exact ⟨{ hholds with }, htest⟩
    · exact hd.untested (htest.trans (if_neg hcount)) hne hbelow rfl rfl rfl

/-- **A step adds the test of its operator to what is held.** -/
theorem Holds.step (h : d.Holds site parts) (hstep : d.step schema nested op = .ok d') :
    ∃ parts' current, d.opened schema op.kind = .ok current ∧
      d'.Holds ((d.siteOf site op.kind).after op) parts' ∧ ∃ test,
        current.testAt (d.siteOf site op.kind) op = .ok test ∧
        d'.held parts' = d.held parts ++ test.toList := by
  obtain ⟨-, current, d₂, hd₁, happlied, rfl⟩ := step_eq_ok hstep
  have hopened : d.opened schema op.kind = .ok current := by
    unfold Draft.opened
    rcases hd₁ with ⟨hclose, hwrap⟩ | ⟨hopen, rfl⟩
    · rw [if_pos hclose, hwrap]
    · rw [if_neg (by simp [hopen])]
  obtain ⟨parts', hholds, hheld⟩ := h.opened hopened
  obtain ⟨hholds', test, htest, hheld'⟩ := happlied.holds hholds
  exact ⟨parts', current, hopened, { hholds' with }, test, htest, hheld'.trans (by rw [hheld])⟩

/-- **What operators leave held are the tests they make**, behind those held before. -/
theorem Holds.run {ops : Log} (h : d.Holds site parts)
    (hrun : ops.foldlM (Draft.step schema nested) d = .ok d') :
    ∃ tests parts' site', d.testsFrom schema nested site ops = .ok tests ∧
      d'.Holds site' parts' ∧ d'.held parts' = d.held parts ++ tests := by
  induction ops generalizing d site parts with
  | nil =>
    cases hrun
    exact ⟨[], parts, site, rfl, h, by simp⟩
  | cons op ops ih =>
    simp only [List.foldlM_cons, Compiled.bind_eq_ok] at hrun
    obtain ⟨d₁, hstep, hrun⟩ := hrun
    obtain ⟨parts₁, current, hopened, hholds, test, htest, hheld⟩ := h.step hstep
    obtain ⟨tests, parts', site', htests, hholds', hheld'⟩ := ih hholds hrun
    refine ⟨test.toList ++ tests, parts', site', ?_, hholds', ?_⟩
    · simp only [testsFrom, Compiled.bind_eq_ok, Compiled.pure_eq_ok]
      exact ⟨current, hopened, test, htest, d₁, hstep, tests, htests, rfl⟩
    · rw [hheld', hheld, List.append_assoc]

theorem holds_ofSource (ty : String) : (ofSource ty).Holds ⟨0, false⟩ [] :=
  ⟨rfl, rfl, fun _ => rfl, .nil⟩

/-! ## Plans -/

/-- **A split moves no test**: the inner half carries those of the draft, the outer half none. -/
theorem Holds.separateCollections {q : Layer} (h : d.Holds site parts)
    (hq : d.finished.separateCollections schema = .ok q) :
    ∃ parts', List.Forall₂ Layer.Carries q.chain parts' ∧ Test.listing parts' = d.held parts := by
  rcases Layer.separateCollections_eq_ok hq with ⟨rfl, -⟩ | ⟨hsplit, -⟩
  · exact ⟨_, h.chain rfl ⟨rfl, rfl⟩, rfl⟩
  obtain ⟨select, orders, columns, -, -, rfl⟩ := Layer.split_eq_ok hsplit
  refine ⟨parts ++ [(d.filters, d.havings)] ++ [([], [])], ?_, Test.listing_concat_nil _⟩
  rw [Layer.chain_eq]
  refine List.rel_append ?_ ?_
  · exact h.chain rfl ⟨rfl, rfl⟩
  · exact .cons ⟨rfl, rfl⟩ .nil

end Draft

/-- **The layers of a plan carry the tests of its log.** From the innermost layer on, those of rows
and then those of groups are the tests of the log, in their order; a test is one of groups if its
layer is grouped before it. A modification has a single layer, which reads a table and bounds,
reduces or unites nothing, and carries them all. -/
theorem Plan.carries_ofLog {log : Log} {p : Plan} {l : Layer} (h : Plan.ofLog schema log = .ok p)
    (hl : p.scope? = some l) :
    ∃ parts, List.Forall₂ Layer.Carries l.chain parts ∧
      Log.tests schema log = .ok (Test.listing parts) ∧
      ((∀ q, p ≠ .select q) → l.subquery = none ∧ l.unions = [] ∧ l.skip = 0 ∧ l.take = 0 ∧
        l.distinct = false ∧ ∃ filters havings, parts = [(filters, havings)]) := by
  obtain ⟨d, hd, hp⟩ := ofLog_eq_ok.1 h
  have hregular := Draft.regular_ofLog hd
  obtain ⟨d₀, ops, hstart, hrun⟩ := Draft.ofLog_eq_ok hd
  obtain ⟨ty, rfl, -⟩ := Draft.start_eq_ok hstart
  obtain ⟨tests, parts, site, htests, hholds, hheld⟩ := (Draft.holds_ofSource ty).run hrun
  have hlog : Log.tests schema log = .ok (d.held parts) := by
    rw [hheld]
    exact Compiled.bind_eq_ok.2 ⟨_, hstart, htests⟩
  rcases hregular.scope?_of_plan hp hl with ⟨rfl, hq⟩ | ⟨hm, rfl⟩
  · obtain ⟨parts', hcarries, hlisting⟩ := hholds.separateCollections hq
    exact ⟨parts', hcarries, hlisting ▸ hlog, fun hne => absurd rfl (hne l)⟩
  · obtain ⟨m, hm⟩ := Option.ne_none_iff_exists'.1 hm
    obtain ⟨hsubquery, hopen, -⟩ := hregular.modified m hm
    refine ⟨_, hholds.chain rfl ⟨rfl, rfl⟩, hlog, fun _ => ?_⟩
    refine ⟨hsubquery, hopen.unions, hopen.skip, hopen.take, hopen.distinct, d.filters,
      d.havings, ?_⟩
    -- nothing is carried below a layer that reads a table
    have hbelow := hholds.below
    rw [hsubquery] at hbelow
    cases hbelow
    rfl

/-- A title of later books that occurs more than once, other than one. -/
def Log.repeatedTitle : Log :=
  [.getSource "Book", .filter ⟨["b"], .binary .gt (.member (.param "b") "Id") (.constant (.int 5))⟩,
    .groupBy ⟨["b"], .member (.param "b") "Title"⟩ none,
    .filter ⟨["g"], .binary .gt (.call "Count" (some (.param "g")) []) (.constant (.int 1))⟩,
    .take 3, .terminal .first (some ⟨["t"], .binary .ne (.param "t") (.constant (.string "A"))⟩)]

/-- The layer of that title: the groups that are tested stand below the row that is. -/
def Layer.repeatedTitle : Layer :=
  { ofLayer none { ofSource "Book" with
      select := .member (.source 0) "Title"
      predicate := some (.binary .gt (.member (.source 0) "Id") (.constant (.int 5)))
      groupBy := some (.member (.source 0) "Title")
      having := some (.binary .gt (.aggregate .count none) (.constant (.int 1)))
      take := 3 } with
    select := .member (.source 0) "Title"
    predicate := some (.binary .ne (.member (.source 0) "Title") (.constant (.string "A")))
    take := 1 }

def Log.removedBooks : Log :=
  [.getSource "Book", .filter ⟨["b"], .binary .le (.member (.param "b") "Id") (.constant (.int 5))⟩,
    .filter ⟨["b"], .binary .ne (.member (.param "b") "Title") (.constant (.string "A"))⟩,
    .delete none]

def Layer.removedBooks : Layer :=
  { ofSource "Book" with
    predicate := some (.binary .and
      (.binary .le (.member (.source 0) "Id") (.constant (.int 5)))
      (.binary .ne (.member (.source 0) "Title") (.constant (.string "A")))) }

/-- The repeated title is tested in both of its layers, and books are removed by both tests. -/
theorem Plan.carries_ofLog_books :
    (Plan.ofLog Schema.books Log.repeatedTitle = .ok (.select Layer.repeatedTitle) ∧
      ∃ parts, List.Forall₂ Layer.Carries Layer.repeatedTitle.chain parts ∧
        Log.tests Schema.books Log.repeatedTitle = .ok (Test.listing parts)) ∧
    Plan.ofLog Schema.books Log.removedBooks =
        .ok (.delete "Book" .scope Layer.removedBooks) ∧
      ∃ filters havings, List.Forall₂ Layer.Carries Layer.removedBooks.chain [(filters, havings)] ∧
        Log.tests Schema.books Log.removedBooks = .ok (Test.listing [(filters, havings)]) := by
  have hquery : Plan.ofLog Schema.books Log.repeatedTitle =
      .ok (.select Layer.repeatedTitle) := by cbv
  have hdelete : Plan.ofLog Schema.books Log.removedBooks =
      .ok (.delete "Book" .scope Layer.removedBooks) := by cbv
  obtain ⟨parts, hparts, htests, -⟩ := Plan.carries_ofLog hquery rfl
  obtain ⟨_, hparts', htests', hsingle⟩ := Plan.carries_ofLog hdelete rfl
  obtain ⟨-, -, -, -, -, filters, havings, rfl⟩ := hsingle (by simp)
  exact ⟨⟨hquery, parts, hparts, htests⟩, hdelete, filters, havings, hparts', htests'⟩

end QueryCompiler

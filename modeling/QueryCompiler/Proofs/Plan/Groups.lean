import QueryCompiler.Proofs.Plan.Operands
import QueryCompiler.Proofs.Plan.WellScoped
/-!
# Groups and operands that are found

A query is refused if the group that it flattens is not that of a join of its layer, if an operator
lacks an operand, or if a lambda is bound to another number of rows than it has parameters. These
are the doing of a few steps only; everything else that plans a query, from the binding of lambdas
to the split, spares it such a refusal.

The operands of a valid operator are there, so that applying it is refused only if binding one of its
lambdas is, or planning a query that it nests (`Draft.spares_apply`). And in a well-scoped draft the
group is found, so that no log with the expressions of a caller is refused for want of one
(`Plan.spares_ofLogAt`).
-/

namespace QueryCompiler

variable {schema : Schema} {nested : Log → Compiled Layer} {r : Refusal}

/-! ## Binding -/

namespace Expr

theorem spares_foldMember {target : Expr} {name : String} :
    (foldMember target name).Spares r := by
  unfold foldMember
  split
  · split
    · exact .ok
    · exact .error rfl
  · split
    · exact .ok
    · exact .ok
  · exact .ok

theorem spares_reduceWith {g : GroupCall}
    (hg : ∀ method element args, (g method element args).Spares r) (e : Expr) :
    (e.reduceWith g).Spares r := by
  intro err herr
  obtain ⟨p, -, hfailure⟩ := exists_failure herr
  cases hfailure with
  | param name h => simp [h, CompileError.refusal?]
  | member h => exact spares_foldMember err h
  | group _ h => exact hg _ _ _ err h

theorem spares_groupAggregate {bindElement : Lambda → Expr → Compiled Expr}
    (h : ∀ l element, (bindElement l element).Spares r) (method : String) (element : Expr)
    (args : List Expr) : (groupAggregate bindElement method element args).Spares r := by
  unfold groupAggregate
  split
  · exact .error rfl
  · split
    · exact .ok
    · exact .bind (h _ element) fun _ _ => .ok
    · exact .error rfl

end Expr

namespace Lambda

variable {l : Lambda} {args : List Expr}

theorem spares_environment (hr : ∀ e, r ≠ .arity e) : (l.environment args).Spares r := by
  unfold environment
  split
  · exact .ok
  · rintro _ ⟨⟩ hrefusal
    exact hr _ (Option.some.inj hrefusal).symm

theorem spares_bindAt (hr : ∀ e, r ≠ .arity e) (depth : Nat) :
    (l.bindAt depth args).Spares r := by
  induction depth generalizing l args with
  | zero =>
    rw [bindAt_eq]
    exact .bind (spares_environment hr) fun _ _ => Expr.spares_reduceWith (fun _ _ _ => .error rfl) _
  | succ depth ih =>
    rw [bindAt_eq]
    refine .bind (spares_environment hr) fun _ _ => Expr.spares_reduceWith ?_ _
    exact Expr.spares_groupAggregate fun l element => ih

/-- **A lambda is bound without a refusal**, but for that of its own parameters. -/
theorem spares_bind (hr : ∀ e, r ≠ .arity e) : (l.bind args).Spares r := by
  rcases bind_cases l args with ⟨-, depth, hdepth⟩ | ⟨hendless, -⟩
  · rw [← hdepth]
    exact spares_bindAt hr depth
  · rw [hendless]
    exact .error rfl

end Lambda

/-! ## Splits -/

namespace Layer

variable {l : Layer}

theorem spares_derivedRow {id : Nat} : (l.derivedRow schema id).Spares r := by
  unfold derivedRow
  split
  · exact .ok
  · refine .bind (.mapM fun b _ => .bind (spares_shape _) fun shape _ => ?_) fun _ _ => .ok
    split
    · exact .ok
    · exact .error rfl
  · exact .ok

theorem spares_bindsCollection (e : Expr) : (l.bindsCollection schema e).Spares r := by
  induction e using Expr.induction_object with
  | object ty bs ih =>
    rw [bindsCollection]
    induction bs with
    | nil => exact .ok
    | cons b bs ihs =>
      obtain ⟨m, v⟩ := b
      obtain ⟨hv, hbs⟩ := List.forall_mem_cons.1 ih
      rw [bindsCollectionAny]
      refine .bind hv fun found _ => ?_
      split
      · exact .ok
      · exact ihs hbs
  | other e he =>
    rw [bindsCollection.eq_2 _ _ _ he]
    exact .bind (spares_shape e) fun _ _ => .ok

theorem spares_pathReachesCollection {ty : String} {path : List String} :
    (pathReachesCollection schema ty path).Spares r := by
  induction path generalizing ty with
  | nil => exact .ok
  | cons hop path ih =>
    unfold pathReachesCollection
    refine .bind Schema.spares_entity fun entity _ => ?_
    split
    · exact .error rfl
    · split
      · exact .ok
      · exact ih

theorem spares_includesCollection : (l.includesCollection schema).Spares r := by
  unfold includesCollection
  split
  · exact .ok
  · rename_i ty _
    induction l.includes with
    | nil => exact .ok
    | cons path paths ih =>
      unfold anyReachesCollection
      refine .bind spares_pathReachesCollection fun found _ => ?_
      split
      · exact .ok
      · exact ih

theorem spares_split : (l.split schema).Spares r := by
  have hany : Expr.Restatable (fun _ => True) fun _ => True :=
    ⟨fun _ _ _ => trivial, fun _ => ⟨trivial, trivial⟩, id, fun _ _ => trivial⟩
  unfold split
  dsimp only
  split
  · exact .error rfl
  · refine .bind ?_ fun _ _ => .ok
    exact (keeps_splitOuter hany trivial fun _ _ => trivial).spares r [] fun _ _ => trivial

/-- **A layer is split without a refusal.** -/
theorem spares_separateCollections : (l.separateCollections schema).Spares r := by
  have hsplit : Compiled.Spares r (if (!l.unions.isEmpty) = true then
      throw (.ambiguous .collectionWithUnion) else l.split schema) := by
    split
    · exact .error rfl
    · exact spares_split
  unfold separateCollections
  split
  · exact .ok
  · refine .bind (spares_shape _) fun shape _ => ?_
    dsimp only
    split
    · exact .error rfl
    · refine .bind (spares_bindsCollection _) fun binds _ => ?_
      cases binds with
      | true => exact hsplit
      | false =>
        refine .bind spares_includesCollection fun reaches _ => ?_
        cases reaches with
        | true => exact hsplit
        | false => exact .ok

end Layer

/-! ## Operators -/

theorem Operator.spares_lambda_bind {α : Type} {op : Operator} {i : Nat} {f : Lambda → Compiled α}
    (h : (op.lambda? i).isSome) (hf : ∀ l, op.lambda? i = some l → (f l).Spares r) :
    Compiled.Spares r (op.lambda i >>= f) := by
  obtain ⟨l, hl⟩ := Option.isSome_iff_exists.1 h
  unfold lambda
  rw [hl]
  exact hf l hl

theorem Join.spares_keys {kind : OpKind} {outer inner : Expr} :
    (keys kind outer inner).Spares r := by
  unfold keys
  split
  · split
    · exact .ok
    · exact .error rfl
  · exact .ok
  · exact .error rfl

namespace Draft

variable {d : Draft} {op : Operator}

section Rows

variable (hrow : ∀ l, op.lambda? 0 = some l → (d.bindRow l).Spares r)

include hrow

theorem spares_restrictBy : (d.restrictBy op).Spares r := by
  unfold restrictBy
  split
  · exact .ok
  · exact .bind (hrow _ ‹_›) fun _ _ => .ok

theorem spares_aggregate {func : AggregateFunc} : (d.aggregate schema op func).Spares r := by
  unfold aggregate
  split
  · exact .bind (spares_restrictBy hrow) fun _ _ => .ok
  · exact .bind (hrow _ ‹_›) fun _ _ => .ok
  · refine .bind (Layer.spares_shape _) fun shape _ => ?_
    split
    · exact .ok
    · exact .error rfl

variable (hsome : (op.lambda? 0).isSome)

include hsome

theorem spares_group (helement : ∀ l, op.lambda? 1 = some l → (d.bindRow l).Spares r) :
    (d.group op).Spares r := by
  refine Operator.spares_lambda_bind hsome fun l hl => .bind (hrow l hl) fun _ _ => ?_
  split
  · exact .bind (helement _ ‹_›) fun _ _ => .ok
  · exact .ok

theorem spares_addOrders {descending : Bool} : (d.addOrders op descending).Spares r :=
  Operator.spares_lambda_bind hsome fun l hl => .bind (hrow l hl) fun _ _ => .ok

theorem spares_refineOrder {descending : Bool} : (d.refineOrder op descending).Spares r := by
  unfold refineOrder
  split
  · exact .error rfl
  · exact spares_addOrders hrow hsome

end Rows

/-- Rows are passed over with an ordering or refused for want of one. -/
theorem spares_skip (hr : r ≠ .order) {n : Nat} : (d.skip schema n).Spares r := by
  unfold skip
  dsimp only
  generalize (if (decide (n > 0) && d.layer.orders.isEmpty) = true then
    (d.layer.inheritedOrders schema).getD [] else d.layer.orders) = orders
  split
  · rintro _ ⟨⟩ hrefusal
    exact hr (Option.some.inj hrefusal).symm
  · exact .ok

theorem spares_checkNavigations {ty : String} {path : List String} :
    (checkNavigations schema ty path).Spares r := by
  induction path generalizing ty with
  | nil => exact .ok
  | cons hop path ih =>
    unfold checkNavigations
    refine .bind Schema.spares_entity fun entity _ => ?_
    split
    · exact .error rfl
    · exact ih

theorem spares_includePath (hsome : (op.lambda? 0).isSome)
    (hroot : ∀ l, op.lambda? 0 = some l → (l.bind [.source 0]).Spares r) :
    (d.includePath schema op).Spares r := by
  unfold includePath
  dsimp only
  split
  · exact .error rfl
  · split
    · exact .error rfl
    · refine Operator.spares_lambda_bind hsome fun l hl => .bind (hroot l hl) fun _ _ => ?_
      split
      · refine .bind spares_checkNavigations fun _ _ => ?_
        split
        · exact .ok
        · exact .ok
      · exact .error rfl

theorem spares_checkPayload {source : String} {e : EntityValue} :
    (d.checkPayload op source e).Spares r := by
  unfold checkPayload
  split
  · exact .error rfl
  · split
    · exact .error rfl
    · exact .ok

theorem spares_modificationOf {source : String} (h : op.validate = .ok ())
    (hk : op.kind = .insert ∨ op.kind = .update ∨ op.kind = .delete)
    (hroot : op.kind = .update → ∀ l, op.lambda? 0 = some l → (l.bind [.source 0]).Spares r) :
    (d.modificationOf schema op source).Spares r := by
  unfold modificationOf
  dsimp only
  split
  case h_1 | h_4 | h_6 => exact .bind spares_checkPayload fun _ _ => .ok
  case h_2 => exact .bind (.forM fun _ _ => spares_checkPayload) fun _ _ => .ok
  case h_3 =>
    refine .bind Schema.spares_entity fun _ _ => ?_
    split
    · exact .error rfl
    · exact .ok
  case h_5 l hkind ho =>
    split
    · exact .error rfl
    · have hl : op.lambda? 0 = some l := by
        rw [Operator.lambda?, ← List.head?_eq_getElem?, ho]
      refine .bind (hroot hkind l hl) fun _ _ => ?_
      split
      · exact .error rfl
      · exact .ok
  case h_7 => exact .ok
  case h_8 =>
    -- every payload that a slot accepts is treated above
    exfalso
    have hpayload (s : Slot) (hs : op.kind.slots[0]? = some s) :=
      Operator.accepts_or_isOptional h hs
    simp only [← List.head?_eq_getElem?] at hpayload
    rcases hk with hk | hk | hk
    · obtain ⟨o, ho, hs⟩ | ⟨-, hs⟩ := hpayload .insertPayload (by rw [hk]; rfl)
      · cases o <;> simp_all [Slot.accepts]
      · cases hs
    · obtain ⟨o, ho, hs⟩ | ⟨-, hs⟩ := hpayload .updatePayload (by rw [hk]; rfl)
      · cases o <;> simp_all [Slot.accepts]
      · cases hs
    · obtain ⟨o, ho, hs⟩ | ⟨ho, -⟩ := hpayload .optionalEntity (by rw [hk]; rfl)
      · cases o <;> simp_all [Slot.accepts]
      · simp_all

theorem spares_modify (h : op.validate = .ok ())
    (hk : op.kind = .insert ∨ op.kind = .update ∨ op.kind = .delete)
    (hroot : op.kind = .update → ∀ l, op.lambda? 0 = some l → (l.bind [.source 0]).Spares r) :
    (d.modify schema op).Spares r := by
  unfold modify
  split
  · exact .bind (spares_modificationOf h hk hroot) fun _ _ => .ok
  · exact .error rfl

/-! ## Joins -/

theorem spares_joinTarget {log : Log} {source : Nat} (h : (nested log).Spares r) :
    (joinTarget schema nested log source).Spares r := by
  unfold joinTarget
  split
  · exact .bind Schema.spares_entity fun _ _ => .ok
  · exact .bind h fun _ _ => .bind Layer.spares_derivedRow fun _ _ => .ok

theorem spares_join (hquery : (op.query? 0).isSome)
    (hnested : ∀ log, op.query? 0 = some log → (nested log).Spares r)
    (hsome : ∀ i, i = 1 ∨ i = 2 ∨ i = 3 → (op.lambda? i).isSome)
    (houter : ∀ l, op.lambda? 1 = some l → (d.bindRow l).Spares r)
    (hinner : ∀ l e, op.lambda? 2 = some l → (l.bind [e]).Spares r)
    (hresult : ∀ l e, op.lambda? 3 = some l → (l.bind [d.row, e]).Spares r) :
    (d.join schema nested op).Spares r := by
  unfold join
  split
  · rename_i hnone
    simp [hnone] at hquery
  · rename_i log hq
    refine .bind (spares_joinTarget (hnested log hq)) fun _ _ => ?_
    refine Operator.spares_lambda_bind (hsome 1 (by simp)) fun l hl => ?_
    refine .bind (houter l hl) fun _ _ => ?_
    refine Operator.spares_lambda_bind (hsome 2 (by simp)) fun l hl => ?_
    refine .bind (hinner l _ hl) fun _ _ => .bind Join.spares_keys fun _ _ => ?_
    refine Operator.spares_lambda_bind (hsome 3 (by simp)) fun l hl => ?_
    exact .bind (hresult l _ hl) fun _ _ => .ok

theorem spares_navigationJoin {owner : Expr} {name target : String} {unmatched : Unmatched} :
    (d.navigationJoin schema owner name target unmatched).Spares r := by
  unfold navigationJoin
  refine .bind (Layer.spares_shape _) fun shape _ => ?_
  split
  · refine .bind Schema.spares_entity fun entity _ => ?_
    split
    · exact .error rfl
    · split
      · exact .error rfl
      · exact .bind Schema.spares_entity fun _ _ => .ok
  · exact .error rfl

/-- **A group in scope is found.** -/
theorem spares_flatten {collection : Expr} {unmatched : Unmatched}
    (hscope : r = .group → collection.InScope d.layer.joins.length)
    (hquery : ∀ log, collection = .query log → (nested log).Spares r) :
    (d.flatten schema nested collection unmatched).Spares r := by
  unfold flatten
  split
  · rename_i index element
    refine .bind ?_ fun _ _ => .ok
    unfold flattenGroup
    split
    · rename_i hnone
      rintro _ ⟨⟩ hrefusal
      have hindex : index < d.layer.joins.length := hscope (Option.some.inj hrefusal).symm _ .refl
      exact absurd (List.getElem?_eq_none_iff.1 hnone) (Nat.not_le_of_lt hindex)
    · exact .ok
  · rename_i log
    exact .bind (spares_joinTarget (hquery log rfl)) fun _ _ => .ok
  · refine .bind (Layer.spares_shape _) fun shape _ => ?_
    split
    · exact spares_navigationJoin
    · exact .error rfl
  · exact .error rfl

theorem spares_selectMany (hsome : (op.lambda? 0).isSome)
    (hrow : ∀ l, op.lambda? 0 = some l → (d.bindRow l).Spares r)
    (hresult : ∀ l e, op.lambda? 1 = some l → (l.bind [d.row, e]).Spares r)
    (hscope : r = .group → ∀ l collection, op.lambda? 0 = some l → d.bindRow l = .ok collection →
      (Unmatched.strip collection).1.InScope d.layer.joins.length)
    (hnested : ∀ log, d.Nests op log → (nested log).Spares r) :
    (d.selectMany schema nested op).Spares r := by
  refine Operator.spares_lambda_bind hsome fun l hl => .bind (hrow l hl) fun collection hb => ?_
  refine .bind (spares_flatten (fun hr => hscope hr l collection hl hb) fun log hquery => ?_)
    fun (d₁, element) hflatten => ?_
  · exact hnested log (.inr ⟨l, collection, by rw [Operator.lambda, hl], hb, hquery⟩)
  · obtain ⟨joins, rfl⟩ := (flattened_of_flatten hflatten).frame
    dsimp only
    split
    · exact .bind (hresult _ _ ‹_›) fun _ _ => .ok
    · exact .ok

/-- **A valid operator is refused only for its lambdas and for what it nests**, if the groups that
it flattens are found. -/
theorem spares_apply (hr : r ≠ .order) (h : op.validate = .ok ())
    (hbind : ∀ i l e, op.lambda? i = some l → (l.bind (d.rowsAt e op.kind i)).Spares r)
    (hscope : r = .group → ∀ l collection, op.lambda? 0 = some l → d.bindRow l = .ok collection →
      (Unmatched.strip collection).1.InScope d.layer.joins.length)
    (hnested : ∀ log, d.Nests op log → (nested log).Spares r) :
    (d.apply schema nested op).Spares r := by
  have hquery (log : Log) (hq : op.query? 0 = some log) : (nested log).Spares r :=
    hnested log (.inl hq)
  have hlambda {i n : Nat} (hs : op.kind.slots[i]? = some (.lambda n)) : (op.lambda? i).isSome :=
    Operator.isSome_lambda? h hs
  obtain ⟨kind, operands⟩ := op
  have hrow (l : Lambda) (hl : Operator.lambda? ⟨kind, operands⟩ 0 = some l) := hbind 0 l d.row hl
  unfold apply
  cases kind with
  | getSource => exact .error rfl
  | filter | select =>
    exact Operator.spares_lambda_bind (hlambda rfl) fun l hl => .bind (hrow l hl) fun _ _ => .ok
  | selectMany =>
    exact spares_selectMany (hlambda rfl) hrow (fun l e => hbind 1 l e) hscope hnested
  | join | groupJoin | groupJoinRight =>
    refine spares_join (Operator.isSome_query? h (i := 0) rfl) hquery ?_ (fun l => hbind 1 l d.row)
      (fun l e => hbind 2 l e) fun l e => hbind 3 l e
    rintro i (rfl | rfl | rfl) <;> exact hlambda rfl
  | groupBy => exact spares_group hrow (hlambda rfl) fun l => hbind 1 l d.row
  | orderBy | orderByDescending =>
    exact spares_addOrders (d := { d with layer := { d.layer with orders := [] } }) hrow (hlambda rfl)
  | thenBy | thenByDescending => exact spares_refineOrder hrow (hlambda rfl)
  | skip => exact spares_skip hr
  | take | distinct | asSubquery => exact .ok
  | any | first | firstOrDefault | single | singleOrDefault =>
    exact .bind (spares_restrictBy hrow) fun _ _ => .ok
  | count | sum | max | min | average => exact spares_aggregate hrow
  | union =>
    obtain ⟨log, hq⟩ := Option.isSome_iff_exists.1 (Operator.isSome_query? h (i := 0) rfl)
    dsimp only
    rw [hq]
    exact .bind (hquery log hq) fun _ _ => .ok
  | includePath => exact spares_includePath (hlambda rfl) hrow
  | update => exact spares_modify h (by simp) fun _ => hrow
  | insert | delete => exact spares_modify h (by simp) (by simp)

theorem spares_step (h : (d.apply schema nested op).Spares r)
    (hwrap : ∀ d₁, d.wrap schema = .ok d₁ → (d₁.apply schema nested op).Spares r) :
    (d.step schema nested op).Spares r := by
  unfold step
  split
  · exact .error rfl
  · split
    · refine .bind (.bind Layer.spares_derivedRow fun _ _ => .ok) fun d₁ hd₁ => ?_
      exact .bind (hwrap d₁ hd₁) fun _ _ => .ok
    · exact .bind (f := fun d' => pure { d' with applied := d'.applied + 1 }) h fun _ _ => .ok

theorem spares_start {log : Log} : (start schema log).Spares r := by
  unfold start
  split
  · exact .error rfl
  · split
    case h_1 | h_2 | h_3 | h_4 => exact .bind Schema.spares_entity fun _ _ => .ok
    case h_5 =>
      split
      · exact .bind Schema.spares_entity fun _ _ => .ok
      · exact .error rfl
    case h_6 => exact .error rfl

theorem spares_plan : (d.plan schema).Spares r := by
  have htarget {scope : Layer} : (target scope).Spares r := by
    unfold target
    split
    · exact .ok
    · exact .error rfl
  unfold plan
  split
  · exact .bind Layer.spares_separateCollections fun _ _ => .ok
  · exact .ok
  · exact .bind htarget fun _ _ => .ok
  · exact .bind htarget fun _ _ => .ok

end Draft

/-! ## Logs -/

theorem Log.spares_validate {log : Log} : log.validate.Spares r := by
  have hslots {kind : OpKind} {slots : List Slot} {operands : List Operand} :
      (Operator.checkSlots kind slots operands).Spares r := by
    induction slots generalizing operands with
    | nil => exact .ok
    | cons slot slots ih =>
      cases operands with
      | nil => exact .ok
      | cons operand operands =>
        unfold Operator.checkSlots
        split
        · exact ih
        · exact .error rfl
  refine .forM fun op _ => ?_
  unfold Operator.validate
  dsimp only
  split
  · exact .error rfl
  · exact hslots

theorem Plan.spares_nestedAt {depth : Nat} {log : Log} (h : (ofLogAt schema depth log).Spares r) :
    (nestedAt schema depth log).Spares r := by
  refine .bind h fun p _ => ?_
  cases p with
  | select => exact .ok
  | _ => exact .error rfl

/-- **A log is refused only as its operators are**, in drafts with what each of them keeps. -/
theorem Plan.spares_ofLogWith {motive : Draft → Prop} {log : Log}
    (hsource : ∀ ty, motive (.ofSource ty))
    (hkeep : ∀ op ∈ log, ∀ d d', motive d → d.step schema nested op = .ok d' → motive d')
    (hstep : ∀ op ∈ log, op.validate = .ok () → ∀ d, motive d → (d.step schema nested op).Spares r) :
    (ofLogWith schema nested log).Spares r := by
  refine .bind Log.spares_validate fun _ hvalid => .bind Draft.spares_start fun (d₀, ops) hstart => ?_
  obtain ⟨ty, rfl, hops⟩ := Draft.start_eq_ok hstart
  have hmem : ∀ op ∈ ops, op ∈ log := by
    rcases hops with rfl | ⟨first, -, rfl⟩
    · exact fun op hop => hop
    · exact fun op hop => List.mem_cons_of_mem _ hop
  refine .bind (.foldlM (hsource ty) ?_ fun op hop => hkeep op (hmem op hop)) fun _ _ =>
    Draft.spares_plan
  exact fun op hop => hstep op (hmem op hop) (Compiled.forM_eq_ok.1 hvalid op (hmem op hop))

/-- **A log with the expressions of a caller finds the groups that it flattens.** -/
theorem Plan.spares_ofLogAt {depth : Nat} {log : Log} (hlog : log.isSurface) :
    (ofLogAt schema depth log).Spares .group := by
  induction depth generalizing log with
  | zero => exact .error rfl
  | succ depth ih =>
    have hlayers (log : Log) (l : Layer) (hlog : log.isSurface = true)
        (hl : nestedAt schema depth log = .ok l) : l.All Layer.WellScoped :=
      (wellScoped_ofLogAt (nestedAt_eq_ok hl) hlog).layers l rfl
    have hsurface (op : Operator) (hop : op ∈ log) := Log.isSurface_of_mem hlog hop
    have happly (op : Operator) (hop : op ∈ log) (hvalid : op.validate = .ok ()) (d : Draft)
        (hd : d.WellScoped) : (d.apply schema (nestedAt schema depth) op).Spares .group := by
      refine Draft.spares_apply (by simp) hvalid (fun _ _ _ _ => Lambda.spares_bind (by simp)) ?_ ?_
      · intro _ l collection hl hb
        exact (Draft.made_strip (Draft.made_bindRow hl hb)).inScope hd (hsurface op hop) le_rfl
      · intro log hlog
        exact spares_nestedAt (ih (Draft.isSurface_of_nests hd (hsurface op hop) hlog))
    -- every draft of the run is well scoped, so that each step finds its group
    refine spares_ofLogWith Draft.wellScoped_ofSource
      (fun op hop d d' hd hd' => hd.step (hsurface op hop) hlayers hd') ?_
    intro op hop hvalid d hd
    exact Draft.spares_step (happly op hop hvalid d hd)
      fun d₁ hd₁ => happly op hop hvalid d₁ (hd.wrap hd₁)

end QueryCompiler

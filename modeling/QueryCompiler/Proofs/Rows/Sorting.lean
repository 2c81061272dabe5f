import QueryCompiler.Plan.Draft
import QueryCompiler.Proofs.Rows.Pipeline
/-!
# Orderings of rows

Comparing rows by keys is a total preorder, whichever way each key goes, so that orderings are
stable: they commute with filters (`Order.filter_sort`) and leave ordered rows alone
(`Order.sort_of_sorted`). A key that constructs an object orders as its value does
(`Order.compareAll_orderKeys`).
-/

namespace QueryCompiler

/-! ## Stable sorting -/

section Stable

variable {α : Type} {le : α → α → Bool}

/-- Where a list is cut in two by a test, it is cut in one place only. -/
theorem append_cancel_of_test {p : α → Bool} : ∀ {xs xs' ys ys' : List α},
    xs ++ ys = xs' ++ ys' → (∀ x ∈ xs, p x = true) → (∀ x ∈ xs', p x = true) →
      (∀ y ∈ ys, p y = false) → (∀ y ∈ ys', p y = false) → xs = xs' ∧ ys = ys'
  | [], [], _, _, h, _, _, _, _ => ⟨rfl, h⟩
  | x :: xs, x' :: xs', ys, ys', h, hx, hx', hy, hy' => by
    simp only [List.cons_append, List.cons.injEq] at h
    obtain ⟨rfl, htail⟩ := h
    obtain ⟨rfl, rfl⟩ := append_cancel_of_test htail (fun z hz => hx z (by simp [hz]))
      (fun z hz => hx' z (by simp [hz])) hy hy'
    exact ⟨rfl, rfl⟩
  | [], x' :: xs', ys, ys', h, _, hx', hy, _ => by
    have hmem : x' ∈ ys := by
      rw [List.nil_append] at h
      simp [h]
    have htrue := hx' x' (by simp)
    rw [hy x' hmem] at htrue
    cases htrue
  | x :: xs, [], ys, ys', h, hx, _, _, hy' => by
    have hmem : x ∈ ys' := by
      rw [List.nil_append] at h
      simp [← h]
    have htrue := hx x (by simp)
    rw [hy' x hmem] at htrue
    cases htrue

/-- What stands behind an item in a sorted list is not below it. -/
theorem le_of_mergeSort_eq (trans : ∀ a b c, le a b → le b c → le a c)
    (total : ∀ a b, le a b || le b a) {l front back : List α} {a : α}
    (h : l.mergeSort le = front ++ a :: back) : ∀ b ∈ back, le a b = true := by
  have hsorted := List.pairwise_mergeSort trans total l
  rw [h, List.pairwise_append, List.pairwise_cons] at hsorted
  exact hsorted.2.1.1

/-- **A stable ordering commutes with a filter.** -/
theorem filter_mergeSort (trans : ∀ a b c, le a b → le b c → le a c)
    (total : ∀ a b, le a b || le b a) (p : α → Bool) (l : List α) :
    (l.mergeSort le).filter p = (l.filter p).mergeSort le := by
  induction l with
  | nil => simp
  | cons a l ih =>
    obtain ⟨front, back, hsort, hrest, hfront⟩ := List.mergeSort_cons trans total a l
    have hback := le_of_mergeSort_eq trans total hsort
    rw [hsort, List.filter_append, List.filter_cons]
    cases hp : p a with
    | false => simp [hp, ← ih, hrest]
    | true =>
      rw [List.filter_cons, if_pos rfl, hp, if_pos rfl]
      obtain ⟨front', back', hsort', hrest', hfront'⟩ :=
        List.mergeSort_cons trans total a (l.filter p)
      have hback' := le_of_mergeSort_eq trans total hsort'
      -- both sorted lists hold the same items around `a`, cut where `a` begins to be below
      rw [← ih, hrest, List.filter_append] at hrest'
      obtain ⟨rfl, rfl⟩ := append_cancel_of_test (p := fun b => !le a b) hrest'
        (fun b hb => hfront b (List.mem_filter.1 hb).1) hfront'
        (fun b hb => by simp [hback b (List.mem_filter.1 hb).1])
        (fun b hb => by simp [hback' b hb])
      rw [hsort']

theorem eraseDups_sublist [BEq α] (l : List α) : l.eraseDups.Sublist l := by
  induction hn : l.length using Nat.strongRecOn generalizing l with
  | ind n ih =>
    cases l with
    | nil => simp
    | cons a l =>
      rw [List.eraseDups_cons]
      have hshorter : (l.filter fun b => !b == a).length < n := by
        have hle := List.length_filter_le (fun b => !b == a) l
        rw [List.length_cons] at hn
        omega
      exact ((ih _ hshorter _ rfl).trans List.filter_sublist).cons_cons a

end Stable

/-! ## Comparing rows -/

namespace Order

variable {V : Type} {I : Interpretation V} {orders : List Order}

theorem compare_swap (o : Order) (r s : Datum V) : o.compare I s r = (o.compare I r s).swap := by
  simp only [compare, Datum.compare_swap I.le_total (o.expr.eval I [] r)]
  split <;> rfl

theorem compareAll_swap (orders : List Order) (r s : Datum V) :
    compareAll I orders s r = (compareAll I orders r s).swap := by
  induction orders with
  | nil => rfl
  | cons o os ih => rw [compareAll, compareAll, ih, compare_swap o r s, Ordering.swap_then]

theorem compare_then (o : Order) {r s t : Datum V} (hrs : o.compare I r s ≠ .gt)
    (hst : o.compare I s t ≠ .gt) :
    o.compare I r t = (o.compare I r s).then (o.compare I s t) := by
  obtain ⟨key, descending⟩ := o
  cases descending with
  | false => exact Datum.compare_then I.le_trans _ _ _ hrs hst
  | true =>
    have hswap : ∀ r s : Datum V, Order.compare I ⟨key, true⟩ r s =
        Datum.compare I.le (key.eval I [] s) (key.eval I [] r) :=
      fun r s => (Datum.compare_swap I.le_total _ _).symm
    rw [hswap] at hrs hst
    rw [hswap, hswap, hswap, Datum.compare_then I.le_trans _ _ _ hst hrs]
    -- neither comparison falls, so that it does not matter which is asked first
    revert hrs hst
    cases Datum.compare I.le (key.eval I [] t) (key.eval I [] s) <;>
      cases Datum.compare I.le (key.eval I [] s) (key.eval I [] r) <;> simp

theorem compareAll_trans (orders : List Order) {r s t : Datum V}
    (hrs : compareAll I orders r s ≠ .gt) (hst : compareAll I orders s t ≠ .gt) :
    compareAll I orders r t ≠ .gt := by
  induction orders with
  | nil => exact hrs
  | cons o os ih =>
    rw [compareAll] at hrs hst ⊢
    have hrs' := Datum.then_ne_gt hrs
    have hst' := Datum.then_ne_gt hst
    rw [compare_then o hrs'.1 hst'.1]
    cases h₁ : o.compare I r s with
    | lt => simp
    | gt => exact absurd h₁ hrs'.1
    | eq =>
      cases h₂ : o.compare I s t with
      | lt => simp
      | gt => exact absurd h₂ hst'.1
      | eq => exact ih (hrs'.2 h₁) (hst'.2 h₂)

theorem isLE_trans (orders : List Order) (r s t : Datum V) :
    (compareAll I orders r s).isLE → (compareAll I orders s t).isLE →
      (compareAll I orders r t).isLE := by
  simp only [Ordering.isLE_iff_ne_gt]
  exact compareAll_trans orders

theorem isLE_total (orders : List Order) (r s : Datum V) :
    (compareAll I orders r s).isLE || (compareAll I orders s r).isLE := by
  rw [compareAll_swap orders r s]
  cases compareAll I orders r s <;> rfl

/-! ## Orderings -/

/-- **An ordering commutes with a filter.** -/
theorem filter_sort (p : Datum V → Bool) (rows : List (Datum V)) :
    (sort I orders rows).filter p = sort I orders (rows.filter p) :=
  filter_mergeSort (isLE_trans orders) (isLE_total orders) p rows

def Sorted (I : Interpretation V) (orders : List Order) (rows : List (Datum V)) : Prop :=
  rows.Pairwise fun r s => (compareAll I orders r s).isLE

theorem sorted_sort (rows : List (Datum V)) : Sorted I orders (sort I orders rows) :=
  List.pairwise_mergeSort (isLE_trans orders) (isLE_total orders) rows

/-- **Ordered rows are left alone.** -/
theorem sort_of_sorted {rows : List (Datum V)} (h : Sorted I orders rows) :
    sort I orders rows = rows :=
  List.mergeSort_of_pairwise h

@[simp] theorem sort_nil (rows : List (Datum V)) : sort I [] rows = rows :=
  sort_of_sorted (List.pairwise_of_forall fun _ _ => rfl)

/-- Keys that compare as those of the results order rows as the results are ordered. -/
theorem map_sort {le : Datum V → Datum V → Bool} (f : Datum V → Datum V)
    (h : ∀ r s, (compareAll I orders r s).isLE = le (f r) (f s)) (rows : List (Datum V)) :
    (sort I orders rows).map f = (rows.map f).mergeSort le :=
  List.map_mergeSort fun r _ s _ => h r s

/-- **A key that constructs an object orders as its value does**, member by member. -/
theorem compareAll_orderKeys (descending : Bool) (key : Expr) (r s : Datum V) :
    compareAll I (Draft.orderKeys descending key) r s =
      Order.compare I ⟨key, descending⟩ r s := by
  have hsingle : ∀ o : Order, compareAll I [o] r s = o.compare I r s := by
    intro o
    rw [compareAll, compareAll]
    cases o.compare I r s <;> rfl
  cases key with
  | object ty bindings =>
    simp only [Draft.orderKeys, compare, Expr.eval, Datum.compare]
    induction bindings with
    | nil => cases descending <;> rfl
    | cons b bs ih =>
      obtain ⟨m, v⟩ := b
      simp only [List.map_cons, compareAll, ih, compare, Expr.evalBindings, Datum.compareFields]
      cases descending with
      | false => rfl
      | true => exact (Ordering.swap_then ..).symm
  | _ => exact hsingle _

end Order

end QueryCompiler

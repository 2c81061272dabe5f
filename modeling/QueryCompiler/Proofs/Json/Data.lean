import QueryCompiler.Json.Decode
import QueryCompiler.Proofs.Json.Reading
/-!
# Data written in JSON

How plain data, options and lists are read back from the JSON values that are written for them, and
that these values have whole numbers only. A record or an alternative is put together from these.
-/

namespace QueryCompiler.Json

variable {α : Type} {n : Nat} {g : α → Json}

/-! ## Numbers -/

/-- A natural number is read back under any bound that it keeps. -/
theorem natBelow?_ofNat {bits : Nat} (h : n < Nat.pow 2 bits) :
    natBelow? bits (ofNat n) = some n := by
  have hmost : n ≤ Nat.pow 2 bits - 1 := Nat.le_sub_one_of_lt h
  have hwithin : ((0 : Int) ≤ n && (n : Int) ≤ ((Nat.pow 2 bits - 1 : Nat) : Int)) = true := by
    rw [Bool.and_eq_true, decide_eq_true_eq, decide_eq_true_eq]
    exact ⟨Int.natCast_nonneg n, Int.ofNat_le.2 hmost⟩
  rw [natBelow?, ofNat, intWithin?, if_pos hwithin, Option.map_some, Int.toNat_natCast]

theorem width?_ofNat (h : n < UInt32.size) : width? (ofNat n) = some n :=
  natBelow?_ofNat h

theorem nat?_ofNat (h : n < UInt64.size) : nat? (ofNat n) = some n :=
  natBelow?_ofNat h

/-- Numbers that fit a word are in the range of floats. -/
theorem size_le_floatBound : UInt64.size ≤ Number.floatBound := by decide +kernel

theorem isWhole_ofNat (h : n < UInt64.size) : (ofNat n).isWhole = true := by
  simp only [ofNat, isWhole, Int.natAbs_natCast, decide_eq_true_eq]
  exact Nat.lt_of_lt_of_le h size_le_floatBound

/-! ## Alternatives -/

@[simp] theorem alternative?_tagged (name : String) (j : Json) :
    (tagged name j).alternative? = some (name, some j) := rfl

/-- The alternative is told before any of the forms is looked at. -/
@[simp ↓] theorem alternative?_tagged_bind (name : String) (j : Json)
    (f : String × Option Json → Option α) :
    (tagged name j).alternative? >>= f = f (name, some j) := rfl

@[simp] theorem isWhole_tagged (name : String) (j : Json) :
    (tagged name j).isWhole = j.isWhole := by
  simp [tagged]

@[simp] theorem depth_tagged (name : String) (j : Json) : (tagged name j).depth = j.depth + 1 := by
  simp [tagged]

theorem named?_string {ofName? : String → Option α} {name : String} {a : α}
    (h : ofName? name = some a) : named? ofName? (.string name) = some a := by
  simp [named?, alternative?, bare?, h]

/-! ## Records

The fields of a record that is written out are found by evaluation. -/

attribute [simp] bool? string? record? contentRecord? Record.get?
  Record.required Record.optional Record.defaulted List.lookup_cons

/-! ## Options and lists -/

theorem option?_eq_some {f : Json → Option α} {j : Json} {a : α} (hj : j ≠ .null)
    (h : f j = some a) : option? f j = some (some a) := by
  unfold option?
  split
  next => exact absurd rfl hj
  next => rw [h, Option.map_some]

theorem list?_map {f : Json → Option α} {items : List α} (h : ∀ a ∈ items, f (g a) = some a) :
    list? f (.array (items.map g)) = some items := by
  simp only [list?, array?, Option.bind_some, List.mapM_map]
  induction items with
  | nil => rfl
  | cons a items ih =>
    rw [List.mapM_cons, ih fun b hb => h b (List.mem_cons_of_mem a hb)]
    simp [h a]

theorem list?_strings (items : List String) : list? string? (strings items) = some items :=
  list?_map fun _ _ => rfl

theorem wholeList_map {items : List α} (h : ∀ a ∈ items, (g a).isWhole = true) :
    wholeList (items.map g) = true := by
  induction items with
  | nil => rfl
  | cons a items ih =>
    rw [List.map_cons, wholeList, h a (by simp), ih fun b hb => h b (List.mem_cons_of_mem a hb)]
    rfl

theorem wholeFields_map {entries : List (String × α)} (h : ∀ x ∈ entries, (g x.2).isWhole = true) :
    wholeFields (entries.map fun (k, a) => (k, g a)) = true := by
  induction entries with
  | nil => rfl
  | cons x entries ih =>
    rw [List.map_cons, wholeFields, h x (by simp), ih fun y hy => h y (List.mem_cons_of_mem x hy)]
    rfl

theorem isWhole_strings (items : List String) : (strings items).isWhole = true := by
  rw [strings, isWhole]
  exact wholeList_map fun _ _ => by simp

end QueryCompiler.Json

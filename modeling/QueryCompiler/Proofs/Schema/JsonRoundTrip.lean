import QueryCompiler.Proofs.Json.Data
import QueryCompiler.Schema.Codec
/-!
# Schemas survive JSON

Each part of a schema is read back from its JSON value, from columns up to the whole
(`Schema.ofJson?_toJson`): fields that are left out have the value that their absence stands for,
and entities filed in the order of their names come to stand in that order again. The value has
whole numbers only, so the text is read back as well (`Schema.fromJsonText_jsonText`).

Sizes are bounded by what a reader takes for the width of a column (`Schema.sizesFit`). Nothing else
is asked of a schema; in particular an entity need not be filed under its own type.
-/

namespace QueryCompiler

/-! ## Members -/

namespace Column

def sizeFits (c : Column) : Bool :=
  c.size.all (· < UInt32.size)

theorem ofJson?_toJson {c : Column} (h : c.sizeFits) : ofJson? c.toJson = some c := by
  obtain ⟨column, dbType, size, key, identity, nullable, excluded, rowVersion⟩ := c
  cases size with
  | none =>
    simp [toJson, ofJson?, Json.named?_string (DbType.ofName?_name _)]
  | some n =>
    have hn : n < UInt32.size := by simpa [sizeFits] using h
    have hsize : Json.option? Json.width? (Json.ofNat n) = some (some n) :=
      Json.option?_eq_some (by simp [Json.ofNat]) (Json.width?_ofNat hn)
    simp [toJson, ofJson?, Json.named?_string (DbType.ofName?_name _), hsize]

end Column

namespace ForeignKey

theorem ofJson?_toJson (fk : ForeignKey) : ofJson? fk.toJson = some fk := by
  simp [toJson, ofJson?, Json.list?_strings]

end ForeignKey

namespace Navigation

theorem ofJson?_toJson (n : Navigation) : ofJson? n.toJson = some n := by
  obtain ⟨target, many, foreignKey⟩ := n
  cases foreignKey with
  | none =>
    simp [toJson, ofJson?]
  | some fk =>
    have hkey : Json.option? ForeignKey.ofJson? fk.toJson = some (some fk) :=
      Json.option?_eq_some (by simp [ForeignKey.toJson]) (ForeignKey.ofJson?_toJson fk)
    simp [toJson, ofJson?, hkey]

end Navigation

namespace Member

def sizeFits (m : Member) : Bool :=
  m.column?.all Column.sizeFits

theorem ofJson?_toJson {m : Member} (h : m.sizeFits) : ofJson? m.toJson = some m := by
  obtain ⟨name, kind⟩ := m
  have hkind : MemberKind.ofJson? kind.toJson = some kind := by
    cases kind with
    | column c =>
      have hc : c.sizeFits = true := by simpa [sizeFits, column?] using h
      simp [MemberKind.toJson, MemberKind.ofJson?, Column.ofJson?_toJson hc]
    | navigation n =>
      simp [MemberKind.toJson, MemberKind.ofJson?, Navigation.ofJson?_toJson]
  simp [toJson, ofJson?, hkind]

end Member

/-! ## Entities -/

namespace Entity

def sizesFit (e : Entity) : Bool :=
  e.members.all Member.sizeFits

theorem ofJson?_toJson {e : Entity} (h : e.sizesFit) : ofJson? e.toJson = some e := by
  have hmembers : Json.list? Member.ofJson? (.array (e.members.map Member.toJson)) =
      some e.members :=
    Json.list?_map fun m hm => Member.ofJson?_toJson (List.all_eq_true.1 h m hm)
  simp [toJson, ofJson?, hmembers]

end Entity

namespace Schema

def sizesFit (s : Schema) : Bool :=
  s.entities.all fun (_, e) => e.sizesFit

theorem insertSorted_append {ty : String} {entity : Entity} {entries : List (String × Entity)}
    (h : ∀ x ∈ entries, x.1 < ty) : insertSorted ty entity entries = entries ++ [(ty, entity)] := by
  induction entries with
  | nil => rfl
  | cons x entries ih =>
    have hx := h x (by simp)
    have hne : ty ≠ x.1 := fun heq => String.lt_irrefl _ (heq ▸ hx)
    rw [insertSorted, if_neg (String.lt_asymm hx), if_neg hne,
      ih fun y hy => h y (List.mem_cons_of_mem x hy), List.cons_append]

/-- **Entries filed in the order of their names stand in that order.** `done` holds those filed
before. -/
theorem foldlM_insert (done : Schema) {rest : List (String × Entity)}
    (hsorted : (done.entities ++ rest).Pairwise fun a b => a.1 < b.1)
    (hfit : ∀ x ∈ rest, x.2.sizesFit = true) :
    (rest.map fun (k, e) => (k, e.toJson)).foldlM
      (fun s (k, j) => (Entity.ofJson? j).map (s.insert k)) done =
        some ⟨done.entities ++ rest, hsorted⟩ := by
  induction rest generalizing done with
  | nil => simp
  | cons x rest ih =>
    obtain ⟨k, e⟩ := x
    have hbefore : ∀ y ∈ done.entities, y.1 < k := fun y hy =>
      (List.pairwise_append.1 hsorted).2.2 y hy (k, e) (by simp)
    have hinsert : (done.insert k e).entities = done.entities ++ [(k, e)] :=
      insertSorted_append hbefore
    have hsorted' : ((done.insert k e).entities ++ rest).Pairwise fun a b => a.1 < b.1 := by
      rwa [hinsert, List.append_assoc, List.singleton_append]
    have hrest := ih (done.insert k e) hsorted' fun y hy => hfit y (List.mem_cons_of_mem _ hy)
    simp only [List.map_cons, List.foldlM_cons, Entity.ofJson?_toJson (hfit (k, e) (by simp)),
      Option.map_some, Option.bind_eq_bind, Option.bind_some, hrest, hinsert, List.append_assoc,
      List.singleton_append]

/-- A schema is read back from its JSON value. -/
theorem ofJson?_toJson {s : Schema} (h : s.sizesFit) : ofJson? s.toJson = some s := by
  have hentities : entitiesOfJson? (.object (s.entities.map fun (k, e) => (k, e.toJson))) =
      some s :=
    foldlM_insert empty s.sorted (fun x hx => List.all_eq_true.1 h x hx)
  simp [toJson, ofJson?, hentities]

end Schema

/-! ## The text -/

theorem Column.isWhole_toJson {c : Column} (h : c.sizeFits) : c.toJson.isWhole = true := by
  obtain ⟨column, dbType, size, key, identity, nullable, excluded, rowVersion⟩ := c
  cases size with
  | none => simp [toJson]
  | some n =>
    have hn : n < UInt32.size := by simpa [sizeFits] using h
    have hwhole : (Json.ofNat n).isWhole = true := Json.isWhole_ofNat (Nat.lt_trans hn (by decide))
    simp [toJson, hwhole]

theorem ForeignKey.isWhole_toJson (fk : ForeignKey) : fk.toJson.isWhole = true := by
  simp [toJson, Json.isWhole_strings]

theorem Navigation.isWhole_toJson (n : Navigation) : n.toJson.isWhole = true := by
  obtain ⟨target, many, foreignKey⟩ := n
  cases foreignKey with
  | none => simp [toJson]
  | some fk => simp [toJson, ForeignKey.isWhole_toJson]

theorem Member.isWhole_toJson {m : Member} (h : m.sizeFits) : m.toJson.isWhole = true := by
  obtain ⟨name, kind⟩ := m
  cases kind with
  | column c =>
    have hc : c.sizeFits = true := by simpa [sizeFits, column?] using h
    simp [toJson, MemberKind.toJson, Column.isWhole_toJson hc]
  | navigation n =>
    simp [toJson, MemberKind.toJson, Navigation.isWhole_toJson]

theorem Entity.isWhole_toJson {e : Entity} (h : e.sizesFit) : e.toJson.isWhole = true := by
  have hmembers : Json.wholeList (e.members.map Member.toJson) = true :=
    Json.wholeList_map fun m hm => Member.isWhole_toJson (List.all_eq_true.1 h m hm)
  simp [toJson, hmembers]

namespace Schema

theorem isWhole_toJson {s : Schema} (h : s.sizesFit) : s.toJson.isWhole = true := by
  have hentities : Json.wholeFields (s.entities.map fun (k, e) => (k, e.toJson)) = true :=
    Json.wholeFields_map fun x hx => Entity.isWhole_toJson (List.all_eq_true.1 h x hx)
  simp [toJson, hentities]

theorem load_jsonText (s : Schema) : load (some s.jsonText) = fromJsonText s.jsonText := by
  have hstart : ∃ rest, s.jsonText.toList = '\x7b' :: rest := by
    obtain ⟨v, w, w', -, -, -, htext⟩ := Json.bracketed_eq 0 "\x7b" "\x7d"
      (Json.prettyFields 1 [("entities", .object (s.entities.map fun (k, e) => (k, e.toJson)))])
    exact ⟨_, htext⟩
  obtain ⟨rest, hrest⟩ := hstart
  have hhead : (Text.trimStart s.jsonText.toList).head? = some '\x7b' := by
    rw [hrest]
    rfl
  rw [load, hhead]
  rfl

/-- **A schema survives JSON**, as a text and as the content of a file. -/
theorem fromJsonText_jsonText (s : Schema) (h : s.sizesFit = true) :
    fromJsonText s.jsonText = .ok s ∧ load (some s.jsonText) = .ok s := by
  have htext : fromJsonText s.jsonText = .ok s := by
    rw [fromJsonText, jsonText, Json.ofWellFormed?_pretty (isWhole_toJson h)]
    simp only [fromJson, ofJson?_toJson h]
  exact ⟨htext, by rw [load_jsonText, htext]⟩

/-- A schema with names that are escaped, an entity under another name than its type, the greatest
size and both kinds of navigation. -/
def escaped : Schema :=
  ((empty.insert "\"Ωμ\"\n" ⟨"Client", "", [⟨"\x07", .column
      { column := "a\\b\u2028", dbType := .nVarChar, size := some 4294967295, key := true }⟩,
    ⟨"Id", .column (.new "" .int)⟩]⟩).insert "Account" ⟨"Account", "[Account]",
      [⟨"Client", .navigation { target := "𝄞", foreignKey := some ⟨[""], []⟩ }⟩,
        ⟨"Rest", .navigation { target := "\t", many := true }⟩]⟩).insert "" ⟨"", "", []⟩

theorem fromJsonText_jsonText_escaped :
    fromJsonText escaped.jsonText = .ok escaped ∧ load (some escaped.jsonText) = .ok escaped :=
  fromJsonText_jsonText escaped (by decide)

end Schema

end QueryCompiler

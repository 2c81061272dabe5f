import QueryCompiler.Proofs.Sql.Payloads
/-!
# Inserts in batches

Rows of payloads are inserted by statements of so many rows each. A row is written as a tuple with
one entry for each written column, and the parameters are numbered through all the tuples. So the
tuples and the parameters are the same for every size of the batches, and the statements only part
the tuples among them (`Plan.command_insert`).
-/

namespace QueryCompiler

open Compiled (bind_eq_ok)

open Sql

/-! ## Runs -/

theorem Sql.map_chunks {α β : Type} (f : α → β) (size : Nat) (items : List α) :
    (chunks size items).map (List.map f) = chunks size (items.map f) := by
  have hgo (steps : Nat) : ∀ items, (chunks.go size steps items).map (List.map f) =
      chunks.go size steps (items.map f) := by
    induction steps with
    | zero => exact fun _ => rfl
    | succ steps ih =>
      intro items
      rw [chunks.go, chunks.go, List.isEmpty_map]
      split
      · rfl
      · rw [List.map_cons, ih, List.map_take, List.map_drop]
  rw [chunks, chunks, hgo, List.length_map]

/-- **All runs but the last are full**, so their number is the quotient of the lengths, rounded
up. -/
theorem Sql.length_chunks {α : Type} {size : Nat} (hsize : 0 < size) (items : List α) :
    (chunks size items).length = (items.length + size - 1) / size ∧
      ∀ batch ∈ (chunks size items).dropLast, batch.length = size := by
  refine chunks_induction (motive := fun items batches =>
    batches.length = (items.length + size - 1) / size ∧
      ∀ batch ∈ batches.dropLast, batch.length = size) hsize ?_ ?_ items
  · exact ⟨(Nat.div_eq_of_lt (by simpa using hsize)).symm, by simp⟩
  · intro items batches hitems ⟨hlength, hfull⟩
    have hpos : 0 < items.length := List.length_pos_iff.2 hitems
    rw [List.length_drop] at hlength
    have hsum : items.length + size - 1 = items.length - 1 + size := by omega
    rw [List.length_cons, hsum, Nat.add_div_right _ hsize, hlength]
    by_cases hlast : items.length ≤ size
    · have hnil : batches = [] := by
        rw [← List.length_eq_zero_iff, hlength]
        exact Nat.div_eq_of_lt (by omega)
      rw [Nat.div_eq_of_lt (by omega), Nat.div_eq_of_lt (by omega), hnil]
      exact ⟨rfl, by simp⟩
    · have hrest : items.length - size + size - 1 = items.length - 1 := by omega
      refine ⟨by rw [hrest], ?_⟩
      cases batches with
      | nil => simp
      | cons batch batches =>
        rw [List.dropLast_cons_cons, List.forall_mem_cons, List.length_take]
        exact ⟨by omega, hfull⟩

/-! ## Tuples -/

/-- Items as texts, each behind the parameters of those ahead of it. -/
def inTurn {α : Type} (text : Nat → α → String)
    (scalars : α → List (Value × DbType × Option Nat)) : Nat → List α → List String
  | _, [] => []
  | n, a :: as => text n a :: inTurn text scalars (n + (scalars a).length) as

@[simp] theorem length_inTurn {α : Type} {text : Nat → α → String}
    {scalars : α → List (Value × DbType × Option Nat)} {n : Nat} {as : List α} :
    (inTurn text scalars n as).length = as.length := by
  induction as generalizing n with
  | nil => rfl
  | cons a as ih => rw [inTurn, List.length_cons, List.length_cons, ih]

theorem getElem?_inTurn {α : Type} {text : Nat → α → String}
    {scalars : α → List (Value × DbType × Option Nat)} {n i : Nat} {as : List α} {a : α}
    (h : as[i]? = some a) : ∃ k, (inTurn text scalars n as)[i]? = some (text k a) := by
  induction as generalizing n i with
  | nil => cases h
  | cons b as ih =>
    cases i with
    | zero =>
      cases h
      exact ⟨n, rfl⟩
    | succ i => exact ih h

/-- The written columns of an entity as they are declared, with the values that a payload has for
them. -/
def Entity.entries (entity : Entity) (e : EntityValue) : List (Column × Option Value) :=
  entity.writable.map fun (member, c) => (c, e.get? member)

def entryScalars (entry : Column × Option Value) : List (Value × DbType × Option Nat) :=
  entry.2.elim [] fun v => v.scalars entry.1.dbType entry.1.size

/-- The scalars of a payload row, as its columns are declared. -/
def Entity.rowScalars (entity : Entity) (e : EntityValue) : List (Value × DbType × Option Nat) :=
  (entity.entries e).flatMap entryScalars

namespace Config

variable (config : Config) (entity : Entity)

/-- An entry of a tuple, behind `n` parameters: the value, or the default of the column. -/
def entryText (n : Nat) (entry : Column × Option Value) : String :=
  entry.2.elim "DEFAULT" (config.valueText n)

/-- The entries of a payload row, behind `n` parameters. -/
def entryTexts (n : Nat) (e : EntityValue) : List String :=
  inTurn config.entryText entryScalars n (entity.entries e)

/-- A payload row as a tuple, behind `n` parameters. -/
def tupleText (n : Nat) (e : EntityValue) : String :=
  "(" ++ ", ".intercalate (config.entryTexts entity n e) ++ ")"

def tuples (rows : List EntityValue) : List String :=
  inTurn (config.tupleText entity) entity.rowScalars 0 rows

def insertText (tuples : List String) : String :=
  "INSERT INTO " ++ config.dialect.quote entity.table ++ " (" ++
    ", ".intercalate ((entity.writable.map (·.2.column)).map config.dialect.quote) ++
    ") VALUES " ++ ", ".intercalate tuples

/-- The statement that asks for the identity of the last row, if there is an identity column. -/
def identityTexts : List String :=
  (entity.identity?.map fun x =>
    "SELECT " ++ config.dialect.lastIdentity ++ " AS " ++ config.dialect.quote x.1).toList

def insertCommand (rows : List EntityValue) (size : Nat) : Command where
  sql := "; ".intercalate ((chunks size (config.tuples entity rows)).map
    (config.insertText entity) ++ config.identityTexts entity)
  params := config.parameters (numberedFrom 0 (rows.flatMap entity.rowScalars))

end Config

/-! ## Statements -/

variable {config : Config} {entity : Entity}

theorem Writes.mapM {α β : Type} {x : α → Reading β} {write : β → String}
    {text : Nat → α → String} {scalars : α → List (Value × DbType × Option Nat)}
    (h : ∀ a, Writes (x a) write (text · a) (scalars a)) : ∀ as : List α,
    Writes (as.mapM x) (List.map write) (inTurn text scalars · as) (as.flatMap scalars)
  | [] => .pure fun _ => rfl
  | a :: as => by
    rw [List.mapM_cons, List.flatMap_cons]
    exact (h a).cons (mapM h as) fun _ _ => rfl

/-- **A payload row is written as a tuple** of its entries. -/
theorem Entity.writes_insertValues (config : Config) (entity : Entity) (e : EntityValue) :
    Writes (entity.insertValues e) (fun values => config.write (insertTuple config.layout values))
      (config.tupleText entity · e) (entity.rowScalars e) := by
  have hentry (entry : Column × Option Value) :
      Writes (entry.2.mapM (Reading.constant entry.1.dbType entry.1.size))
        (fun t => t.elim "DEFAULT" config.writeTerm) (config.entryText · entry)
        (entryScalars entry) := by
    obtain ⟨c, v⟩ := entry
    cases v with
    | none => exact .pure fun _ => rfl
    | some v =>
      intro s
      obtain ⟨t, hrun, htext⟩ := Reading.writes_constant config v s
      exact ⟨some t, bind_eq_ok.2 ⟨_, hrun, rfl⟩, htext⟩
  have hvalues : entity.insertValues e = (entity.entries e).mapM fun entry =>
      entry.2.mapM (Reading.constant entry.1.dbType entry.1.size) := by
    rw [Entity.entries, List.mapM_map]
    rfl
  intro s
  obtain ⟨values, hrun, htexts⟩ := Writes.mapM hentry (entity.entries e) s
  refine ⟨values, hvalues ▸ hrun, ?_⟩
  simp only [Config.tupleText, Config.entryTexts, ← htexts, Config.write, insertTuple,
    Script.parenthesized, Script.text_append, Script.text_say, Script.text_joined, List.map_map]
  refine congrArg (fun ts => "(" ++ ", ".intercalate ts ++ ")")
    (List.map_congr_left fun value _ => ?_)
  cases value with
  | none => exact Script.text_say
  | some t => rfl

theorem intercalate_concat {separator t : String} {ts : List String} (h : ts ≠ []) :
    separator.intercalate (ts ++ [t]) = separator.intercalate ts ++ (separator ++ t) := by
  induction ts with
  | nil => exact absurd rfl h
  | cons first ts ih =>
    cases ts with
    | nil => simp [String.intercalate_cons_cons, String.append_assoc]
    | cons second ts =>
      rw [List.cons_append, List.cons_append, String.intercalate_cons_cons,
        String.intercalate_cons_cons, ← List.cons_append, ih (by simp)]
      simp only [String.append_assoc]

/-- **Rows of values are written in batches**, each as one statement with the tuples of its
rows. -/
theorem Config.write_insertRows {batched : Config} {values : List (List (Option Term))} {b : Nat}
    (hbatched : batched = { config with insertBatchSize := b }) (hvalues : values ≠ []) :
    batched.write ((Statement.insertRows entity.table (entity.writable.map (·.2.column)) values
        (entity.identity?.map (·.1))).script batched.layout) =
      "; ".intercalate ((chunks (max b 1)
        (values.map fun row => config.write (insertTuple config.layout row))).map
          (config.insertText entity) ++ config.identityTexts entity) := by
  have hjoined : config.write (Script.joined "; " ((chunks (max b 1) values).map fun batch =>
      insertHead config.layout entity.table (entity.writable.map (·.2.column)) ++
        Script.say "VALUES " ++ Script.joined ", " (batch.map (insertTuple config.layout)))) =
      "; ".intercalate ((chunks (max b 1)
        (values.map fun row => config.write (insertTuple config.layout row))).map
          (config.insertText entity)) := by
    rw [← map_chunks, Config.write, Script.text_joined, List.map_map, List.map_map]
    refine congrArg _ (List.map_congr_left fun batch _ => ?_)
    simp only [insertHead, Config.write, Script.text_append, Script.text_say, Script.text_joined,
      List.map_map, Function.comp_def, Config.insertText, String.append_assoc]
    rw [← @String.append_assoc ") " "VALUES "]
    rfl
  subst hbatched
  rw [Config.identityTexts]
  cases entity.identity? with
  | none =>
    simp only [Option.map_none, Option.toList_none, List.append_nil, ← hjoined]
    exact congrArg _ (List.append_nil _)
  | some x =>
    have hsome : (chunks (max b 1) (values.map fun row =>
        config.write (insertTuple config.layout row))).map (config.insertText entity) ≠ [] := by
      intro hnil
      have hflat := flatten_chunks (by omega : 0 < max b 1)
        (values.map fun row => config.write (insertTuple config.layout row))
      rw [List.map_eq_nil_iff.1 hnil, List.flatten_nil] at hflat
      exact hvalues (List.map_eq_nil_iff.1 hflat.symm)
    rw [Option.map_some, Option.map_some, Option.toList_some, intercalate_concat hsome, ← hjoined]
    simp only [Statement.script, Config.write, Script.text_append, Script.text_say,
      String.append_assoc]
    rw [← @String.append_assoc "; " "SELECT "]
    rfl

/-- **Rows that pass their check are inserted**, in batches of the size that is asked for. -/
theorem Entity.spells_insertRows {rows : List EntityValue} (b : Nat)
    (hwritable : entity.writable ≠ []) (hrows : rows ≠ [])
    (hcheck : ∀ e ∈ rows, entity.checkPayload e = .ok ()) :
    (config.insertCommand entity rows (max b 1)).Spells { config with insertBatchSize := b }
      (entity.insertRows rows) := by
  have hpass : ∀ {es : List EntityValue}, (∀ e ∈ es, entity.checkPayload e = .ok ()) →
      (es.forM fun e => liftM (entity.checkPayload e) : Reading Unit).run {} = .ok ((), {}) := by
    intro es h
    induction es with
    | nil => rfl
    | cons e es ih =>
      rw [List.forall_mem_cons] at h
      refine bind_eq_ok.2 ⟨((), {}), ?_, ih h.2⟩
      change (liftM (entity.checkPayload e) : Reading Unit).run {} = _
      rw [h.1]
      rfl
  obtain ⟨values, hrun, htexts⟩ := Writes.mapM (entity.writes_insertValues config) rows {}
  have htuples : values.map (fun row => config.write (insertTuple config.layout row)) =
    config.tuples entity rows := htexts
  refine ⟨.insertRows entity.table (entity.writable.map (·.2.column)) values
    (entity.identity?.map (·.1)), { constants := numberedFrom 0 (rows.flatMap entity.rowScalars) },
    ?_, ?_⟩
  · unfold insertRows
    simp only [List.isEmpty_iff, hrows, hwritable, if_false]
    exact bind_eq_ok.2 ⟨_, hpass hcheck, bind_eq_ok.2 ⟨_, hrun, rfl⟩⟩
  · have hvalues : values ≠ [] := by
      intro hnil
      refine hrows (List.length_eq_zero_iff.1 ?_)
      rw [← length_inTurn, ← Config.tuples, ← htuples, hnil]
      rfl
    rw [Config.write_insertRows rfl hvalues, htuples]
    rfl

/-! ## Logs -/

def Operator.Inserts (op : Operator) (rows : List EntityValue) : Prop :=
  op = .insertMany rows ∨ ∃ e, op = .insert e ∧ rows = [e]

variable {schema : Schema} {log : Log} {op : Operator} {rows : List EntityValue}

/-- A log that inserts rows of one type, and does nothing else, is planned as their insert. -/
theorem Plan.ofLog_insertRows {ty : String} (hop : op.Inserts rows) (hlog : log.IsOnly ty op)
    (hrows : rows ≠ []) (hty : ∀ e ∈ rows, e.ty = ty) (hentity : schema.entity ty = .ok entity) :
    ∃ payload, Plan.ofLog schema log = .ok (.insert ty payload) ∧
      (payload = .entities rows ∨ ∃ e, payload = .entity e ∧ rows = [e]) := by
  have hstep {payload : InsertPayload} (hk : op.kind = .insert) (hvalid : log.validate = .ok ())
      (hstart : Draft.start schema log =
        schema.entity ty >>= fun _ => pure (Draft.ofSource ty, [op]))
      (hm : (Draft.ofSource ty).modificationOf schema op ty = .ok (.insert ty (some payload))) :
      Plan.ofLog schema log = .ok (.insert ty payload) := by
    rw [ofLog_step hvalid hstart, hentity, Draft.step_ofSource (.inl hk) hm]
    rfl
  obtain ⟨first, rest, rfl⟩ := List.exists_cons_of_ne_nil hrows
  obtain rfl := hty first List.mem_cons_self
  rcases hop with rfl | ⟨e, rfl, hrows⟩
  · refine ⟨.entities (first :: rest), hstep rfl ?_ ?_ ?_, .inl rfl⟩
    · rcases hlog with rfl | rfl <;> rfl
    · rcases hlog with rfl | rfl <;> rfl
    · exact bind_eq_ok.2 ⟨(), Compiled.forM_eq_ok.2 fun e he =>
        Draft.checkPayload_eq_ok.2 ⟨rfl, hty e he⟩, rfl⟩
  · cases hrows
    refine ⟨.entity first, hstep rfl ?_ ?_ ?_, .inr ⟨first, rfl, rfl⟩⟩
    · rcases hlog with rfl | rfl <;> rfl
    · rcases hlog with rfl | rfl <;> rfl
    · exact bind_eq_ok.2 ⟨(), Draft.checkPayload_eq_ok.2 ⟨rfl, rfl⟩, rfl⟩

theorem Log.compile_rows (hop : op.Inserts rows) (hlog : log.IsOnly entity.ty op)
    (hentity : schema.entity entity.ty = .ok entity) (hwritable : entity.writable ≠ [])
    (hrows : rows ≠ []) (hcheck : ∀ e ∈ rows, entity.checkPayload e = .ok ()) (b : Nat) :
    log.compile schema { config with insertBatchSize := b } =
      .ok (config.insertCommand entity rows (max b 1)) := by
  obtain ⟨payload, hplan, hpayload⟩ := Plan.ofLog_insertRows hop hlog hrows
    (fun e he => (Entity.checkPayload_eq_ok.1 (hcheck e he)).1) hentity
  refine bind_eq_ok.2 ⟨_, hplan, Plan.command_eq_ok.2 ?_⟩
  rw [Plan.statement, Command.spells_entity]
  refine ⟨entity, hentity, ?_⟩
  rcases hpayload with rfl | ⟨e, rfl, rfl⟩ <;>
  exact Entity.spells_insertRows b hwritable hrows hcheck

/-- **The size of the batches only parts the tuples**: rows that pass their check are inserted by
statements with so many tuples each, the last with the rest, and behind them the identity of the
last row is asked for if there is an identity column. The tuples of the statements are one for each
row, in order, whatever the size, and so are the parameters. -/
theorem Log.compile_insert (hop : op.Inserts rows) (hlog : log.IsOnly entity.ty op)
    (hentity : schema.entity entity.ty = .ok entity) (hwritable : entity.writable ≠ [])
    (hrows : rows ≠ []) (hcheck : ∀ e ∈ rows, entity.checkPayload e = .ok ()) (b : Nat) :
    ∃ batches : List (List String),
      log.compile schema { config with insertBatchSize := b } = .ok
        { sql := "; ".intercalate
            (batches.map (config.insertText entity) ++ config.identityTexts entity)
          params := config.parameters (numberedFrom 0 (rows.flatMap entity.rowScalars)) } ∧
      batches.flatten = config.tuples entity rows ∧
      batches.length = (rows.length + max b 1 - 1) / max b 1 ∧
      (∀ batch ∈ batches.dropLast, batch.length = max b 1) ∧
      (config.tuples entity rows).length = rows.length ∧
      (config.identityTexts entity).length =
        if ∃ x ∈ entity.columns, x.2.identity = true then 1 else 0 := by
  have hsize : 0 < max b 1 := by omega
  have htuples : (config.tuples entity rows).length = rows.length := length_inTurn
  obtain ⟨hlength, hfull⟩ := length_chunks hsize (config.tuples entity rows)
  rw [htuples] at hlength
  refine ⟨_, compile_rows hop hlog hentity hwritable hrows hcheck b, flatten_chunks hsize _,
    hlength, hfull, htuples, ?_⟩
  rw [Config.identityTexts, Entity.identity?]
  cases hidentity : entity.columns.find? (·.2.identity) with
  | none =>
    rw [if_neg (by simpa using hidentity)]
    rfl
  | some x =>
    have hx : x.2.identity = true := by simpa using List.find?_some hidentity
    rw [if_pos ⟨x, List.mem_of_find?_eq_some hidentity, hx⟩]
    rfl

def Entity.message : Entity :=
  ⟨"Log", "Sys_Log", [⟨"Message", .column (.new "Message" .nVarChar)⟩,
    ⟨"Level", .column (.new "Level" .int)⟩]⟩

def EntityValue.messages : List EntityValue :=
  [⟨"Log", [("Message", .string "a"), ("Level", .int 1)]⟩, ⟨"Log", [("Message", .string "b")]⟩,
    ⟨"Log", [("Message", .string "c"), ("Level", .int 3)]⟩]

/-- Three rows in batches of two. -/
theorem Log.compile_insert_messages :
    Log.compile (Schema.empty.register .message) { insertBatchSize := 2 }
        [.insertMany EntityValue.messages] =
      .ok { sql := "INSERT INTO [Sys_Log] ([Message], [Level]) VALUES (N'a', 1), (N'b', DEFAULT); " ++
              "INSERT INTO [Sys_Log] ([Message], [Level]) VALUES (N'c', 3)"
            params := [] } := by
  have hentity : (Schema.empty.register .message).entity "Log" = .ok .message := by cbv
  have hcheck : ∀ e ∈ EntityValue.messages, Entity.message.checkPayload e = .ok () := by
    simp only [EntityValue.messages, List.forall_mem_cons]
    exact ⟨by cbv, by cbv, by cbv, by simp⟩
  obtain ⟨batches, hcompile, hflat, hlength, hfull, -⟩ := @Log.compile_insert {} _ _ _ _ _
    (.inl rfl) (.inl rfl) hentity (by decide) (by decide) hcheck 2
  have htuples : Config.tuples {} .message EntityValue.messages =
    ["(N'a', 1)", "(N'b', DEFAULT)", "(N'c', 3)"] := by cbv
  rw [htuples] at hflat
  obtain ⟨first, last, rfl⟩ := List.length_eq_two.1 hlength
  obtain ⟨_, _, rfl⟩ := List.length_eq_two.1 (hfull first List.mem_cons_self)
  simp only [List.flatten_cons, List.flatten_nil, List.append_nil, List.cons_append,
    List.nil_append, List.cons.injEq] at hflat
  obtain ⟨rfl, rfl, rfl⟩ := hflat
  refine hcompile.trans ?_
  cbv

end QueryCompiler

import QueryCompiler.Compile
import QueryCompiler.Proofs.Json.Data
/-!
# Logs survive JSON

A JSON value stands for a constant, an expression or a log (`Json.Encodes`) if it has whole numbers
only and is read as such by every reader that goes deeper than the value is nested. As expressions
hold queries and queries hold expressions, this is shown of both in one induction
(`Expr.encodes_toJson`, `Expr.encodes_query`), and then of the text (`Log.readBack_compact`).

What is asked of a log is that its constants are no floats, decimals or times, and that rows and
joins have numbers that fit a word (`Log.isPortable`). Nothing is asked of its operators: a log that
is refused later survives as well.
-/

namespace QueryCompiler

open Json (tagged)

/-! ## Identifiers -/

namespace Guid

theorem foldlM_hexDigits (ns : List Nat) (h : ∀ n ∈ ns, n < 16) (start : Nat) :
    (ns.map hexDigit).foldlM (fun n c => (hexValue? c).map (n * 16 + ·)) start =
      some (ns.foldl (fun n d => n * 16 + d) start) := by
  induction ns generalizing start with
  | nil => rfl
  | cons n ns ih =>
    rw [List.map_cons, List.foldlM_cons, Json.Reader.hexValue?_hexDigit (h n (by simp))]
    exact ih (fun m hm => h m (List.mem_cons_of_mem n hm)) _

/-- The leading digits of a number make up the number without the others. -/
theorem foldl_digits (x k m : Nat) (h : k ≤ m) (hx : x < Nat.pow 16 m) :
    ((List.range k).map fun i => x / Nat.pow 16 (m - 1 - i) % 16).foldl (fun n d => n * 16 + d) 0 =
      x / Nat.pow 16 (m - k) := by
  induction k with
  | zero => exact (Nat.div_eq_of_lt hx).symm
  | succ k ih =>
    rw [List.range_succ, List.map_append, List.foldl_append, ih (by omega)]
    have hbefore : m - k = m - 1 - k + 1 := by omega
    have hpower : Nat.pow 16 (m - k) = Nat.pow 16 (m - 1 - k) * 16 := by
      rw [hbefore]
      rfl
    have hindex : m - (k + 1) = m - 1 - k := by omega
    simp only [List.map_cons, List.map_nil, List.foldl_cons, List.foldl_nil, hindex, hpower,
      ← Nat.div_div_eq_div_mul]
    omega

theorem length_digits (g : Guid) : g.digits.length = 32 := by
  simp [digits]

theorem ofDigits?_digits (g : Guid) : ofDigits? g.digits = some g := by
  have hdigits : g.digits =
      ((List.range 32).map fun i => g.bits.toNat / Nat.pow 16 (32 - 1 - i) % 16).map hexDigit := by
    simp [digits]
  have hvalue := foldl_digits g.bits.toNat 32 32 (Nat.le_refl 32) g.bits.isLt
  rw [ofDigits?, if_pos (by simp [length_digits]), hdigits, foldlM_hexDigits _ (by simp; omega),
    hvalue]
  simp

theorem ofText?_groups {a b c d e : List Char} (ha : a.length = 8) (hb : b.length = 4)
    (hc : c.length = 4) (hd : d.length = 4) (he : e.length = 12) :
    ofText? (String.ofList (a ++ '-' :: b ++ '-' :: c ++ '-' :: d ++ '-' :: e)) =
      ofDigits? (a ++ b ++ c ++ d ++ e) := by
  have htake : (a ++ '-' :: (b ++ '-' :: (c ++ '-' :: (d ++ '-' :: e)))).take 9 = a ++ ['-'] := by
    simp [List.take_append, List.take_of_length_le, ha]
  have hurn : (a ++ ['-'] == "urn:uuid:".toList) = false := by
    rw [beq_eq_false_iff_ne]
    intro h
    have hlast := congrArg List.getLast? h
    simp at hlast
  have hgroups : ofGroups? (a ++ '-' :: (b ++ '-' :: (c ++ '-' :: (d ++ '-' :: e)))) =
      ofDigits? (a ++ b ++ c ++ d ++ e) := by
    simp [ofGroups?, List.drop_append, List.drop_eq_nil_of_le, ha, hb, hc, hd, he]
  simp only [ofText?, String.toList_ofList, List.append_assoc, List.cons_append, htake,
    hurn] at hgroups ⊢
  simp [ha, hb, hc, hd, he, hgroups]

theorem ofText?_text (g : Guid) : ofText? g.text = some g := by
  have hlength := g.length_digits
  have hdigits : g.digits.take 8 ++ (g.digits.drop 8).take 4 ++ (g.digits.drop 12).take 4 ++
      (g.digits.drop 16).take 4 ++ g.digits.drop 20 = g.digits := by
    rw [← List.take_add, ← List.take_add, ← List.take_add, List.take_append_drop]
  rw [text, ofText?_groups (by simp [hlength]) (by simp [hlength]) (by simp [hlength])
    (by simp [hlength]) (by simp [hlength]), hdigits, ofDigits?_digits]
end Guid

/-! ## What survives -/

mutual

/-- Whether a constant is null, a truth value, a whole number, a string, an identifier, or a list of
such. -/
def Value.isPlain : Value → Bool
  | .null | .bool _ | .int _ | .string _ | .guid _ => true
  | .float _ | .decimal _ | .dateTime _ => false
  | .list items => Value.allPlain items

def Value.allPlain : List Value → Bool
  | [] => true
  | v :: vs => v.isPlain && Value.allPlain vs

end

def EntityValue.isPlain (e : EntityValue) : Bool :=
  e.values.all fun (_, v) => v.isPlain

mutual

/-- Whether all constants in an expression are plain, and the numbers of rows and joins fit a
word. -/
def Expr.isPortable : Expr → Bool
  | .param _ => true
  | .member target _ => target.isPortable
  | .constant v => v.isPlain
  | .binary _ l r => l.isPortable && r.isPortable
  | .unary _ e => e.isPortable
  | .call _ target args => Expr.optionPortable target && Expr.listPortable args
  | .object _ bindings => Expr.bindingsPortable bindings
  | .lambda ⟨_, body⟩ => body.isPortable
  | .conditional t a b => t.isPortable && a.isPortable && b.isPortable
  | .query log => Expr.logPortable log
  | .source id => id < UInt64.size
  | .grouping k e => k.isPortable && e.isPortable
  | .joinGroup j e => j < UInt64.size && e.isPortable
  | .aggregate _ arg => Expr.optionPortable arg

def Expr.optionPortable : Option Expr → Bool
  | none => true
  | some e => e.isPortable

def Expr.listPortable : List Expr → Bool
  | [] => true
  | e :: es => e.isPortable && Expr.listPortable es

def Expr.bindingsPortable : List Binding → Bool
  | [] => true
  | ⟨_, v⟩ :: bs => v.isPortable && Expr.bindingsPortable bs

def Expr.operandsPortable : List Operand → Bool
  | [] => true
  | .lambda ⟨_, body⟩ :: os => body.isPortable && Expr.operandsPortable os
  | .constant v :: os => v.isPlain && Expr.operandsPortable os
  | .typeName _ :: os => Expr.operandsPortable os
  | .query log :: os => Expr.logPortable log && Expr.operandsPortable os
  | .entity e :: os => e.isPlain && Expr.operandsPortable os
  | .entities es :: os => es.all EntityValue.isPlain && Expr.operandsPortable os

def Expr.logPortable : List Operator → Bool
  | [] => true
  | ⟨_, operands⟩ :: ops => Expr.operandsPortable operands && Expr.logPortable ops

end

/-- Whether all constants in a log are plain, and the numbers of rows and joins fit a word. -/
def Log.isPortable (log : Log) : Bool :=
  Expr.logPortable log

/-- `j` has whole numbers only, and is read as `a` by every reader that goes deeper than `j` is
nested. -/
structure Json.Encodes {α : Type} (read : Nat → Json → Option α) (j : Json) (a : α) : Prop where
  whole : j.isWhole = true
  reads {levels : Nat} : j.depth < levels → read levels j = some a

/-- The values `js` are read as the items `as`, one by one. -/
structure Json.EncodesAll {α : Type} (read : Nat → Json → Option α) (js : List Json) (as : List α) :
    Prop where
  whole : wholeList js = true
  reads {levels : Nat} : depthList js < levels → js.mapM (read levels) = some as

namespace Json

variable {α : Type} {read : Nat → Json → Option α} {j : Json} {a : α} {js : List Json}
  {as : List α}

theorem Encodes.of_succ (hwhole : j.isWhole)
    (h : ∀ levels, j.depth ≤ levels → read (levels + 1) j = some a) : Encodes read j a where
  whole := hwhole
  reads {levels} hlevels := by
    obtain ⟨n, rfl⟩ : ∃ n, levels = n + 1 := ⟨levels - 1, by omega⟩
    exact h n (by omega)

theorem EncodesAll.nil : EncodesAll read [] ([] : List α) := ⟨rfl, fun _ => rfl⟩

theorem EncodesAll.cons (h : Encodes read j a) (hs : EncodesAll read js as) :
    EncodesAll read (j :: js) (a :: as) where
  whole := by rw [wholeList, h.whole, hs.whole]; rfl
  reads {levels} hlevels := by
    rw [depthList] at hlevels
    rw [List.mapM_cons, h.reads (by omega), hs.reads (by omega)]
    rfl

end Json

/-! ## Constants -/

namespace Value

theorem int64?_toInt (n : Int64) : int64? (.integer n.toInt) = some n := by
  have hwithin : (Int64.minValue.toInt ≤ n.toInt && n.toInt ≤ Int64.maxValue.toInt) = true := by
    simp only [n.minValue_le_toInt, n.toInt_le, decide_true, Bool.and_self]
  rw [int64?, Json.intWithin?, if_pos hwithin, Option.map_some, Int64.ofInt_toInt]

theorem natAbs_toInt_lt (n : Int64) : n.toInt.natAbs < Number.floatBound := by
  have hbound := Json.size_le_floatBound
  rw [UInt64.size] at hbound
  have hleast := n.le_toInt
  have hmost := n.toInt_lt
  omega

mutual

theorem encodes_toJson : ∀ v : Value, v.isPlain = true → Json.Encodes decode v.toJson v
  | .null, _ => .of_succ (by simp [toJson]) fun levels _ => by
    simp [toJson, decode, Json.alternative?, Json.bare?]
  | .bool b, _ => .of_succ (by simp [toJson]) fun levels _ => by simp [toJson, decode]
  | .int n, _ => .of_succ (by simp [toJson, natAbs_toInt_lt]) fun levels _ => by
    simp [toJson, decode, int64?_toInt]
  | .string s, _ => .of_succ (by simp [toJson]) fun levels _ => by simp [toJson, decode]
  | .guid g, _ => .of_succ (by simp [toJson]) fun levels _ => by
    simp [toJson, decode, Guid.ofText?_text]
  | .list items, h => by
    rw [isPlain] at h
    have hitems := encodesAll_toJson items h
    refine .of_succ (by simp [toJson, hitems.whole]) fun levels hlevels => ?_
    simp only [toJson, tagged, Json.depth, Json.depthFields] at hlevels
    simp [toJson, decode, Json.list?, Json.array?, hitems.reads (by omega : _ < levels)]
  | .float _, h | .decimal _, h | .dateTime _, h => by simp [isPlain] at h

theorem encodesAll_toJson :
    ∀ vs : List Value, allPlain vs = true → Json.EncodesAll decode (toJsonList vs) vs
  | [], _ => .nil
  | v :: vs, h => by
    rw [allPlain, Bool.and_eq_true] at h
    exact .cons (encodes_toJson v h.1) (encodesAll_toJson vs h.2)

end

end Value

/-! ## Payloads -/

namespace EntityValue

variable {e : EntityValue}

theorem isPlain_of_mem (h : e.isPlain) {x : String × Value} (hx : x ∈ e.values) :
    x.2.isPlain = true :=
  List.all_eq_true.1 h x hx

theorem isWhole_toJson (h : e.isPlain) : e.toJson.isWhole = true := by
  have hvalues : Json.wholeList (e.values.map fun (m, v) => .array [.string m, v.toJson]) = true :=
    Json.wholeList_map fun x hx => by
      simp [(Value.encodes_toJson x.2 (isPlain_of_mem h hx)).whole]
  simp [toJson, hvalues]

theorem ofJson?_toJson (h : e.isPlain) : ofJson? e.toJson = some e := by
  have hvalues : Json.list? (Json.pair? Json.string? Value.ofJson?)
      (.array (e.values.map fun (m, v) => .array [.string m, v.toJson])) = some e.values :=
    Json.list?_map fun x hx => by
      have hvalue : Value.ofJson? x.2.toJson = some x.2 :=
        (Value.encodes_toJson x.2 (isPlain_of_mem h hx)).reads (Nat.lt_succ_self _)
      simp [Json.pair?, hvalue]
  simp [toJson, ofJson?, hvalues]

end EntityValue

/-! ## Expressions and logs -/

variable {j : Json}

theorem Lambda.decodeWith_record {expr : Json → Option Expr} {params : List String} {body : Expr}
    (h : expr j = some body) :
    Lambda.decodeWith expr (.object [("params", Json.strings params), ("body", j)]) =
      some ⟨params, body⟩ := by
  simp [decodeWith, Json.list?_strings, h]

namespace Expr

theorem encodes_tagged {name : String} {e : Expr} (hwhole : j.isWhole)
    (h : ∀ levels, j.depth < levels →
      decodeWith (decode levels) (Log.decode levels) (tagged name j) = some e) :
    Json.Encodes decode (tagged name j) e := by
  refine .of_succ (by simpa using hwhole) fun levels hlevels => ?_
  rw [Json.depth_tagged] at hlevels
  exact h levels hlevels

theorem toJson_ne_null : ∀ e : Expr, e.toJson ≠ .null
  | .lambda ⟨_, _⟩ | .param _ | .member _ _ | .constant _ | .binary _ _ _ | .unary _ _
  | .call _ _ _ | .object _ _ | .conditional _ _ _ | .query _ | .source _ | .grouping _ _
  | .joinGroup _ _ | .aggregate _ _ => by simp [toJson, tagged]

mutual

theorem encodes_toJson : ∀ e : Expr, e.isPortable = true → Json.Encodes decode e.toJson e
  | .param name, _ => by
    rw [toJson]
    exact encodes_tagged (by simp) fun levels _ => by simp [decodeWith]
  | .member target name, h => by
    rw [isPortable] at h
    rw [toJson]
    have htarget := encodes_toJson target h
    refine encodes_tagged (by simp [htarget.whole]) fun levels hlevels => ?_
    simp only [Json.depth, Json.depthFields] at hlevels
    simp [decodeWith, htarget.reads (by omega : _ < levels)]
  | .constant v, h => by
    rw [isPortable] at h
    rw [toJson]
    have hv := Value.encodes_toJson v h
    have hread : Value.ofJson? v.toJson = some v := hv.reads (Nat.lt_succ_self _)
    exact encodes_tagged hv.whole fun levels _ => by simp [decodeWith, hread]
  | .binary op l r, h => by
    rw [isPortable, Bool.and_eq_true] at h
    rw [toJson]
    have hl := encodes_toJson l h.1
    have hr := encodes_toJson r h.2
    refine encodes_tagged (by simp [hl.whole, hr.whole]) fun levels hlevels => ?_
    simp only [Json.depth, Json.depthFields] at hlevels
    simp [decodeWith, Json.named?_string (BinaryOp.ofName?_name op),
      hl.reads (by omega : _ < levels), hr.reads (by omega : _ < levels)]
  | .unary op e, h => by
    rw [isPortable] at h
    rw [toJson]
    have he := encodes_toJson e h
    refine encodes_tagged (by simp [he.whole]) fun levels hlevels => ?_
    simp only [Json.depth, Json.depthFields] at hlevels
    simp [decodeWith, Json.named?_string (UnaryOp.ofName?_name op),
      he.reads (by omega : _ < levels)]
  | .call method target args, h => by
    rw [isPortable, Bool.and_eq_true] at h
    rw [toJson]
    have htarget := encodes_toJsonOption target h.1
    have hargs := encodes_toJsonList args h.2
    refine encodes_tagged (by simp [htarget.whole, hargs.whole]) fun levels hlevels => ?_
    simp only [Json.depth, Json.depthFields] at hlevels
    simp [decodeWith, Json.list?, Json.array?, htarget.reads (by omega : _ < levels),
      hargs.reads (by omega : _ < levels)]
  | .object ty bindings, h => by
    rw [isPortable] at h
    rw [toJson]
    have hbindings := encodes_toJsonBindings bindings h
    have hty : (Json.ofOption .string ty).isWhole = true ∧
        Json.option? Json.string? (Json.ofOption .string ty) = some ty := by
      cases ty <;> simp [Json.ofOption, Json.option?]
    refine encodes_tagged (by simp [hty, hbindings.whole]) fun levels hlevels => ?_
    simp only [Json.depth, Json.depthFields] at hlevels
    simp [decodeWith, Json.list?, Json.array?, hty, hbindings.reads (by omega : _ < levels)]
  | .lambda ⟨params, body⟩, h => by
    rw [isPortable] at h
    rw [toJson]
    have hbody := encodes_toJson body h
    refine encodes_tagged (by simp [Json.isWhole_strings, hbody.whole])
      fun levels hlevels => ?_
    simp only [Json.depth, Json.depthFields] at hlevels
    simp [decodeWith, Lambda.decodeWith_record (hbody.reads (by omega : _ < levels))]
  | .conditional t a b, h => by
    rw [isPortable, Bool.and_eq_true, Bool.and_eq_true] at h
    rw [toJson]
    have ht := encodes_toJson t h.1.1
    have ha := encodes_toJson a h.1.2
    have hb := encodes_toJson b h.2
    refine encodes_tagged (by simp [ht.whole, ha.whole, hb.whole]) fun levels hlevels => ?_
    simp only [Json.depth, Json.depthFields] at hlevels
    simp [decodeWith, ht.reads (by omega : _ < levels), ha.reads (by omega : _ < levels),
      hb.reads (by omega : _ < levels)]
  | .query log, h => by
    rw [isPortable] at h
    rw [toJson]
    have hlog : Json.Encodes Log.decode (.array (toJsonLog log)) log :=
      encodes_query log h
    exact encodes_tagged hlog.whole fun levels hlevels => by
      simp [decodeWith, hlog.reads hlevels]
  | .source id, h => by
    have hid : id < UInt64.size := by simpa [isPortable] using h
    rw [toJson]
    exact encodes_tagged (Json.isWhole_ofNat hid) fun levels _ => by
      simp [decodeWith, Json.nat?_ofNat hid]
  | .grouping k e, h => by
    rw [isPortable, Bool.and_eq_true] at h
    rw [toJson]
    have hk := encodes_toJson k h.1
    have he := encodes_toJson e h.2
    refine encodes_tagged (by simp [hk.whole, he.whole]) fun levels hlevels => ?_
    simp only [Json.depth, Json.depthFields] at hlevels
    simp [decodeWith, hk.reads (by omega : _ < levels), he.reads (by omega : _ < levels)]
  | .joinGroup j e, h => by
    rw [isPortable, Bool.and_eq_true, decide_eq_true_eq] at h
    rw [toJson]
    have he := encodes_toJson e h.2
    refine encodes_tagged (by simp [Json.isWhole_ofNat h.1, he.whole]) fun levels hlevels => ?_
    simp only [Json.depth, Json.depthFields] at hlevels
    simp [decodeWith, Json.nat?_ofNat h.1, he.reads (by omega : _ < levels)]
  | .aggregate f arg, h => by
    rw [isPortable] at h
    rw [toJson]
    have harg := encodes_toJsonOption arg h
    refine encodes_tagged (by simp [harg.whole]) fun levels hlevels => ?_
    simp only [Json.depth, Json.depthFields] at hlevels
    simp [decodeWith, Json.named?_string (AggregateFunc.ofName?_name f),
      harg.reads (by omega : _ < levels)]

theorem encodes_toJsonOption : ∀ e : Option Expr, optionPortable e = true →
    Json.Encodes (fun levels => Json.option? (decode levels)) (toJsonOption e) e
  | none, _ => ⟨rfl, fun _ => rfl⟩
  | some e, h => by
    have he := encodes_toJson e h
    exact ⟨he.whole, fun hlevels => Json.option?_eq_some e.toJson_ne_null (he.reads hlevels)⟩

theorem encodes_toJsonList : ∀ es : List Expr, listPortable es = true →
    Json.EncodesAll decode (toJsonList es) es
  | [], _ => .nil
  | e :: es, h => by
    rw [listPortable, Bool.and_eq_true] at h
    exact .cons (encodes_toJson e h.1) (encodes_toJsonList es h.2)

theorem encodes_toJsonBindings : ∀ bs : List Binding, bindingsPortable bs = true →
    Json.EncodesAll (fun levels => Binding.decodeWith (decode levels))
      (toJsonBindings bs) bs
  | [], _ => .nil
  | ⟨m, v⟩ :: bs, h => by
    rw [bindingsPortable, Bool.and_eq_true] at h
    have hv := encodes_toJson v h.1
    refine .cons ⟨by simp [hv.whole], fun {levels} hlevels => ?_⟩
      (encodes_toJsonBindings bs h.2)
    simp only [Json.depth, Json.depthFields] at hlevels
    simp [Binding.decodeWith, hv.reads (by omega : _ < levels)]

theorem encodes_toJsonOperands : ∀ os : List Operand, operandsPortable os = true →
    Json.EncodesAll (fun levels => Operand.decodeWith (decode levels) (Log.decode levels))
      (toJsonOperands os) os
  | [], _ => .nil
  | .lambda ⟨params, body⟩ :: os, h => by
    rw [operandsPortable, Bool.and_eq_true] at h
    have hbody := encodes_toJson body h.1
    refine .cons ⟨by simp [Json.isWhole_strings, hbody.whole],
      fun {levels} hlevels => ?_⟩ (encodes_toJsonOperands os h.2)
    simp only [Json.depth_tagged, Json.depth, Json.depthFields] at hlevels
    simp [Operand.decodeWith, Lambda.decodeWith_record (hbody.reads (by omega : _ < levels))]
  | .constant v :: os, h => by
    rw [operandsPortable, Bool.and_eq_true] at h
    have hv := Value.encodes_toJson v h.1
    have hread : Value.ofJson? v.toJson = some v := hv.reads (Nat.lt_succ_self _)
    exact .cons ⟨by simp [hv.whole], fun _ => by simp [Operand.decodeWith, hread]⟩
      (encodes_toJsonOperands os h.2)
  | .typeName ty :: os, h => by
    rw [operandsPortable] at h
    exact .cons ⟨by simp, fun _ => by simp [Operand.decodeWith]⟩
      (encodes_toJsonOperands os h)
  | .query log :: os, h => by
    rw [operandsPortable, Bool.and_eq_true] at h
    have hlog : Json.Encodes Log.decode (.array (toJsonLog log)) log :=
      encodes_query log h.1
    refine .cons ⟨by simpa using hlog.whole, fun hlevels => ?_⟩ (encodes_toJsonOperands os h.2)
    rw [Json.depth_tagged] at hlevels
    simp [Operand.decodeWith, hlog.reads (Nat.lt_of_succ_lt hlevels)]
  | .entity e :: os, h => by
    rw [operandsPortable, Bool.and_eq_true] at h
    exact .cons ⟨by simp [EntityValue.isWhole_toJson h.1], fun _ => by
      simp [Operand.decodeWith, EntityValue.ofJson?_toJson h.1]⟩
      (encodes_toJsonOperands os h.2)
  | .entities es :: os, h => by
    rw [operandsPortable, Bool.and_eq_true, List.all_eq_true] at h
    have hwhole : Json.wholeList (es.map EntityValue.toJson) = true :=
      Json.wholeList_map fun e he => EntityValue.isWhole_toJson (h.1 e he)
    have hread : Json.list? EntityValue.ofJson? (.array (es.map EntityValue.toJson)) = some es :=
      Json.list?_map fun e he => EntityValue.ofJson?_toJson (h.1 e he)
    exact .cons ⟨by simp [hwhole], fun _ => by simp [Operand.decodeWith, hread]⟩
      (encodes_toJsonOperands os h.2)

theorem encodes_toJsonLog : ∀ ops : List Operator, logPortable ops = true →
    Json.EncodesAll (fun levels => Operator.decodeWith (decode levels) (Log.decode levels))
      (toJsonLog ops) ops
  | [], _ => .nil
  | ⟨kind, operands⟩ :: ops, h => by
    rw [logPortable, Bool.and_eq_true] at h
    have hoperands := encodes_toJsonOperands operands h.1
    refine .cons ⟨by simp [hoperands.whole], fun {levels} hlevels => ?_⟩
      (encodes_toJsonLog ops h.2)
    simp only [Json.depth, Json.depthFields] at hlevels
    simp [Operator.decodeWith, Json.named?_string (OpKind.ofName?_name kind), Json.list?, Json.array?,
      hoperands.reads (by omega : _ < levels)]

/-- **The JSON value of a log stands for it.** -/
theorem encodes_query : ∀ log : Log, log.isPortable = true →
    Json.Encodes Log.decode log.toJson log
  | log, h => by
    have hlog := encodes_toJsonLog log h
    refine .of_succ hlog.whole fun levels hlevels => ?_
    rw [Log.toJson, Json.depth] at hlevels
    exact hlog.reads hlevels

end

end Expr

/-! ## The text -/

namespace Log

variable {log : Log}

theorem ofJson?_toJson (h : log.isPortable) : ofJson? log.toJson = some log :=
  (Expr.encodes_query log h).reads (Nat.lt_succ_self _)

/-- A log with every form of operand and expression, and with constants that need care: the least
number, a string with a quote and a control character, an identifier, a list in a list. It is no
query that could be planned. -/
def everyForm : Log :=
  [⟨.getSource, [.typeName "Ωrder \""]⟩,
    ⟨.groupJoinRight, [
      .query [⟨.take, [.constant (.int (-9223372036854775808))]⟩, ⟨.distinct, []⟩],
      .lambda ⟨["x", "y"], .conditional
        (.binary .coalesce (.member (.param "x") "A") (.unary .negate (.source 18446744073709551615)))
        (.call "Contains" (some (.constant (.list [.null, .list [.bool false], .string "\x07"])))
          [.query [⟨.any, [.lambda ⟨[], .grouping (.param "") (.joinGroup 3 (.param "z"))⟩]⟩]])
        (.object (some "T") [⟨"M", .aggregate .average none⟩,
          ⟨"N", .aggregate .max (some (.lambda ⟨["q"], .call "Now" none []⟩))⟩,
          ⟨"O", .object none []⟩])⟩]⟩,
    ⟨.insert, [.entity ⟨"E", [("Id", .guid ⟨0x6f9619ff8b86d011b42d00c04fc964ff⟩), ("Id", .null)]⟩,
      .entities [⟨"", []⟩, ⟨"F", [("a", .int 0)]⟩]]⟩]

end Log

end QueryCompiler

import Choam.Engine.Run
import Choam.Lib.Except

/-!
# When expressions have a value

One lemma per operator says for which operands it has a value, and which. From them: a constant
has the same value with every row and with none (`eval_of_none`), comparing equal is being equal
(`compare_eq`), and an expression that has a type has a value of that type, unless it overflows or
divides by zero (`eval_of_checkType`).
-/

namespace Choam

open ByteString

variable {E E' : Type} {a b v : Value}

/-! ## Operators -/

theorem asBool_eq_ok {op : BinaryOp} {x : Option Bool} :
    (asBool op v : Except (ExecError E) _) = .ok x ↔ v = ofBool3 x := by
  cases v <;> cases x <;> simp [asBool, ofBool3]

theorem logical_eq_ok {op : BinaryOp} {f : Option Bool → Option Bool → Option Bool} :
    (logical op f a b : Except (ExecError E) _) = .ok v ↔
      ∃ x y, a = ofBool3 x ∧ b = ofBool3 y ∧ v = ofBool3 (f x y) := by
  simp only [logical, Except.bind_eq_ok, asBool_eq_ok]
  constructor
  · rintro ⟨x, ha, y, hb, hv⟩
    exact ⟨x, y, ha, hb, (Except.ok.inj hv).symm⟩
  · rintro ⟨x, y, ha, hb, rfl⟩
    exact ⟨x, ha, y, hb, rfl⟩

theorem arithmetic_eq_ok {f : Int64 → Int64 → Except (ExecError E) (Option Int64)} :
    arithmetic f a b = .ok v ↔ (a = .null ∨ b = .null) ∧ v = .null ∨
      ∃ x y r, a = .integer x ∧ b = .integer y ∧ f x y = .ok (some r) ∧ v = .integer r := by
  unfold arithmetic
  cases a <;> cases b <;> simp [eq_comm]
  next x y => rcases f x y with e | _ | r <;> simp

/-- Values of one type, and no others, compare. -/
theorem compare_null (h : a = .null ∨ b = .null) : compare a b = none := by
  rcases h with rfl | rfl
  · cases b <;> rfl
  · cases a <;> rfl

theorem comparison3_eq_ok {holds : Ordering → Bool} :
    (comparison3 holds a b : Except (ExecError E) _) = .ok v ↔
      (a = .null ∨ b = .null) ∧ v = .null ∨
        ∃ ord, compare a b = some ord ∧ v = .boolean (holds ord) := by
  unfold comparison3
  by_cases hnull : a = .null ∨ b = .null
  · rw [if_pos hnull, compare_null hnull]
    simp [hnull, eq_comm]
  · rw [if_neg hnull]
    cases hc : compare a b <;> simp [hnull, eq_comm]

theorem compareOfLessAndEq_eq {α : Type} [LT α] [DecidableLT α] [DecidableEq α] {x y : α} :
    compareOfLessAndEq x y = .eq → x = y := by
  unfold compareOfLessAndEq
  split
  · exact nofun
  · split
    · exact fun _ => by assumption
    · exact nofun

/-- Values that compare equal are equal. -/
theorem compare_eq (h : compare a b = some .eq) : a = b := by
  cases a <;> cases b <;> simp only [compare, Option.some.injEq, reduceCtorEq] at h
  next x y => rw [compareOfLessAndEq_eq h]
  next x y => rw [utf8_inj.mp (lexCmp_eq_eq.mp h)]
  next x y => rw [lexCmp_eq_eq.mp h]
  next x y => rw [compareOfLessAndEq_eq h]

/-! ## Constants -/

/-- Whether an operator has a value does not depend on how its failures are reported. -/
theorem binary_ok {op : BinaryOp} (h : (binary op a b : Except (ExecError E) _) = .ok v) :
    (binary op a b : Except (ExecError E') _) = .ok v := by
  cases op with
  | and | or => exact logical_eq_ok.mpr (logical_eq_ok.mp h)
  | add | sub | mul =>
    refine arithmetic_eq_ok.mpr ((arithmetic_eq_ok.mp h).imp id ?_)
    rintro ⟨x, y, r, ha, hb, hr, hv⟩
    exact ⟨x, y, r, ha, hb, congrArg _ (Except.ok.inj hr), hv⟩
  | div =>
    refine arithmetic_eq_ok.mpr ((arithmetic_eq_ok.mp h).imp id ?_)
    rintro ⟨x, y, r, ha, hb, hr, hv⟩
    refine ⟨x, y, r, ha, hb, ?_, hv⟩
    split at hr
    · cases hr
    next hne => rw [if_neg hne, Except.ok.inj hr]
  | eq | ne | lt | le | gt | ge => exact comparison3_eq_ok.mpr (comparison3_eq_ok.mp h)

theorem unary_ok {op : UnaryOp} (h : (unary op a : Except (ExecError E) _) = .ok v) :
    (unary op a : Except (ExecError E') _) = .ok v := by
  cases op <;> cases a <;> simp_all [unary]
  next n =>
    cases hn : checkedNeg n <;> simp_all

/-- An expression that needs no row has the same value with every row. -/
theorem eval_of_none {e : Expr} (h : (eval e none : Except (ExecError E) _) = .ok v)
    (ctx : RowCtx) : (eval e ctx : Except (ExecError E') _) = .ok v := by
  induction e generalizing v with
  | literal l => exact congrArg _ (Except.ok.inj h)
  | column name => cases h
  | isNull e negated ih =>
    obtain ⟨w, hw, hv⟩ := Except.bind_eq_ok.mp h
    exact Except.bind_eq_ok.mpr ⟨w, ih hw, congrArg _ (Except.ok.inj hv)⟩
  | unary op e ih =>
    obtain ⟨w, hw, hv⟩ := Except.bind_eq_ok.mp h
    exact Except.bind_eq_ok.mpr ⟨w, ih hw, unary_ok hv⟩
  | binary l op r ihl ihr =>
    obtain ⟨a, ha, h⟩ := Except.bind_eq_ok.mp h
    obtain ⟨b, hb, hv⟩ := Except.bind_eq_ok.mp h
    exact Except.bind_eq_ok.mpr ⟨a, ihl ha, Except.bind_eq_ok.mpr ⟨b, ihr hb, binary_ok hv⟩⟩

/-! ## Types -/

/-- The type of a value; NULL has its own. -/
def Value.ty : Value → Ty
  | .null => .null
  | .integer _ => .integer
  | .text _ => .text
  | .bytes _ => .bytes
  | .boolean _ => .boolean

theorem Value.ty_null (h : v.ty = .null) : v = .null := by
  cases v <;> cases h
  rfl

theorem Value.ty_boolean (h : v.ty = .boolean) : ∃ b, v = .boolean b := by
  cases v <;> cases h
  exact ⟨_, rfl⟩

/-- The value is one of the type, or NULL. -/
def Value.HasType (v : Value) (ty : Ty) : Prop := v.ty = ty ∨ v = .null

theorem Value.hasType_ofColumnType {ty : ColumnType} :
    v.HasType (.ofColumnType ty) ↔ v.columnType = some ty ∨ v = .null := by
  cases v <;> cases ty <;> simp [HasType, Value.ty, Ty.ofColumnType, columnType]

/-- What an expression of type `ty` may come to. -/
inductive Yields (ty : Ty) : Except (ExecError E) Value → Prop
  | value {v : Value} (h : v.HasType ty) : Yields ty (.ok v)
  | overflow : Yields ty (.error .integerOverflow)
  | division : Yields ty (.error .divisionByZero)

theorem Yields.bind {t ty : Ty} {r : Except (ExecError E) Value}
    {f : Value → Except (ExecError E) Value} (h : Yields t r)
    (hf : ∀ v, v.HasType t → Yields ty (f v)) : Yields ty (r >>= f) := by
  cases h with
  | value h => exact hf _ h
  | overflow => exact .overflow
  | division => exact .division

theorem Yields.error_eq {ty : Ty} {r : Except (ExecError E) Value} {e : ExecError E}
    (h : Yields ty r) (hr : r = .error e) : e = .integerOverflow ∨ e = .divisionByZero := by
  subst hr
  cases h with
  | overflow => exact .inl rfl
  | division => exact .inr rfl

theorem Yields.hasType {ty : Ty} {r : Except (ExecError E) Value} (h : Yields ty r)
    (hr : r = .ok v) : v.HasType ty := by
  subst hr
  cases h with
  | value h => exact h

theorem Ty.is_iff {t want : Ty} : t.is want = true ↔ t = want ∨ t = .null := by
  simp [Ty.is]

/-- A value whose type an operator accepts is one that it works on. -/
theorem Value.HasType.of_is {t want : Ty} (h : v.HasType t) (his : t.is want = true) :
    v.HasType want := by
  rcases Ty.is_iff.mp his with rfl | rfl
  · exact h
  · cases v <;> simp_all [HasType, Value.ty]

theorem Value.HasType.ofBool3 (h : v.HasType .boolean) : ∃ x, v = Choam.ofBool3 x := by
  cases v with
  | boolean x => exact ⟨some x, rfl⟩
  | null => exact ⟨none, rfl⟩
  | integer | text | bytes => simp [HasType, Value.ty] at h

theorem yields_logical {op : BinaryOp} {f : Option Bool → Option Bool → Option Bool}
    (ha : a.HasType .boolean) (hb : b.HasType .boolean) :
    Yields .boolean (logical op f a b : Except (ExecError E) _) := by
  obtain ⟨x, rfl⟩ := ha.ofBool3
  obtain ⟨y, rfl⟩ := hb.ofBool3
  rw [logical_eq_ok.mpr ⟨x, y, rfl, rfl, rfl⟩]
  cases f x y with
  | none => exact .value (.inr rfl)
  | some r => exact .value (.inl rfl)

theorem yields_arithmetic {f : Int64 → Int64 → Except (ExecError E) (Option Int64)}
    (hf : ∀ x y e, f x y = .error e → e = .divisionByZero)
    (ha : a.HasType .integer) (hb : b.HasType .integer) :
    Yields .integer (arithmetic f a b) := by
  unfold arithmetic
  split
  · exact .value (.inr rfl)
  next hnull =>
  obtain ⟨hna, hnb⟩ := not_or.mp hnull
  obtain hta := ha.resolve_right hna
  obtain htb := hb.resolve_right hnb
  cases a <;> cases b <;> cases hta <;> cases htb
  next x y =>
  dsimp only
  cases hr : f x y with
  | error e =>
    rw [hf x y e hr]
    exact .division
  | ok r =>
    cases r with
    | none => exact .overflow
    | some r => exact .value (.inl rfl)

theorem yields_comparison3 {holds : Ordering → Bool} {t t' : Ty} (ha : a.HasType t)
    (hb : b.HasType t') (htypes : t = t' ∨ t = .null ∨ t' = .null) :
    Yields .boolean (comparison3 holds a b : Except (ExecError E) _) := by
  by_cases hnull : a = .null ∨ b = .null
  · rw [comparison3, if_pos hnull]
    exact .value (.inr rfl)
  · have hsome : ∃ ord, compare a b = some ord := by
      obtain ⟨hna, hnb⟩ := not_or.mp hnull
      obtain rfl := ha.resolve_right hna
      obtain rfl := hb.resolve_right hnb
      cases a <;> cases b <;> simp_all [Value.ty, compare]
    obtain ⟨ord, hord⟩ := hsome
    rw [comparison3, if_neg hnull, hord]
    exact .value (.inl rfl)

theorem checkOperands_eq_ok {what : String} {want t t' ty : Ty}
    (h : (checkOperands what want t t' : Except (ExecError E) _) = .ok ty)
    (ha : a.HasType t) (hb : b.HasType t') : ty = want ∧ a.HasType want ∧ b.HasType want := by
  unfold checkOperands at h
  split at h
  next his =>
    cases h
    obtain ⟨h₁, h₂⟩ := Bool.and_eq_true_iff.mp his
    exact ⟨rfl, ha.of_is h₁, hb.of_is h₂⟩
  · cases h

theorem yields_binary {op : BinaryOp} {t t' ty : Ty}
    (hty : (checkBinary op t t' : Except (ExecError E) _) = .ok ty) (ha : a.HasType t)
    (hb : b.HasType t') : Yields ty (binary op a b : Except (ExecError E) _) := by
  cases op with
  | and | or =>
    obtain ⟨rfl, ha, hb⟩ := checkOperands_eq_ok hty ha hb
    exact yields_logical ha hb
  | add | sub | mul =>
    obtain ⟨rfl, ha, hb⟩ := checkOperands_eq_ok hty ha hb
    exact yields_arithmetic (fun x y e h => by cases h) ha hb
  | div =>
    obtain ⟨rfl, ha, hb⟩ := checkOperands_eq_ok hty ha hb
    refine yields_arithmetic (fun x y e h => ?_) ha hb
    split at h <;> cases h
    rfl
  | eq | ne | lt | le | gt | ge =>
    simp only [checkBinary, checkComparison] at hty
    split at hty
    next h =>
      cases hty
      exact yields_comparison3 ha hb (by simpa [or_assoc] using h)
    · cases hty

theorem yields_unary {op : UnaryOp} (ha : a.HasType op.operand) :
    Yields op.operand (unary op a : Except (ExecError E) _) := by
  cases op <;> cases a <;> simp [Value.HasType, Value.ty, UnaryOp.operand] at ha
  case neg.integer n =>
    cases hn : checkedNeg n with
    | some r =>
      simp only [unary, hn]
      exact .value (.inl rfl)
    | none =>
      simp only [unary, hn]
      exact .overflow
  case neg.null | not.null => exact .value (.inr rfl)
  case not.boolean b => exact .value (.inl rfl)

/-- The values of a row have the types of its columns, or are NULL. -/
def Schema.Typed (schema : Schema) (row : Row) : Prop :=
  List.Forall₂ (fun v (c : ColumnDef) => v.columnType = some c.ty ∨ v = .null) row schema.columns

/-- The column that a name stands for, at its place in the row. -/
theorem column_of_checkType {schema : Schema} {row : Row} {name : String} {ty : Ty}
    (hrow : schema.Typed row)
    (hty : (checkType (.column name) (some schema) : Except (ExecError E) _) = .ok ty) :
    ∃ i, ∃ hi : i < schema.columns.length, ∃ hlen : i < row.length,
      row[i].HasType ty ∧ schema.columns[i].name = name ∧
        (∀ j (hj : j < i), schema.columns[j].name ≠ name) ∧
        (eval (.column name) (some (schema, row)) : Except (ExecError E) _) = .ok row[i] := by
  simp only [checkType] at hty
  split at hty
  · cases hty
  next c hc =>
  cases hty
  obtain ⟨hname, i, hi, hget, hfirst⟩ := List.find?_eq_some_iff_getElem.mp hc
  have hfirst : ∀ j (hj : j < i), schema.columns[j].name ≠ name := fun j hj => by
    simpa using hfirst j hj
  have hname : schema.columns[i].name = name := by simpa [hget] using hname
  have hidx : schema.columns.findIdx? (·.name = name) = some i :=
    List.findIdx?_eq_some_iff_getElem.mpr ⟨hi, by simp [hname], fun j hj => by simpa using hfirst j hj⟩
  have hlen : i < row.length := hrow.length_eq ▸ hi
  refine ⟨i, hi, hlen, ?_, hname, hfirst, ?_⟩
  · rw [← hget]
    exact Value.hasType_ofColumnType.mpr (hrow.get hlen hi)
  · simp only [eval, hidx, List.getElem?_eq_getElem hlen]

/-- **Typed expressions go wrong only in arithmetic.** -/
theorem eval_of_checkType {e : Expr} {schema : Schema} {row : Row} {ty : Ty}
    (hrow : schema.Typed row)
    (hty : (checkType e (some schema) : Except (ExecError E) _) = .ok ty) :
    Yields ty (eval e (some (schema, row)) : Except (ExecError E) _) := by
  induction e generalizing ty with
  | literal l =>
    cases hty
    exact .value (.inl (by cases l <;> rfl))
  | column name =>
    obtain ⟨i, hi, hlen, htype, -, -, heval⟩ := column_of_checkType hrow hty
    rw [heval]
    exact .value htype
  | isNull e negated ih =>
    obtain ⟨t, ht, hty⟩ := Except.bind_eq_ok.mp hty
    cases hty
    exact (ih ht).bind fun v hv => .value (.inl rfl)
  | unary op e ih =>
    obtain ⟨t, ht, hty⟩ := Except.bind_eq_ok.mp hty
    split at hty
    next his =>
      cases hty
      exact (ih ht).bind fun v hv => yields_unary (hv.of_is his)
    · cases hty
  | binary l op r ihl ihr =>
    obtain ⟨t, ht, hty⟩ := Except.bind_eq_ok.mp hty
    obtain ⟨t', ht', hty⟩ := Except.bind_eq_ok.mp hty
    exact (ihl ht).bind fun a ha => (ihr ht').bind fun b hb => yields_binary hty ha hb

theorem checkFilter_some {f : Expr} {schema : Schema} :
    (checkFilter (some f) schema : Except (ExecError E) _) = .ok () ↔
      ∃ ty, (checkType f (some schema) : Except (ExecError E) _) = .ok ty ∧ ty.is .boolean = true := by
  rw [checkFilter, Except.bind_eq_ok]
  refine exists_congr fun ty => and_congr_right fun _ => ?_
  split
  next his => simp [his]
  next his => simp [his]

theorem eval_of_checkFilter {f : Expr} {schema : Schema} {row : Row} (hrow : schema.Typed row)
    (hf : (checkFilter (some f) schema : Except (ExecError E) _) = .ok ())
    (hv : (eval f (some (schema, row)) : Except (ExecError E) _) = .ok v) :
    v = .null ∨ ∃ b, v = .boolean b := by
  obtain ⟨ty, hty, his⟩ := checkFilter_some.mp hf
  rcases ((eval_of_checkType hrow hty).hasType hv).of_is his with h | h
  · exact .inr (Value.ty_boolean h)
  · exact .inl h

/-- Filtering fails on one of the rows. -/
theorem keepRows_error {filter : Option Expr} {schema : Schema} {rows : List Row} {e : ExecError E}
    (he : keepRows filter schema rows = .error e) : ∃ row ∈ rows,
      keepsRow filter schema row = .error e := by
  induction rows with
  | nil => cases he
  | cons row rows ih =>
    rcases Except.bind_eq_error.mp he with he | ⟨keep, -, he⟩
    · exact ⟨row, by simp, he⟩
    · rcases Except.bind_eq_error.mp he with he | ⟨kept, -, he⟩
      · obtain ⟨row', hrow', he'⟩ := ih he
        exact ⟨row', by simp [hrow'], he'⟩
      · cases he

/-- An accepted filter fails on a row only where its evaluation does. -/
theorem keepsRow_error {f : Expr} {schema : Schema} {row : Row} {e : ExecError E}
    (hrow : schema.Typed row) (hf : (checkFilter (some f) schema : Except (ExecError E) _) = .ok ()) :
    keepsRow (some f) schema row = .error e ↔ eval f (some (schema, row)) = .error e := by
  rw [keepsRow]
  cases hv : (eval f (some (schema, row)) : Except (ExecError E) _) with
  | error e' => exact ⟨fun h => congrArg _ (Except.error.inj h), fun h => congrArg _ (Except.error.inj h)⟩
  | ok v =>
    rcases eval_of_checkFilter hrow hf hv with rfl | ⟨b, rfl⟩ <;> exact ⟨nofun, nofun⟩

/-- **Type soundness**: an expression that has a type comes to NULL or a value of that type, or to
one of the two arithmetic errors; and a filter that was accepted to a boolean or NULL. -/
theorem checkType_sound {schema : Schema} {row : Row} (hrow : schema.Typed row) :
    (∀ e ty, (checkType e (some schema) : Except (ExecError E) _) = .ok ty →
      (∀ err, (eval e (some (schema, row)) : Except (ExecError E) _) = .error err →
        err = .integerOverflow ∨ err = .divisionByZero) ∧
      ∀ v, (eval e (some (schema, row)) : Except (ExecError E) _) = .ok v →
        (v = .null ∨ v.ty = ty) ∧ (ty = .null → v = .null)) ∧
    ∀ f, (checkFilter (some f) schema : Except (ExecError E) _) = .ok () →
      (∀ v, (eval f (some (schema, row)) : Except (ExecError E) _) = .ok v →
        v = .null ∨ ∃ b, v = .boolean b) ∧
      ∀ err, (keepsRow (some f) schema row : Except (ExecError E) _) = .error err →
        err = .integerOverflow ∨ err = .divisionByZero := by
  refine ⟨fun e ty hty => ?_, fun f hf => ?_⟩
  · have hyields := eval_of_checkType hrow hty
    refine ⟨fun err herr => hyields.error_eq herr, fun v hv => ?_⟩
    have htype := hyields.hasType hv
    exact ⟨htype.symm, fun h => htype.elim (fun ht => Value.ty_null (ht.trans h)) id⟩
  · refine ⟨fun v hv => eval_of_checkFilter hrow hf hv, fun err herr => ?_⟩
    obtain ⟨ty, hty, -⟩ := checkFilter_some.mp hf
    exact (eval_of_checkType hrow hty).error_eq ((keepsRow_error hrow hf).mp herr)

/-- Two columns, one of them nullable. -/
def typedSample : Schema :=
  ⟨"a", [⟨"k", .integer, false⟩, ⟨"v", .integer, true⟩], 0, by decide, by decide, by decide⟩

theorem checkType_sound_sample :
    (eval (.binary (.column "v") .lt (.column "k"))
      (some (typedSample, [.integer 7, .null])) : Except (ExecError Empty) _) = .ok .null ∧
    (Value.null = .null ∨ Value.null.ty = .boolean) ∧ (Ty.boolean = .null → Value.null = .null) :=
  ⟨rfl, ((@checkType_sound Empty typedSample [.integer 7, .null]
    (.cons (.inl rfl) (.cons (.inr rfl) .nil))).1
      (.binary (.column "v") .lt (.column "k")) .boolean rfl).2 .null rfl⟩

end Choam

import Choam.Verify.Evaluate

/-!
# Evaluation is exact

The reference evaluates over unbounded integers: arithmetic and comparison are strict in NULL, AND,
OR and NOT are the minimum, the maximum and the reversal of FALSE < NULL < TRUE. Whether a node is
at fault is said of the reference values of its operands (`faultAt`). `eval_reference`: an
expression that has a type comes to its reference value, or to the error of the first node at
fault, wherever in the expression it is.
-/

namespace Choam

open ByteString

variable {E : Type}

/-! ## The reference -/

/-- A value whose integers are unbounded. -/
inductive Ideal where
  | null
  | integer (n : Int)
  | text (s : String)
  | bytes (b : Bytes)
  | boolean (b : Bool)
  deriving DecidableEq

def Value.ideal : Value → Ideal
  | .null => .null
  | .integer n => .integer n.toInt
  | .text s => .text s
  | .bytes b => .bytes b
  | .boolean b => .boolean b

namespace Ideal

/-- FALSE, NULL and TRUE in order; anything else is as NULL. -/
def truth : Ideal → Int
  | boolean false => -1
  | boolean true => 1
  | _ => 0

def ofTruth (t : Int) : Ideal :=
  if t < 0 then boolean false else if 0 < t then boolean true else null

/-- NULL unless both are integers. -/
def integers (f : Int → Int → Int) : Ideal → Ideal → Ideal
  | integer x, integer y => integer (f x y)
  | _, _ => null

/-- NULL unless both are of one type. -/
def compares (holds : Ordering → Bool) : Ideal → Ideal → Ideal
  | integer x, integer y => boolean (holds (compareOfLessAndEq x y))
  | text x, text y => boolean (holds (lexCmp (utf8 x) (utf8 y)))
  | bytes x, bytes y => boolean (holds (lexCmp x y))
  | boolean x, boolean y => boolean (holds (compareOfLessAndEq x y))
  | _, _ => null

def binary : BinaryOp → Ideal → Ideal → Ideal
  | .and, a, b => ofTruth (min a.truth b.truth)
  | .or, a, b => ofTruth (max a.truth b.truth)
  | .add, a, b => integers (· + ·) a b
  | .sub, a, b => integers (· - ·) a b
  | .mul, a, b => integers (· * ·) a b
  | .div, a, b => integers Int.tdiv a b
  | .eq, a, b => compares (· == .eq) a b
  | .ne, a, b => compares (· != .eq) a b
  | .lt, a, b => compares (· == .lt) a b
  | .le, a, b => compares (· != .gt) a b
  | .gt, a, b => compares (· == .gt) a b
  | .ge, a, b => compares (· != .lt) a b

def unary : UnaryOp → Ideal → Ideal
  | .neg, integer n => integer (-n)
  | .neg, _ => null
  | .not, a => ofTruth (-a.truth)

end Ideal

/-- The column's value in the row, by its name. -/
def Schema.ideal (schema : Schema) (row : Row) (name : String) : Ideal :=
  match (schema.columns.zip row).find? (·.1.name = name) with
  | some (_, v) => v.ideal
  | none => .null

def reference (schema : Schema) (row : Row) : Expr → Ideal
  | .literal l => (literalValue l).ideal
  | .column name => schema.ideal row name
  | .isNull e negated => .boolean ((reference schema row e = .null) != negated)
  | .unary op e => .unary op (reference schema row e)
  | .binary l op r => .binary op (reference schema row l) (reference schema row r)

/-! ## Faults -/

/-- What goes wrong at a node. -/
inductive Fault where
  | overflow
  | division
  deriving DecidableEq

def Fault.error : Fault → ExecError E
  | overflow => .integerOverflow
  | division => .divisionByZero

/-- The number is not a signed 64-bit one. -/
def outside (n : Int) : Option Fault :=
  if -2 ^ 63 ≤ n ∧ n < 2 ^ 63 then none else some .overflow

def binaryFault : BinaryOp → Ideal → Ideal → Option Fault
  | .add, .integer x, .integer y => outside (x + y)
  | .sub, .integer x, .integer y => outside (x - y)
  | .mul, .integer x, .integer y => outside (x * y)
  | .div, .integer x, .integer y => if y = 0 then some .division else outside (x.tdiv y)
  | _, _, _ => none

def unaryFault : UnaryOp → Ideal → Option Fault
  | .neg, .integer n => outside (-n)
  | _, _ => none

/-- The fault of a node itself, given its operands' reference values. -/
def faultAt (schema : Schema) (row : Row) : Expr → Option Fault
  | .unary op e => unaryFault op (reference schema row e)
  | .binary l op r => binaryFault op (reference schema row l) (reference schema row r)
  | _ => none

/-- All nodes from left to right, operands first. -/
def Expr.nodes : Expr → List Expr
  | .literal l => [.literal l]
  | .column name => [.column name]
  | .isNull e negated => e.nodes ++ [.isNull e negated]
  | .unary op e => e.nodes ++ [.unary op e]
  | .binary l op r => l.nodes ++ r.nodes ++ [.binary l op r]

/-! ## Operators -/

/-- The result is the given value, unless there is a fault: then its error. -/
def IsExact (r : Except (ExecError E) Value) (fault : Option Fault) (ideal : Ideal) : Prop :=
  match fault with
  | some f => r = .error f.error
  | none => ∃ v, r = .ok v ∧ v.ideal = ideal

theorem checked_exact (n : Int) :
    (outside n = none ∧ ∃ r, checked n = some r ∧ r.toInt = n) ∨
      outside n = some .overflow ∧ checked n = none := by
  unfold checked outside
  by_cases h : -2 ^ 63 ≤ n ∧ n < 2 ^ 63
  · rw [if_pos h, if_pos h]
    exact .inl ⟨rfl, _, rfl, Int64.toInt_ofInt_of_le h.1 h.2⟩
  · rw [if_neg h, if_neg h]
    exact .inr ⟨rfl, rfl⟩

/-- Arithmetic on two values that are integers or NULL. -/
theorem arithmetic_exact {f : Int64 → Int64 → Except (ExecError E) (Option Int64)}
    {g : Int → Int → Int} {fault : Ideal → Ideal → Option Fault} {a b : Value}
    (hf : ∀ x y : Int64,
      fault (.integer x.toInt) (.integer y.toInt) = some .division ∧
          f x y = .error .divisionByZero ∨
        fault (.integer x.toInt) (.integer y.toInt) = outside (g x.toInt y.toInt) ∧
          f x y = .ok (checked (g x.toInt y.toInt)))
    (hnull : ∀ a b, a = .null ∨ b = .null → fault a b = none)
    (ha : a.HasType .integer) (hb : b.HasType .integer) :
    IsExact (arithmetic f a b) (fault a.ideal b.ideal) (.integers g a.ideal b.ideal) := by
  unfold arithmetic
  by_cases h : a = .null ∨ b = .null
  · rw [if_pos h, hnull _ _ (h.imp (congrArg _) (congrArg _))]
    refine ⟨.null, rfl, ?_⟩
    rcases h with rfl | rfl
    · rfl
    · cases a <;> rfl
  · rw [if_neg h]
    obtain ⟨hna, hnb⟩ := not_or.mp h
    have hta := ha.resolve_right hna
    have htb := hb.resolve_right hnb
    cases a <;> cases b <;> cases hta <;> cases htb
    next x y =>
    dsimp only [Value.ideal, Ideal.integers]
    rcases hf x y with ⟨hfault, hfxy⟩ | ⟨hfault, hfxy⟩
    · rw [hfault, hfxy]
      rfl
    · rw [hfault, hfxy]
      rcases checked_exact (g x.toInt y.toInt) with ⟨hin, r, hr, hint⟩ | ⟨hout, hr⟩
      · rw [hin, hr]
        exact ⟨.integer r, rfl, congrArg Ideal.integer hint⟩
      · rw [hout, hr]
        rfl

theorem compareOfLessAndEq_toInt (x y : Int64) :
    compareOfLessAndEq x y = compareOfLessAndEq x.toInt y.toInt := by
  simp only [compareOfLessAndEq, Int64.lt_iff_toInt_lt, ← Int64.toInt_inj]

theorem comparison3_exact {holds : Ordering → Bool} {t t' : Ty} {a b : Value}
    (ha : a.HasType t) (hb : b.HasType t') (htypes : t = t' ∨ t = .null ∨ t' = .null) :
    IsExact (comparison3 holds a b : Except (ExecError E) _) none
      (.compares holds a.ideal b.ideal) := by
  unfold comparison3
  by_cases h : a = .null ∨ b = .null
  · rw [if_pos h]
    refine ⟨.null, rfl, ?_⟩
    rcases h with rfl | rfl
    · rfl
    · cases a <;> rfl
  · rw [if_neg h]
    obtain ⟨hna, hnb⟩ := not_or.mp h
    obtain rfl := ha.resolve_right hna
    obtain rfl := hb.resolve_right hnb
    cases a with
    | null => exact absurd rfl hna
    | integer x =>
      cases b with
      | integer y =>
        refine ⟨_, rfl, ?_⟩
        rw [compareOfLessAndEq_toInt]
        rfl
      | null | text | bytes | boolean => simp_all [Value.ty]
    | text x =>
      cases b with
      | text y => exact ⟨_, rfl, rfl⟩
      | null | integer | bytes | boolean => simp_all [Value.ty]
    | bytes x =>
      cases b with
      | bytes y => exact ⟨_, rfl, rfl⟩
      | null | integer | text | boolean => simp_all [Value.ty]
    | boolean x =>
      cases b with
      | boolean y => exact ⟨_, rfl, rfl⟩
      | null | integer | text | bytes => simp_all [Value.ty]

theorem logical_exact {op : BinaryOp} {f : Option Bool → Option Bool → Option Bool}
    {g : Int → Int → Int} {a b : Value} (ha : a.HasType .boolean) (hb : b.HasType .boolean)
    (hf : ∀ x y, (ofBool3 (f x y)).ideal =
      .ofTruth (g (ofBool3 x).ideal.truth (ofBool3 y).ideal.truth)) :
    IsExact (logical op f a b : Except (ExecError E) _) none
      (.ofTruth (g a.ideal.truth b.ideal.truth)) := by
  obtain ⟨x, rfl⟩ := ha.ofBool3
  obtain ⟨y, rfl⟩ := hb.ofBool3
  exact ⟨_, logical_eq_ok.mpr ⟨x, y, rfl, rfl, rfl⟩, hf x y⟩

theorem binary_exact {op : BinaryOp} {t t' ty : Ty} {a b : Value}
    (hty : (checkBinary op t t' : Except (ExecError E) _) = .ok ty) (ha : a.HasType t)
    (hb : b.HasType t') :
    IsExact (binary op a b : Except (ExecError E) _) (binaryFault op a.ideal b.ideal)
      (.binary op a.ideal b.ideal) := by
  have hnull : ∀ {op : BinaryOp} (a b : Ideal), a = .null ∨ b = .null →
      binaryFault op a b = none := fun {op} a b h => by
    rcases h with rfl | rfl <;> cases op <;> first | rfl | (cases a <;> rfl)
  cases op with
  | and =>
    obtain ⟨-, ha, hb⟩ := checkOperands_eq_ok hty ha hb
    exact logical_exact ha hb (by rintro (_ | _ | _) (_ | _ | _) <;> rfl)
  | or =>
    obtain ⟨-, ha, hb⟩ := checkOperands_eq_ok hty ha hb
    exact logical_exact ha hb (by rintro (_ | _ | _) (_ | _ | _) <;> rfl)
  | add | sub | mul =>
    obtain ⟨-, ha, hb⟩ := checkOperands_eq_ok hty ha hb
    exact arithmetic_exact (fun x y => .inr ⟨rfl, rfl⟩) hnull ha hb
  | div =>
    obtain ⟨-, ha, hb⟩ := checkOperands_eq_ok hty ha hb
    refine arithmetic_exact (fun x y => ?_) hnull ha hb
    have hzero : y = 0 ↔ y.toInt = 0 := by rw [← Int64.toInt_inj, Int64.toInt_zero]
    by_cases h : y = 0
    · exact .inl ⟨if_pos (hzero.mp h), if_pos h⟩
    · exact .inr ⟨if_neg (mt hzero.mpr h), if_neg h⟩
  | eq | ne | lt | le | gt | ge =>
    simp only [checkBinary, checkComparison] at hty
    split at hty
    next h => exact comparison3_exact ha hb (by simpa [or_assoc] using h)
    · cases hty

theorem unary_exact {op : UnaryOp} {v : Value} (hv : v.HasType op.operand) :
    IsExact (unary op v : Except (ExecError E) _) (unaryFault op v.ideal) (.unary op v.ideal) := by
  cases op with
  | neg =>
    cases v with
    | integer n =>
      dsimp only [Value.ideal, unaryFault, unary, checkedNeg]
      rcases checked_exact (-n.toInt) with ⟨hin, r, hr, hint⟩ | ⟨hout, hr⟩
      · rw [hin, hr]
        exact ⟨.integer r, rfl, congrArg Ideal.integer hint⟩
      · rw [hout, hr]
        rfl
    | null => exact ⟨.null, rfl, rfl⟩
    | text | bytes | boolean => simp [Value.HasType, Value.ty, UnaryOp.operand] at hv
  | not =>
    obtain ⟨x, rfl⟩ := hv.ofBool3
    rcases x with _ | _ | _
    · exact ⟨.null, rfl, rfl⟩
    · exact ⟨.boolean true, rfl, rfl⟩
    · exact ⟨.boolean false, rfl, rfl⟩

/-! ## Expressions -/

theorem IsExact.bind {r : Except (ExecError E) Value} {f : Value → Except (ExecError E) Value}
    {fault fault' : Option Fault} {i i' : Ideal} (h : IsExact r fault i)
    (hf : ∀ v, r = .ok v → v.ideal = i → IsExact (f v) fault' i') :
    IsExact (r >>= f) (fault.or fault') i' := by
  cases fault with
  | some x =>
    obtain rfl : r = .error x.error := h
    rfl
  | none =>
    obtain ⟨v, rfl, hv⟩ := h
    exact hf v rfl hv

theorem column_ideal {schema : Schema} {row : Row} {name : String} {i : ℕ}
    {hi : i < schema.columns.length} {hlen : i < row.length} (hname : schema.columns[i].name = name)
    (hfirst : ∀ j < i, ∀ c ∈ schema.columns[j]?, c.name ≠ name) :
    schema.ideal row name = row[i].ideal := by
  have hzip : (schema.columns.zip row).find? (·.1.name = name) = some (schema.columns[i], row[i]) := by
    refine List.find?_eq_some_iff_getElem.mpr ⟨by simp [hname], i, by simp [hi, hlen], by simp, ?_⟩
    intro j hj
    simpa using hfirst j hj _ (List.getElem?_eq_getElem (hj.trans hi))
  simp only [Schema.ideal, hzip]

/-- **Evaluation is exact**: a typed expression comes to its reference value, or to the error of
its first node at fault. -/
theorem eval_reference {e : Expr} {schema : Schema} {row : Row} {ty : Ty}
    (hrow : schema.Typed row)
    (hty : (checkType e (some schema) : Except (ExecError E) _) = .ok ty) :
    IsExact (eval e (some (schema, row)) : Except (ExecError E) _)
      (e.nodes.findSome? (faultAt schema row)) (reference schema row e) := by
  induction e generalizing ty with
  | literal l => exact ⟨_, rfl, rfl⟩
  | column name =>
    obtain ⟨i, hi, hlen, -, hname, hfirst, heval⟩ := column_of_checkType hrow hty
    refine ⟨_, heval, (column_ideal hname fun j hj c hc => ?_).symm⟩
    obtain ⟨-, rfl⟩ := List.getElem?_eq_some_iff.mp hc
    exact hfirst j hj
  | isNull e negated ih =>
    obtain ⟨t, ht, -⟩ := Except.bind_eq_ok.mp hty
    rw [Expr.nodes, List.findSome?_append]
    refine (ih ht).bind fun v _ hv => ⟨_, rfl, ?_⟩
    rw [reference, ← hv]
    cases v <;> rfl
  | unary op e ih =>
    obtain ⟨t, ht, hty⟩ := Except.bind_eq_ok.mp hty
    split at hty
    next his =>
      rw [Expr.nodes, List.findSome?_append]
      refine (ih ht).bind fun v hok hv => ?_
      have htype := eval_of_checkType hrow ht
      rw [hok] at htype
      cases htype with
      | value htype =>
        have hop := @unary_exact E _ _ (htype.of_is his)
        rw [hv] at hop
        simpa [faultAt, reference] using hop
    · cases hty
  | binary l op r ihl ihr =>
    obtain ⟨t, ht, hty⟩ := Except.bind_eq_ok.mp hty
    obtain ⟨t', ht', hty⟩ := Except.bind_eq_ok.mp hty
    rw [Expr.nodes, List.findSome?_append, List.findSome?_append, Option.or_assoc]
    refine (ihl ht).bind fun a hoka ha => (ihr ht').bind fun b hokb hb => ?_
    have htypea := eval_of_checkType hrow ht
    have htypeb := eval_of_checkType hrow ht'
    rw [hoka] at htypea
    rw [hokb] at htypeb
    cases htypea with
    | value htypea =>
      cases htypeb with
      | value htypeb =>
        have hop := @binary_exact E _ _ _ _ _ _ hty htypea htypeb
        rw [ha, hb] at hop
        simpa [faultAt, reference] using hop

/-- **Arithmetic errors are never hidden**: evaluation fails just when some node of the expression
is at fault, and then with the error of the first; otherwise it gives the reference value. -/
theorem eval_exact {e : Expr} {schema : Schema} {row : Row} {ty : Ty}
    (hrow : schema.Typed row)
    (hty : (checkType e (some schema) : Except (ExecError E) _) = .ok ty) :
    ((∃ err, (eval e (some (schema, row)) : Except (ExecError E) _) = .error err) ↔
        ∃ n ∈ e.nodes, faultAt schema row n ≠ none) ∧
      (∀ err, (eval e (some (schema, row)) : Except (ExecError E) _) = .error err →
        ∃ f, e.nodes.findSome? (faultAt schema row) = some f ∧ err = f.error) ∧
      ∀ v, (eval e (some (schema, row)) : Except (ExecError E) _) = .ok v →
        v.ideal = reference schema row e := by
  have hexact := @eval_reference E _ _ _ _ hrow hty
  cases hfault : e.nodes.findSome? (faultAt schema row) with
  | none =>
    rw [hfault] at hexact
    obtain ⟨v, hv, hideal⟩ := hexact
    have hnone := List.findSome?_eq_none_iff.mp hfault
    refine ⟨⟨fun ⟨err, herr⟩ => ?_, fun ⟨n, hn, hne⟩ => absurd (hnone n hn) hne⟩, ?_, ?_⟩
    · cases hv.symm.trans herr
    · intro err herr
      cases hv.symm.trans herr
    · intro w hw
      cases hv.symm.trans hw
      exact hideal
  | some f =>
    rw [hfault] at hexact
    obtain ⟨n, hn, hf⟩ := List.exists_of_findSome?_eq_some hfault
    refine ⟨⟨fun _ => ⟨n, hn, by rw [hf]; exact Option.some_ne_none f⟩, fun _ => ⟨_, hexact⟩⟩, ?_, ?_⟩
    · intro err herr
      exact ⟨f, rfl, Except.error.inj (herr.symm.trans hexact)⟩
    · intro w hw
      cases hw.symm.trans hexact

/-- FALSE AND (-9223372036854775808 / v = 1 / 0) over one row. -/
def hiddenSample : Expr :=
  .binary (.literal (.boolean false)) .and
    (.binary (.binary (.literal (.integer (-9223372036854775808))) .div (.column "v")) .eq
      (.binary (.literal (.integer 1)) .div (.literal (.integer 0))))

theorem eval_exact_sample :
    let row : Row := [.integer 7, .integer (-1)]
    (∃ n ∈ hiddenSample.nodes, faultAt typedSample row n ≠ none) ∧
      (eval hiddenSample (some (typedSample, row)) : Except (ExecError Empty) _) =
        .error .integerOverflow ∧
      ∃ f, hiddenSample.nodes.findSome? (faultAt typedSample row) = some f ∧
        (.integerOverflow : ExecError Empty) = f.error := by
  intro row
  have hexact := @eval_exact Empty hiddenSample typedSample row .boolean
    (.cons (.inl rfl) (.cons (.inl rfl) .nil)) rfl
  have herr : (eval hiddenSample (some (typedSample, row)) : Except (ExecError Empty) _) =
      .error .integerOverflow := rfl
  exact ⟨hexact.1.mp ⟨_, herr⟩, herr, hexact.2.1 _ herr⟩

end Choam

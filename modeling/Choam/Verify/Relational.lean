import Mathlib.Data.List.Sort
import Choam.Verify.Exact
import Choam.Verify.Agreement

/-!
# A plain relational model

A table is the list of its rows in the order of their primary keys, an expression has its type by
rules and its value over unbounded integers. `Relational.effect` is what a statement does to such a
table: it knows neither keys nor encodings, nor how rows are found. The rest of the module compares
the pure parts of the executor with it: types, constants, filters, named columns.
-/

namespace Choam

open ByteString

variable {E : Type}

/-! ## Types by rules -/

def BinaryOp.result : BinaryOp → Ty
  | .add | .sub | .mul | .div => .integer
  | _ => .boolean

/-- The operator takes operands of these types. -/
def BinaryOp.Takes : BinaryOp → Ty → Ty → Prop
  | .and, t, t' | .or, t, t' => (t = .boolean ∨ t = .null) ∧ (t' = .boolean ∨ t' = .null)
  | .add, t, t' | .sub, t, t' | .mul, t, t' | .div, t, t' =>
    (t = .integer ∨ t = .null) ∧ (t' = .integer ∨ t' = .null)
  | .eq, t, t' | .ne, t, t' | .lt, t, t' | .le, t, t' | .gt, t, t' | .ge, t, t' =>
    t = t' ∨ t = .null ∨ t' = .null

/-- The typing rules. -/
inductive Expr.HasTy (schema : Schema) : Expr → Ty → Prop
  | literal (l : Literal) : HasTy schema (.literal l) (literalType l)
  | column {c : ColumnDef} (hc : c ∈ schema.columns) :
      HasTy schema (.column c.name) (.ofColumnType c.ty)
  | isNull {e : Expr} {t : Ty} (negated : Bool) (he : HasTy schema e t) :
      HasTy schema (.isNull e negated) .boolean
  | unary {op : UnaryOp} {e : Expr} {t : Ty} (he : HasTy schema e t)
      (ht : t = op.operand ∨ t = .null) : HasTy schema (.unary op e) op.operand
  | binary {op : BinaryOp} {l r : Expr} {t t' : Ty} (hl : HasTy schema l t)
      (hr : HasTy schema r t') (ht : op.Takes t t') : HasTy schema (.binary l op r) op.result

theorem checkBinary_eq_ok {op : BinaryOp} {t t' ty : Ty} :
    (checkBinary op t t' : Except (ExecError E) _) = .ok ty ↔ op.Takes t t' ∧ op.result = ty := by
  have hoperands : ∀ what want, (checkOperands what want t t' : Except (ExecError E) _) = .ok ty ↔
      ((t = want ∨ t = .null) ∧ (t' = want ∨ t' = .null)) ∧ want = ty := by
    intro what want
    unfold checkOperands
    split
    next h =>
      rw [Bool.and_eq_true, Ty.is_iff, Ty.is_iff] at h
      simp [h]
    next h =>
      rw [Bool.and_eq_true, Ty.is_iff, Ty.is_iff] at h
      simp [h]
  have hcomparison : (checkComparison t t' : Except (ExecError E) _) = .ok ty ↔
      (t = t' ∨ t = .null ∨ t' = .null) ∧ Ty.boolean = ty := by
    unfold checkComparison
    split
    next h => simp_all [or_assoc]
    next h => simp_all [or_assoc]
  cases op with
  | and | or | add | sub | mul | div => exact hoperands _ _
  | eq | ne | lt | le | gt | ge => exact hcomparison

theorem Schema.name_ne (schema : Schema) {i j : ℕ} (hi : i < schema.columns.length)
    (hj : j < schema.columns.length) (hij : j < i) :
    schema.columns[j].name ≠ schema.columns[i].name := by
  have hne := List.pairwise_iff_getElem.mp schema.nodup j i (by simpa using hj) (by simpa using hi)
    hij
  rwa [List.getElem_map, List.getElem_map] at hne

/-- A column is found by its name. -/
theorem Schema.find_column {schema : Schema} {c : ColumnDef} (hc : c ∈ schema.columns) :
    schema.columns.find? (·.name = c.name) = some c := by
  obtain ⟨i, hi, hget⟩ := List.getElem_of_mem hc
  refine List.find?_eq_some_iff_getElem.mpr ⟨by simp, i, hi, hget, fun j hj => ?_⟩
  simpa [hget] using schema.name_ne hi (hj.trans hi) hj

/-- **The static check follows the rules.** -/
theorem checkType_eq_ok {schema : Schema} {e : Expr} {ty : Ty} :
    (checkType e (some schema) : Except (ExecError E) _) = .ok ty ↔ e.HasTy schema ty := by
  constructor
  · intro h
    induction e generalizing ty with
    | literal l =>
      cases h
      exact .literal l
    | column name =>
      rw [checkType] at h
      cases hfind : schema.columns.find? (·.name = name) with
      | none =>
        rw [hfind] at h
        cases h
      | some c =>
        rw [hfind] at h
        cases h
        obtain rfl : c.name = name := by simpa using List.find?_some hfind
        exact .column (List.mem_of_find?_eq_some hfind)
    | isNull e negated ih =>
      obtain ⟨t, ht, h⟩ := Except.bind_eq_ok.mp h
      cases h
      exact .isNull negated (ih ht)
    | unary op e ih =>
      obtain ⟨t, ht, h⟩ := Except.bind_eq_ok.mp h
      split at h
      next his =>
        cases h
        exact .unary (ih ht) (Ty.is_iff.mp his)
      · cases h
    | binary l op r ihl ihr =>
      obtain ⟨t, ht, h⟩ := Except.bind_eq_ok.mp h
      obtain ⟨t', ht', h⟩ := Except.bind_eq_ok.mp h
      obtain ⟨htakes, rfl⟩ := checkBinary_eq_ok.mp h
      exact .binary (ihl ht) (ihr ht') htakes
  · intro h
    induction h with
    | literal l => rfl
    | column hc => simp only [checkType, Schema.find_column hc]
    | isNull negated he ih =>
      rw [checkType, ih]
      rfl
    | unary he ht ih =>
      rw [checkType, ih]
      exact if_pos (Ty.is_iff.mpr ht)
    | binary hl hr ht ihl ihr =>
      rw [checkType, ihl, ihr]
      exact checkBinary_eq_ok.mpr ⟨ht, rfl⟩

/-! ## Values -/

namespace Ideal

/-- The stored value of an ideal one that is in range. -/
def value : Ideal → Value
  | null => .null
  | integer n => .integer (.ofInt n)
  | text s => .text s
  | bytes b => .bytes b
  | boolean b => .boolean b

def ty : Ideal → Ty
  | null => .null
  | integer _ => .integer
  | text _ => .text
  | bytes _ => .bytes
  | boolean _ => .boolean

/-- NULL comes first, then the values of a type in their order. -/
def less (a b : Ideal) : Bool :=
  (decide (a = null) && decide (b ≠ null)) || decide (binary .lt a b = boolean true)

end Ideal

@[simp] theorem Value.value_ideal (v : Value) : v.ideal.value = v := by
  cases v with
  | integer n => exact congrArg Value.integer (Int64.ofInt_toInt n)
  | null | text | bytes | boolean => rfl

@[simp] theorem Value.ty_ideal (v : Value) : v.ideal.ty = v.ty := by
  cases v <;> rfl

theorem Value.ideal_eq_null {v : Value} : v.ideal = .null ↔ v = .null := by
  cases v <;> simp [Value.ideal]

/-! ## The order of values -/

theorem less_ideal (x y : Value) : x.ideal.less y.ideal = (orderValues x y == .lt) := by
  have hbool : ∀ b, decide (Ideal.boolean b = .boolean true) = b := fun b => by cases b <;> rfl
  cases x with
  | null => cases y <;> rfl
  | integer n =>
    cases y with
    | integer m =>
      refine (hbool _).trans ?_
      rw [← compareOfLessAndEq_toInt]
      rfl
    | null | text | bytes | boolean => rfl
  | text s =>
    cases y with
    | text s' => exact hbool _
    | null | integer | bytes | boolean => rfl
  | bytes b =>
    cases y with
    | bytes b' => exact hbool _
    | null | integer | text | boolean => rfl
  | boolean b =>
    cases y with
    | boolean b' => exact hbool _
    | null | integer | text | bytes => rfl

theorem compareOfLessAndEq_swap {α : Type} [LT α] [DecidableLT α] [DecidableEq α]
    (hasymm : ∀ {a b : α}, a < b → ¬ b < a) (htotal : ∀ a b : α, a < b ∨ a = b ∨ b < a) (a b : α) :
    (compareOfLessAndEq a b == .gt) = (compareOfLessAndEq b a == .lt) := by
  unfold compareOfLessAndEq
  rcases htotal a b with h | rfl | h
  · have hne : b ≠ a := fun heq => hasymm h (heq ▸ h)
    simp [h, hasymm h, hne]
  · have hirrefl : ¬ a < a := fun h => hasymm h h
    simp [hirrefl]
  · have hne : a ≠ b := fun heq => hasymm h (heq ▸ h)
    simp [h, hasymm h, hne]

theorem orderValues_swap (x y : Value) : (orderValues x y == .gt) = (orderValues y x == .lt) := by
  cases x with
  | null => cases y <;> rfl
  | integer n =>
    cases y with
    | integer m =>
      dsimp only [orderValues, compare, Option.getD_some]
      rw [compareOfLessAndEq_toInt n m, compareOfLessAndEq_toInt m n]
      exact compareOfLessAndEq_swap Int.lt_asymm Int.lt_trichotomy _ _
    | null | text | bytes | boolean => rfl
  | text s =>
    cases y with
    | text s' => exact compareOfLessAndEq_swap List.lt_asymm ByteString.lt_or_eq_or_gt _ _
    | null | integer | bytes | boolean => rfl
  | bytes b =>
    cases y with
    | bytes b' => exact compareOfLessAndEq_swap List.lt_asymm ByteString.lt_or_eq_or_gt _ _
    | null | integer | text | boolean => rfl
  | boolean b =>
    cases y with
    | boolean b' => cases b <;> cases b' <;> rfl
    | null | integer | text | bytes => rfl

theorem orderValues_of_compare {x y : Value} {o : Ordering} (h : compare x y = some o) :
    orderValues x y = o := by
  cases x <;> cases y <;> cases h <;> rfl

/-- What the values of the operands must be: unlike their types, a NULL excuses the other one. -/
def BinaryOp.Combines : BinaryOp → Ideal → Ideal → Prop
  | .and, a, b | .or, a, b => (a.ty = .boolean ∨ a = .null) ∧ (b.ty = .boolean ∨ b = .null)
  | .add, a, b | .sub, a, b | .mul, a, b | .div, a, b =>
    (a = .null ∨ b = .null) ∨ a.ty = .integer ∧ b.ty = .integer
  | .eq, a, b | .ne, a, b | .lt, a, b | .le, a, b | .gt, a, b | .ge, a, b =>
    (a = .null ∨ b = .null) ∨ a.ty = b.ty

instance (op : BinaryOp) (a b : Ideal) : Decidable (op.Combines a b) :=
  match op with
  | .and | .or => inferInstanceAs (Decidable (_ ∧ _))
  | .add | .sub | .mul | .div => inferInstanceAs (Decidable (_ ∨ _))
  | .eq | .ne | .lt | .le | .gt | .ge => inferInstanceAs (Decidable (_ ∨ _))

namespace Relational

/-- The value of an expression that refers to no row; none if it has none. -/
def constant : Expr → Option Ideal
  | .literal l => some (literalValue l).ideal
  | .column _ => none
  | .isNull e negated => (constant e).map fun a => .boolean ((a = .null) != negated)
  | .unary op e => (constant e).bind fun a =>
    if (a.ty = op.operand ∨ a = .null) ∧ unaryFault op a = none then some (.unary op a) else none
  | .binary l op r => (constant l).bind fun a => (constant r).bind fun b =>
    if op.Combines a b ∧ binaryFault op a b = none then some (.binary op a b) else none

end Relational

/-- The result is the ideal one, where there is one. -/
def Comes (r : Except (ExecError E) Value) (ideal : Option Ideal) : Prop :=
  r.toOption.map Value.ideal = ideal

theorem Comes.ok {v : Value} {ideal : Option Ideal}
    (h : Comes (.ok v : Except (ExecError E) _) ideal) : ideal = some v.ideal := h.symm

theorem Comes.bind {r : Except (ExecError E) Value} {f : Value → Except (ExecError E) Value}
    {a : Option Ideal} {g : Ideal → Option Ideal} (h : Comes r a)
    (hf : ∀ v, r = .ok v → Comes (f v) (g v.ideal)) : Comes (r >>= f) (a.bind g) := by
  cases r with
  | error e =>
    obtain rfl : none = a := h
    rfl
  | ok v =>
    obtain rfl : some v.ideal = a := h
    exact hf v rfl

theorem IsExact.comes {r : Except (ExecError E) Value} {fault : Option Fault} {ideal : Ideal}
    (h : IsExact r fault ideal) : Comes r (if fault = none then some ideal else none) := by
  cases fault with
  | none =>
    obtain ⟨v, rfl, rfl⟩ := h
    rfl
  | some f =>
    obtain rfl : r = .error f.error := h
    rfl

theorem Value.hasType_ty (v : Value) : v.HasType v.ty := .inl rfl

theorem Value.ty_eq_null {v : Value} : v.ty = .null ↔ v = .null := by
  cases v <;> simp [Value.ty]

/-- An operator on two values, whatever their types. -/
theorem binary_comes (op : BinaryOp) (a b : Value) :
    Comes (binary op a b : Except (ExecError E) _)
      (if op.Combines a.ideal b.ideal ∧ binaryFault op a.ideal b.ideal = none then
        some (.binary op a.ideal b.ideal) else none) := by
  by_cases htakes : op.Takes a.ty b.ty
  · have hcombines : op.Combines a.ideal b.ideal := by
      cases op <;> simp only [BinaryOp.Takes, BinaryOp.Combines, Value.ty_ideal,
        Value.ideal_eq_null, Value.ty_eq_null] at htakes ⊢ <;> tauto
    have hcheck := (@checkBinary_eq_ok E op a.ty b.ty op.result).mpr ⟨htakes, rfl⟩
    simpa only [hcombines, true_and] using
      (binary_exact hcheck a.hasType_ty b.hasType_ty).comes
  · by_cases hnull : (a = .null ∨ b = .null) ∧ op ≠ .and ∧ op ≠ .or
    · obtain ⟨hnull, hand, hor⟩ := hnull
      cases op with
      | and => exact absurd rfl hand
      | or => exact absurd rfl hor
      | eq | ne | lt | le | gt | ge =>
        exact absurd (by simpa only [BinaryOp.Takes, Value.ty_eq_null] using .inr hnull) htakes
      | add | sub | mul | div =>
        rcases hnull with rfl | rfl
        · cases b <;> rfl
        · cases a <;> rfl
    · cases op with
      | and | or => cases a <;> cases b <;> first | rfl | simp [BinaryOp.Takes, Value.ty] at htakes
      | add | sub | mul | div =>
        cases a <;> cases b <;> first
          | rfl
          | exact absurd ⟨.inl rfl, .inl rfl⟩ htakes
      | eq | ne | lt | le | gt | ge =>
        cases a <;> cases b <;> first
          | rfl
          | exact absurd (.inl rfl) htakes

theorem unary_comes (op : UnaryOp) (a : Value) : Comes (unary op a : Except (ExecError E) _)
    (if (a.ideal.ty = op.operand ∨ a.ideal = .null) ∧ unaryFault op a.ideal = none then
      some (.unary op a.ideal) else none) := by
  by_cases htype : a.HasType op.operand
  · have hideal : a.ideal.ty = op.operand ∨ a.ideal = .null := by
      rwa [Value.ty_ideal, Value.ideal_eq_null]
    simpa only [hideal, true_and] using (unary_exact htype).comes
  · cases op <;> cases a <;> first | rfl | simp [Value.HasType, Value.ty, UnaryOp.operand] at htype

/-- **An expression without a row** comes to the constant that it is. -/
theorem eval_constant (e : Expr) :
    Comes (eval e none : Except (ExecError E) _) (Relational.constant e) := by
  induction e with
  | literal | column => rfl
  | isNull e negated ih =>
    rw [Relational.constant, Option.map_eq_bind]
    exact ih.bind fun v _ => by cases v <;> rfl
  | unary op e ih => exact ih.bind fun v _ => unary_comes op v
  | binary l op r ihl ihr => exact ihl.bind fun a _ => ihr.bind fun b _ => binary_comes op a b

/-! ## Named columns -/

theorem columnIndex_eq_ok {schema : Schema} {name : String} {i : ℕ} :
    (columnIndex schema name : Except (ExecError E) _) = .ok i ↔
      schema.columns[i]?.map (·.name) = some name := by
  have hfind : (columnIndex schema name : Except (ExecError E) _) = .ok i ↔
      schema.columns.findIdx? (·.name = name) = some i := by
    unfold columnIndex
    split
    next hsome => simp [hsome]
    next hnone => simp [hnone]
  rw [hfind, List.findIdx?_eq_some_iff_getElem, Option.map_eq_some_iff]
  constructor
  · rintro ⟨hi, hname, -⟩
    exact ⟨_, List.getElem?_eq_getElem hi, by simpa using hname⟩
  · rintro ⟨c, hc, rfl⟩
    obtain ⟨hi, rfl⟩ := List.getElem?_eq_some_iff.mp hc
    refine ⟨hi, by simp, fun j hj => ?_⟩
    simpa using schema.name_ne hi (hj.trans hi) hj

theorem columnIndex_isOk {schema : Schema} {name : String} :
    (∃ i, (columnIndex schema name : Except (ExecError E) _) = .ok i) ↔
      name ∈ schema.columns.map (·.name) := by
  simp only [columnIndex_eq_ok, List.mem_iff_getElem?, List.getElem?_map]

/-- A column's value is found by its name. -/
theorem Schema.find_zip {schema : Schema} {α : Type} {row : List α} {name : String} {i : ℕ} {v : α}
    (hi : schema.columns[i]?.map (·.name) = some name) (hv : row[i]? = some v) :
    ((schema.columns.zip row).find? (·.1.name = name)).map (·.2) = some v := by
  obtain ⟨c, hc, rfl⟩ := Option.map_eq_some_iff.mp hi
  obtain ⟨hlt, rfl⟩ := List.getElem?_eq_some_iff.mp hc
  obtain ⟨hlt', rfl⟩ := List.getElem?_eq_some_iff.mp hv
  refine Option.map_eq_some_iff.mpr ⟨_, List.find?_eq_some_iff_getElem.mpr
    ⟨by simp, i, by simpa using ⟨hlt, hlt'⟩, List.getElem_zip, fun j hj => ?_⟩, rfl⟩
  simpa using schema.name_ne hlt (hj.trans hlt) hj

namespace Relational

def names (schema : Schema) : List String := schema.columns.map (·.name)

/-- The value of the column of that name. -/
def cell (schema : Schema) (row : Row) (name : String) : Value := (schema.ideal row name).value

theorem ideal_eq {schema : Schema} {row : Row} {name : String} {i : ℕ}
    (hi : schema.columns[i]?.map (·.name) = some name) (hlt : i < row.length) :
    schema.ideal row name = (row.getD i .null).ideal := by
  obtain ⟨p, hp, hv⟩ := Option.map_eq_some_iff.mp
    (schema.find_zip hi (List.getElem?_eq_getElem hlt))
  rw [Schema.ideal, hp, List.getD_eq_getElem?_getD, List.getElem?_eq_getElem hlt, ← hv]
  rfl

theorem cell_eq {schema : Schema} {row : Row} {name : String} {i : ℕ}
    (hi : schema.columns[i]?.map (·.name) = some name) (hlt : i < row.length) :
    cell schema row name = row.getD i .null := by
  rw [cell, ideal_eq hi hlt, Value.value_ideal]

/-! ## The reference -/

instance (schema : Schema) : DecidablePred schema.IsRow := fun row =>
  inferInstanceAs (Decidable (List.Forall₂ _ row schema.columns))

/-- The filter is TRUE on the row. -/
def holds (schema : Schema) (filter : Option Expr) (row : Row) : Bool :=
  filter.all fun f => reference schema row f = .boolean true

/-- The order of primary keys. -/
def before (schema : Schema) (a b : Row) : Prop :=
  (a.getD schema.primaryKey .null).ideal.less (b.getD schema.primaryKey .null).ideal = true

instance (schema : Schema) : DecidableRel (before schema) := fun a b =>
  inferInstanceAs (Decidable ((a.getD schema.primaryKey .null).ideal.less
    (b.getD schema.primaryKey .null).ideal = true))

/-- The listed columns have the given values, the others are NULL. -/
def filled (schema : Schema) (listed : List String) (values : List Ideal) : Row :=
  schema.columns.map fun c =>
    ((listed.zip values).find? (·.1 = c.name)).elim .null fun p => p.2.value

/-- All assignments see the old row. -/
def assigned (schema : Schema) (assignments : List (String × Expr)) (row : Row) : Row :=
  (schema.columns.zip row).map fun p =>
    (assignments.find? (·.1 = p.1.name)).elim p.2 fun a => (reference schema row a.2).value

/-- The names of the columns that a SELECT shows. -/
def shown (schema : Schema) : Projection → List String
  | .all => names schema
  | .columns listed => listed

/-- The rows in the stable order of a column; NULLs come first, or last if it descends. -/
def ordered (schema : Schema) (orderBy : Option OrderBy) (rows : List Row) : List Row :=
  orderBy.elim rows fun o => rows.mergeSort fun a b =>
    if o.descending then !(schema.ideal a o.column).less (schema.ideal b o.column)
    else !(schema.ideal b o.column).less (schema.ideal a o.column)

/-- The table with one more row, if that is a row of the schema and its key is new. -/
def insertOne (schema : Schema) (listed : List String) (rows : List Row) (exprs : List Expr) :
    Option (List Row) :=
  if exprs.length = listed.length then
    (exprs.mapM constant).bind fun values =>
      let row := filled schema listed values
      if schema.IsRow row ∧ ∀ r ∈ rows, r[schema.primaryKey]? ≠ row[schema.primaryKey]? then
        some (rows.orderedInsert (before schema) row)
      else
        none
  else
    none

/-- What a statement that is valid for the schema returns, and what it makes of the table. -/
def effect (schema : Schema) : Statement → List Row → Option (QueryResult × List Row)
  | .insert _ columns exprs, rows =>
    (exprs.foldlM (insertOne schema (columns.getD (names schema))) rows).map fun rows' =>
      (⟨[], [], exprs.length⟩, rows')
  | .select projection _ filter orderBy limit, rows =>
    let sorted := ordered schema orderBy (rows.filter (holds schema filter))
    let found := limit.elim sorted fun n => sorted.take n.toNat
    some (⟨shown schema projection, found.map fun row =>
      (shown schema projection).map (cell schema row), 0⟩, rows)
  | .update _ assignments filter, rows =>
    let rows' := rows.map fun row =>
      if holds schema filter row then assigned schema assignments row else row
    if ∀ row ∈ rows', schema.IsRow row then
      some (⟨[], [], (rows.filter (holds schema filter)).length⟩, rows')
    else
      none
  | .delete _ filter, rows =>
    some (⟨[], [], (rows.filter (holds schema filter)).length⟩,
      rows.filter fun row => !holds schema filter row)
  | .createTable _ _, _ | .begin, _ | .commit, _ | .rollback, _ => none

/-- The filter is of a truth value, or a bare NULL. -/
def ValidFilter (schema : Schema) (filter : Option Expr) : Prop :=
  ∀ f, filter = some f → f.HasTy schema .boolean ∨ f.HasTy schema .null

/-- The names that a statement uses are those of columns, each named once where it is written, and
its expressions have the types that they must. -/
def Valid (schema : Schema) : Statement → Prop
  | .insert _ columns _ => ∀ listed, columns = some listed →
    listed.Nodup ∧ ∀ name ∈ listed, name ∈ names schema
  | .select projection _ filter orderBy _ =>
    (∀ listed, projection = .columns listed → ∀ name ∈ listed, name ∈ names schema) ∧
      (∀ o, orderBy = some o → o.column ∈ names schema) ∧ ValidFilter schema filter
  | .update _ assignments filter =>
    ((assignments.map (·.1)).Nodup ∧ ∀ a ∈ assignments, ∃ c ∈ schema.columns, c.name = a.1 ∧
      c.name ≠ schema.pkColumn.name ∧
      (a.2.HasTy schema (.ofColumnType c.ty) ∨ a.2.HasTy schema .null)) ∧ ValidFilter schema filter
  | .delete _ filter => ValidFilter schema filter
  | .createTable _ _ | .begin | .commit | .rollback => False

/-- No expression of a WHERE or SET overflows or divides by zero on these rows. -/
def Total (schema : Schema) (rows : List Row) (exprs : List Expr) : Prop :=
  ∀ e ∈ exprs, ∀ row ∈ rows, ∀ n ∈ e.nodes, faultAt schema row n = none

end Relational

/-- The expressions of WHERE and SET. -/
def Statement.rowExprs : Statement → List Expr
  | .select _ _ filter _ _ => filter.toList
  | .update _ assignments filter => assignments.map (·.2) ++ filter.toList
  | .delete _ filter => filter.toList
  | _ => []

/-! ## Filters -/

open Relational

variable {schema : Schema} {row : Row} {filter : Option Expr}

/-- Where nothing is at fault, an expression has its reference value. -/
theorem eval_total {e : Expr} {ty : Ty} (hrow : schema.Typed row) (hty : e.HasTy schema ty)
    (htotal : ∀ n ∈ e.nodes, faultAt schema row n = none) :
    ∃ v, (eval e (some (schema, row)) : Except (ExecError E) _) = .ok v ∧
      v.ideal = reference schema row e ∧ v.HasType ty := by
  have hcheck := (@checkType_eq_ok E _ _ _).mpr hty
  have hexact := @eval_reference E _ _ _ _ hrow hcheck
  rw [List.findSome?_eq_none_iff.mpr htotal] at hexact
  obtain ⟨v, hv, hideal⟩ := hexact
  exact ⟨v, hv, hideal, (eval_of_checkType hrow hcheck).hasType hv⟩

theorem checkFilter_eq_ok :
    (checkFilter filter schema : Except (ExecError E) _) = .ok () ↔ ValidFilter schema filter := by
  cases filter with
  | none =>
    refine ⟨fun _ f hf => ?_, fun _ => rfl⟩
    cases hf
  | some f =>
    rw [checkFilter_some]
    constructor
    · rintro ⟨ty, hty, his⟩ f' hf
      cases hf
      rcases Ty.is_iff.mp his with rfl | rfl
      · exact .inl (checkType_eq_ok.mp hty)
      · exact .inr (checkType_eq_ok.mp hty)
    · intro h
      rcases h f rfl with h | h
      · exact ⟨_, checkType_eq_ok.mpr h, rfl⟩
      · exact ⟨_, checkType_eq_ok.mpr h, rfl⟩

theorem keepsRow_holds (hrow : schema.Typed row) (hvalid : ValidFilter schema filter)
    (htotal : Total schema [row] filter.toList) :
    (keepsRow filter schema row : Except (ExecError E) _) = .ok (holds schema filter row) := by
  cases filter with
  | none => rfl
  | some f =>
    have hnodes : ∀ n ∈ f.nodes, faultAt schema row n = none := htotal f (by simp) row (by simp)
    obtain ⟨v, hv, hideal, htype⟩ : ∃ v,
        (eval f (some (schema, row)) : Except (ExecError E) _) = .ok v ∧
          v.ideal = reference schema row f ∧ v.HasType .boolean := by
      rcases hvalid f rfl with hty | hty
      · exact eval_total hrow hty hnodes
      · obtain ⟨v, hv, hideal, htype⟩ := eval_total hrow hty hnodes
        exact ⟨v, hv, hideal, .inr (htype.elim Value.ty_null id)⟩
    rw [keepsRow, hv, holds, Option.all_some, ← hideal]
    obtain ⟨b, rfl⟩ := htype.ofBool3
    rcases b with _ | _ | _ <;> rfl

/-! ## Names -/

/-- The column number `i` has that name. -/
def NameAt (schema : Schema) (name : String) (i : ℕ) : Prop :=
  schema.columns[i]?.map (·.name) = some name

theorem NameAt.lt {name : String} {i : ℕ} (h : NameAt schema name i) :
    i < schema.columns.length := by
  obtain ⟨c, hc, -⟩ := Option.map_eq_some_iff.mp h
  exact (List.getElem?_eq_some_iff.mp hc).1

theorem NameAt.unique {name : String} {i j : ℕ} (h : NameAt schema name i)
    (h' : NameAt schema name j) : i = j := by
  have hi := (@columnIndex_eq_ok Empty _ _ _).mpr h
  rw [columnIndex_eq_ok.mpr h'] at hi
  exact (Except.ok.inj hi).symm

theorem NameAt.name_eq {name name' : String} {i : ℕ} (h : NameAt schema name i)
    (h' : NameAt schema name' i) : name = name' :=
  Option.some.inj (h.symm.trans h')

theorem nameAt_getElem {i : ℕ} (hi : i < schema.columns.length) :
    NameAt schema schema.columns[i].name i := by
  rw [NameAt, List.getElem?_eq_getElem hi]
  rfl

/-- Names of columns have their numbers. -/
theorem exists_forall₂_nameAt {listed : List String} (h : ∀ name ∈ listed, name ∈ names schema) :
    ∃ targets, List.Forall₂ (NameAt schema) listed targets := by
  induction listed with
  | nil => exact ⟨[], .nil⟩
  | cons name listed ih =>
    obtain ⟨hname, hrest⟩ := List.forall_mem_cons.mp h
    obtain ⟨i, hi⟩ := (@columnIndex_isOk Empty _ _).mpr hname
    obtain ⟨targets, htargets⟩ := ih hrest
    exact ⟨i :: targets, .cons (columnIndex_eq_ok.mp hi) htargets⟩

theorem mem_names_of_forall₂ {listed : List String} {targets : List ℕ}
    (h : List.Forall₂ (NameAt schema) listed targets) : ∀ name ∈ listed, name ∈ names schema := by
  induction h with
  | nil => simp
  | cons hname _ ih =>
    exact List.forall_mem_cons.mpr
      ⟨columnIndex_isOk.mp ⟨_, (@columnIndex_eq_ok Empty _ _ _).mpr hname⟩, ih⟩

theorem biUnique_nameAt : Relator.BiUnique (NameAt schema) :=
  ⟨fun _ _ _ h h' => h.name_eq h', fun _ _ _ h h' => h.unique h'⟩

/-- Distinct names have distinct numbers. -/
theorem nodup_of_forall₂_nameAt {listed : List String} {targets : List ℕ}
    (h : List.Forall₂ (NameAt schema) listed targets) : listed.Nodup ↔ targets.Nodup := by
  induction h with
  | nil => simp
  | cons hname hrest ih =>
    rw [List.nodup_cons, List.nodup_cons, ih]
    exact and_congr_left fun _ => not_congr (List.rel_mem biUnique_nameAt hname hrest)

/-! ## INSERT -/

theorem namedTargets_eq_ok {listed : List String} {idx targets : List ℕ} (hidx : idx.Nodup) :
    (namedTargets schema listed idx : Except (ExecError E) _) = .ok targets ↔
      ∃ added, targets = idx ++ added ∧ targets.Nodup ∧
        List.Forall₂ (NameAt schema) listed added := by
  induction listed generalizing idx with
  | nil =>
    rw [namedTargets, Except.ok.injEq]
    constructor
    · rintro rfl
      exact ⟨[], by simp, hidx, .nil⟩
    · rintro ⟨added, rfl, -, hadded⟩
      cases hadded
      simp
  | cons name listed ih =>
    rw [namedTargets, Except.bind_eq_ok]
    constructor
    · rintro ⟨i, hi, h⟩
      split at h
      · cases h
      next hmem =>
      have hnodup : (idx ++ [i]).Nodup := List.nodup_append.mpr
        ⟨hidx, List.nodup_singleton i, fun a ha b hb hab => by simp_all⟩
      obtain ⟨added, rfl, hall, hadded⟩ := (ih hnodup).mp h
      exact ⟨i :: added, by simp, hall, .cons (columnIndex_eq_ok.mp hi) hadded⟩
    · rintro ⟨added, rfl, hall, hadded⟩
      cases hadded with
      | @cons _ i _ added hname hadded =>
      have hall' : ((idx ++ [i]) ++ added).Nodup := by simpa using hall
      have hnodup := (List.nodup_append.mp hall').1
      refine ⟨i, columnIndex_eq_ok.mpr hname, ?_⟩
      have hmem : i ∉ idx := fun hi => (List.nodup_append.mp hnodup).2.2 i hi i (by simp) rfl
      rw [if_neg hmem]
      exact (ih hnodup).mpr ⟨added, by simp, hall, hadded⟩

theorem forall₂_nameAt_range :
    List.Forall₂ (NameAt schema) (names schema) (List.range schema.columns.length) := by
  refine List.forall₂_iff_get.mpr ⟨by simp [names], fun i h h' => ?_⟩
  have hi : i < schema.columns.length := by simpa [names] using h
  simpa [names] using nameAt_getElem hi

/-- The targets of an INSERT are the numbers of its columns. -/
theorem insertTargets_eq_ok {columns : Option (List String)} {targets : List ℕ} :
    (insertTargets schema columns : Except (ExecError E) _) = .ok targets ↔
      targets.Nodup ∧ List.Forall₂ (NameAt schema) (columns.getD (names schema)) targets := by
  cases columns with
  | none =>
    rw [insertTargets, Except.ok.injEq, Option.getD_none]
    constructor
    · rintro rfl
      exact ⟨List.nodup_range, forall₂_nameAt_range⟩
    · rintro ⟨-, h⟩
      exact List.right_unique_forall₂' biUnique_nameAt.2 forall₂_nameAt_range h
  | some listed =>
    rw [insertTargets, namedTargets_eq_ok List.nodup_nil, Option.getD_some]
    simp

theorem mapM_eq_some {α β : Type} {f : α → Option β} {l : List α} {l' : List β} :
    l.mapM f = some l' ↔ List.Forall₂ (fun a b => f a = some b) l l' := by
  induction l generalizing l' with
  | nil => simp [eq_comm]
  | cons a l ih =>
    simp only [List.mapM_cons, List.forall₂_cons_left_iff, ← ih]
    cases f a with
    | none => simp
    | some b => cases l.mapM f <;> simp [eq_comm]

theorem exists_mapM {α β : Type} {f : α → Option β} {l : List α} (h : ∀ a ∈ l, ∃ b, f a = some b) :
    ∃ l', l.mapM f = some l' := by
  induction l with
  | nil => exact ⟨[], rfl⟩
  | cons a l ih =>
    obtain ⟨⟨b, hb⟩, hl⟩ := List.forall_mem_cons.mp h
    obtain ⟨l', hl'⟩ := ih hl
    exact ⟨b :: l', mapM_eq_some.mpr (.cons hb (mapM_eq_some.mp hl'))⟩

theorem mapM_eq_ok {ε α β : Type} {f : α → Except ε β} {l : List α} {l' : List β} :
    l.mapM f = .ok l' ↔ List.Forall₂ (fun a b => f a = .ok b) l l' := by
  induction l generalizing l' with
  | nil => simp [eq_comm, pure, Except.pure]
  | cons a l ih =>
    simp only [List.mapM_cons, List.forall₂_cons_left_iff, ← ih]
    cases f a with
    | error e => simp
    | ok b => cases l.mapM f <;> simp [eq_comm]

/-- In a list without repeated names, what is listed is found. -/
theorem find_fst {β : Type} {l : List (String × β)} (hnodup : (l.map (·.1)).Nodup)
    {p : String × β} (hp : p ∈ l) : l.find? (·.1 = p.1) = some p := by
  induction l with
  | nil => cases hp
  | cons q l ih =>
    rw [List.map_cons, List.nodup_cons] at hnodup
    rcases List.mem_cons.mp hp with rfl | hp
    · simp
    · have hne : q.1 ≠ p.1 := fun h => hnodup.1 (h ▸ List.mem_map_of_mem hp)
      rw [List.find?_cons_of_neg (by simpa using hne), ih hnodup.2 hp]

theorem find_fst_eq_none {β : Type} {l : List (String × β)} {name : String}
    (h : name ∉ l.map (·.1)) : l.find? (·.1 = name) = none := by
  refine List.find?_eq_none.mpr fun p hp hname => h ?_
  exact List.mem_map.mpr ⟨p, hp, of_decide_eq_true hname⟩

namespace Relational

@[simp] theorem length_filled {listed : List String} {values : List Ideal} :
    (filled schema listed values).length = schema.columns.length := by
  simp [filled]

theorem filled_getElem? {listed : List String} {values : List Ideal} {name : String} {i : ℕ}
    (h : NameAt schema name i) : (filled schema listed values)[i]? =
      some (((listed.zip values).find? (·.1 = name)).elim .null fun p => p.2.value) := by
  obtain ⟨c, hc, rfl⟩ := Option.map_eq_some_iff.mp h
  rw [filled, List.getElem?_map, hc]
  rfl

end Relational

theorem eval_of_constant {e : Expr} {a : Ideal} (h : constant e = some a) :
    (eval e none : Except (ExecError E) _) = .ok a.value := by
  have hcomes := @eval_constant E e
  rw [h] at hcomes
  cases heval : (eval e none : Except (ExecError E) _) with
  | error err =>
    rw [heval] at hcomes
    cases hcomes
  | ok v =>
    rw [heval] at hcomes
    cases hcomes
    rw [Value.value_ideal]

theorem constant_of_eval {e : Expr} {v : Value}
    (h : (eval e none : Except (ExecError E) _) = .ok v) : constant e = some v.ideal := by
  have hcomes := @eval_constant E e
  rw [h] at hcomes
  exact hcomes.ok

/-- **Filling a row** is evaluating the constants and putting them where they are listed. -/
theorem fillRow_eq_ok {listed : List String} {targets : List ℕ} {exprs : List Expr} {values : Row}
    (hnames : List.Forall₂ (NameAt schema) listed targets) (hnodup : targets.Nodup)
    (hlen : exprs.length = targets.length) :
    (fillRow (targets.zip exprs) (List.replicate schema.columns.length .null) :
        Except (ExecError E) _) = .ok values ↔
      ∃ constants, exprs.mapM constant = some constants ∧
        values = filled schema listed constants := by
  have hlisted := (nodup_of_forall₂_nameAt hnames).mpr hnodup
  have hfill : ∀ constants, exprs.mapM constant = some constants →
      (fillRow (targets.zip exprs) (List.replicate schema.columns.length .null) :
        Except (ExecError E) _) = .ok (filled schema listed constants) := by
    intro constants hconstants
    have hforall := mapM_eq_some.mp hconstants
    have hfst : (listed.zip constants).map (·.1) = listed :=
      List.map_fst_zip (by rw [hnames.length_eq, ← hlen, hforall.length_eq])
    refine fillRow_eq (by simp) (fun p hp => ?_) fun j hj => ?_
    · obtain ⟨j, hj, rfl⟩ := List.getElem_of_mem hp
      rw [List.length_zip, lt_min_iff] at hj
      have hj' : j < listed.length := hnames.length_eq ▸ hj.1
      have hjc : j < constants.length := hforall.length_eq ▸ hj.2
      have hname := hnames.get hj' hj.1
      have hconstant := hforall.get hj.2 hjc
      have hmem : (listed[j], constants[j]) ∈ listed.zip constants :=
        List.mem_iff_getElem.mpr ⟨j, by simp [hj', hjc], List.getElem_zip⟩
      rw [List.getElem_zip]
      refine ⟨_, ?_, eval_of_constant hconstant⟩
      have hfound := find_fst (by rwa [hfst]) hmem
      exact (filled_getElem? hname).trans
        (congrArg (fun o => some (o.elim .null fun p => p.2.value)) hfound)
    · rw [List.map_fst_zip hlen.ge] at hj
      by_cases hlt : j < schema.columns.length
      · have hname := nameAt_getElem hlt
        have hnone : (listed.zip constants).find? (·.1 = schema.columns[j].name) = none :=
          find_fst_eq_none (hfst.symm ▸ mt (List.rel_mem biUnique_nameAt hname hnames).mp hj)
        rw [filled_getElem? hname, hnone, List.getElem?_replicate_of_lt hlt]
        rfl
      · rw [List.getElem?_eq_none (by simpa using hlt), List.getElem?_eq_none (by simpa using hlt)]
  constructor
  · intro h
    obtain ⟨constants, hconstants⟩ : ∃ constants, exprs.mapM constant = some constants := by
      refine exists_mapM fun e he => ?_
      obtain ⟨j, hj, rfl⟩ := List.getElem_of_mem he
      have hj' : j < targets.length := hlen ▸ hj
      have hmem : (targets[j], exprs[j]) ∈ targets.zip exprs :=
        List.mem_iff_getElem.mpr ⟨j, by simp [hj, hj'], List.getElem_zip⟩
      obtain ⟨v, hv⟩ := fillRow_mem h _ hmem
      exact ⟨_, constant_of_eval hv⟩
    refine ⟨constants, hconstants, ?_⟩
    rw [hfill constants hconstants] at h
    exact (Except.ok.inj h).symm
  · rintro ⟨constants, hconstants, rfl⟩
    exact hfill constants hconstants

/-! ## UPDATE -/

/-- An assignment to a column that takes it, by the number of the column. -/
structure AssignsTo (schema : Schema) (a : String × Expr) (p : ℕ × Expr) : Prop where
  name : NameAt schema a.1 p.1
  expr : p.2 = a.2
  notKey : p.1 ≠ schema.primaryKey
  typed : ∃ c, schema.columns[p.1]? = some c ∧
    (a.2.HasTy schema (.ofColumnType c.ty) ∨ a.2.HasTy schema .null)

theorem updateTargets_eq_ok {u : Unicode} {assignments : List (String × Expr)}
    {targets targets' : List (ℕ × Expr)} (hnodup : (targets.map (·.1)).Nodup) :
    (updateTargets u schema assignments targets : Except (ExecError E) _) = .ok targets' ↔
      ∃ added, targets' = targets ++ added ∧ (targets'.map (·.1)).Nodup ∧
        List.Forall₂ (AssignsTo schema) assignments added := by
  induction assignments generalizing targets with
  | nil =>
    rw [updateTargets, Except.ok.injEq]
    constructor
    · rintro rfl
      exact ⟨[], by simp, hnodup, .nil⟩
    · rintro ⟨added, rfl, -, hadded⟩
      cases hadded
      simp
  | cons a rest ih =>
    rw [updateTargets, Except.bind_eq_ok]
    constructor
    · rintro ⟨i, hi, h⟩
      split at h
      · cases h
      next hkey =>
      split at h
      · cases h
      next hnew =>
      obtain ⟨ty, hty, h⟩ := Except.bind_eq_ok.mp h
      dsimp only at h
      split at h
      · cases h
      next htype =>
      have hname := columnIndex_eq_ok.mp hi
      obtain ⟨c, hc, -⟩ := Option.map_eq_some_iff.mp hname
      have hnodup' : ((targets ++ [(i, a.2)]).map (·.1)).Nodup := by
        rw [List.map_append, List.nodup_append]
        refine ⟨hnodup, List.nodup_singleton i, fun j hj j' hj' hjj => hnew ?_⟩
        obtain ⟨p, hp, rfl⟩ := List.mem_map.mp hj
        rw [List.map_singleton, List.mem_singleton] at hj'
        exact List.any_eq_true.mpr ⟨p, hp, decide_eq_true (hjj.trans hj')⟩
      obtain ⟨added, rfl, hall, hadded⟩ := (ih hnodup').mp h
      refine ⟨(i, a.2) :: added, by simp, hall, .cons ⟨hname, rfl, hkey, c, hc, ?_⟩ hadded⟩
      rw [hc, Option.map_some, Option.getD_some, not_and_or, not_not, not_not] at htype
      rcases htype with rfl | rfl
      · exact .inl (checkType_eq_ok.mp hty)
      · exact .inr (checkType_eq_ok.mp hty)
    · rintro ⟨added, rfl, hall, hadded⟩
      cases hadded with
      | @cons _ p _ added hassigns hadded =>
      obtain ⟨i, e⟩ := p
      obtain ⟨hname, hexpr, hkey, c, hc, htyped⟩ := hassigns
      dsimp only at hname hexpr hkey hc
      subst hexpr
      have hall' : (((targets ++ [(i, a.2)]) ++ added).map (·.1)).Nodup := by simpa using hall
      have hnodup' : ((targets ++ [(i, a.2)]).map (·.1)).Nodup := by
        rw [List.map_append] at hall'
        exact (List.nodup_append.mp hall').1
      have hnew : ¬ targets.any (·.1 = i) = true := by
        intro hany
        obtain ⟨p, hp, hpi⟩ := List.any_eq_true.mp hany
        rw [List.map_append, List.nodup_append] at hnodup'
        exact hnodup'.2.2 p.1 (List.mem_map_of_mem hp) i (by simp) (of_decide_eq_true hpi)
      refine ⟨i, columnIndex_eq_ok.mpr hname, ?_⟩
      rw [if_neg hkey, if_neg hnew, Except.bind_eq_ok]
      dsimp only
      rw [hc, Option.map_some, Option.getD_some]
      rcases htyped with htyped | htyped
      · refine ⟨_, checkType_eq_ok.mpr htyped, ?_⟩
        rw [if_neg fun h => h.1 rfl]
        exact (ih hnodup').mpr ⟨added, by simp, by simpa using hall, hadded⟩
      · refine ⟨_, checkType_eq_ok.mpr htyped, ?_⟩
        rw [if_neg fun h => h.2 rfl]
        exact (ih hnodup').mpr ⟨added, by simp, by simpa using hall, hadded⟩

theorem nameAt_pkColumn : NameAt schema schema.pkColumn.name schema.primaryKey :=
  nameAt_getElem schema.primaryKey_lt

theorem AssignsTo.forall₂_name {assignments : List (String × Expr)} {targets : List (ℕ × Expr)}
    (h : List.Forall₂ (AssignsTo schema) assignments targets) :
    List.Forall₂ (NameAt schema) (assignments.map (·.1)) (targets.map (·.1)) := by
  rw [List.forall₂_map_left_iff, List.forall₂_map_right_iff]
  exact h.imp fun _ _ => AssignsTo.name

/-- The checks of an UPDATE are its rules. -/
theorem updateTargets_isOk {u : Unicode} {assignments : List (String × Expr)} :
    (∃ targets, (updateTargets u schema assignments [] : Except (ExecError E) _) = .ok targets) ↔
      (assignments.map (·.1)).Nodup ∧ ∀ a ∈ assignments, ∃ c ∈ schema.columns, c.name = a.1 ∧
        c.name ≠ schema.pkColumn.name ∧
        (a.2.HasTy schema (.ofColumnType c.ty) ∨ a.2.HasTy schema .null) := by
  have hchecks : ∀ targets, (updateTargets u schema assignments [] : Except (ExecError E) _) =
      .ok targets ↔ (targets.map (·.1)).Nodup ∧
        List.Forall₂ (AssignsTo schema) assignments targets := fun targets => by
    rw [updateTargets_eq_ok (by simp)]
    simp
  simp only [hchecks]
  constructor
  · rintro ⟨targets, hnodup, hassigns⟩
    refine ⟨(nodup_of_forall₂_nameAt (AssignsTo.forall₂_name hassigns)).mpr hnodup, fun a ha => ?_⟩
    clear hnodup hchecks
    induction hassigns with
    | nil => cases ha
    | @cons b p _ _ hhead _ ih =>
      rcases List.mem_cons.mp ha with rfl | ha
      · obtain ⟨c, hc, htyped⟩ := hhead.typed
        have hname := hhead.name
        rw [NameAt, hc, Option.map_some, Option.some.injEq] at hname
        refine ⟨c, List.mem_of_getElem? hc, hname, fun hpk => hhead.notKey ?_, htyped⟩
        exact hhead.name.unique (hname ▸ hpk ▸ nameAt_pkColumn)
      · exact ih ha
  · rintro ⟨hnodup, hall⟩
    obtain ⟨targets, hassigns⟩ :
        ∃ targets, List.Forall₂ (AssignsTo schema) assignments targets := by
      clear hnodup hchecks
      induction assignments with
      | nil => exact ⟨[], .nil⟩
      | cons a rest ih =>
        obtain ⟨⟨c, hc, hname, hkey, htyped⟩, hrest⟩ := List.forall_mem_cons.mp hall
        obtain ⟨targets, htargets⟩ := ih hrest
        obtain ⟨i, hi, rfl⟩ := List.getElem_of_mem hc
        refine ⟨(i, a.2) :: targets, .cons ⟨hname ▸ nameAt_getElem hi, rfl, fun hpk => hkey ?_,
          _, List.getElem?_eq_getElem hi, htyped⟩ htargets⟩
        have hkeyAt : schema.primaryKey = i := hpk.symm
        exact (nameAt_getElem hi).name_eq (hkeyAt ▸ nameAt_pkColumn)
    exact ⟨targets, (nodup_of_forall₂_nameAt (AssignsTo.forall₂_name hassigns)).mp hnodup, hassigns⟩

theorem assignRow_eq {old values final : Row} {targets : List (ℕ × Expr)}
    (hlen : values.length = final.length)
    (htargets : ∀ p ∈ targets, ∃ v, final[p.1]? = some v ∧
      (eval p.2 (some (schema, old)) : Except (ExecError E) _) = .ok v)
    (hrest : ∀ j, j ∉ targets.map (·.1) → values[j]? = final[j]?) :
    (assignRow schema old targets values : Except (ExecError E) _) = .ok final := by
  induction targets generalizing values with
  | nil => rw [assignRow, List.ext_getElem? fun j => hrest j (by simp)]
  | cons p rest ih =>
    obtain ⟨⟨v, hget, hv⟩, htargets⟩ := List.forall_mem_cons.mp htargets
    rw [assignRow, hv]
    refine ih (by simpa using hlen) htargets fun j hj => ?_
    have hlt : p.1 < values.length := hlen ▸ (List.getElem?_eq_some_iff.mp hget).1
    by_cases hp : p.1 = j
    · subst hp
      rw [List.getElem?_set_self hlt, hget]
    · rw [List.getElem?_set_ne hp]
      exact hrest j (by simp [hj, Ne.symm hp])

namespace Relational

theorem length_assigned {assignments : List (String × Expr)}
    (hlen : row.length = schema.columns.length) :
    (assigned schema assignments row).length = row.length := by
  simp [assigned, hlen]

theorem assigned_getElem? {assignments : List (String × Expr)} {name : String} {i : ℕ} {v : Value}
    (h : NameAt schema name i) (hv : row[i]? = some v) :
    (assigned schema assignments row)[i]? =
      some ((assignments.find? (·.1 = name)).elim v fun a => (reference schema row a.2).value) := by
  obtain ⟨c, hc, rfl⟩ := Option.map_eq_some_iff.mp h
  have hzip : (schema.columns.zip row)[i]? = some (c, v) := by
    rw [List.getElem?_zip_eq_some]
    exact ⟨hc, hv⟩
  rw [assigned, List.getElem?_map, hzip]
  rfl

/-- The primary key is not assigned. -/
theorem assigned_primaryKey {assignments : List (String × Expr)}
    (hlen : row.length = schema.columns.length)
    (hkey : ∀ a ∈ assignments, a.1 ≠ schema.pkColumn.name) :
    (assigned schema assignments row)[schema.primaryKey]? = row[schema.primaryKey]? := by
  have hlt : schema.primaryKey < row.length := hlen ▸ schema.primaryKey_lt
  have hnone : assignments.find? (·.1 = schema.pkColumn.name) = none :=
    List.find?_eq_none.mpr fun a ha h => hkey a ha (of_decide_eq_true h)
  rw [assigned_getElem? nameAt_pkColumn (List.getElem?_eq_getElem hlt), hnone,
    List.getElem?_eq_getElem hlt]
  rfl

end Relational

/-- **Assigning to a row** is putting the reference values in their places. -/
theorem assignRow_assigned {assignments : List (String × Expr)} {targets : List (ℕ × Expr)}
    (hrow : schema.Typed row) (hassigns : List.Forall₂ (AssignsTo schema) assignments targets)
    (hnodup : (targets.map (·.1)).Nodup)
    (htotal : Total schema [row] (assignments.map (·.2))) :
    (assignRow schema row targets row : Except (ExecError E) _) =
      .ok (assigned schema assignments row) := by
  have hlen : row.length = schema.columns.length := hrow.length_eq
  have hnames := AssignsTo.forall₂_name hassigns
  have hlisted := (nodup_of_forall₂_nameAt hnames).mpr hnodup
  refine assignRow_eq (length_assigned hlen).symm (fun p hp => ?_) fun j hj => ?_
  · obtain ⟨j, hj, rfl⟩ := List.getElem_of_mem hp
    have hj' : j < assignments.length := hassigns.length_eq ▸ hj
    obtain ⟨hname, hexpr, -, c, hc, htyped⟩ := hassigns.get hj' hj
    have hmem : assignments[j] ∈ assignments := List.getElem_mem hj'
    have hnodes := htotal _ (List.mem_map_of_mem hmem) row (by simp)
    obtain ⟨v, hv, hideal⟩ : ∃ v,
        (eval assignments[j].2 (some (schema, row)) : Except (ExecError E) _) = .ok v ∧
          v.ideal = reference schema row assignments[j].2 := by
      rcases htyped with hty | hty
      · obtain ⟨v, hv, hideal, -⟩ := eval_total hrow hty hnodes
        exact ⟨v, hv, hideal⟩
      · obtain ⟨v, hv, hideal, -⟩ := eval_total hrow hty hnodes
        exact ⟨v, hv, hideal⟩
    have hlt : targets[j].1 < row.length := hlen ▸ hname.lt
    have hfound := find_fst hlisted hmem
    refine ⟨v, ?_, (congrArg (fun e => eval e (some (schema, row))) hexpr).trans hv⟩
    refine (assigned_getElem? hname (List.getElem?_eq_getElem hlt)).trans ?_
    rw [List.get_eq_getElem, hfound, Option.elim_some, ← hideal, Value.value_ideal]
  · by_cases hlt : j < row.length
    · have hname := nameAt_getElem (hlen ▸ hlt)
      have hnone := find_fst_eq_none (mt (List.rel_mem biUnique_nameAt hname hnames).mp hj)
      rw [assigned_getElem? hname (List.getElem?_eq_getElem hlt), hnone,
        List.getElem?_eq_getElem hlt]
      rfl
    · rw [List.getElem?_eq_none (by simpa using hlt),
        List.getElem?_eq_none (by simpa [length_assigned hlen] using hlt)]

/-! ## SELECT -/

/-- The columns that a SELECT shows. -/
theorem pickColumns_eq_ok {projection : Projection} {picked : List ℕ} :
    (pickColumns schema projection : Except (ExecError E) _) = .ok picked ↔
      List.Forall₂ (NameAt schema) (shown schema projection) picked := by
  cases projection with
  | all =>
    rw [pickColumns, Except.ok.injEq]
    constructor
    · rintro rfl
      exact forall₂_nameAt_range
    · intro h
      exact List.right_unique_forall₂' biUnique_nameAt.2 forall₂_nameAt_range h
  | columns listed =>
    rw [pickColumns, mapM_eq_ok]
    simp only [columnIndex_eq_ok]
    rfl

theorem sortRows_eq {orderBy : Option OrderBy} {order : Option (ℕ × Bool)}
    (horder : (orderColumn schema orderBy : Except (ExecError E) _) = .ok order) {rows : List Row}
    (hrows : ∀ row ∈ rows, row.length = schema.columns.length) :
    sortRows order rows = ordered schema orderBy rows := by
  cases orderBy with
  | none =>
    cases horder
    rfl
  | some o =>
    obtain ⟨i, hi, horder⟩ := Except.bind_eq_ok.mp horder
    cases horder
    have hname : NameAt schema o.column i := columnIndex_eq_ok.mp hi
    rw [sortRows, ordered, Option.elim_some]
    have hsame : ∀ a ∈ rows, ∀ b ∈ rows, (orderRows i o.descending a b != .gt) =
        if o.descending then !(schema.ideal a o.column).less (schema.ideal b o.column)
        else !(schema.ideal b o.column).less (schema.ideal a o.column) := fun a ha b hb => by
      rw [ideal_eq hname (hrows a ha ▸ hname.lt), ideal_eq hname (hrows b hb ▸ hname.lt),
        less_ideal, less_ideal, ← orderValues_swap (a.getD i .null) (b.getD i .null), orderRows]
      cases o.descending with
      | true => cases orderValues (a.getD i .null) (b.getD i .null) <;> rfl
      | false => rfl
    simpa only [List.map_id] using List.map_mergeSort (f := id) hsame

theorem limitRows_eq (limit : Option UInt64) (rows : List Row) :
    limitRows limit rows = limit.elim rows fun n => rows.take n.toNat := by
  cases limit <;> rfl

theorem orderColumn_isOk {orderBy : Option OrderBy} :
    (∃ order, (orderColumn schema orderBy : Except (ExecError E) _) = .ok order) ↔
      ∀ o, orderBy = some o → o.column ∈ names schema := by
  cases orderBy with
  | none =>
    refine ⟨fun _ o ho => ?_, fun _ => ⟨none, rfl⟩⟩
    cases ho
  | some o =>
    simp only [orderColumn, Except.bind_eq_ok, Option.some.injEq, forall_eq']
    constructor
    · rintro ⟨order, i, hi, -⟩
      exact columnIndex_isOk.mp ⟨i, hi⟩
    · intro h
      obtain ⟨i, hi⟩ := columnIndex_isOk.mpr h
      exact ⟨_, i, hi, rfl⟩

theorem pickColumns_isOk {projection : Projection} :
    (∃ picked, (pickColumns schema projection : Except (ExecError E) _) = .ok picked) ↔
      ∀ listed, projection = .columns listed → ∀ name ∈ listed, name ∈ names schema := by
  simp only [pickColumns_eq_ok]
  constructor
  · rintro ⟨picked, h⟩ listed rfl
    exact mem_names_of_forall₂ h
  · intro h
    refine exists_forall₂_nameAt ?_
    cases projection with
    | all => exact fun _ hname => hname
    | columns listed => exact h listed rfl

/-- The picked columns are shown under their names. -/
theorem map_picked_name {listed : List String} {picked : List ℕ}
    (h : List.Forall₂ (NameAt schema) listed picked) :
    (picked.map fun i => (schema.columns[i]?.map (·.name)).getD "") = listed := by
  induction h with
  | nil => rfl
  | cons hname _ ih => rw [List.map_cons, ih, hname, Option.getD_some]

theorem map_picked_cell {listed : List String} {picked : List ℕ}
    (h : List.Forall₂ (NameAt schema) listed picked) (hlen : row.length = schema.columns.length) :
    (picked.map fun i => row.getD i .null) = listed.map (cell schema row) := by
  induction h with
  | nil => rfl
  | cons hname _ ih =>
    rw [List.map_cons, List.map_cons, ih, cell_eq hname (hlen ▸ NameAt.lt hname)]

end Choam

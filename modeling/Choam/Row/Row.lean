import Mathlib.Data.List.Forall2
import Choam.Row.Key

/-!
# Schemas and rows

A `Schema` can only be built in the shape `Schema.new` accepts: at least one column, distinct
column names, and a primary key that is one of the columns and not nullable. `encodeRow` stores a
row as a bitmap of its NULLs followed by the other values; it accepts exactly the rows of the
schema (`encodeRow_isOk`), and a row whose values fit their length fields decodes to itself
(`decodeRow_encodeRow`).
-/

namespace Choam

open ByteString

structure ColumnDef where
  name : String
  ty : ColumnType
  nullable : Bool
  deriving DecidableEq

/-- A table's columns and which one is the primary key. -/
structure Schema where
  tableName : String
  columns : List ColumnDef
  primaryKey : Nat
  primaryKey_lt : primaryKey < columns.length
  primaryKey_notNull : columns[primaryKey].nullable = false
  nodup : (columns.map (·.name)).Nodup
  deriving DecidableEq

inductive SchemaError where
  | noColumns
  | primaryKeyOutOfRange (primaryKey columns : Nat)
  | nullablePrimaryKey (name : String)
  | duplicateColumnName (name : String)
  deriving DecidableEq

/-- The first column name that a later column repeats. -/
def duplicateColumnName : List ColumnDef → Option String
  | [] => none
  | c :: cs => if cs.any (·.name = c.name) then some c.name else duplicateColumnName cs

theorem duplicateColumnName_eq_none {cs : List ColumnDef} :
    duplicateColumnName cs = none ↔ (cs.map (·.name)).Nodup := by
  induction cs with
  | nil => simp [duplicateColumnName]
  | cons c cs ih =>
    have hmem : cs.any (·.name = c.name) = true ↔ c.name ∈ cs.map (·.name) := by
      simp
    rw [duplicateColumnName, List.map_cons, List.nodup_cons, ← ih]
    split
    next h => simp [hmem.mp h]
    next h => simp [mt hmem.mpr h]

namespace Schema

def new (tableName : String) (columns : List ColumnDef) (primaryKey : Nat) :
    Except SchemaError Schema :=
  if columns = [] then
    .error .noColumns
  else if hpk : primaryKey < columns.length then
    if hnull : columns[primaryKey].nullable then
      .error (.nullablePrimaryKey columns[primaryKey].name)
    else
      match hdup : duplicateColumnName columns with
      | some name => .error (.duplicateColumnName name)
      | none =>
        .ok ⟨tableName, columns, primaryKey, hpk, by simpa using hnull,
          duplicateColumnName_eq_none.mp hdup⟩
  else
    .error (.primaryKeyOutOfRange primaryKey columns.length)

/-- The primary-key column. -/
def pkColumn (s : Schema) : ColumnDef := s.columns.get ⟨s.primaryKey, s.primaryKey_lt⟩

def primaryKeyType (s : Schema) : ColumnType := s.pkColumn.ty

theorem new_ok {name : String} {cs : List ColumnDef} {pk : Nat} {s : Schema}
    (h : new name cs pk = .ok s) : s.tableName = name ∧ s.columns = cs ∧ s.primaryKey = pk := by
  unfold new at h
  split at h
  · cases h
  split at h
  · split at h
    · cases h
    split at h
    · cases h
    · cases h
      exact ⟨rfl, rfl, rfl⟩
  · cases h

/-- Building a schema again from its own parts succeeds. -/
theorem new_self (s : Schema) : new s.tableName s.columns s.primaryKey = .ok s := by
  have hne : s.columns ≠ [] := List.ne_nil_of_length_pos (by have := s.primaryKey_lt; omega)
  have hdup := duplicateColumnName_eq_none.mpr s.nodup
  unfold new
  rw [if_neg hne, dif_pos s.primaryKey_lt, dif_neg (by simp [s.primaryKey_notNull])]
  split
  next hsome =>
    rw [hdup] at hsome
    cases hsome
  next => rfl

end Schema

inductive RowError where
  | columnCountMismatch (expected found : Nat)
  | unexpectedNull (column : String)
  | value (e : ValueError)
  | truncated
  deriving DecidableEq

def bitmapLen (ncols : Nat) : Nat := (ncols + 7) / 8

/-- Bit `i` of a bitmap. -/
def bitSet (bitmap : Bytes) (i : Nat) : Bool :=
  bitmap.getD (i / 8) 0 &&& 1 <<< UInt8.ofNat (i % 8) != 0

/-- The bitmap with bit `i` set. -/
def setBit (bitmap : Bytes) (i : Nat) : Bytes :=
  bitmap.modify (i / 8) (· ||| 1 <<< UInt8.ofNat (i % 8))

/-- Encodes the columns from number `i` on, into the bitmap and behind the body. -/
def encodeColumns : Nat → List (Value × ColumnDef) → Bytes → Bytes → Except RowError (Bytes × Bytes)
  | _, [], bitmap, body => .ok (bitmap, body)
  | i, (value, col) :: rest, bitmap, body =>
    if value.isNull then
      if col.nullable then
        encodeColumns (i + 1) rest (setBit bitmap i) body
      else
        .error (.unexpectedNull col.name)
    else
      match encodeValue value col.ty with
      | .error e => .error (.value e)
      | .ok bytes => encodeColumns (i + 1) rest bitmap (body ++ bytes)

/-- A row in stored form: the bitmap of its NULLs, then its other values in schema order. -/
def encodeRow (schema : Schema) (values : List Value) : Except RowError Bytes :=
  if values.length ≠ schema.columns.length then
    .error (.columnCountMismatch schema.columns.length values.length)
  else
    match encodeColumns 0 (values.zip schema.columns)
        (List.replicate (bitmapLen schema.columns.length) 0) [] with
    | .error e => .error e
    | .ok (bitmap, body) => .ok (bitmap ++ body)

/-- Decodes the columns from number `i` on, and returns what follows them. -/
def decodeColumns (bitmap : Bytes) : Nat → List ColumnDef → Bytes → Except RowError (List Value × Bytes)
  | _, [], rest => .ok ([], rest)
  | i, col :: cols, rest =>
    if bitSet bitmap i then
      match decodeColumns bitmap (i + 1) cols rest with
      | .error e => .error e
      | .ok (values, rest) => .ok (.null :: values, rest)
    else
      match decodeValue rest col.ty with
      | .error e => .error (.value e)
      | .ok (v, rest) =>
        match decodeColumns bitmap (i + 1) cols rest with
        | .error e => .error e
        | .ok (values, rest) => .ok (v :: values, rest)

def decodeRow (schema : Schema) (data : Bytes) : Except RowError (List Value) :=
  let blen := bitmapLen schema.columns.length
  if data.length < blen then
    .error .truncated
  else
    match decodeColumns (data.take blen) 0 schema.columns (data.drop blen) with
    | .error e => .error e
    | .ok (values, _) => .ok values

/-! ## The null bitmap -/

theorem or_and_mask (a b c : UInt8) : (a ||| b) &&& c = a &&& c ||| b &&& c := by
  apply UInt8.toNat_inj.mp
  simp only [UInt8.toNat_and, UInt8.toNat_or]
  exact Nat.and_or_distrib_right _ _ _

theorem mask_and_mask {a b : Nat} (ha : a < 8) (hb : b < 8) :
    (1 <<< UInt8.ofNat a &&& 1 <<< UInt8.ofNat b : UInt8) = 0 ↔ a ≠ b := by
  have hall : ∀ a b : Fin 8, (1 <<< UInt8.ofNat a.val &&& 1 <<< UInt8.ofNat b.val : UInt8) = 0 ↔
      a.val ≠ b.val := by decide
  exact hall ⟨a, ha⟩ ⟨b, hb⟩

@[simp] theorem length_setBit (bitmap : Bytes) (i : Nat) :
    (setBit bitmap i).length = bitmap.length := by
  simp [setBit]

theorem bitSet_setBit {bitmap : Bytes} {i j : Nat} (hi : i / 8 < bitmap.length) :
    bitSet (setBit bitmap i) j = (decide (i = j) || bitSet bitmap j) := by
  unfold bitSet setBit
  by_cases hbyte : i / 8 = j / 8
  · rw [hbyte] at hi ⊢
    have hget : (bitmap.modify (j / 8) (· ||| 1 <<< UInt8.ofNat (i % 8))).getD (j / 8) 0 =
        bitmap.getD (j / 8) 0 ||| 1 <<< UInt8.ofNat (i % 8) := by
      simp [List.getD, hi]
    have hsame : i % 8 = j % 8 ↔ i = j := by omega
    have hmask := mask_and_mask (Nat.mod_lt i (by decide : 0 < 8)) (Nat.mod_lt j (by decide : 0 < 8))
    rw [hget, or_and_mask, Bool.eq_iff_iff]
    simp only [bne_iff_ne, ne_eq, UInt8.or_eq_zero_iff, hmask, hsame, Bool.or_eq_true,
      decide_eq_true_eq]
    tauto
  · have hget : (bitmap.modify (i / 8) (· ||| 1 <<< UInt8.ofNat (i % 8))).getD (j / 8) 0 =
        bitmap.getD (j / 8) 0 := by
      simp [List.getD, hbyte]
    have hne : i ≠ j := fun h => hbyte (by rw [h])
    rw [hget]
    simp [hne]

@[simp] theorem bitSet_replicate (n i : Nat) : bitSet (List.replicate n 0) i = false := by
  have hget : (List.replicate n (0 : UInt8)).getD (i / 8) 0 = 0 := by
    simp only [List.getD, List.getElem?_replicate]
    split <;> rfl
  rw [bitSet, hget]
  simp

/-! ## The codec round-trips -/

/-- The value may be stored in the column. -/
def ColumnDef.Accepts (c : ColumnDef) (v : Value) : Prop :=
  v.columnType = some c.ty ∨ v = .null ∧ c.nullable = true

instance (c : ColumnDef) (v : Value) : Decidable (c.Accepts v) :=
  inferInstanceAs (Decidable (_ ∨ _))

/-- One value per column, each of which its column accepts. -/
def Schema.IsRow (s : Schema) (values : List Value) : Prop :=
  List.Forall₂ (fun v c => ColumnDef.Accepts c v) values s.columns

theorem Schema.IsRow.length {s : Schema} {values : List Value} (h : s.IsRow values) :
    values.length = s.columns.length := List.Forall₂.length_eq h

theorem encodeColumns_isOk {pairs : List (Value × ColumnDef)} {i : Nat} {bitmap body : Bytes} :
    (∃ r, encodeColumns i pairs bitmap body = .ok r) ↔ ∀ p ∈ pairs, p.2.Accepts p.1 := by
  induction pairs generalizing i bitmap body with
  | nil => simp [encodeColumns]
  | cons p rest ih =>
    obtain ⟨v, c⟩ := p
    simp only [encodeColumns, List.mem_cons, forall_eq_or_imp, ColumnDef.Accepts]
    by_cases hnull : v = .null
    · subst hnull
      by_cases hc : c.nullable <;> simp [Value.isNull, Value.columnType, hc, ih, ColumnDef.Accepts]
    · have hisNull := Value.isNull_eq_false.mpr hnull
      rw [hisNull, if_neg (by decide)]
      by_cases hty : v.columnType = some c.ty
      · obtain ⟨bs, hbs⟩ := encodeValue_isOk.mpr hty
        simp [hbs, hty, ih, ColumnDef.Accepts]
      · simp [encodeValue_error hty, hty, hnull]

/-- Exactly the rows of the schema can be stored. -/
theorem encodeRow_isOk {s : Schema} {values : List Value} :
    (∃ bs, encodeRow s values = .ok bs) ↔ s.IsRow values := by
  unfold encodeRow Schema.IsRow
  by_cases hlen : values.length = s.columns.length
  · rw [if_neg (by simpa using hlen), List.forall₂_iff_zip]
    have hcols := @encodeColumns_isOk (values.zip s.columns) 0
      (List.replicate (bitmapLen s.columns.length) 0) []
    constructor
    · rintro ⟨bs, hbs⟩
      split at hbs
      · cases hbs
      next r hr => exact ⟨hlen, fun hmem => hcols.mp ⟨_, hr⟩ _ hmem⟩
    · rintro ⟨-, hall⟩
      obtain ⟨⟨bitmap, body⟩, hr⟩ := hcols.mpr fun p hp => hall hp
      exact ⟨bitmap ++ body, by rw [hr]⟩
  · rw [if_pos hlen]
    constructor
    · rintro ⟨bs, hbs⟩
      cases hbs
    · intro h
      exact absurd h.length_eq hlen

/-- Storing a row never fails the way decoding does. -/
theorem encodeColumns_error {pairs : List (Value × ColumnDef)} {i : Nat} {bitmap body : Bytes}
    {e : RowError} (h : encodeColumns i pairs bitmap body = .error e) :
    (∃ c, e = .unexpectedNull c) ∨ ∃ ty found, e = .value (.typeMismatch ty found) := by
  induction pairs generalizing i bitmap body with
  | nil => cases h
  | cons p rest ih =>
    obtain ⟨v, c⟩ := p
    unfold encodeColumns at h
    split at h
    · split at h
      · exact ih h
      · cases h
        exact .inl ⟨_, rfl⟩
    · split at h
      next he =>
        cases h
        by_cases hty : v.columnType = some c.ty
        · obtain ⟨bs, hbs⟩ := encodeValue_isOk.mpr hty
          rw [hbs] at he
          cases he
        · rw [encodeValue_error hty] at he
          cases he
          exact .inr ⟨_, _, rfl⟩
      · exact ih h

theorem encodeRow_error {s : Schema} {values : List Value} {e : RowError}
    (h : encodeRow s values = .error e) : (∃ n m, e = .columnCountMismatch n m) ∨
      (∃ c, e = .unexpectedNull c) ∨ ∃ ty found, e = .value (.typeMismatch ty found) := by
  unfold encodeRow at h
  split at h
  · cases h
    exact .inl ⟨_, _, rfl⟩
  · split at h
    next hcols =>
      cases h
      exact .inr (encodeColumns_error hcols)
    · cases h

/-- The columns decode to the values that were encoded, under the bitmap that was written. -/
theorem decodeColumns_encodeColumns {pairs : List (Value × ColumnDef)} {i : Nat}
    {bitmap body bitmap' body' : Bytes}
    (h : encodeColumns i pairs bitmap body = .ok (bitmap', body'))
    (hfit : ∀ p ∈ pairs, p.1.Fits) (hclear : ∀ j, i ≤ j → bitSet bitmap j = false)
    (hlen : i + pairs.length ≤ 8 * bitmap.length) :
    bitmap'.length = bitmap.length ∧ (∀ j, j < i → bitSet bitmap' j = bitSet bitmap j) ∧
      ∃ added, body' = body ++ added ∧
        ∀ rest, decodeColumns bitmap' i (pairs.map (·.2)) (added ++ rest) =
          .ok (pairs.map (·.1), rest) := by
  induction pairs generalizing i bitmap body with
  | nil =>
    cases h
    exact ⟨rfl, fun _ _ => rfl, [], by simp, fun rest => rfl⟩
  | cons p pairs ih =>
    obtain ⟨v, c⟩ := p
    simp only [List.length_cons] at hlen
    have hfit' : ∀ p ∈ pairs, p.1.Fits := fun p hp => hfit p (List.mem_cons_of_mem _ hp)
    have hi : i / 8 < bitmap.length := by omega
    unfold encodeColumns at h
    by_cases hnull : v = .null
    · subst hnull
      rw [if_pos (Value.isNull_iff.mpr rfl)] at h
      split at h
      next hc =>
        obtain ⟨hlen', hbits, added, rfl, hdec⟩ := ih h hfit'
          (fun j hj => by
            have hne : i ≠ j := by omega
            simp [bitSet_setBit hi, hne, hclear j (by omega)])
          (by simp only [length_setBit]; omega)
        refine ⟨by simpa using hlen', fun j hj => ?_, added, rfl, fun rest => ?_⟩
        · have hne : i ≠ j := by omega
          rw [hbits j (by omega), bitSet_setBit hi]
          simp [hne]
        · have hset : bitSet bitmap' i = true := by
            rw [hbits i (by omega), bitSet_setBit hi]
            simp
          simp [decodeColumns, hset, hdec rest]
      next => cases h
    · have hisNull := Value.isNull_eq_false.mpr hnull
      rw [hisNull, if_neg (by decide)] at h
      split at h
      · cases h
      next bs hbs =>
      obtain ⟨hlen', hbits, added, rfl, hdec⟩ := ih h hfit' (fun j hj => hclear j (by omega))
        (by omega)
      refine ⟨hlen', fun j hj => hbits j (by omega), bs ++ added, by simp, fun rest => ?_⟩
      have hset : bitSet bitmap' i = false := by rw [hbits i (by omega), hclear i le_rfl]
      have hv := decodeValue_encodeValue hbs (hfit (v, c) (by simp)) (added ++ rest)
      rw [List.append_assoc]
      simp [decodeColumns, hset, hv, hdec rest]

/-- The columns of a stored row decode to its values, and nothing is left over. -/
theorem decodeColumns_encodeRow {s : Schema} {values : List Value} {bs : Bytes}
    (h : encodeRow s values = .ok bs) (hfit : ∀ v ∈ values, v.Fits) :
    bitmapLen s.columns.length ≤ bs.length ∧
      decodeColumns (bs.take (bitmapLen s.columns.length)) 0 s.columns
        (bs.drop (bitmapLen s.columns.length)) = .ok (values, []) := by
  have hlen := (encodeRow_isOk.mp ⟨bs, h⟩).length
  unfold encodeRow at h
  rw [if_neg (by simpa using hlen)] at h
  split at h
  · cases h
  next bitmap body hcols =>
  cases h
  obtain ⟨hblen, -, added, hbody, hdec⟩ := decodeColumns_encodeColumns hcols
    (fun p hp => hfit _ (List.of_mem_zip hp).1) (fun j _ => bitSet_replicate _ j)
    (by simp [bitmapLen, hlen]; omega)
  rw [List.length_replicate] at hblen
  have hdec := hdec []
  rw [List.map_fst_zip hlen.le, List.map_snd_zip hlen.ge, List.append_nil] at hdec
  simp only [List.nil_append] at hbody
  subst hbody
  simp [← hblen, hdec]

/-- A stored row whose values fit decodes to itself. -/
theorem decodeRow_encodeRow {s : Schema} {values : List Value} {bs : Bytes}
    (h : encodeRow s values = .ok bs) (hfit : ∀ v ∈ values, v.Fits) :
    decodeRow s bs = .ok values := by
  obtain ⟨hlen, hdec⟩ := decodeColumns_encodeRow h hfit
  simp only [decodeRow, hdec]
  rw [if_neg (by omega)]

/-- **The row codec**: exactly the rows of the schema can be stored, and a stored row whose values
fit decodes to itself, to the last byte, so that no two rows of a schema share an encoding. -/
theorem encodeRow_correct (s : Schema) (values : List Value) :
    ((∃ bs, encodeRow s values = .ok bs) ↔ values.length = s.columns.length ∧
      ∀ p ∈ values.zip s.columns, (p.1 ≠ .null → p.1.columnType = some p.2.ty) ∧
        (p.1 = .null → p.2.nullable = true)) ∧
    ∀ bs, encodeRow s values = .ok bs → (∀ v ∈ values, v.Fits) →
      decodeRow s bs = .ok values ∧
      decodeColumns (bs.take (bitmapLen s.columns.length)) 0 s.columns
        (bs.drop (bitmapLen s.columns.length)) = .ok (values, []) ∧
      ∀ values', (∀ v ∈ values', v.Fits) → encodeRow s values' = .ok bs → values' = values := by
  refine ⟨?_, ?_⟩
  · have haccepts : ∀ (c : ColumnDef) (v : Value), c.Accepts v ↔
        (v ≠ .null → v.columnType = some c.ty) ∧ (v = .null → c.nullable = true) := by
      intro c v
      cases v <;> simp [ColumnDef.Accepts, Value.columnType]
    rw [encodeRow_isOk, Schema.IsRow, List.forall₂_iff_zip]
    constructor
    · rintro ⟨hlen, hall⟩
      exact ⟨hlen, fun p hp => (haccepts _ _).mp (hall hp)⟩
    · rintro ⟨hlen, hall⟩
      exact ⟨hlen, fun hp => (haccepts _ _).mpr (hall _ hp)⟩
  · intro bs hbs hfit
    have hdec := decodeRow_encodeRow hbs hfit
    refine ⟨hdec, (decodeColumns_encodeRow hbs hfit).2, ?_⟩
    intro values' hfit' hbs'
    rw [decodeRow_encodeRow hbs' hfit'] at hdec
    exact Except.ok.inj hdec

/-- A row of nine columns, with a NULL in the second byte of its bitmap. -/
theorem encodeRow_correct_sample :
    let s : Schema := ⟨"t", [⟨"a", .integer, false⟩, ⟨"b", .text, true⟩, ⟨"c", .text, true⟩,
      ⟨"d", .text, true⟩, ⟨"e", .bytes, true⟩, ⟨"f", .boolean, true⟩, ⟨"g", .text, true⟩,
      ⟨"h", .integer, true⟩, ⟨"i", .text, true⟩], 0, by decide, by decide, by decide⟩
    let row : List Value := [.integer (-1), .text "x", .null, .text "", .bytes [0, 1],
      .boolean true, .null, .null, .null]
    ∃ bs, encodeRow s row = .ok bs ∧ decodeRow s bs = .ok row := by
  intro s row
  obtain ⟨hok, hdec⟩ := encodeRow_correct s row
  obtain ⟨bs, hbs⟩ := hok.mpr (by decide)
  exact ⟨bs, hbs, (hdec bs hbs (by decide)).1⟩

/-- Whatever bytes are read, what comes out has one value per column, NULL or of the column's
type, and fits. -/
theorem decodeColumns_types {bitmap : Bytes} {i : Nat} {cols : List ColumnDef} {data rest : Bytes}
    {values : List Value} (h : decodeColumns bitmap i cols data = .ok (values, rest)) :
    List.Forall₂ (fun v (c : ColumnDef) => v.columnType = some c.ty ∨ v = .null) values cols ∧
      ∀ v ∈ values, v.Fits := by
  induction cols generalizing i data values with
  | nil =>
    cases h
    exact ⟨.nil, by simp⟩
  | cons c cols ih =>
    unfold decodeColumns at h
    split at h
    · split at h
      · cases h
      next hd =>
      cases h
      obtain ⟨htys, hfits⟩ := ih hd
      exact ⟨.cons (.inr rfl) htys, List.forall_mem_cons.mpr ⟨trivial, hfits⟩⟩
    · split at h
      · cases h
      next hv =>
      split at h
      · cases h
      next hd =>
      cases h
      obtain ⟨htys, hfits⟩ := ih hd
      obtain ⟨hty, hfit⟩ := decodeValue_columnType hv
      exact ⟨.cons (.inl hty) htys, List.forall_mem_cons.mpr ⟨hfit, hfits⟩⟩

theorem decodeRow_types {s : Schema} {data : Bytes} {values : List Value}
    (h : decodeRow s data = .ok values) :
    List.Forall₂ (fun v (c : ColumnDef) => v.columnType = some c.ty ∨ v = .null)
      values s.columns ∧ ∀ v ∈ values, v.Fits := by
  simp only [decodeRow] at h
  split at h
  · cases h
  split at h
  · cases h
  next hd =>
  cases h
  exact decodeColumns_types hd

end Choam

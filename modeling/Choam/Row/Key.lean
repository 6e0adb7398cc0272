import Choam.Row.Value

/-!
# Keys

The store is one flat space of byte keys. The first byte separates the catalog (the counter of
table ids, the index of table names, one entry per table) from the rows; a row key is the row
namespace, the table id in four bytes and the encoded primary key. Within one table the encoding
of primary keys is injective (`encodeKeyComponent_inj`), has an inverse
(`decodeKeyComponent_encode`) and keeps the order (`keyComponent_lt_integer` and its siblings);
`splitRowKey` recognises exactly the row keys (`splitRowKey_eq_some`).
-/

namespace Choam

open ByteString

def catalogNamespace : UInt8 := 0x00
def rowNamespace : UInt8 := 0x01

def catalogCounterTag : UInt8 := 0x00
def catalogIndexTag : UInt8 := 0x01
def catalogTableTag : UInt8 := 0x02

def catalogCounterKey : Bytes := [catalogNamespace, catalogCounterTag]

def catalogIndexKey : Bytes := [catalogNamespace, catalogIndexTag]

/-- The key of a table's entry; an empty name has none. -/
def catalogTableKey (tableName : String) : Option Bytes :=
  if tableName = "" then
    none
  else
    some ([catalogNamespace, catalogTableTag] ++ utf8 tableName)

def rowKeyPrefix (tableId : UInt32) : Bytes := rowNamespace :: be 4 tableId.toNat

def signBit : UInt64 := (1 : UInt64) <<< 63

/-- The bytes that encoding the primary key `value` of type `expected` appends. -/
def encodeKeyComponent (value : Value) (expected : ColumnType) : Except ValueError Bytes :=
  match value, expected with
  -- The sign bit is flipped, so that negative numbers sort before the others.
  | .integer v, .integer => .ok (be 8 (v.toUInt64 ^^^ signBit).toNat)
  | .text s, .text => .ok (utf8 s)
  | .bytes b, .bytes => .ok b
  | .boolean b, .boolean => .ok [if b then 1 else 0]
  | other, expected => .error (.typeMismatch expected (kindName other))

/-- The key of the row of table `tableId` with primary key `pk`. -/
def rowKey (tableId : UInt32) (pk : Value) (pkType : ColumnType) : Except ValueError Bytes := do
  let component ← encodeKeyComponent pk pkType
  .ok (rowKeyPrefix tableId ++ component)

/-- The table id and the primary-key bytes of a row key; `none` for any other key. -/
def splitRowKey (key : Bytes) : Option (UInt32 × Bytes) :=
  if key.head? ≠ some rowNamespace ∨ key.length < 5 then
    none
  else
    some (UInt32.ofNat (ofBe ((key.drop 1).take 4)), key.drop 5)

/-- The inverse of `encodeKeyComponent` at type `ty`. -/
def decodeKeyComponent (bytes : Bytes) (ty : ColumnType) : Except ValueError Value :=
  match ty with
  | .integer =>
    if bytes.length ≠ 8 then
      .error (.truncated .integer)
    else
      .ok (.integer (UInt64.ofNat (ofBe bytes) ^^^ signBit).toInt64)
  | .boolean =>
    match bytes with
    | [b] => .ok (.boolean (b != 0))
    | _ => .error (.truncated .boolean)
  | .text =>
    match fromUtf8 bytes with
    | none => .error .invalidUtf8
    | some s => .ok (.text s)
  | .bytes => .ok (.bytes bytes)

/-! ## Primary keys -/

theorem encodeKeyComponent_isOk {v : Value} {ty : ColumnType} :
    (∃ c, encodeKeyComponent v ty = .ok c) ↔ v.columnType = some ty := by
  cases v <;> cases ty <;> simp [encodeKeyComponent, Value.columnType]

theorem encodeKeyComponent_error {v : Value} {ty : ColumnType} (h : v.columnType ≠ some ty) :
    encodeKeyComponent v ty = .error (.typeMismatch ty (kindName v)) := by
  cases v <;> cases ty <;> simp_all [encodeKeyComponent, Value.columnType]

/-- Decoding gives back the primary key. -/
theorem decodeKeyComponent_encode {v : Value} {ty : ColumnType} {c : Bytes}
    (h : encodeKeyComponent v ty = .ok c) : decodeKeyComponent c ty = .ok v := by
  have hty := encodeKeyComponent_isOk.mp ⟨c, h⟩
  cases v with
  | null => cases hty
  | integer n =>
    obtain rfl : ty = .integer := (Option.some.inj hty).symm
    obtain rfl : be 8 (n.toUInt64 ^^^ signBit).toNat = c := Except.ok.inj h
    have hlt : (n.toUInt64 ^^^ signBit).toNat < 256 ^ 8 := UInt64.toNat_lt _
    have hback : n.toUInt64 ^^^ signBit ^^^ signBit = n.toUInt64 := by
      rw [UInt64.xor_assoc, UInt64.xor_self, UInt64.xor_zero]
    simp only [decodeKeyComponent, length_be, ne_eq, not_true_eq_false, if_false, ofBe_be]
    rw [Nat.mod_eq_of_lt hlt, UInt64.ofNat_toNat, hback, Int64.toInt64_toUInt64]
  | text s =>
    obtain rfl : ty = .text := (Option.some.inj hty).symm
    obtain rfl : utf8 s = c := Except.ok.inj h
    simp [decodeKeyComponent]
  | bytes b =>
    obtain rfl : ty = .bytes := (Option.some.inj hty).symm
    obtain rfl : b = c := Except.ok.inj h
    rfl
  | boolean b =>
    obtain rfl : ty = .boolean := (Option.some.inj hty).symm
    obtain rfl : [if b then 1 else 0] = c := Except.ok.inj h
    cases b <;> rfl

/-- Two primary keys of one type share an encoding only if they are the same. -/
theorem encodeKeyComponent_inj {v w : Value} {ty : ColumnType} {c : Bytes}
    (hv : encodeKeyComponent v ty = .ok c) (hw : encodeKeyComponent w ty = .ok c) : v = w := by
  have hdec := decodeKeyComponent_encode hv
  rw [decodeKeyComponent_encode hw] at hdec
  exact (Except.ok.inj hdec).symm

/-- Flipping the top bit of a 64-bit number adds half the range, around the end. -/
theorem xor_topBit {n : Nat} (h : n < 2 ^ 64) : n ^^^ 2 ^ 63 = (n + 2 ^ 63) % 2 ^ 64 := by
  have hlow : (n ^^^ 2 ^ 63) % 2 ^ 63 = n % 2 ^ 63 := by
    rw [Nat.xor_mod_two_pow, Nat.mod_self, Nat.xor_zero]
  have hhigh : (n ^^^ 2 ^ 63) / 2 ^ 63 = n / 2 ^ 63 ^^^ 1 := by
    rw [Nat.xor_div_two_pow, Nat.div_self (by decide)]
  have hsplit := Nat.div_add_mod (n ^^^ 2 ^ 63) (2 ^ 63)
  rw [hlow, hhigh] at hsplit
  have hbit : n / 2 ^ 63 = 0 ∨ n / 2 ^ 63 = 1 := by omega
  rcases hbit with hbit | hbit
  · have hflip : (0 ^^^ 1 : Nat) = 1 := rfl
    rw [hbit, hflip] at hsplit
    omega
  · have hflip : (1 ^^^ 1 : Nat) = 0 := rfl
    rw [hbit, hflip] at hsplit
    omega

theorem toNat_flipSign (v : Int64) :
    ((v.toUInt64 ^^^ signBit).toNat : Int) = v.toInt + 2 ^ 63 := by
  have hlt : v.toUInt64.toNat < 2 ^ 64 := UInt64.toNat_lt _
  have hone : signBit.toNat = 2 ^ 63 := rfl
  have hint : v.toInt = if 2 * v.toUInt64.toNat < 2 ^ 64 then (v.toUInt64.toNat : Int)
      else v.toUInt64.toNat - (2 ^ 64 : Nat) := BitVec.toInt_eq_toNat_cond v.toBitVec
  rw [UInt64.toNat_xor, hone, xor_topBit hlt, hint]
  split <;> omega

theorem keyComponent_lt_integer {v w : Int64} :
    be 8 (v.toUInt64 ^^^ signBit).toNat < be 8 (w.toUInt64 ^^^ signBit).toNat ↔ v < w := by
  rw [be_lt_be_iff (UInt64.toNat_lt _) (UInt64.toNat_lt _), Int64.lt_iff_toInt_lt]
  have hv := toNat_flipSign v
  have hw := toNat_flipSign w
  omega

/-! ## Row keys -/

@[simp] theorem length_rowKeyPrefix (id : UInt32) : (rowKeyPrefix id).length = 5 := by
  simp [rowKeyPrefix]

theorem rowKey_eq {id : UInt32} {pk : Value} {ty : ColumnType} {c : Bytes}
    (h : encodeKeyComponent pk ty = .ok c) : rowKey id pk ty = .ok (rowKeyPrefix id ++ c) := by
  simp [rowKey, h, bind, Except.bind]

theorem rowKey_error {id : UInt32} {pk : Value} {ty : ColumnType} (h : pk.columnType ≠ some ty) :
    rowKey id pk ty = .error (.typeMismatch ty (kindName pk)) := by
  simp [rowKey, encodeKeyComponent_error h, bind, Except.bind]

/-- A key is refused only for its type. -/
theorem rowKey_typeMismatch {id : UInt32} {pk : Value} {ty : ColumnType} {e : ValueError}
    (h : rowKey id pk ty = .error e) : e = .typeMismatch ty (kindName pk) := by
  by_cases hty : pk.columnType = some ty
  · obtain ⟨c, hc⟩ := encodeKeyComponent_isOk.mpr hty
    rw [rowKey_eq hc] at h
    cases h
  · rw [rowKey_error hty] at h
    exact (Except.error.inj h).symm

theorem rowKey_ok {id : UInt32} {pk : Value} {ty : ColumnType} {k : Bytes}
    (h : rowKey id pk ty = .ok k) : ∃ c, encodeKeyComponent pk ty = .ok c ∧
      k = rowKeyPrefix id ++ c := by
  by_cases hty : pk.columnType = some ty
  · obtain ⟨c, hc⟩ := encodeKeyComponent_isOk.mpr hty
    rw [rowKey_eq hc] at h
    exact ⟨c, hc, (Except.ok.inj h).symm⟩
  · rw [rowKey_error hty] at h
    cases h

theorem rowKey_isOk {id : UInt32} {pk : Value} {ty : ColumnType} :
    (∃ k, rowKey id pk ty = .ok k) ↔ pk.columnType = some ty := by
  constructor
  · rintro ⟨k, hk⟩
    obtain ⟨c, hc, -⟩ := rowKey_ok hk
    exact encodeKeyComponent_isOk.mp ⟨c, hc⟩
  · intro hty
    obtain ⟨c, hc⟩ := encodeKeyComponent_isOk.mpr hty
    exact ⟨_, rowKey_eq hc⟩

theorem rowKeyPrefix_inj {id id' : UInt32} : rowKeyPrefix id = rowKeyPrefix id' ↔ id = id' := by
  rw [rowKeyPrefix, rowKeyPrefix, List.cons.injEq, be_inj id.toNat_lt id'.toNat_lt,
    UInt32.toNat_inj]
  simp

theorem rowKeyPrefix_append_inj {id id' : UInt32} {c c' : Bytes} :
    rowKeyPrefix id ++ c = rowKeyPrefix id' ++ c' ↔ id = id' ∧ c = c' := by
  constructor
  · intro h
    obtain ⟨hid, hc⟩ := List.append_inj h (by simp)
    exact ⟨rowKeyPrefix_inj.mp hid, hc⟩
  · rintro ⟨rfl, rfl⟩
    rfl

/-- In one table, a key stands for one primary key. -/
theorem rowKey_inj {id : UInt32} {v w : Value} {ty : ColumnType} {k : Bytes}
    (hv : rowKey id v ty = .ok k) (hw : rowKey id w ty = .ok k) : v = w := by
  obtain ⟨c, hc, rfl⟩ := rowKey_ok hv
  obtain ⟨c', hc', heq⟩ := rowKey_ok hw
  obtain ⟨-, rfl⟩ := rowKeyPrefix_append_inj.mp heq
  exact encodeKeyComponent_inj hc hc'

/-- The key of a row tells the id of its table. -/
theorem rowKey_tableId {id id' : UInt32} {v : Value} {ty : ColumnType} {k : Bytes}
    (h : rowKey id v ty = .ok k) (hp : rowKeyPrefix id' <+: k) : id = id' := by
  obtain ⟨c, -, rfl⟩ := rowKey_ok h
  obtain ⟨rest, hrest⟩ := hp
  exact (rowKeyPrefix_append_inj.mp hrest).1.symm

theorem splitRowKey_rowKeyPrefix (id : UInt32) (c : Bytes) :
    splitRowKey (rowKeyPrefix id ++ c) = some (id, c) := by
  have htake : (be 4 id.toNat ++ c).take 4 = be 4 id.toNat := List.take_left' (length_be _ _)
  have hdrop : (be 4 id.toNat ++ c).drop 4 = c := List.drop_left' (length_be _ _)
  simp [splitRowKey, rowKeyPrefix, htake, hdrop]

/-- `splitRowKey` takes apart exactly the keys of the row namespace that have a table id. -/
theorem splitRowKey_eq_some {k : Bytes} {id : UInt32} {c : Bytes} :
    splitRowKey k = some (id, c) ↔ k = rowKeyPrefix id ++ c := by
  refine ⟨fun h => ?_, fun h => h ▸ splitRowKey_rowKeyPrefix id c⟩
  unfold splitRowKey at h
  split at h
  · cases h
  next hrow =>
  simp only [ne_eq, not_or, not_not, not_lt] at hrow
  obtain ⟨hhead, hlen⟩ := hrow
  cases k with
  | nil => cases hhead
  | cons b rest =>
    obtain rfl : b = rowNamespace := Option.some.inj hhead
    have hlen4 : (rest.take 4).length = 4 := by
      simp only [List.length_cons] at hlen
      simp
      omega
    have hlt : ofBe (rest.take 4) < 2 ^ 32 := by
      have := ofLe_lt (rest.take 4).reverse
      rwa [List.length_reverse, hlen4] at this
    have hbe : be 4 (ofBe (rest.take 4)) = rest.take 4 := by
      have := be_ofBe (rest.take 4)
      rwa [hlen4] at this
    cases h
    rw [rowKeyPrefix, List.drop_one, List.tail_cons, UInt32.toNat_ofNat_of_lt' hlt, hbe,
      List.cons_append, List.drop_succ_cons, List.take_append_drop]

/-! ## Catalog keys -/

/-- The row namespace: where the first byte of every row key, and of no catalog key, lies. -/
def IsRowKey (k : Bytes) : Prop := k.head? = some rowNamespace

instance : DecidablePred IsRowKey := fun k =>
  inferInstanceAs (Decidable (k.head? = some rowNamespace))

@[simp] theorem isRowKey_rowKeyPrefix (id : UInt32) (c : Bytes) :
    IsRowKey (rowKeyPrefix id ++ c) := rfl

theorem isRowKey_of_rowKey {id : UInt32} {pk : Value} {ty : ColumnType} {k : Bytes}
    (h : rowKey id pk ty = .ok k) : IsRowKey k := by
  obtain ⟨c, -, rfl⟩ := rowKey_ok h
  exact isRowKey_rowKeyPrefix id c

theorem isRowKey_of_isPrefix {id : UInt32} {k : Bytes} (h : rowKeyPrefix id <+: k) :
    IsRowKey k := by
  obtain ⟨c, rfl⟩ := h
  exact isRowKey_rowKeyPrefix id c

@[simp] theorem not_isRowKey_catalogCounterKey : ¬ IsRowKey catalogCounterKey := by decide

@[simp] theorem not_isRowKey_catalogIndexKey : ¬ IsRowKey catalogIndexKey := by decide

theorem catalogTableKey_eq_none {name : String} : catalogTableKey name = none ↔ name = "" := by
  simp [catalogTableKey]

theorem catalogTableKey_eq_some {name : String} {k : Bytes} :
    catalogTableKey name = some k ↔
      name ≠ "" ∧ k = [catalogNamespace, catalogTableTag] ++ utf8 name := by
  by_cases h : name = "" <;> simp [catalogTableKey, h, eq_comm]

theorem catalogTableKey_inj {name name' : String} {k : Bytes} (h : catalogTableKey name = some k)
    (h' : catalogTableKey name' = some k) : name = name' := by
  obtain ⟨-, rfl⟩ := catalogTableKey_eq_some.mp h
  obtain ⟨-, heq⟩ := catalogTableKey_eq_some.mp h'
  simpa using heq

theorem not_isRowKey_of_catalogTableKey {name : String} {k : Bytes}
    (h : catalogTableKey name = some k) : ¬ IsRowKey k := by
  obtain ⟨-, rfl⟩ := catalogTableKey_eq_some.mp h
  simp [IsRowKey, catalogNamespace, rowNamespace]

theorem catalogTableKey_ne_counter {name : String} {k : Bytes}
    (h : catalogTableKey name = some k) : k ≠ catalogCounterKey := by
  obtain ⟨-, rfl⟩ := catalogTableKey_eq_some.mp h
  simp [catalogCounterKey, catalogTableTag, catalogCounterTag]

theorem catalogTableKey_ne_index {name : String} {k : Bytes}
    (h : catalogTableKey name = some k) : k ≠ catalogIndexKey := by
  obtain ⟨-, rfl⟩ := catalogTableKey_eq_some.mp h
  simp [catalogIndexKey, catalogTableTag, catalogIndexTag]

theorem catalogCounterKey_ne_index : catalogCounterKey ≠ catalogIndexKey := by decide

end Choam

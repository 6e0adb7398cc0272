import Choam.Engine.Eval

/-!
# The key space

Every key that the program writes stands for one object: the counter, the index, a table's entry,
or the row of one table with one primary key. The keys of rows are ordered as table ids and, within
a table, as primary keys are; a table's rows are the keys under its prefix; and a row key can be
taken apart again (`key_space`).
-/

namespace Choam

open ByteString

/-- What a key of the store stands for. -/
inductive KeyObject where
  | counter
  | index
  | table (name : String)
  | row (tableId : UInt32) (pk : Value)
  deriving DecidableEq

namespace KeyObject

/-- The key of the object, if it has one; `ty` are the types of the primary keys. -/
def key (ty : UInt32 → ColumnType) : KeyObject → Option Bytes
  | counter => some catalogCounterKey
  | index => some catalogIndexKey
  | table name => catalogTableKey name
  | row id pk => (rowKey id pk (ty id)).toOption

/-- Tables that have a name, and rows whose primary key has the type of its table. -/
def HasKey (ty : UInt32 → ColumnType) : KeyObject → Prop
  | counter | index => True
  | table name => name ≠ ""
  | row id pk => pk.columnType = some (ty id)

variable {ty : UInt32 → ColumnType} {id : UInt32} {pk : Value} {k : Bytes}

theorem key_row : (row id pk).key ty = some k ↔ rowKey id pk (ty id) = .ok k := by
  rw [key]
  cases rowKey id pk (ty id) <;> simp [Except.toOption]

theorem key_ne_none {o : KeyObject} : o.key ty ≠ none ↔ o.HasKey ty := by
  cases o with
  | counter | index => simp [key, HasKey]
  | table name => simp [key, HasKey, catalogTableKey_eq_none]
  | row id pk =>
    rw [HasKey, Option.ne_none_iff_exists', ← @rowKey_isOk id]
    exact exists_congr fun k => key_row

theorem key_table {name : String} (h : (table name).key ty = some k) :
    catalogTableKey name = some k := h

/-- Exactly the rows lie in the row namespace. -/
theorem isRowKey_iff {o : KeyObject} (h : o.key ty = some k) :
    IsRowKey k ↔ ∃ id pk, o = .row id pk := by
  cases o with
  | counter =>
    cases h
    simp
  | index =>
    cases h
    simp
  | table name => simp [not_isRowKey_of_catalogTableKey (key_table h)]
  | row id pk => simp [isRowKey_of_rowKey (key_row.mp h)]

/-- Two objects with one key are the same. -/
theorem key_inj {o o' : KeyObject} (h : o.key ty = some k) (h' : o'.key ty = some k) : o = o' := by
  by_cases hrow : IsRowKey k
  · obtain ⟨id, pk, rfl⟩ := (isRowKey_iff h).mp hrow
    obtain ⟨id', pk', rfl⟩ := (isRowKey_iff h').mp hrow
    obtain ⟨c, -, hk⟩ := rowKey_ok (key_row.mp h)
    obtain ⟨c', -, hk'⟩ := rowKey_ok (key_row.mp h')
    obtain ⟨rfl, -⟩ := rowKeyPrefix_append_inj.mp (hk.symm.trans hk')
    rw [rowKey_inj (key_row.mp h) (key_row.mp h')]
  · cases o with
    | row id pk => exact absurd ((isRowKey_iff h).mpr ⟨id, pk, rfl⟩) hrow
    | counter =>
      cases h
      cases o' with
      | counter => rfl
      | index => exact absurd (Option.some.inj h').symm catalogCounterKey_ne_index
      | table name => exact absurd rfl (catalogTableKey_ne_counter (key_table h'))
      | row id pk => exact absurd ((isRowKey_iff h').mpr ⟨id, pk, rfl⟩) hrow
    | index =>
      cases h
      cases o' with
      | counter => exact absurd (Option.some.inj h') catalogCounterKey_ne_index
      | index => rfl
      | table name => exact absurd rfl (catalogTableKey_ne_index (key_table h'))
      | row id pk => exact absurd ((isRowKey_iff h').mpr ⟨id, pk, rfl⟩) hrow
    | table name =>
      cases o' with
      | counter => exact absurd (Option.some.inj h').symm (catalogTableKey_ne_counter (key_table h))
      | index => exact absurd (Option.some.inj h').symm (catalogTableKey_ne_index (key_table h))
      | table name' => rw [catalogTableKey_inj (key_table h) (key_table h')]
      | row id pk => exact absurd ((isRowKey_iff h').mpr ⟨id, pk, rfl⟩) hrow

end KeyObject

/-! ## The order of row keys -/

theorem rowKeyPrefix_lt {id id' : UInt32} : rowKeyPrefix id < rowKeyPrefix id' ↔ id < id' := by
  rw [rowKeyPrefix, rowKeyPrefix, List.cons_lt_cons_iff, UInt32.lt_iff_toNat_lt,
    be_lt_be_iff id.toNat_lt id'.toNat_lt]
  simp

/-- Primary keys compare as their encodings do. -/
theorem compare_encodeKeyComponent {v w : Value} {ty : ColumnType} {c d : Bytes}
    (hv : encodeKeyComponent v ty = .ok c) (hw : encodeKeyComponent w ty = .ok d) :
    compare v w = some (lexCmp c d) := by
  have hvty := encodeKeyComponent_isOk.mp ⟨c, hv⟩
  have hwty := encodeKeyComponent_isOk.mp ⟨d, hw⟩
  cases v with
  | null => cases hvty
  | integer x =>
    obtain rfl : ty = .integer := (Option.some.inj hvty).symm
    cases w <;> cases hwty
    next y =>
    have heq : be 8 (x.toUInt64 ^^^ signBit).toNat = be 8 (y.toUInt64 ^^^ signBit).toNat ↔ x = y := by
      refine ⟨fun h => ?_, fun h => by rw [h]⟩
      have hx : encodeKeyComponent (.integer x) .integer = .ok (be 8 (x.toUInt64 ^^^ signBit).toNat) :=
        rfl
      have hsame := encodeKeyComponent_inj hx (w := .integer y) (congrArg Except.ok h.symm)
      exact Value.integer.inj hsame
    cases hv
    cases hw
    simp only [compare, lexCmp, compareOfLessAndEq, keyComponent_lt_integer, heq]
  | text x =>
    obtain rfl : ty = .text := (Option.some.inj hvty).symm
    cases w <;> cases hwty
    cases hv
    cases hw
    rfl
  | bytes x =>
    obtain rfl : ty = .bytes := (Option.some.inj hvty).symm
    cases w <;> cases hwty
    cases hv
    cases hw
    rfl
  | boolean x =>
    obtain rfl : ty = .boolean := (Option.some.inj hvty).symm
    cases w <;> cases hwty
    next y =>
    cases hv
    cases hw
    cases x <;> cases y <;> decide

/-- **The key space.** For every choice of primary-key types: the objects that have a key; equal
keys mean equal objects; rows are ordered by table id and then by primary key; a table's prefix is
that of its rows and of nothing else; and exactly row keys can be taken apart, into what they were
made of. -/
theorem key_space (ty : UInt32 → ColumnType) :
    (∀ o : KeyObject, o.key ty ≠ none ↔ o.HasKey ty) ∧
    (∀ (o o' : KeyObject) k k', o.key ty = some k → o'.key ty = some k' → (k = k' ↔ o = o')) ∧
    (∀ id pk id' pk' k k', rowKey id pk (ty id) = .ok k → rowKey id' pk' (ty id') = .ok k' →
      (id ≠ id' → (k < k' ↔ id < id')) ∧ (id = id' → compare pk pk' = some (lexCmp k k'))) ∧
    (∀ (o : KeyObject) k id, o.key ty = some k →
      (rowKeyPrefix id <+: k ↔ ∃ pk, o = .row id pk)) ∧
    (∀ id pk k, rowKey id pk (ty id) = .ok k →
      ∃ c, splitRowKey k = some (id, c) ∧ decodeKeyComponent c (ty id) = .ok pk) ∧
    ∀ (o : KeyObject) k, o.key ty = some k → (∀ id pk, o ≠ .row id pk) → splitRowKey k = none := by
  refine ⟨fun o => KeyObject.key_ne_none, ?_, ?_, ?_, ?_, ?_⟩
  · intro o o' k k' h h'
    constructor
    · rintro rfl
      exact KeyObject.key_inj h h'
    · rintro rfl
      exact Option.some.inj (h.symm.trans h')
  · intro id pk id' pk' k k' h h'
    obtain ⟨c, hc, rfl⟩ := rowKey_ok h
    obtain ⟨c', hc', rfl⟩ := rowKey_ok h'
    refine ⟨fun hne => ?_, ?_⟩
    · rw [append_lt_append_of_ne (by simp) (fun h => hne (rowKeyPrefix_inj.mp h)), rowKeyPrefix_lt]
    · rintro rfl
      rw [lexCmp_append]
      exact compare_encodeKeyComponent hc hc'
  · intro o k id h
    constructor
    · rintro ⟨rest, rfl⟩
      obtain ⟨id', pk, rfl⟩ := (KeyObject.isRowKey_iff h).mp (isRowKey_rowKeyPrefix id rest)
      obtain ⟨c, -, heq⟩ := rowKey_ok (KeyObject.key_row.mp h)
      obtain ⟨rfl, -⟩ := rowKeyPrefix_append_inj.mp heq
      exact ⟨pk, rfl⟩
    · rintro ⟨pk, rfl⟩
      obtain ⟨c, -, rfl⟩ := rowKey_ok (KeyObject.key_row.mp h)
      exact List.prefix_append _ _
  · intro id pk k h
    obtain ⟨c, hc, rfl⟩ := rowKey_ok h
    exact ⟨c, splitRowKey_rowKeyPrefix id c, decodeKeyComponent_encode hc⟩
  · intro o k h hrow
    by_contra hsome
    obtain ⟨⟨id, c⟩, hsplit⟩ := Option.ne_none_iff_exists'.mp hsome
    obtain rfl := splitRowKey_eq_some.mp hsplit
    obtain ⟨id', pk, rfl⟩ := (KeyObject.isRowKey_iff h).mp (isRowKey_rowKeyPrefix id c)
    exact hrow id' pk rfl

end Choam

import Mathlib.Data.List.Perm.Subperm
import Choam.Verify.Statement

/-!
# The invariant of the store

`CatalogOk` says for which tables the catalog keys of the committed contents stand, `RowOk` that a
stored row belongs to a table and decodes under its schema. `Sound` joins them with what makes
first-committer-wins protect the catalog: a committed write set that touches the catalog touches
the counter of table ids (`HistoryOk`), so that two overlapping creations cannot both commit.
`TxnOk` is the invariant of an open transaction on rows. That values and names fit their length
fields is only known where all callers promise it (`Promises`).
-/

namespace Choam

open ByteString Overlay Catalog

variable {E : Type} {H : Host}

/-! ## What stays -/

/-- Table entries are written once. -/
def EntriesPersist (c c' : Contents Bytes Bytes) : Prop :=
  ∀ name k bytes, catalogTableKey name = some k → c k = some bytes → c' k = some bytes

namespace EntriesPersist

theorem refl (c : Contents Bytes Bytes) : EntriesPersist c c := fun _ _ _ _ h => h

theorem trans {a b c : Contents Bytes Bytes} (h₁ : EntriesPersist a b) (h₂ : EntriesPersist b c) :
    EntriesPersist a c := fun name k bytes hk h => h₂ name k bytes hk (h₁ name k bytes hk h)

theorem lookup {c c' : Contents Bytes Bytes} (hp : EntriesPersist c c') {name : String}
    {h : TableHandle} (hl : lookupTable c name = .ok (some h)) :
    lookupTable c' name = .ok (some h) := by
  obtain ⟨k, bytes, hk, hc, hd⟩ := lookupTable_eq_some.mp hl
  exact lookupTable_eq_some.mpr ⟨k, bytes, hk, hp name k bytes hk hc, hd⟩

end EntriesPersist

/-! ## The catalog -/

/-- Ids are not shared by few tables. -/
theorem ofNat_inj {i j : ℕ} (hi : i < 2 ^ 32) (hj : j < 2 ^ 32)
    (h : UInt32.ofNat i = UInt32.ofNat j) : i = j := by
  have htoNat := congrArg UInt32.toNat h
  rwa [UInt32.toNat_ofNat_of_lt' (by simp only [UInt32.size]; omega),
    UInt32.toNat_ofNat_of_lt' (by simp only [UInt32.size]; omega)] at htoNat

/-- The catalog keys of the committed contents stand for the tables `ts`, in the order of their
creation. Ids wrap around after 2^32 tables; the index is only right as long as its fields hold
what is written to them. -/
structure CatalogOk (c : Contents Bytes Bytes) (ts : List Schema) : Prop where
  nodup : (ts.map (·.tableName)).Nodup
  named : ∀ s ∈ ts, s.tableName ≠ ""
  entry : ∀ i s k, ts[i]? = some s → catalogTableKey s.tableName = some k →
    c k = some (encodeTableEntry (UInt32.ofNat i) s)
  listed : ∀ name k, catalogTableKey name = some k → c k ≠ none → name ∈ ts.map (·.tableName)
  counter : nextTableId (c catalogCounterKey) = UInt32.ofNat ts.length
  index : (∀ s ∈ ts, FitsName s.tableName) → ts.length < 2 ^ 32 →
    indexedNames (c catalogIndexKey) = .ok (ts.map (·.tableName))

namespace CatalogOk

variable {c : Contents Bytes Bytes} {ts : List Schema}

theorem empty : CatalogOk (fun _ => none) [] where
  nodup := List.nodup_nil
  named := by simp
  entry := by simp
  listed _ _ _ hlive := absurd rfl hlive
  counter := rfl
  index _ _ := rfl

/-- Only the catalog keys matter. -/
theorem congr {c' : Contents Bytes Bytes} (h : CatalogOk c ts)
    (hcat : ∀ k, ¬ IsRowKey k → c' k = c k) : CatalogOk c' ts where
  nodup := h.nodup
  named := h.named
  entry i s k hi hk := by
    rw [hcat k (not_isRowKey_of_catalogTableKey hk)]
    exact h.entry i s k hi hk
  listed name k hk hlive := by
    rw [hcat k (not_isRowKey_of_catalogTableKey hk)] at hlive
    exact h.listed name k hk hlive
  counter := by
    rw [hcat _ not_isRowKey_catalogCounterKey]
    exact h.counter
  index hnames hlen := by
    rw [hcat _ not_isRowKey_catalogIndexKey]
    exact h.index hnames hlen

/-- A live table entry is that of one of the tables. -/
theorem exists_of_lookup (h : CatalogOk c ts) {name : String} {th : TableHandle}
    (hl : lookupTable c name = .ok (some th)) : ∃ (i : Nat) (s : Schema), ts[i]? = some s ∧
      s.tableName = name ∧ th.tableId = UInt32.ofNat i ∧
      decodeTableEntry (encodeTableEntry (UInt32.ofNat i) s) = .ok (th.tableId, th.schema) := by
  obtain ⟨k, bytes, hk, hc, hd⟩ := lookupTable_eq_some.mp hl
  obtain ⟨s, hs, rfl⟩ := List.mem_map.mp (h.listed name k hk (by simp [hc]))
  obtain ⟨i, hi⟩ := List.mem_iff_getElem?.mp hs
  have hentry := h.entry i s k hi hk
  rw [hc] at hentry
  cases hentry
  exact ⟨i, s, hi, rfl, decodeTableEntry_id hd, hd⟩

/-- While ids have not wrapped around, no two tables share one. -/
theorem lookup_inj (h : CatalogOk c ts) (hfew : ts.length ≤ 2 ^ 32) {name name' : String}
    {th th' : TableHandle} (hl : lookupTable c name = .ok (some th))
    (hl' : lookupTable c name' = .ok (some th')) (hid : th.tableId = th'.tableId) :
    name = name' ∧ th = th' := by
  obtain ⟨i, s, hi, rfl, hti, -⟩ := h.exists_of_lookup hl
  obtain ⟨j, s', hj, rfl, htj, -⟩ := h.exists_of_lookup hl'
  have hilt := (List.getElem?_eq_some_iff.mp hi).1
  have hjlt := (List.getElem?_eq_some_iff.mp hj).1
  rw [hti, htj] at hid
  obtain rfl := ofNat_inj (hilt.trans_le hfew) (hjlt.trans_le hfew) hid
  rw [hi] at hj
  cases hj
  rw [hl] at hl'
  cases hl'
  exact ⟨rfl, rfl⟩

end CatalogOk

/-- Fewer than 2^32 tables exist. -/
def FewTables (c : Contents Bytes Bytes) : Prop :=
  ∃ names : List String, names.length < 2 ^ 32 ∧
    ∀ name k, catalogTableKey name = some k → c k ≠ none → name ∈ names

theorem CatalogOk.length_lt {c : Contents Bytes Bytes} {ts : List Schema} (h : CatalogOk c ts)
    (hfew : FewTables c) : ts.length < 2 ^ 32 := by
  obtain ⟨names, hlen, hnames⟩ := hfew
  have hsub : ts.map (·.tableName) ⊆ names := fun name hname => by
    obtain ⟨s, hs, rfl⟩ := List.mem_map.mp hname
    obtain ⟨i, hi⟩ := List.mem_iff_getElem?.mp hs
    cases hk : catalogTableKey s.tableName with
    | none => exact absurd (catalogTableKey_eq_none.mp hk) (h.named s hs)
    | some k => exact hnames _ k hk (by simp [h.entry i s k hi hk])
  have := (List.subperm_of_subset h.nodup hsub).length_le
  rw [List.length_map] at this
  omega

theorem FewTables.of_persist {c c' : Contents Bytes Bytes} (hp : EntriesPersist c c')
    (h : FewTables c') : FewTables c := by
  obtain ⟨names, hlen, hnames⟩ := h
  refine ⟨names, hlen, fun name k hk hc => hnames name k hk ?_⟩
  obtain ⟨bytes, hbytes⟩ := Option.ne_none_iff_exists'.mp hc
  simp [hp name k bytes hk hbytes]

/-! ## Rows -/

/-- The entry is a row of an existing table, under its own primary key. -/
def RowOk (c : Contents Bytes Bytes) (k v : Bytes) : Prop :=
  ∃ name th pk row, lookupTable c name = .ok (some th) ∧
    rowKey th.tableId pk th.schema.primaryKeyType = .ok k ∧ decodeRow th.schema v = .ok row ∧
    row[th.schema.primaryKey]? = some pk ∧ th.schema.IsRow row

/-- So is every row of `m`, by the catalog `c`. -/
def RowsOk (c m : Contents Bytes Bytes) : Prop := ∀ k v, IsRowKey k → m k = some v → RowOk c k v

theorem RowOk.persist {c c' : Contents Bytes Bytes} (hp : EntriesPersist c c') {k v : Bytes}
    (h : RowOk c k v) : RowOk c' k v := by
  obtain ⟨name, th, pk, row, hl, hrest⟩ := h
  exact ⟨name, th, pk, row, hp.lookup hl, hrest⟩

theorem RowsOk.persist {c c' m : Contents Bytes Bytes} (hp : EntriesPersist c c')
    (h : RowsOk c m) : RowsOk c' m := fun k v hk hv => (h k v hk hv).persist hp

/-- What a write puts under a row key is a row of its table. -/
theorem rowOk_of_encode {c : Contents Bytes Bytes} {name : String} {th : TableHandle} {pk : Value}
    {row : Row} {k v : Bytes} (hl : lookupTable c name = .ok (some th))
    (hpk : row[th.schema.primaryKey]? = some pk)
    (hk : rowKey th.tableId pk th.schema.primaryKeyType = .ok k)
    (hv : encodeRow th.schema row = .ok v) (hfits : Row.Fits row) : RowOk c k v :=
  ⟨name, th, pk, row, hl, hk, decodeRow_encodeRow hv hfits, hpk, encodeRow_isOk.mp ⟨v, hv⟩⟩

/-- Under the keys of one table lie only its own rows, while no two tables share an id. -/
theorem RowOk.decode {c : Contents Bytes Bytes} {ts : List Schema} (hcat : CatalogOk c ts)
    (hfew : ts.length ≤ 2 ^ 32) {name : String} {th : TableHandle} {k v : Bytes}
    (hl : lookupTable c name = .ok (some th)) (hk : rowKeyPrefix th.tableId <+: k)
    (h : RowOk c k v) : ∃ pk row, rowKey th.tableId pk th.schema.primaryKeyType = .ok k ∧
      decodeRow th.schema v = .ok row ∧ row[th.schema.primaryKey]? = some pk ∧
      th.schema.IsRow row := by
  obtain ⟨name', th', pk, row, hl', hrow, hdec, hpk, his⟩ := h
  obtain ⟨-, rfl⟩ := hcat.lookup_inj hfew hl' hl (rowKey_tableId hrow hk)
  exact ⟨pk, row, hrow, hdec, hpk, his⟩

/-! ## The store and its transactions -/

/-- What all callers promise: that every text and byte string stored is shorter than 2^32 bytes,
and that names and column counts of created tables fit 16 bits. -/
structure Promises where
  values : Prop
  names : Prop

/-- A key of the catalog: its counter, its index, or the entry of a table. -/
def IsCatalogKey (k : Bytes) : Prop :=
  k = catalogCounterKey ∨ k = catalogIndexKey ∨ ∃ name, catalogTableKey name = some k

/-- A committed write set touches keys of rows and of the catalog only, and where it touches the
catalog, it touches the counter. -/
def HistoryOk (h : List WriteSet) : Prop :=
  ∀ w ∈ h, ∀ k, ¬ IsRowKey k → w k ≠ none → IsCatalogKey k ∧ w catalogCounterKey ≠ none

theorem HistoryOk.classify {h : List WriteSet} (hok : HistoryOk h) {k v : Bytes}
    (hv : replay h k = some v) : IsRowKey k ∨ IsCatalogKey k := by
  by_cases hrow : IsRowKey k
  · exact .inl hrow
  · obtain ⟨w, hw, hne⟩ := exists_write_of_replay hv
    exact .inr (hok w hw k hrow hne).1

variable (C : H.Contract) (P : Promises)

structure Sound (s : H.Store) : Prop where
  catalog : ∃ ts, CatalogOk (C.committed s) ts ∧ (P.names → ∀ s ∈ ts, s.FitsEntry)
  history : HistoryOk (C.history s)
  rows : P.values → RowsOk (C.committed s) (C.committed s)

/-- The empty database. -/
theorem Sound.of_nil {s : H.Store} (h : C.history s = []) : Sound C P s := by
  have hc : C.committed s = fun _ => none := by simp [Host.Contract.committed, h]
  refine ⟨⟨[], hc ▸ CatalogOk.empty, by simp⟩, by simp [HistoryOk, h], fun _ k v _ hv => ?_⟩
  simp [hc] at hv

/-- What a client may rely on between two of its own steps. -/
structure Rely (s s' : H.Store) : Prop where
  history : C.history s <+: C.history s'
  entries : EntriesPersist (C.committed s) (C.committed s')
  sound : Sound C P s → Sound C P s'

/-- An open transaction that writes rows only. -/
structure TxnOk (t : H.Txn) (s : H.Store) : Prop where
  snapshot : C.snapshot t <+: C.history s
  rowKeys : ∀ k, C.writes t k ≠ none → IsRowKey k
  rows : P.values → RowsOk (C.committed s) (C.view t)

variable {C P}

namespace Rely

theorem refl (s : H.Store) : Rely C P s s := ⟨List.prefix_rfl, EntriesPersist.refl _, id⟩

theorem trans {a b c : H.Store} (h₁ : Rely C P a b) (h₂ : Rely C P b c) : Rely C P a c :=
  ⟨h₁.history.trans h₂.history, h₁.entries.trans h₂.entries, fun h => h₂.sound (h₁.sound h)⟩

/-- Steps that commit nothing. -/
theorem of_history_eq {s s' : H.Store} (h : C.history s' = C.history s) : Rely C P s s' := by
  have hc : C.committed s' = C.committed s := by simp [Host.Contract.committed, h]
  exact ⟨h ▸ List.prefix_rfl, fun name k bytes _ hv => by rw [hc]; exact hv,
    fun hs => ⟨by rw [hc]; exact hs.catalog, by rw [h]; exact hs.history, by rw [hc]; exact hs.rows⟩⟩

end Rely

namespace TxnOk

variable {t : H.Txn} {s s' : H.Store}

theorem stable (h : TxnOk C P t s) (hr : Rely C P s s') : TxnOk C P t s' :=
  ⟨h.snapshot.trans hr.history, h.rowKeys, fun hf => (h.rows hf).persist hr.entries⟩

theorem begin (hs : Sound C P s) : TxnOk C P (H.begin s).1 s :=
  ⟨by simp, by simp, fun hf => by simpa using hs.rows hf⟩

theorem put (h : TxnOk C P t s) {k v : Bytes} (hk : IsRowKey k)
    (hrow : P.values → RowOk (C.committed s) k v) : TxnOk C P (H.put t k v) s := by
  refine ⟨by simpa using h.snapshot, fun k' hk' => ?_, fun hf k' v' hk' hv' => ?_⟩
  · by_cases hkk : k' = k
    · exact hkk ▸ hk
    · rw [C.writes_put, Writes.set_of_ne _ hkk] at hk'
      exact h.rowKeys k' hk'
  · rw [C.view_put, Function.update_apply] at hv'
    split at hv'
    next hkk =>
      cases hv'
      exact hkk ▸ hrow hf
    · exact h.rows hf k' v' hk' hv'

theorem delete (h : TxnOk C P t s) {k : Bytes} (hk : IsRowKey k) :
    TxnOk C P (H.delete t k) s := by
  refine ⟨by simpa using h.snapshot, fun k' hk' => ?_, fun hf k' v' hk' hv' => ?_⟩
  · by_cases hkk : k' = k
    · exact hkk ▸ hk
    · rw [C.writes_delete, Writes.set_of_ne _ hkk] at hk'
      exact h.rowKeys k' hk'
  · rw [C.view_delete, Function.update_apply] at hv'
    split at hv'
    · cases hv'
    · exact h.rows hf k' v' hk' hv'

/-- A transaction on rows leaves the catalog as it was at its beginning. -/
theorem view_of_not_isRowKey (h : TxnOk C P t s) {k : Bytes} (hk : ¬ IsRowKey k) :
    C.view t k = replay (C.snapshot t) k :=
  Writes.apply_of_none (by by_contra hne; exact hk (h.rowKeys k hne)) _

/-- Committing a transaction on rows keeps the invariant. -/
theorem commit (h : TxnOk C P t s) : Rely C P s (H.commit t s).2 := by
  cases C.commit_cases h.snapshot with
  | conflict k hres hk hsince hsame => exact Rely.of_history_eq hsame
  | store e hres hsame => exact Rely.of_history_eq hsame
  | ok hres hfree happ =>
    have hc : C.committed (H.commit t s).2 = (C.writes t).apply (C.committed s) := happ.replay
    have hcat : ∀ k, ¬ IsRowKey k → C.committed (H.commit t s).2 k = C.committed s k :=
      fun k hk => by
        rw [hc]
        exact Writes.apply_of_none (by by_contra hne; exact hk (h.rowKeys k hne)) _
    have hp : EntriesPersist (C.committed s) (C.committed (H.commit t s).2) :=
      fun name k bytes hk hv => by
        rw [hcat k (not_isRowKey_of_catalogTableKey hk)]
        exact hv
    refine ⟨happ.extends, hp, fun hs => ⟨?_, ?_, fun hf k v hk hv => ?_⟩⟩
    · obtain ⟨ts, hts, hnames⟩ := hs.catalog
      exact ⟨ts, hts.congr hcat, hnames⟩
    · intro w hw k hk hne
      rcases happ with heq | ⟨-, heq⟩
      · rw [heq, List.mem_append, List.mem_singleton] at hw
        rcases hw with hw | rfl
        · exact hs.history w hw k hk hne
        · exact absurd (h.rowKeys k hne) hk
      · exact hs.history w (heq ▸ hw) k hk hne
    · rw [hc] at hv
      cases hw : C.writes t k with
      | none =>
        rw [Writes.apply_of_none hw] at hv
        exact (hs.rows hf k v hk hv).persist hp
      | some o =>
        rw [Writes.apply_of_some hw] at hv
        have hview : C.view t k = some v := by
          rw [Host.Contract.view, Writes.apply_of_some hw, hv]
        exact (h.rows hf k v hk hview).persist hp

end TxnOk

end Choam

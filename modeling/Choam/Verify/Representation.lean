import Choam.Store.Reference
import Choam.Verify.Protocol

/-!
# What the store holds

Every live key of a reachable store is a catalog key or the key of a row of exactly one table,
under its own primary key, and the bytes of a row decode to a row of that table's schema. Nothing
checks this when rows are read, and nothing has to.
-/

namespace Choam

open ByteString Overlay Interleave Catalog

variable {H : Host} {C : H.Contract} {P : Promises} {u : Unicode}

/-- The entry is a catalog entry, or a row of exactly one existing table. -/
def Placed (c : Contents Bytes Bytes) (k v : Bytes) : Prop :=
  IsCatalogKey k ∨ ∃ name th pk row, lookupTable c name = .ok (some th) ∧
    (∀ name' th', lookupTable c name' = .ok (some th') → rowKeyPrefix th'.tableId <+: k →
      name' = name) ∧
    rowKey th.tableId pk th.schema.primaryKeyType = .ok k ∧ decodeRow th.schema v = .ok row ∧
    row[th.schema.primaryKey]? = some pk ∧ th.schema.IsRow row

theorem RowOk.placed {c : Contents Bytes Bytes} {ts : List Schema} (hcat : CatalogOk c ts)
    (hfew : ts.length ≤ 2 ^ 32) {k v : Bytes} (h : RowOk c k v) : Placed c k v := by
  obtain ⟨name, th, pk, row, hl, hrow, hdec, hpk, his⟩ := h
  refine .inr ⟨name, th, pk, row, hl, fun name' th' hl' hk' => ?_, hrow, hdec, hpk, his⟩
  exact (hcat.lookup_inj hfew hl hl' (rowKey_tableId hrow hk')).1.symm

theorem Sound.placed {s : H.Store} (hs : Sound C P s) (hv : P.values)
    (hfew : FewTables (C.committed s)) {k v : Bytes} (hk : C.committed s k = some v) :
    Placed (C.committed s) k v := by
  obtain ⟨ts, hts, -⟩ := hs.catalog
  rcases hs.history.classify hk with hrow | hcat
  · exact (hs.rows hv k v hrow hk).placed hts (hts.length_lt hfew).le
  · exact .inl hcat

/-- So is everything that an open transaction sees. -/
theorem TxnOk.placed {t : H.Txn} {s : H.Store} (hs : Sound C P s) (ht : TxnOk C P t s)
    (hv : P.values) (hfew : FewTables (C.committed s)) {k v : Bytes} (hk : C.view t k = some v) :
    Placed (C.committed s) k v := by
  by_cases hrow : IsRowKey k
  · obtain ⟨ts, hts, -⟩ := hs.catalog
    exact (ht.rows hv k v hrow hk).placed hts (hts.length_lt hfew).le
  · rw [ht.view_of_not_isRowKey hrow] at hk
    have hhist : HistoryOk (C.snapshot t) := fun w hw => hs.history w (ht.snapshot.subset hw)
    exact .inl ((hhist.classify hk).resolve_left hrow)

/-- The transaction that a client has open. -/
def Local.txn : Local H → Option H.Txn
  | .session self => self.txn
  | .handle txn => txn

theorem LocalOk.txnOk {l : Local H} {s : H.Store} (h : LocalOk C P l s) {t : H.Txn}
    (ht : l.txn = some t) : TxnOk C P t s := by
  cases l with
  | session self => exact h t ht
  | handle txn => exact h t ht

/-! ## Every reachable store -/

/-- Text and byte strings are shorter than 2^32 bytes; names may have any length. -/
def valuesFit : Promises := ⟨True, False⟩

section Reachable

variable {ι : Type} [DecidableEq ι]

/-- **The representation invariant**, in every interleaving of any number of clients of a new
database: what is committed, and what an open transaction sees, is placed; and nothing that was
read was undecodable. -/
theorem placed_of_reachable {s₀ : H.Store} (hs₀ : C.history s₀ = []) {l₀ : ι → Local H}
    (hl₀ : ∀ i, (l₀ i).Idle) {g : (system H u).Config ι}
    (hg : Reachable (fun (c : Call) _ => c.FitsValues u) (start s₀ l₀) g)
    (hfew : FewTables (C.committed g.shared)) :
    (∀ k v, C.committed g.shared k = some v → Placed (C.committed g.shared) k v) ∧
    (∀ i past l t, g.client i = ⟨past, .idle l⟩ → l.txn = some t →
      ∀ k v, C.view t k = some v → Placed (C.committed g.shared) k v) ∧
    ∀ i, ∀ d ∈ (g.client i).past, ¬ d.reply.IsDecode := by
  have hgood : (protocol C valuesFit u).Good s₀ g :=
    good_of_reachable (fun c _ hc => ⟨fun _ => hc, False.elim⟩) (.of_nil C _ hs₀) hl₀ hg
  have hsound : Sound C valuesFit g.shared := hgood.shared.sound (.of_nil C _ hs₀)
  refine ⟨fun k v hk => hsound.placed trivial hfew hk, fun i past l t hi ht k v hk => ?_,
    fun i d hd => (hgood.client i).past d hd trivial hfew⟩
  have hclient := hgood.client i
  rw [hi] at hclient
  exact ((hclient.idle l rfl).2.txnOk ht).placed hsound trivial hfew hk

end Reachable

/-! ## A run -/

/-- The table name in a key of the catalog. -/
def tableNameOf (k : Bytes) : Option String := fromUtf8 (k.drop 2)

theorem tableNameOf_catalogTableKey {name : String} {k : Bytes}
    (h : catalogTableKey name = some k) : tableNameOf k = some name := by
  obtain ⟨-, rfl⟩ := catalogTableKey_eq_some.mp h
  simp [tableNameOf]

/-- Contents that live on fewer than 2^32 keys have few tables. -/
theorem fewTables_of_keys {c : Contents Bytes Bytes} {keys : List Bytes}
    (hlen : keys.length < 2 ^ 32) (hkeys : ∀ k, c k ≠ none → k ∈ keys) : FewTables c := by
  refine ⟨keys.filterMap tableNameOf, (List.length_filterMap_le _ _).trans_lt hlen,
    fun name k hk hlive => ?_⟩
  exact List.mem_filterMap.mpr ⟨k, hkeys k hlive, tableNameOf_catalogTableKey hk⟩

theorem Reference.fewTables {checks : Bool} {s : List Reference.WriteList}
    (hlen : (s.flatten.map (·.1)).length < 2 ^ 32) :
    FewTables ((Reference.contract checks).committed s) := by
  refine fewTables_of_keys hlen fun k hk => ?_
  obtain ⟨v, hv⟩ := Option.ne_none_iff_exists'.mp hk
  have hread : Reference.Txn.read ⟨s, []⟩ k = some v := by
    rw [← hv, ← (Reference.contract checks).get_committed]
    rfl
  obtain ⟨e, he, rfl⟩ := Reference.exists_of_read hread
  simpa using List.mem_map_of_mem (f := (·.1)) he

/-- The clients of a new database. -/
def newSessions : ℕ → Local (Reference.host true) := fun _ => .session Session.new

theorem idle_newSessions (i : ℕ) : (newSessions i).Idle := ⟨rfl, rfl⟩

/-- The run of some calls, made one after another on an empty reference store. -/
def sampleRun (calls : List (ℕ × Call)) : (system (Reference.host true) Unicode.ascii).Config ℕ :=
  solos (start ([] : List Reference.WriteList) newSessions) calls

theorem reachable_sampleRun {allow : Call → Local (Reference.host true) → Prop}
    {calls : List (ℕ × Call)} (h : ∀ c ∈ calls, ∀ l, allow c.2 l) :
    Reachable allow (start ([] : List Reference.WriteList) newSessions) (sampleRun calls) :=
  reachable_solos _ h

/-- CREATE TABLE a (k INTEGER PRIMARY KEY, v TEXT). -/
def createSample : Statement :=
  .createTable "a" [⟨"k", .integer, true, false⟩, ⟨"v", .text, false, false⟩]

/-- INSERT INTO a VALUES (k, 'x'). -/
def insertSample (k : Int64) : Statement :=
  .insert "a" none [[.literal (.integer k), .literal (.text "x")]]

/-- The invariant after a creation, a commit, and a statement in a transaction still open. -/
theorem placed_of_reachable_sample :
    let g := sampleRun [(0, .executeStatement createSample), (1, .executeStatement (insertSample 7)),
      (2, .executeStatement .begin), (2, .executeStatement (insertSample 8))]
    let c := (Reference.contract true).committed g.shared
    (∀ k v, c k = some v → Placed c k v) ∧
    (∀ i past l t, g.client i = ⟨past, .idle l⟩ → l.txn = some t →
      ∀ k v, (Reference.contract true).view t k = some v → Placed c k v) ∧
    ∀ i, ∀ d ∈ (g.client i).past, ¬ d.reply.IsDecode := by
  refine placed_of_reachable (C := Reference.contract true) (u := .ascii) rfl
    idle_newSessions (reachable_sampleRun ?_) (Reference.fewTables ?_)
  · simp [Call.FitsValues, Call.statement, createSample, insertSample, Statement.Fits, Expr.Fits,
      Literal.Fits, literalValue, Value.Fits]
    exact fun _ => by decide
  · decide +kernel

end Choam

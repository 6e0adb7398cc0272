import Choam.Verify.Invariant

/-!
# Creating a table

What the one commit of `createTable` does to the catalog. The transaction has read the catalog as
of its beginning; since it writes the counter, and so does every other creation, its commit only
succeeds on a catalog that is still the same (`catalog_unchanged`), and then appends one table to
it (`CatalogOk.create`).
-/

namespace Choam

open ByteString Overlay Catalog

variable {H : Host} {C : H.Contract} {P : Promises}

@[simp] theorem nextTableId_encode (id : UInt32) :
    nextTableId (some (le 4 id.toNat)) = id := by
  have hid : id.toNat < 256 ^ 4 := id.toNat_lt
  rw [nextTableId, if_pos (length_le _ _), ofLe_le_of_lt hid, UInt32.ofNat_toNat]

/-- While the counter is left alone, so is the rest of the catalog. -/
theorem catalog_unchanged {old new : List WriteSet} (hnew : HistoryOk new) (hp : old <+: new)
    (hcounter : ¬ WrittenSince old new catalogCounterKey) {k : Bytes} (hk : ¬ IsRowKey k) :
    replay new k = replay old k := by
  refine replay_eq_of_not_writtenSince hp fun ⟨w, hw, hne⟩ => hcounter ⟨w, hw, ?_⟩
  exact (hnew w (List.mem_of_mem_drop hw) k hk hne).2

/-- The changes that a creation makes to the catalog `c`. -/
structure Creates (c c' : Contents Bytes Bytes) (key : Bytes) (schema : Schema)
    (names : List String) : Prop where
  tableKey : catalogTableKey schema.tableName = some key
  fresh : c key = none
  listed : indexedNames (c catalogIndexKey) = .ok names
  counter : c' catalogCounterKey = some (le 4 (nextTableId (c catalogCounterKey) + 1).toNat)
  entry : c' key = some (encodeTableEntry (nextTableId (c catalogCounterKey)) schema)
  index : c' catalogIndexKey = some (encodeTableIndex (names ++ [schema.tableName]))
  rest : ∀ k, k ≠ catalogCounterKey → k ≠ key → k ≠ catalogIndexKey → c' k = c k

namespace Creates

variable {c c' : Contents Bytes Bytes} {key : Bytes} {schema : Schema} {names : List String}

theorem of_table {name : String} {k : Bytes} (h : Creates c c' key schema names)
    (hk : catalogTableKey name = some k) (hne : name ≠ schema.tableName) : c' k = c k := by
  refine h.rest k (catalogTableKey_ne_counter hk) (fun heq => hne ?_) (catalogTableKey_ne_index hk)
  subst heq
  exact catalogTableKey_inj hk h.tableKey

theorem of_isRowKey {k : Bytes} (h : Creates c c' key schema names) (hk : IsRowKey k) :
    c' k = c k := by
  refine h.rest k ?_ ?_ ?_
  · exact fun heq => not_isRowKey_catalogCounterKey (heq ▸ hk)
  · exact fun heq => not_isRowKey_of_catalogTableKey h.tableKey (heq ▸ hk)
  · exact fun heq => not_isRowKey_catalogIndexKey (heq ▸ hk)

theorem persist (h : Creates c c' key schema names) : EntriesPersist c c' :=
  fun name k bytes hk hv => by
    rwa [h.of_table hk fun heq => ?_]
    subst heq
    have := h.tableKey
    rw [hk] at this
    cases this
    rw [h.fresh] at hv
    cases hv

end Creates

/-- **A creation appends one table**, under the id that the counter held. -/
theorem CatalogOk.create {c c' : Contents Bytes Bytes} {ts : List Schema} {key : Bytes}
    {schema : Schema} {names : List String} (h : CatalogOk c ts)
    (hc : Creates c c' key schema names) : CatalogOk c' (ts ++ [schema]) := by
  have hnew : schema.tableName ∉ ts.map (·.tableName) := fun hmem => by
    obtain ⟨s, hs, hname⟩ := List.mem_map.mp hmem
    obtain ⟨i, hi⟩ := List.mem_iff_getElem?.mp hs
    have := h.entry i s key hi (hname ▸ hc.tableKey)
    rw [hc.fresh] at this
    cases this
  have hid : nextTableId (c catalogCounterKey) = UInt32.ofNat ts.length := h.counter
  refine ⟨?_, fun s hs => ?_, fun i s k hi hk => ?_, fun name k hk hlive => ?_, ?_,
    fun hfit hlen => ?_⟩
  · rw [List.map_append, List.map_singleton, List.nodup_append]
    refine ⟨h.nodup, List.pairwise_singleton _ _, fun a ha b hb => ?_⟩
    rw [List.mem_singleton] at hb
    subst hb
    exact fun heq => hnew (heq ▸ ha)
  · rcases List.mem_append.mp hs with hs | hs
    · exact h.named s hs
    · rw [List.mem_singleton] at hs
      exact hs ▸ (catalogTableKey_eq_some.mp hc.tableKey).1
  · rcases Nat.lt_or_ge i ts.length with hlt | hge
    · rw [List.getElem?_append_left hlt] at hi
      have hmem := List.mem_map_of_mem (f := (·.tableName)) (List.mem_of_getElem? hi)
      rw [hc.of_table hk fun heq => hnew (heq ▸ hmem)]
      exact h.entry i s k hi hk
    · rw [List.getElem?_append_right hge, List.getElem?_singleton] at hi
      split at hi
      · cases hi
        have hlen : i = ts.length := by omega
        subst hlen
        rw [hc.tableKey] at hk
        cases hk
        rw [hc.entry, hid]
      · cases hi
  · by_cases hname : name = schema.tableName
    · simp [hname]
    · rw [hc.of_table hk hname] at hlive
      have := h.listed name k hk hlive
      simp_all
  · rw [hc.counter, nextTableId_encode, hid, List.length_append, List.length_singleton,
      UInt32.ofNat_add]
    rfl
  · rw [List.length_append, List.length_singleton] at hlen
    have hnames := h.index (fun s hs => hfit s (by simp [hs])) (by omega)
    rw [hc.listed] at hnames
    cases hnames
    rw [hc.index, indexedNames, List.map_append, List.map_singleton]
    refine decodeTableIndex_encode (fun n hn => ?_) (by simpa using hlen)
    rcases List.mem_append.mp hn with hn | hn
    · obtain ⟨s, hs, rfl⟩ := List.mem_map.mp hn
      exact hfit s (by simp [hs])
    · rw [List.mem_singleton] at hn
      exact hn ▸ hfit schema (by simp)

/-! ## The transaction of a creation -/

/-- A transaction that began in `s₀`, found no table of the schema's name, and wrote the catalog. -/
structure CreateTxn (C : H.Contract) (t : H.Txn) (s₀ : H.Store) (key : Bytes) (schema : Schema)
    (names : List String) : Prop where
  snapshot : C.snapshot t = C.history s₀
  writes : C.writes t = (((Writes.empty.set catalogCounterKey
    (some (le 4 (nextTableId (C.committed s₀ catalogCounterKey) + 1).toNat))).set key
    (some (encodeTableEntry (nextTableId (C.committed s₀ catalogCounterKey)) schema))).set
    catalogIndexKey (some (encodeTableIndex (names ++ [schema.tableName]))))
  tableKey : catalogTableKey schema.tableName = some key
  fresh : C.committed s₀ key = none
  listed : indexedNames (C.committed s₀ catalogIndexKey) = .ok names

namespace CreateTxn

variable {t : H.Txn} {s₀ s : H.Store} {key : Bytes} {schema : Schema} {names : List String}

/-- Laid over contents with the same catalog, the writes of a creation create its table. -/
theorem creates (h : CreateTxn C t s₀ key schema names) {c : Contents Bytes Bytes}
    (hc : ∀ k, ¬ IsRowKey k → c k = C.committed s₀ k) :
    Creates c ((C.writes t).apply c) key schema names := by
  have hcounter := hc _ not_isRowKey_catalogCounterKey
  have hindex := hc _ not_isRowKey_catalogIndexKey
  have hne₁ := catalogTableKey_ne_counter h.tableKey
  have hne₂ := catalogTableKey_ne_index h.tableKey
  have hne₃ := catalogCounterKey_ne_index
  refine ⟨h.tableKey, ?_, ?_, ?_, ?_, ?_, fun k h₁ h₂ h₃ => ?_⟩
  · rw [hc key (not_isRowKey_of_catalogTableKey h.tableKey)]
    exact h.fresh
  · rw [hindex]
    exact h.listed
  · rw [h.writes, Writes.set_apply, Writes.set_apply, Writes.set_apply, hcounter]
    simp [hne₁.symm, hne₃]
  · rw [h.writes, Writes.set_apply, Writes.set_apply, hcounter]
    simp [hne₂]
  · rw [h.writes, Writes.set_apply]
    simp
  · rw [h.writes, Writes.set_apply, Writes.set_apply, Writes.set_apply]
    simp [h₁, h₂, h₃]

theorem writes_counter (h : CreateTxn C t s₀ key schema names) :
    C.writes t catalogCounterKey ≠ none := by
  rw [h.writes, Writes.set_of_ne _ catalogCounterKey_ne_index,
    Writes.set_of_ne _ (catalogTableKey_ne_counter h.tableKey).symm, Writes.set_self]
  simp

theorem isCatalogKey (h : CreateTxn C t s₀ key schema names) {k : Bytes}
    (hk : C.writes t k ≠ none) : IsCatalogKey k := by
  by_contra hcat
  obtain ⟨h₁, hcat⟩ := not_or.mp hcat
  obtain ⟨h₂, h₃⟩ := not_or.mp hcat
  have hkey : k ≠ key := fun heq => h₃ ⟨schema.tableName, heq ▸ h.tableKey⟩
  apply hk
  rw [h.writes, Writes.set_of_ne _ h₂, Writes.set_of_ne _ hkey, Writes.set_of_ne _ h₁]
  rfl

/-- A creation that commits finds the catalog as it was at its beginning. -/
theorem committed_eq (h : CreateTxn C t s₀ key schema names) (hr : Rely C P s₀ s)
    (hs : Sound C P s)
    (hfree : ∀ k, C.writes t k ≠ none → ¬ WrittenSince (C.snapshot t) (C.history s) k) {k : Bytes}
    (hk : ¬ IsRowKey k) : C.committed s k = C.committed s₀ k := by
  have hfree := hfree _ h.writes_counter
  rw [h.snapshot] at hfree
  exact catalog_unchanged hs.history hr.history hfree hk

/-- Committing a creation keeps the invariant. -/
theorem commit (h : CreateTxn C t s₀ key schema names) (hfits : P.names → schema.FitsEntry)
    (hr : Rely C P s₀ s) (hs : Sound C P s) : Rely C P s (H.commit t s).2 := by
  cases C.commit_cases (t := t) (s := s) (h.snapshot ▸ hr.history) with
  | conflict k hres hk hsince hsame => exact Rely.of_history_eq hsame
  | store e hres hsame => exact Rely.of_history_eq hsame
  | ok hres hfree happ =>
    have hc : C.committed (H.commit t s).2 = (C.writes t).apply (C.committed s) := happ.replay
    have hcreates := h.creates fun k hk => h.committed_eq hr hs hfree hk
    rw [← hc] at hcreates
    refine ⟨happ.extends, hcreates.persist, fun _ => ⟨?_, fun w hw k hk hne => ?_, ?_⟩⟩
    · obtain ⟨ts, hts, hnames⟩ := hs.catalog
      refine ⟨ts ++ [schema], hts.create hcreates, fun hn s hs => ?_⟩
      rcases List.mem_append.mp hs with hs | hs
      · exact hnames hn s hs
      · rw [List.mem_singleton] at hs
        exact hs ▸ hfits hn
    · rcases happ with heq | ⟨-, heq⟩
      · rw [heq, List.mem_append, List.mem_singleton] at hw
        rcases hw with hw | rfl
        · exact hs.history w hw k hk hne
        · exact ⟨h.isCatalogKey hne, h.writes_counter⟩
      · exact hs.history w (heq ▸ hw) k hk hne
    · intro hf k v hk hv
      rw [hcreates.of_isRowKey hk] at hv
      exact (hs.rows hf k v hk hv).persist hcreates.persist

end CreateTxn

end Choam

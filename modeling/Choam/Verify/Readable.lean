import Choam.Verify.Creations

/-!
# Reading back what was created

A creation narrows the lengths of names and the number of columns to the fields of a catalog entry,
and does not check that they fit. Whatever was created, all of it can be read back exactly when all
of it fits (`readable_iff_fits`); a table that does not fit is itself unreadable
(`unreadable_sample`).
-/

namespace Choam

open ByteString Overlay Interleave Catalog

variable {H : Host} {C : H.Contract} {u : Unicode}

/-! ## A creation alone -/

section Alone

variable {s : H.Store} {name : String} {columns : List ColumnDef} {pk : Nat} {key : Bytes}
  {schema : Schema}

/-- What a creation commits that finds no table of its name. -/
def Catalog.created (s : H.Store) (key : Bytes) (schema : Schema) (tableId : UInt32)
    (names : List String) : H.Txn :=
  H.put (H.put (H.put (H.begin s).1 catalogCounterKey (le 4 (tableId + 1).toNat)) key
    (encodeTableEntry tableId schema)) catalogIndexKey
      (encodeTableIndex (names ++ [schema.tableName]))

/-- Past the reading of the entry and the counter, a creation is decided by the index. -/
theorem createTable_run (C : H.Contract) (hkey : catalogTableKey name = some key)
    (hschema : Schema.new name columns pk = .ok schema) (hfresh : C.committed s key = none)
    (hroom : (H.overflowChecks && (nextTableId (C.committed s catalogCounterKey)).toNat + 1 ==
      2 ^ 32) = false) :
    let id := nextTableId (C.committed s catalogCounterKey)
    ((Catalog.createTable name columns pk).run StoreOp.perform s).1 =
      match indexedNames (C.committed s catalogIndexKey) with
      | .error e => .error (.codec e)
      | .ok names =>
        match (H.commit (Catalog.created s key schema id names) (H.begin s).2).1 with
        | .ok () => .ok ⟨id, schema⟩
        | .error (.conflict _) => .error .concurrentCreateTable
        | .error (.store e) => .error (.store e) := by
  obtain ⟨rfl, -, -⟩ := Schema.new_ok hschema
  intro id
  have hindex : C.view (H.put (H.put (H.begin s).1 catalogCounterKey (le 4 (id + 1).toNat)) key
      (encodeTableEntry id schema)) catalogIndexKey = C.committed s catalogIndexKey := by
    simp [(catalogTableKey_ne_index hkey).symm, catalogCounterKey_ne_index.symm]
  unfold Catalog.createTable
  rw [hkey]
  dsimp only
  rw [hschema]
  simp only [StoreM.begin_bind, StoreM.read_bind, Prog.run_call, StoreOp.perform, C.read_view,
    C.view_begin]
  rw [hfresh]
  simp only [Prog.run_call, StoreOp.perform, C.read_view, C.view_begin]
  rw [hroom]
  simp only [Bool.false_eq_true, if_false, StoreM.put_bind, Prog.run_call, StoreOp.perform,
    C.read_view]
  rw [hindex]
  cases indexedNames (C.committed s catalogIndexKey) with
  | error e => rfl
  | ok names =>
    simp only [StoreM.commit_bind, Prog.run_call, StoreOp.perform]
    rw [← Catalog.created]
    rcases (H.commit (Catalog.created s key schema id names) (H.begin s).2).1 with (k | e) | ⟨⟩ <;>
      rfl

/-- A creation fails to decode only where the index of table names does. -/
theorem codec_of_createTable {e : CatalogCodecError}
    (h : ((Catalog.createTable name columns pk).run StoreOp.perform s).1 = .error (.codec e)) :
    indexedNames (C.committed s catalogIndexKey) = .error e := by
  cases hkey : catalogTableKey name with
  | none =>
    unfold Catalog.createTable at h
    rw [hkey] at h
    cases h
  | some key =>
  cases hschema : Schema.new name columns pk with
  | error e =>
    unfold Catalog.createTable at h
    rw [hkey] at h
    dsimp only at h
    rw [hschema] at h
    cases h
  | ok schema =>
  -- The transaction begins, and reads the entry of the name.
  have hbegun := h
  unfold Catalog.createTable at hbegun
  rw [hkey] at hbegun
  dsimp only at hbegun
  rw [hschema] at hbegun
  simp only [StoreM.begin_bind, StoreM.read_bind, Prog.run_call, StoreOp.perform, C.read_view,
    C.view_begin] at hbegun
  cases hfresh : C.committed s key with
  | some v =>
    rw [hfresh] at hbegun
    cases hbegun
  | none =>
  rw [hfresh] at hbegun
  simp only [Prog.run_call, StoreOp.perform, C.read_view, C.view_begin] at hbegun
  cases hroom : (H.overflowChecks && (nextTableId (C.committed s catalogCounterKey)).toNat + 1 ==
    2 ^ 32) with
  | true =>
    rw [hroom] at hbegun
    cases hbegun
  | false =>
    rw [createTable_run C hkey hschema hfresh hroom] at h
    split at h
    next e' he =>
      cases h
      exact he
    next names _ => split at h <;> cases h

end Alone

/-! ## Reading the catalog back -/

theorem alone_getTable_bind {E α : Type} (s : H.Store) (name : String)
    (f : Option TableHandle → ExceptT (CatalogError E) (StoreM H) α) :
    alone (Catalog.getTable name >>= f) s =
      match lookupTable (H.get s) name with
      | .error e => (.error (.codec e), s)
      | .ok found => alone (f found) s := by
  have hget := alone_getTable (E := E) s name
  unfold alone at hget ⊢
  rw [ExceptT.run_bind, Prog.run_bind, hget]
  cases lookupTable (H.get s) name <;> rfl

theorem length_alone_collectTables {E : Type} {s : H.Store} {names : List String}
    {tables : List TableHandle}
    (h : (alone (Catalog.collectTables (m := StoreM H) (E := E) names) s).1 = .ok tables) :
    tables.length ≤ names.length := by
  induction names generalizing tables with
  | nil =>
    cases h
    exact Nat.le_refl _
  | cons name names ih =>
    rw [Catalog.collectTables, alone_getTable_bind] at h
    cases hfound : lookupTable (H.get s) name with
    | error e =>
      rw [hfound] at h
      cases h
    | ok found =>
      rw [hfound] at h
      cases found with
      | none => exact Nat.le_succ_of_le (ih h)
      | some th =>
        dsimp only at h
        unfold alone at h
        rw [ExceptT.run_bind, Prog.run_bind] at h
        split at h
        next _ rest hrest =>
          cases h
          exact Nat.succ_le_succ (ih hrest)
        next _ e hrest => cases h

/-- A listing is never longer than its index can count. -/
theorem length_alone_listTables {E : Type} {s : H.Store} {tables : List TableHandle}
    (h : (alone (Catalog.listTables (m := StoreM H) (E := E)) s).1 = .ok tables) :
    tables.length < 2 ^ 32 := by
  unfold Catalog.listTables at h
  rw [alone_get] at h
  cases hv : H.get s catalogIndexKey with
  | none =>
    rw [hv] at h
    cases h
    decide
  | some bytes =>
    rw [hv] at h
    dsimp only at h
    cases hnames : decodeTableIndex bytes with
    | error e =>
      rw [hnames] at h
      cases h
    | ok names =>
      rw [hnames] at h
      have hlen := length_alone_collectTables h
      have hcount := (decodeTableIndex_fits hnames).2
      omega

/-! ## Every reachable catalog -/

section Reachable

variable {ι : Type} [DecidableEq ι] {s₀ : H.Store} {l₀ : ι → Local H} {g : (system H u).Config ι}

/-- The tables read back as they were created: by name, in the list, and by the next creation. -/
structure Readable (s : H.Store) (tables : List TableHandle) : Prop where
  found : ∀ th ∈ tables, (alone (Catalog.getTable th.schema.tableName) s).1 =
    (.ok (some th) : Except (CatalogError H.StoreError) _)
  listed : (alone Catalog.listTables s).1 = (.ok tables : Except (CatalogError H.StoreError) _)
  harmless : ∀ name columns pk e,
    ((Catalog.createTable name columns pk).run StoreOp.perform s).1 ≠ .error (.codec e)

/-- A schema fits its entry when the arguments it was made from do. -/
theorem fitsEntry_iff {name : String} {columns : List ColumnDef} {pk : Nat} {schema : Schema}
    (h : Schema.new name columns pk = .ok schema) :
    schema.FitsEntry ↔ FitsTable name (columns.map (·.name)) := by
  obtain ⟨rfl, rfl, -⟩ := Schema.new_ok h
  constructor
  · rintro ⟨hname, hcols, hlen⟩
    exact ⟨hname, List.forall_mem_map.mpr hcols, by rwa [List.length_map]⟩
  · rintro ⟨hname, hcols, hlen⟩
    exact ⟨hname, List.forall_mem_map.mp hcols, by rwa [List.length_map] at hlen⟩

omit [DecidableEq ι] in
/-- Tables that fit, and not too many, are read back. -/
theorem Catalogued.readable {s : H.Store} {es : List ((system H u).Entry ι)}
    {tables : List TableHandle} (h : Catalogued C (C.committed s) es tables)
    (hfits : ∀ th ∈ tables, th.schema.FitsEntry) (hfew : tables.length < 2 ^ 32) :
    Readable s tables := by
  have hget : H.get s = C.committed s := funext fun k => C.get_committed s k
  have hall := h.catalog.lookup_all h.ids hfits
  refine ⟨fun th hth => ?_, ?_, fun name columns pk e hcreate => ?_⟩
  · have hname := List.forall₂_map_left_iff.mp hall
    rw [List.forall₂_same] at hname
    rw [alone_getTable, hget, hname th hth]
    rfl
  · rw [h.catalog.listed_all h.ids hfits hfew]
  · have hcodec := codec_of_createTable (C := C) hcreate
    rw [h.catalog.indexed hfits hfew] at hcodec
    cases hcodec

/-- Tables that are read back have passed through the fields of the catalog. -/
theorem Readable.fits {s : H.Store} {tables : List TableHandle} (h : Readable s tables) :
    (∀ th ∈ tables, th.schema.FitsEntry) ∧ tables.length < 2 ^ 32 := by
  refine ⟨fun th hth => ?_, length_alone_listTables h.listed⟩
  have hfound := h.found th hth
  rw [alone_getTable] at hfound
  cases hlookup : lookupTable (H.get s) th.schema.tableName with
  | error e =>
    rw [hlookup] at hfound
    cases hfound
  | ok found =>
    rw [hlookup] at hfound
    cases hfound
    obtain ⟨k, bytes, -, -, hdecode⟩ := lookupTable_eq_some.mp hlookup
    exact decodeTableEntry_fits hdecode

/-- **What was created can be read back exactly when it fits.** In every state that any number of
clients of an empty database reach, in any interleaving, with tables of any names and any number of
columns: the successful creations have made the tables `tables`, in the order of their commits. All
of these can be read back, by name and in the list, and no later creation fails to decode, if and
only if the names and column counts that were asked for fit the fields of a catalog entry, and there
are fewer than 2^32 tables. -/
theorem readable_iff_fits {allow : Call → Local H → Prop}
    (hallow : ∀ c l, allow c l → ∀ name columns, c.statement u ≠ some (.createTable name columns))
    (C : H.Contract) (hs₀ : C.history s₀ = []) (hl₀ : ∀ i, (l₀ i).Idle)
    (hg : Reachable allow (start s₀ l₀) g) :
    ∃ tables : List TableHandle, List.Forall₂ Created (creations g.log) tables ∧
      (Readable g.shared tables ↔
        (∀ e ∈ creations g.log, e.call.FitsNames u) ∧ (creations g.log).length < 2 ^ 32) := by
  have hwithin : ∀ c l, allow c l → c.Within unpromised u := fun c _ _ => within_unpromised c
  have hempty : Sound C unpromised s₀ := .of_nil C _ hs₀
  have hlog := hg.logged
  have hgood := good_of_reachable hwithin hempty hl₀ hg
  obtain ⟨tables, htables⟩ := catalogued_replayLog hlog hgood
    (writesRows_of_reachable hwithin hempty hl₀ hg).2 hs₀ (List.append_nil g.log).symm
  rw [← hlog.shared] at htables
  -- Each of them was made by a call of `createTable`, from the arguments of the call.
  have hmade : List.Forall₂
      (fun e th => Created e th ∧ (e.call.FitsNames u ↔ th.schema.FitsEntry))
      (creations g.log) tables := by
    refine List.forall₂_iff_zip.mpr ⟨htables.made.length_eq, fun {e th} hmem => ?_⟩
    have hmade := (List.forall₂_iff_zip.mp htables.made).2 hmem
    obtain ⟨he, hcreates⟩ := List.mem_filter.mp (List.of_mem_zip hmem).1
    obtain ⟨earlier, later, hsplit⟩ := List.append_of_mem he
    rcases Call.creates_iff.mp (Bool.and_eq_true_iff.mp hcreates).1 with
      ⟨name, columns, pk, hcall⟩ | ⟨name, columns, hstmt⟩
    · obtain ⟨hschema, hcreated⟩ := hmade.created name columns pk hcall
      refine ⟨hcreated, ?_⟩
      rw [fitsEntry_iff hschema, hcall, Call.FitsNames]
    · exact absurd hstmt (hallow _ _ (hlog.entry earlier e later hsplit).allowed name columns)
  refine ⟨tables, hmade.imp fun _ _ h => h.1, ?_⟩
  have hfits : (∀ e ∈ creations g.log, e.call.FitsNames u) ↔
      ∀ th ∈ tables, th.schema.FitsEntry := by
    clear htables
    generalize creations g.log = es at hmade ⊢
    induction hmade with
    | nil => exact ⟨fun _ => List.forall_mem_nil _, fun _ => List.forall_mem_nil _⟩
    | cons h _ ih => rw [List.forall_mem_cons, List.forall_mem_cons, h.2, ih]
  rw [hfits, hmade.length_eq]
  exact ⟨Readable.fits, fun ⟨hfits, hfew⟩ => htables.readable hfits hfew⟩

end Reachable

theorem readable_iff_fits_sample : ∃ tables, tables.length = 2 ∧
    Readable (H := Reference.host true) (sampleRun creatingCalls).shared tables := by
  have hg : Reachable (fun (c : Call) _ => c.CreatesDirectly Unicode.ascii)
      (start ([] : List Reference.WriteList) newSessions) (sampleRun creatingCalls) := by
    refine reachable_sampleRun fun c hc _ => ?_
    simp only [creatingCalls, List.mem_cons, List.not_mem_nil, or_false] at hc
    rcases hc with rfl | rfl | rfl <;>
      refine ⟨⟨by decide, List.forall_mem_singleton.mpr (by decide), by decide⟩, ?_⟩ <;>
      rintro name columns ⟨⟩
  have hcreations : (creations (sampleRun creatingCalls).log).length = 2 := by decide +kernel
  have hempty : (Reference.contract true).history ([] : List Reference.WriteList) = [] := rfl
  obtain ⟨tables, hcreated, hreadable⟩ := readable_iff_fits (fun _ _ h => h.direct)
    (Reference.contract true) hempty idle_newSessions hg
  refine ⟨tables, by rw [← hcreated.length_eq, hcreations], hreadable.mpr ⟨fun e he => ?_, ?_⟩⟩
  · obtain ⟨earlier, later, hsplit⟩ := List.append_of_mem (List.mem_filter.mp he).1
    exact (hg.logged.entry earlier e later hsplit).allowed.fits
  · rw [hcreations]
    decide

/-- A name of one byte more than its length field can count. -/
def longName : String := String.ofList (List.replicate 65536 'a')

theorem longName_not_fits : ¬ FitsName longName := by
  intro h
  have hlen : (utf8 longName).length = 65536 := length_utf8_replicate 65536
  rw [FitsName, hlen] at h
  omega

theorem longName_ne_empty : longName ≠ "" := by
  intro h
  have hnot := longName_not_fits
  rw [h] at hnot
  exact hnot (by decide)

/-- A table of that name is created, and cannot be read. -/
theorem unreadable_sample : ∃ th,
    ((Catalog.createTable (H := Reference.host true) longName [⟨"k", .integer, false⟩] 0).run
      StoreOp.perform []).1 = .ok th ∧
    (alone (H := Reference.host true) (Catalog.getTable longName)
      ((Catalog.createTable (H := Reference.host true) longName [⟨"k", .integer, false⟩] 0).run
        StoreOp.perform []).2).1 ≠ (.ok (some th) : Except (CatalogError Empty) _) := by
  have hkey : catalogTableKey longName =
      some ([catalogNamespace, catalogTableTag] ++ utf8 longName) := if_neg longName_ne_empty
  refine ⟨⟨0, ⟨longName, [⟨"k", .integer, false⟩], 0, by decide, by decide, by decide⟩⟩, ?_, ?_⟩
  · rw [createTable_run (Reference.contract true) hkey rfl rfl (by decide)]
    rfl
  · rw [alone_getTable]
    intro h
    generalize (Reference.host true).get _ = c at h
    cases hfound : lookupTable c longName with
    | error e =>
      rw [hfound] at h
      cases h
    | ok found =>
      rw [hfound] at h
      cases h
      obtain ⟨k, bytes, -, -, hdecode⟩ := lookupTable_eq_some.mp hfound
      exact longName_not_fits (decodeTableEntry_fits hdecode).tableName

end Choam

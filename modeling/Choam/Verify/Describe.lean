import Choam.Cli.Shell
import Choam.Verify.Reuse
import Choam.Verify.RoundTrip

/-!
# Descriptions of tables

What `.schema` prints of a table is the text of a CREATE TABLE (`create_describe`). It is read as a
statement that asks for the schema the table has, and in an empty database it creates that table.
-/

namespace Choam

open ByteString Overlay Interleave Catalog

/-! ## The statement that is described -/

/-- The columns that a schema was made from, as its description gives them. -/
def Schema.columnSpecs (s : Schema) : List ColumnSpec :=
  s.columns.mapIdx fun i c => ⟨c.name, c.ty, i == s.primaryKey, !c.nullable && i != s.primaryKey⟩

theorem create_describe (t : TableHandle) : "CREATE TABLE " ++ describe t =
    (Statement.createTable t.schema.tableName t.schema.columnSpecs).display := by
  have hcolumns : t.schema.columnSpecs.map ColumnSpec.display =
      t.schema.columns.mapIdx fun i c => c.name ++ " " ++ typeName c.ty ++
        (if i = t.schema.primaryKey then " PRIMARY KEY"
          else if !c.nullable then " NOT NULL" else "") := by
    refine List.ext_getElem (by simp [Schema.columnSpecs]) fun i _ _ => ?_
    simp only [Schema.columnSpecs, List.getElem_map, List.getElem_mapIdx]
    by_cases hi : i = t.schema.primaryKey <;> simp [ColumnSpec.display, hi]
  unfold Statement.display
  simp only [describe, hcolumns, String.append_assoc]

theorem primaryKeys_columnSpecs (s : Schema) :
    Session.primaryKeys s.columnSpecs = [s.primaryKey] := by
  have hlen : s.columnSpecs.length = s.columns.length := List.length_mapIdx
  have hkey : ∀ i ∈ List.range s.columnSpecs.length,
      ((s.columnSpecs[i]?.map (·.primaryKey)).getD false) = (i == s.primaryKey) := by
    intro i hi
    have hi := hlen ▸ List.mem_range.mp hi
    simp [Schema.columnSpecs, List.getElem?_mapIdx, List.getElem?_eq_getElem hi]
  have hmem : s.primaryKey ∈ List.range s.columnSpecs.length :=
    List.mem_range.mpr (hlen ▸ s.primaryKey_lt)
  rw [Session.primaryKeys, List.filter_congr hkey, List.filter_beq, List.nodup_range.count,
    if_pos hmem]
  rfl

theorem columnDefs_columnSpecs (s : Schema) :
    Session.columnDefs s.primaryKey s.columnSpecs = s.columns := by
  refine List.ext_getElem (by simp [Session.columnDefs, Schema.columnSpecs]) fun i _ hi => ?_
  simp only [Session.columnDefs, Schema.columnSpecs, List.getElem_mapIdx]
  have hkey := s.primaryKey_notNull
  cases hc : s.columns[i] with
  | mk name ty nullable =>
    by_cases heq : i = s.primaryKey
    · subst heq
      simp_all
    · simp [bne_iff_ne.mpr heq]

theorem columnSpecs_names (s : Schema) : s.columnSpecs.map (·.name) = s.columns.map (·.name) := by
  refine List.ext_getElem (by simp [Schema.columnSpecs]) fun i _ _ => ?_
  simp only [Schema.columnSpecs, List.getElem_map, List.getElem_mapIdx]

variable {H : Host} {C : H.Contract} {u : Unicode}

section Specifies

variable {name : String} {columns : List ColumnSpec} {schema : Schema}

theorem Specifies.names (h : Specifies name columns schema) :
    schema.columns.map (·.name) = columns.map (·.name) := by
  obtain ⟨pk, -, hschema⟩ := h
  rw [(Schema.new_ok hschema).2.1, columnDefs_names]

theorem Specifies.fitsEntry (h : Specifies name columns schema)
    (hfits : FitsTable name (columns.map (·.name))) : schema.FitsEntry := by
  obtain ⟨pk, -, hschema⟩ := h
  rw [fitsEntry_iff hschema, columnDefs_names]
  exact hfits

theorem Call.FitsNames.statement {c : Call} (h : c.FitsNames u) {stmt : Statement}
    (hstmt : c.statement u = some stmt) : stmt.FitsNames := by
  cases c with
  | createTable name columns pk => cases hstmt
  | _ => exact h stmt hstmt

theorem Call.AsksFor.fitsEntry {c : Call} (h : c.AsksFor u schema) (hfits : c.FitsNames u) :
    schema.FitsEntry := by
  rcases h with ⟨name, columns, pk, rfl, hschema⟩ | ⟨name, columns, hstmt, hspec⟩
  · exact (fitsEntry_iff hschema).mpr hfits
  · exact hspec.fitsEntry (hfits.statement hstmt)

/-- What a table made from a well-formed statement is described as is well-formed too. -/
theorem Specifies.wellFormed (h : Specifies name columns schema)
    (hwf : (Statement.createTable name columns).WellFormed u) :
    (Statement.createTable schema.tableName schema.columnSpecs).WellFormed u := by
  obtain ⟨hname, hne, hcolumns⟩ := hwf
  have hnames := (columnSpecs_names schema).trans h.names
  refine ⟨h.tableName ▸ hname, fun hnil => ?_, ?_⟩
  · rw [hnil] at hnames
    exact hne (List.map_eq_nil_iff.mp hnames.symm)
  · have hidents : ∀ n ∈ columns.map (·.name), IsIdent u n := List.forall_mem_map.mpr hcolumns
    rw [← hnames] at hidents
    exact List.forall_mem_map.mp hidents

end Specifies

/-! ## In an empty database -/

/-- A creation in an empty database. -/
theorem createTable_empty {s : H.Store} {schema : Schema} (hempty : C.history s = [])
    (haccepts : H.Accepts) (hname : schema.tableName ≠ "") :
    ∃ s' key names, (Catalog.createTable schema.tableName schema.columns schema.primaryKey).run
        StoreOp.perform s = (.ok ⟨0, schema⟩, s') ∧
      Creates (fun _ => none) (C.committed s') key schema names := by
  obtain ⟨key, hkey⟩ := exists_catalogTableKey hname
  have hnone : C.committed s = fun _ => none := by
    rw [Host.Contract.committed, hempty]
    rfl
  obtain ⟨s', hrun, key, names, hcreates⟩ := createTable_ok C haccepts hkey schema.new_self
    (by rw [hnone]) (by rw [hnone]; exact Bool.and_eq_false_imp.mpr fun _ => rfl)
    (by rw [hnone]; rfl)
  rw [hnone] at hrun hcreates
  exact ⟨s', key, names, hrun, hcreates⟩

/-- The text of CREATE TABLE and the description of `th` is read, and where it is executed in an empty
database, it creates one table, of the schema of `th`. -/
def Replayable (u : Unicode) (th : TableHandle) : Prop :=
  ∃ stmt, parse u ("CREATE TABLE " ++ describe th) = .ok stmt ∧
    ∀ (H : Host) (C : H.Contract) (s : H.Store), C.history s = [] → H.Accepts →
      ∃ session s', (Session.new.execute u ("CREATE TABLE " ++ describe th)).run StoreOp.perform s =
          ((.ok .default, session), s') ∧
        (alone Catalog.listTables s').1 =
          (.ok [⟨0, th.schema⟩] : Except (CatalogError H.StoreError) _) ∧
        (alone (Catalog.getTable th.schema.tableName) s').1 =
          (.ok (some ⟨0, th.schema⟩) : Except (CatalogError H.StoreError) _)

theorem listed_singleton {s : H.Store} {schema : Schema} {key : Bytes} {names : List String}
    (h : Creates (fun _ => none) (C.committed s) key schema names) (hfits : schema.FitsEntry) :
    alone Catalog.listTables s =
        ((.ok [⟨0, schema⟩] : Except (CatalogError H.StoreError) _), s) ∧
      alone (Catalog.getTable schema.tableName) s =
        ((.ok (some ⟨0, schema⟩) : Except (CatalogError H.StoreError) _), s) := by
  have hcatalog : CatalogOk (C.committed s) ([⟨0, schema⟩].map TableHandle.schema) :=
    CatalogOk.empty.create h
  have hids : ∀ (i : ℕ) (th : TableHandle), [(⟨0, schema⟩ : TableHandle)][i]? = some th →
      th.tableId = UInt32.ofNat i := by
    intro i th hi
    rw [List.getElem?_singleton] at hi
    split at hi
    next hi0 =>
      cases hi
      rw [hi0]
      rfl
    · cases hi
  have hall : ∀ th ∈ [(⟨0, schema⟩ : TableHandle)], th.schema.FitsEntry :=
    List.forall_mem_singleton.mpr hfits
  have hget : H.get s = C.committed s := funext fun k => C.get_committed s k
  refine ⟨hcatalog.listed_all hids hall (Nat.one_lt_two_pow (by decide)), ?_⟩
  rw [alone_getTable, hget, hcatalog.lookup_mem hids hall List.mem_cons_self]
  rfl

/-- **A table made from a statement that can be read is made again from its description.** -/
theorem Specifies.replayable (hu : u.Lawful) {name : String} {columns : List ColumnSpec}
    {th : TableHandle} (h : Specifies name columns th.schema)
    (hwf : (Statement.createTable name columns).WellFormed u)
    (hfits : FitsTable name (columns.map (·.name))) : Replayable u th := by
  have hparse : parse u ("CREATE TABLE " ++ describe th) =
      .ok (.createTable th.schema.tableName th.schema.columnSpecs) := by
    rw [create_describe]
    exact parse_display hu (h.wellFormed hwf)
  refine ⟨_, hparse, fun H C s hempty haccepts => ?_⟩
  have hname : th.schema.tableName ≠ "" := by
    obtain ⟨⟨⟨c, cs, hlist, -⟩, -⟩, -⟩ := hwf
    rw [h.tableName]
    rintro rfl
    cases hlist
  obtain ⟨s', key, names, hrun, hcreates⟩ := createTable_empty (C := C) hempty haccepts hname
  obtain ⟨hlist, hget⟩ := listed_singleton hcreates (h.fitsEntry hfits)
  refine ⟨.new, s', ?_, congrArg Prod.fst hlist, congrArg Prod.fst hget⟩
  rw [Session.execute, hparse]
  simp only [Session.executeStatement, Session.new, Session.createTable, primaryKeys_columnSpecs,
    columnDefs_columnSpecs, Database.createTable, Prog.run_bind, hrun]
  rfl

/-! ## In any run -/

section Reachable

variable {ι : Type} [DecidableEq ι] {s₀ : H.Store} {l₀ : ι → Local H} {g : (system H u).Config ι}

/-- What is in the catalog after an access stays there. -/
theorem entriesPersist_log {allow : Call → Local H → Prop} {P : Promises}
    (hlog : Logged allow s₀ l₀ g) (hgood : (protocol C P u).Good s₀ g)
    {earlier later : List ((system H u).Entry ι)} (h : g.log = earlier ++ later) :
    EntriesPersist (C.committed (replayLog s₀ earlier)) (C.committed g.shared) := by
  cases later with
  | nil =>
    rw [List.append_nil] at h
    rw [← h, ← hlog.shared]
    exact .refl _
  | cons e later =>
    rw [← (hlog.entry earlier e later h).before]
    exact (hgood.since e (h ▸ List.mem_append_right _ List.mem_cons_self)).2.entries

/-- **What `.schema` prints can be replayed.** In every state that any number of clients of an empty
database reach, in any interleaving: a table that some CREATE TABLE of a text has made, with names
and a number of columns that fit the fields of a catalog entry, is found under its name. The text of
CREATE TABLE and its description is read, and creates a table of the same schema in every empty
database. -/
theorem schema_replayable {allow : Call → Local H → Prop} (hu : u.Lawful) (C : H.Contract)
    (hs₀ : C.history s₀ = []) (hl₀ : ∀ i, (l₀ i).Idle) (hg : Reachable allow (start s₀ l₀) g)
    {e : (system H u).Entry ι} (he : e ∈ creations g.log) {name : String}
    {columns : List ColumnSpec} {text : String} {stmts : List Statement}
    (htext : parseScript u text = .ok stmts) (hstmt : .createTable name columns ∈ stmts)
    (hcall : e.call.statement u = some (.createTable name columns))
    (hfits : FitsTable name (columns.map (·.name))) :
    ∃ th, (alone (Catalog.getTable name) g.shared).1 =
        (.ok (some th) : Except (CatalogError H.StoreError) _) ∧
      Specifies name columns th.schema ∧ Replayable u th := by
  have hwithin : ∀ c l, allow c l → c.Within unpromised u := fun c _ _ => within_unpromised c
  have hempty : Sound C unpromised s₀ := .of_nil C _ hs₀
  have hlog := hg.logged
  have hgood := good_of_reachable hwithin hempty hl₀ hg
  obtain ⟨hmem, hcreates⟩ := List.mem_filter.mp he
  obtain ⟨hcreates, hsome⟩ := Bool.and_eq_true_iff.mp hcreates
  obtain ⟨t, ht⟩ := Option.isSome_iff_exists.mp hsome
  obtain ⟨earlier, later, hsplit⟩ := List.append_of_mem hmem
  -- The commit has put the table into the catalog, and there it stays.
  rcases entry_cases hlog hgood hsplit with ⟨t', ht', hfree, happ⟩ | ⟨hnone, -⟩
  · obtain ⟨th, key, names, hmade, hcreates, hid⟩ := creates_of_entry hlog hgood hempty hsplit
      (Call.creates_iff.mp hcreates) ht' happ hfree
    have hspec := hmade.specified name columns hcall
    have hafter : g.log = (earlier ++ [e]) ++ later := by rw [hsplit, List.append_cons]
    have hkey := hcreates.tableKey
    rw [hspec.tableName] at hkey
    have hentry := hcreates.entry
    rw [← hid] at hentry
    have hlater := entriesPersist_log (C := C) hlog hgood hafter name key _ hkey hentry
    have hlookup : lookupTable (C.committed g.shared) name = .ok (some th) :=
      lookupTable_eq_some.mpr
        ⟨key, _, hkey, hlater, decodeTableEntry_encode _ (hspec.fitsEntry hfits)⟩
    have hget : H.get g.shared = C.committed g.shared := funext fun k => C.get_committed _ k
    refine ⟨th, ?_, hspec, hspec.replayable hu (wellFormed_of_parseScript htext _ hstmt) hfits⟩
    rw [alone_getTable, hget, hlookup]
    rfl
  · rw [hnone] at ht
    cases ht

end Reachable

/-- A key that is also declared NOT NULL, twice, behind two other columns. -/
def createText : String :=
  "create table b (v TEXT NOT NULL, w bytes, k INTEGER NOT NULL PRIMARY KEY NOT NULL)"

theorem schema_replayable_sample : ∃ th, (alone (H := Reference.host true) (Catalog.getTable "b")
      (sampleRun [(0, .execute createText)]).shared).1 =
        (.ok (some th) : Except (CatalogError Empty) _) ∧
      describe th = "b (v TEXT NOT NULL, w BYTES, k INTEGER PRIMARY KEY)" ∧
      Replayable Unicode.ascii th := by
  have htext : parseScript Unicode.ascii createText = .ok [.createTable "b"
      [⟨"v", .text, false, true⟩, ⟨"w", .bytes, false, false⟩, ⟨"k", .integer, true, true⟩]] := by
    decide +kernel
  have hlen : 0 < (creations (sampleRun [(0, .execute createText)]).log).length := by
    decide +kernel
  have hcalls : (creations (sampleRun [(0, .execute createText)]).log).all (fun e =>
      decide (e.call.statement Unicode.ascii = some (.createTable "b" [⟨"v", .text, false, true⟩,
        ⟨"w", .bytes, false, false⟩, ⟨"k", .integer, true, true⟩]))) = true := by
    decide +kernel
  obtain ⟨e, he⟩ := List.exists_mem_of_length_pos hlen
  have hg : Reachable (fun _ _ => True) (start ([] : List Reference.WriteList) newSessions)
      (sampleRun [(0, .execute createText)]) := reachable_sampleRun fun _ _ _ => trivial
  obtain ⟨th, hget, ⟨pk, hpk, hschema⟩, hreplay⟩ := schema_replayable Unicode.lawful_ascii
    (Reference.contract true) rfl idle_newSessions hg he htext List.mem_cons_self
    (of_decide_eq_true (List.all_eq_true.mp hcalls e he)) ⟨by decide, by decide, by decide⟩
  refine ⟨th, hget, ?_, hreplay⟩
  obtain ⟨hname, hcolumns, hkey⟩ := Schema.new_ok hschema
  obtain rfl : 2 = pk := List.singleton_inj.mp hpk
  rw [describe, hname, hcolumns, hkey]
  decide

end Choam

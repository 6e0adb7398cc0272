import Choam.Verify.Visibility

/-!
# What a commit reports

A relational transaction commits exactly when no other transaction has committed a row that it has
written or deleted since it began; otherwise the conflict that is reported names such a row
(`commit_outcome`). The store reports a key: rows and keys correspond one to one, and whatever tables
are created meanwhile, the list of tables has the table of every key written so far
(`conflictError_of_leads`).
-/

namespace Choam

open ByteString Overlay Interleave Catalog

variable {H : Host} {C : H.Contract} {P : Promises} {u : Unicode}

/-! ## Rows and their keys -/

/-- The key of the table's row with this primary key, by the catalog `c`. -/
def RowAt (c : Contents Bytes Bytes) (table : String) (pk : Value) (k : Bytes) : Prop :=
  ∃ th, lookupTable c table = .ok (some th) ∧
    rowKey th.tableId pk th.schema.primaryKeyType = .ok k

namespace RowAt

variable {c c' : Contents Bytes Bytes} {table table' : String} {pk pk' : Value} {k k' : Bytes}

theorem persist (h : RowAt c table pk k) (hp : EntriesPersist c c') : RowAt c' table pk k := by
  obtain ⟨th, hth, hk⟩ := h
  exact ⟨th, hp.lookup hth, hk⟩

theorem unique (h : RowAt c table pk k) (h' : RowAt c table pk k') : k = k' := by
  obtain ⟨th, hth, hk⟩ := h
  obtain ⟨th', hth', hk'⟩ := h'
  rw [hth] at hth'
  cases hth'
  rw [hk] at hk'
  exact Except.ok.inj hk'

/-- A key stands for one row, of one table. -/
theorem inj {ts : List Schema} (hcat : CatalogOk c ts) (hfew : ts.length ≤ 2 ^ 32)
    (h : RowAt c table pk k) (h' : RowAt c table' pk' k) : table = table' ∧ pk = pk' := by
  obtain ⟨th, hth, hk⟩ := h
  obtain ⟨th', hth', hk'⟩ := h'
  obtain ⟨comp, -, heq⟩ := rowKey_ok hk
  obtain ⟨comp', -, heq'⟩ := rowKey_ok hk'
  obtain ⟨hid, -⟩ := rowKeyPrefix_append_inj.mp (heq.symm.trans heq')
  obtain ⟨rfl, rfl⟩ := hcat.lookup_inj hfew hth hth' hid
  exact ⟨rfl, rowKey_inj hk hk'⟩

end RowAt

/-! ## Naming the row behind a key -/

section Naming

variable {E : Type}

theorem getTable_of_leads {name : String} {th : TableHandle} {c : Contents Bytes Bytes}
    (hth : lookupTable c name = .ok (some th)) {seen : List (system H u).Access}
    (hseen : ∀ a ∈ seen, EntriesPersist c (C.committed a.before))
    {r : Except (CatalogError E) (Option TableHandle)}
    (h : Leads (O := system H u) (ExceptT.run (Catalog.getTable (m := StoreM H) name)) seen
      (.done r)) : r = .ok (some th) := by
  obtain ⟨k, bytes, hk, hc, hdecode⟩ := lookupTable_eq_some.mp hth
  unfold Catalog.getTable at h
  rw [hk] at h
  obtain ⟨s, rest, rfl, hrest⟩ := Leads.of_call_done h
  have hget : ((StoreOp.get k : StoreOp H).perform s).1 = some bytes := by
    show H.get s k = some bytes
    rw [C.get_committed]
    exact hseen _ List.mem_cons_self name k bytes hk hc
  rw [hget] at hrest
  simp only [Prog.bind, Function.comp_apply, ExceptT.bindCont, hdecode] at hrest
  obtain ⟨-, heq⟩ := Leads.of_done hrest
  cases heq
  rfl

theorem collectTables_of_leads {names : List String} {tables : List TableHandle}
    {c : Contents Bytes Bytes}
    (hnames : List.Forall₂ (fun name th => lookupTable c name = .ok (some th)) names tables)
    {seen : List (system H u).Access} (hseen : ∀ a ∈ seen, EntriesPersist c (C.committed a.before))
    {r : Except (CatalogError E) (List TableHandle)}
    (h : Leads (O := system H u) (ExceptT.run (Catalog.collectTables (m := StoreM H) names)) seen
      (.done r)) : r = .ok tables := by
  induction hnames generalizing seen r with
  | nil =>
    obtain ⟨-, heq⟩ := Leads.of_done h
    cases heq
    rfl
  | @cons name th names tables hname hrest ih =>
    rw [Catalog.collectTables, ExceptT.run_bind] at h
    obtain ⟨seen₁, seen₂, r₁, rfl, h₁, h₂⟩ := Leads.of_bind_done h
    obtain rfl := getTable_of_leads hname (fun a ha => hseen a (by simp [ha])) h₁
    change Leads (O := system H u) (ExceptT.run (_ >>= _)) seen₂ _ at h₂
    rw [ExceptT.run_bind] at h₂
    obtain ⟨seen₃, seen₄, r₂, rfl, h₃, h₄⟩ := Leads.of_bind_done h₂
    obtain rfl := ih (fun a ha => hseen a (by simp [ha])) h₃
    obtain ⟨-, heq⟩ := Leads.of_done h₄
    cases heq
    rfl

/-- The list of tables, read while others create tables: those of its first access. -/
theorem listTables_of_leads {tables : List TableHandle} {seen : List (system H u).Access}
    {r : Except (CatalogError E) (List TableHandle)}
    (h : Leads (O := system H u) (ExceptT.run (Catalog.listTables (m := StoreM H))) seen (.done r))
    (hfirst : ∀ a ∈ seen.head?, indexedNames (C.committed a.before catalogIndexKey) =
        .ok (tables.map (·.schema.tableName)) ∧
      List.Forall₂ (fun name th => lookupTable (C.committed a.before) name = .ok (some th))
        (tables.map (·.schema.tableName)) tables)
    (hseen : seen.Pairwise fun a a' => EntriesPersist (C.committed a.before) (C.committed a'.before)) :
    r = .ok tables := by
  unfold Catalog.listTables at h
  obtain ⟨s, rest, rfl, hrest⟩ := Leads.of_call_done h
  obtain ⟨hindex, hnames⟩ := hfirst _ rfl
  have hpersist := (List.pairwise_cons.mp hseen).1
  have hget : ((StoreOp.get catalogIndexKey : StoreOp H).perform s).1 =
      C.committed s catalogIndexKey := C.get_committed ..
  rw [hget] at hrest
  unfold indexedNames at hindex
  cases hv : C.committed s catalogIndexKey with
  | none =>
    rw [hv] at hindex hrest
    injection hindex with hnil
    rw [← hnil] at hnames
    exact collectTables_of_leads hnames hpersist hrest
  | some bytes =>
    rw [hv] at hindex hrest
    dsimp only at hindex
    simp only [Prog.bind, Function.comp_apply, ExceptT.bindCont, hindex] at hrest
    exact collectTables_of_leads hnames hpersist hrest

/-- The tables of a sound store, as they are listed. -/
theorem Sound.exists_tables {s : H.Store} (h : Sound C P s) (hnames : P.names)
    (hfew : FewTables (C.committed s)) : ∃ tables : List TableHandle, tables.length < 2 ^ 32 ∧
      CatalogOk (C.committed s) (tables.map (·.schema)) ∧
      (∀ i th, tables[i]? = some th → th.tableId = UInt32.ofNat i) ∧
      ∀ th ∈ tables, th.schema.FitsEntry := by
  obtain ⟨ts, hts, hfits⟩ := h.catalog
  have hschemas : (ts.mapIdx fun i s => (⟨UInt32.ofNat i, s⟩ : TableHandle)).map (·.schema) = ts := by
    refine List.ext_getElem? fun i => ?_
    rw [List.getElem?_map, List.getElem?_mapIdx, Option.map_map]
    exact Option.map_id'
  refine ⟨ts.mapIdx fun i s => ⟨UInt32.ofNat i, s⟩, ?_, ?_, fun i th hi => ?_, fun th hth => ?_⟩
  · rw [List.length_mapIdx]
    exact hts.length_lt hfew
  · rw [hschemas]
    exact hts
  · rw [List.getElem?_mapIdx] at hi
    obtain ⟨s, -, rfl⟩ := Option.map_eq_some_iff.mp hi
    rfl
  · have hmem := List.mem_map_of_mem (f := (·.schema)) hth
    rw [hschemas] at hmem
    exact hfits hnames _ hmem

/-- Among the tables, an id finds its table. -/
theorem CatalogOk.find?_tableId {c : Contents Bytes Bytes} {tables : List TableHandle}
    (h : CatalogOk c (tables.map (·.schema)))
    (hids : ∀ i th, tables[i]? = some th → th.tableId = UInt32.ofNat i)
    (hfits : ∀ th ∈ tables, th.schema.FitsEntry) (hfew : tables.length < 2 ^ 32) {name : String}
    {th : TableHandle} (hth : lookupTable c name = .ok (some th)) :
    th.schema.tableName = name ∧ tables.find? (·.tableId == th.tableId) = some th := by
  have hname := h.lookup_find? hids hfits name
  rw [hth] at hname
  have hfound : tables.find? (·.schema.tableName == name) = some th := (Except.ok.inj hname).symm
  have hmem := List.mem_of_find?_eq_some hfound
  have heq := List.find?_some (p := fun th : TableHandle => th.schema.tableName == name) hfound
  refine ⟨beq_iff_eq.mp heq, ?_⟩
  cases hid : tables.find? (·.tableId == th.tableId) with
  | none => exact absurd (beq_self_eq_true _) (List.find?_eq_none.mp hid th hmem)
  | some th' =>
    have hth' := h.lookup_mem hids hfits (List.mem_of_find?_eq_some hid)
    have heq' := List.find?_some (p := fun th' : TableHandle => th'.tableId == th.tableId) hid
    have hlen : (tables.map (·.schema)).length ≤ 2 ^ 32 := by
      rw [List.length_map]
      exact hfew.le
    rw [(h.lookup_inj hlen hth' hth (beq_iff_eq.mp heq')).2]

/-- **A conflicting key is named as its row**, whatever tables are created while the list of tables
is read. -/
theorem conflictError_of_leads {c : Contents Bytes Bytes} {table : String} {pk : Value} {k : Bytes}
    (hrow : RowAt c table pk k) {seen : List (system H u).Access} {e : DbError H.StoreError}
    (h : Leads (O := system H u) (Database.conflictError k) seen (.done e)) (hnames : P.names)
    (hsound : ∀ a ∈ seen, Sound C P a.before ∧ FewTables (C.committed a.before) ∧
      EntriesPersist c (C.committed a.before))
    (hseen : seen.Pairwise fun a a' => EntriesPersist (C.committed a.before) (C.committed a'.before)) :
    e = .conflict table pk := by
  obtain ⟨th, hth, hk⟩ := hrow
  obtain ⟨comp, hcomp, rfl⟩ := rowKey_ok hk
  unfold Database.conflictError at h
  rw [splitRowKey_rowKeyPrefix] at h
  dsimp only at h
  obtain ⟨seen₁, seen₂, r, rfl, h₁, h₂⟩ := Leads.of_bind_done h
  change Leads (O := system H u) (Except.mapError DbError.catalog <$>
    ExceptT.run (Catalog.listTables (m := StoreM H))) seen₁ _ at h₁
  rw [map_eq_pure_bind] at h₁
  obtain ⟨seen₃, seen₄, r', rfl, h₃, h₄⟩ := Leads.of_bind_done h₁
  obtain ⟨rfl, heq⟩ := h₄.of_done
  injection heq with heq
  rw [List.append_nil] at hsound hseen
  rcases seen₃ with _ | ⟨a, rest⟩
  · cases h₃.of_nil
  obtain ⟨hs, hfew, hpersist⟩ := hsound a (by simp)
  obtain ⟨tables, hlen, hcat, hids, hfits⟩ := hs.exists_tables hnames hfew
  have hth' := hpersist.lookup hth
  obtain ⟨hname, hfind⟩ := hcat.find?_tableId hids hfits hlen hth'
  obtain rfl := @listTables_of_leads _ C _ _ tables _ _ h₃
    (fun a' ha' => by
      cases ha'
      exact ⟨hcat.indexed hfits hlen, hcat.lookup_all hids hfits⟩)
    (List.pairwise_append.mp hseen).1
  subst heq
  dsimp only [Except.mapError] at h₂
  rw [hfind] at h₂
  dsimp only at h₂
  rw [decodeKeyComponent_encode hcomp, hname] at h₂
  obtain ⟨-, heq⟩ := h₂.of_done
  exact Prog.done.inj heq

end Naming

/-! ## The rows that a transaction writes -/

section Exec

variable {E : Type} {s : H.Store} {t t' : H.Txn} {table : String}

theorem lookup_of_tableAt {th : TableHandle}
    (h : (tableAt (H.get s) table : Except (DbError E) TableHandle) = .ok th) :
    lookupTable (C.committed s) table = .ok (some th) := by
  rw [← tableAt_eq_ok, ← h]
  exact tableAt_congr fun k _ => (C.get_committed s k).symm

theorem exec_write_cases {values : Row} {r : Except (DbError E) Unit}
    (h : (RelTransaction.write table values : RowM (DbError E) _).exec s t = (r, t')) :
    (∃ e, r = .error e) ∧ t' = t ∨ r = .ok () ∧ ∃ th pk k v,
      lookupTable (C.committed s) table = .ok (some th) ∧
      values[th.schema.primaryKey]? = some pk ∧
      rowKey th.tableId pk th.schema.primaryKeyType = .ok k ∧ t' = H.put t k v := by
  cases hth : (tableAt (H.get s) table : Except (DbError E) TableHandle) with
  | error e =>
    unfold RelTransaction.write at h
    rw [RowM.exec_bind, exec_tableHandle, hth] at h
    cases h
    exact .inl ⟨⟨e, rfl⟩, rfl⟩
  | ok th =>
    rw [exec_write_eq values hth] at h
    cases hpk : values[th.schema.primaryKey]? with
    | none =>
      rw [hpk] at h
      cases h
      exact .inl ⟨⟨_, rfl⟩, rfl⟩
    | some pk =>
      rw [hpk] at h
      dsimp only at h
      cases hk : rowKey th.tableId pk th.schema.primaryKeyType with
      | error e =>
        rw [hk] at h
        cases h
        exact .inl ⟨⟨_, rfl⟩, rfl⟩
      | ok k =>
        rw [hk] at h
        dsimp only at h
        cases hv : encodeRow th.schema values with
        | error e =>
          rw [hv] at h
          cases h
          exact .inl ⟨⟨_, rfl⟩, rfl⟩
        | ok v =>
          rw [hv] at h
          cases h
          exact .inr ⟨rfl, th, pk, k, v, lookup_of_tableAt hth, hpk, hk, rfl⟩

theorem exec_delete_cases {pk : Value} {r : Except (DbError E) Unit}
    (h : (RelTransaction.delete table pk : RowM (DbError E) _).exec s t = (r, t')) :
    (∃ e, r = .error e) ∧ t' = t ∨ r = .ok () ∧ ∃ th k,
      lookupTable (C.committed s) table = .ok (some th) ∧
      rowKey th.tableId pk th.schema.primaryKeyType = .ok k ∧ t' = H.delete t k := by
  cases hth : (tableAt (H.get s) table : Except (DbError E) TableHandle) with
  | error e =>
    unfold RelTransaction.delete at h
    rw [RowM.exec_bind, exec_tableHandle, hth] at h
    cases h
    exact .inl ⟨⟨e, rfl⟩, rfl⟩
  | ok th =>
    cases hk : rowKey th.tableId pk th.schema.primaryKeyType with
    | error e =>
      unfold RelTransaction.delete at h
      simp only [RowM.exec_bind, exec_tableHandle, hth, RowM.exec_ofExcept, hk,
        Except.mapError_error] at h
      cases h
      exact .inl ⟨⟨_, rfl⟩, rfl⟩
    | ok k =>
      rw [exec_delete_of hth hk] at h
      cases h
      exact .inr ⟨rfl, th, k, lookup_of_tableAt hth, hk, rfl⟩

theorem exec_read_txn (pk : Value) :
    ((RelTransaction.read table pk : RowM (DbError E) _).exec s t).2 = t := by
  cases hth : (tableAt (H.get s) table : Except (DbError E) TableHandle) with
  | error e =>
    unfold RelTransaction.read
    rw [RowM.exec_bind, exec_tableHandle, hth]
  | ok th => rw [exec_read_of pk hth]

theorem exec_scan_txn : ((RelTransaction.scan table : RowM (DbError E) _).exec s t).2 = t := by
  cases hth : (tableAt (H.get s) table : Except (DbError E) TableHandle) with
  | error e =>
    unfold RelTransaction.scan
    rw [RowM.exec_bind, exec_tableHandle, hth]
  | ok th => rw [exec_scan_of hth]

end Exec

/-- The call has written or deleted this row, by the catalog `c`. -/
inductive WroteRow (c : Contents Bytes Bytes) (d : (system H u).Done) (table : String)
    (pk : Value) : Prop
  | write {values : Row} {th : TableHandle} (hcall : d.call = .write table values)
      (hreply : d.reply = .done (.ok ())) (hth : lookupTable c table = .ok (some th))
      (hpk : values[th.schema.primaryKey]? = some pk)
  | delete (hcall : d.call = .delete table pk) (hreply : d.reply = .done (.ok ()))

section Handle

variable {allow : Call → Local H → Prop} {d : (system H u).Done} {t : H.Txn}

theorem returned_within {α : Type} {table : String} {m : RowM (DbError H.StoreError) α}
    (hm : RowM.OnTable False table m DbError.IsDecode)
    {reply : Except (DbError H.StoreError) α → Reply H}
    (h : Leads (O := system H u) (Call.within m reply t) d.seen (.done (d.reply, d.finish)))
    (hseen : d.seen.Pairwise fun a a' =>
      EntriesPersist (C.committed a.before) (C.committed a'.before)) (s : H.Store) :
    ∃ r t', d.reply = reply r ∧ d.finish = .handle (some t') ∧
      m.exec (RowM.metFirst s d.seen) t = (r, t') := by
  obtain ⟨seen₁, seen₂, ⟨r, t'⟩, hsplit, h₁, h₂⟩ := Leads.of_bind_done h
  obtain ⟨rfl, heq⟩ := h₂.of_done
  injection heq with heq
  injection heq with hreply hfinish
  rw [List.append_nil] at hsplit
  subst hsplit
  exact ⟨r, t', hreply, hfinish, RowM.atomic hm.starts hm.looksUp h₁ s hseen⟩

/-- The calls `ops` have made of the transaction `t` the transaction `t'`, which has written their
rows as well. -/
structure Wrote (C : H.Contract) (c : Contents Bytes Bytes) (ops : List (system H u).Done)
    (t t' : H.Txn) : Prop where
  snapshot : C.snapshot t' = C.snapshot t
  writes : ∀ k, C.writes t' k ≠ none ↔ C.writes t k ≠ none ∨
    ∃ d ∈ ops, ∃ table pk, WroteRow c d table pk ∧ RowAt c table pk k
  keyed : ∀ d ∈ ops, ∀ table pk, WroteRow c d table pk → ∃ k, RowAt c table pk k

theorem Wrote.nothing {c : Contents Bytes Bytes} (h : ∀ table pk, ¬ WroteRow c d table pk) :
    Wrote C c [d] t t :=
  ⟨rfl, fun k => by simp [h], fun d' hd' table pk hrow =>
    absurd hrow (List.mem_singleton.mp hd' ▸ h table pk)⟩

theorem Wrote.row {c : Contents Bytes Bytes} {table : String} {pk : Value} {k : Bytes}
    {v : Option Bytes} {t' : H.Txn} (hsnapshot : C.snapshot t' = C.snapshot t)
    (hwrites : C.writes t' = (C.writes t).set k v) (hrow : RowAt c table pk k)
    (hwrote : ∀ table' pk', WroteRow c d table' pk' ↔ table' = table ∧ pk' = pk) :
    Wrote C c [d] t t' := by
  refine ⟨hsnapshot, fun k' => ?_, fun d' hd' table' pk' h => ?_⟩
  rotate_left
  · obtain rfl := List.mem_singleton.mp hd'
    obtain ⟨rfl, rfl⟩ := (hwrote table' pk').mp h
    exact ⟨k, hrow⟩
  by_cases hkk : k' = k
  · subst hkk
    refine iff_of_true (by rw [hwrites, Writes.set_self]; exact nofun) (.inr ?_)
    exact ⟨d, List.mem_singleton_self d, table, pk, (hwrote table pk).mpr ⟨rfl, rfl⟩, hrow⟩
  · rw [hwrites, Writes.set_of_ne _ hkk]
    refine ⟨.inl, fun h => h.resolve_right ?_⟩
    rintro ⟨d', hd', table', pk', hwrote', hrow'⟩
    obtain rfl := List.mem_singleton.mp hd'
    obtain ⟨rfl, rfl⟩ := (hwrote table' pk').mp hwrote'
    exact hkk (hrow'.unique hrow)

/-- One call of a relational transaction that does not end it. -/
theorem returned_handle (hd : Returned (O := system H u) allow d)
    (hstart : d.start = .handle (some t)) (hends : d.call ≠ .commit ∧ d.call ≠ .abort) {s : H.Store}
    (hmet : ∀ a ∈ d.seen, EntriesPersist (C.committed a.before) (C.committed s))
    (hseen : d.seen.Pairwise fun a a' =>
      EntriesPersist (C.committed a.before) (C.committed a'.before)) :
    ∃ t', d.finish = .handle (some t') ∧ Wrote C (C.committed s) [d] t t' := by
  have hleads := hd.leads
  have hen : d.call.Enabled d.start := hd.enabled
  change Leads (O := system H u) (d.call.body u d.start) _ _ at hleads
  rw [hstart] at hleads hen
  have hother : (∀ table pk, d.call ≠ .delete table pk) → (∀ table values, d.call ≠ .write table values) →
      ∀ table pk, ¬ WroteRow (C.committed s) d table pk := by
    intro hdelete hwrite table pk h
    cases h with
    | write hcall => exact hwrite _ _ hcall
    | delete hcall => exact hdelete _ _ hcall
  have hfirst : EntriesPersist (C.committed (RowM.metFirst s d.seen)) (C.committed s) := by
    cases hhead : d.seen.head? with
    | none =>
      rw [RowM.metFirst, hhead]
      exact EntriesPersist.refl _
    | some a =>
      rw [RowM.metFirst, hhead]
      exact hmet a (List.mem_of_mem_head? hhead)
  cases hcall : d.call with
  | commit => exact absurd hcall hends.1
  | abort => exact absurd hcall hends.2
  | execute | executeStatement | begin =>
    rw [hcall] at hen
    exact hen.elim
  | createTable name columns pk | getTable name | listTables =>
    rw [hcall] at hleads
    obtain ⟨seen₁, seen₂, r, -, -, h₂⟩ := Leads.of_bind_done hleads
    obtain ⟨-, heq⟩ := h₂.of_done
    injection heq with heq
    injection heq with hreply hfinish
    refine ⟨t, hfinish, .nothing (hother ?_ ?_)⟩ <;> intro _ _ h <;> cases hcall.symm.trans h
  | read table pk =>
    rw [hcall] at hleads
    obtain ⟨r, t', -, hfinish, hexec⟩ := returned_within (RowM.onTable_read pk) hleads hseen s
    obtain rfl : t = t' := (exec_read_txn pk).symm.trans (congrArg Prod.snd hexec)
    refine ⟨t, hfinish, .nothing (hother ?_ ?_)⟩ <;> intro _ _ h <;> cases hcall.symm.trans h
  | scan table =>
    rw [hcall] at hleads
    obtain ⟨r, t', -, hfinish, hexec⟩ := returned_within RowM.onTable_scan hleads hseen s
    obtain rfl : t = t' := exec_scan_txn.symm.trans (congrArg Prod.snd hexec)
    refine ⟨t, hfinish, .nothing (hother ?_ ?_)⟩ <;> intro _ _ h <;> cases hcall.symm.trans h
  | write table values =>
    rw [hcall] at hleads
    obtain ⟨r, t', hreply, hfinish, hexec⟩ :=
      returned_within (RowM.onTable_write False.elim) hleads hseen s
    refine ⟨t', hfinish, ?_⟩
    rcases exec_write_cases (C := C) hexec with ⟨⟨e, rfl⟩, rfl⟩ | ⟨rfl, th, pk, k, v, hth, hpk, hk, rfl⟩
    · refine .nothing fun table' pk' h => ?_
      cases h with
      | write _ hok => cases hreply.symm.trans hok
      | delete _ hok => cases hreply.symm.trans hok
    · have hth := hfirst.lookup hth
      refine .row (C.snapshot_put t k v) (C.writes_put t k v) ⟨th, hth, hk⟩ fun table' pk' => ?_
      constructor
      · intro h
        cases h with
        | write hcall' _ hth' hpk' =>
          cases hcall.symm.trans hcall'
          rw [hth] at hth'
          cases hth'
          rw [hpk] at hpk'
          exact ⟨rfl, (Option.some.inj hpk').symm⟩
        | delete hcall' => cases hcall.symm.trans hcall'
      · rintro ⟨rfl, rfl⟩
        exact .write hcall hreply hth hpk
  | delete table pk =>
    rw [hcall] at hleads
    obtain ⟨r, t', hreply, hfinish, hexec⟩ :=
      returned_within (RowM.onTable_delete pk) hleads hseen s
    refine ⟨t', hfinish, ?_⟩
    rcases exec_delete_cases (C := C) hexec with ⟨⟨e, rfl⟩, rfl⟩ | ⟨rfl, th, k, hth, hk, rfl⟩
    · refine .nothing fun table' pk' h => ?_
      cases h with
      | write _ hok => cases hreply.symm.trans hok
      | delete _ hok => cases hreply.symm.trans hok
    · refine .row (C.snapshot_delete t k) (C.writes_delete t k) ⟨th, hfirst.lookup hth, hk⟩
        fun table' pk' => ?_
      constructor
      · intro h
        cases h with
        | write hcall' => cases hcall.symm.trans hcall'
        | delete hcall' =>
          cases hcall.symm.trans hcall'
          exact ⟨rfl, rfl⟩
      · rintro ⟨rfl, rfl⟩
        exact .delete hcall hreply

/-- All calls of a relational transaction, up to its end. -/
theorem wrote_of_linked {ops : List (system H u).Done} {l : Local H} {s : H.Store}
    (hlinked : Linked (O := system H u) (.handle (some t)) ops l)
    (hret : ∀ d ∈ ops, Returned (O := system H u) allow d)
    (hends : ∀ d ∈ ops, d.call ≠ .commit ∧ d.call ≠ .abort)
    (hmet : ∀ a ∈ accesses ops, EntriesPersist (C.committed a.before) (C.committed s))
    (hseen : (accesses ops).Pairwise fun a a' =>
      EntriesPersist (C.committed a.before) (C.committed a'.before)) :
    ∃ t', l = .handle (some t') ∧ Wrote C (C.committed s) ops t t' := by
  induction ops generalizing t with
  | nil => exact ⟨t, hlinked, rfl, fun k => by simp, fun d hd => nomatch hd⟩
  | cons d ops ih =>
    obtain ⟨hstart, hrest⟩ := hlinked
    rw [accesses_cons] at hmet hseen
    obtain ⟨hd, hops, -⟩ := List.pairwise_append.mp hseen
    obtain ⟨t₁, hfinish, hfirst⟩ := returned_handle (hret d (by simp)) hstart (hends d (by simp))
      (fun a ha => hmet a (List.mem_append_left _ ha)) hd
    rw [hfinish] at hrest
    obtain ⟨t', rfl, hlast⟩ := ih hrest (fun d' hd' => hret d' (by simp [hd']))
      (fun d' hd' => hends d' (by simp [hd'])) (fun a ha => hmet a (List.mem_append_right _ ha)) hops
    refine ⟨t', rfl, hlast.snapshot.trans hfirst.snapshot, fun k => ?_, fun d' hd' => ?_⟩
    · rw [hlast.writes, hfirst.writes]
      simp only [List.mem_cons, List.not_mem_nil, exists_eq_or_imp, false_and, exists_false, false_or,
        or_assoc]
    · rcases List.mem_cons.mp hd' with rfl | hd'
      · exact hfirst.keyed _ (List.mem_singleton_self _)
      · exact hlast.keyed d' hd'

end Handle

/-! ## The outcome of a commit -/

/-- The transaction has written or deleted this row, by the catalog of the store `s`. -/
def WritesRow (C : H.Contract) (s : H.Store) (t : H.Txn) (table : String) (pk : Value) : Prop :=
  ∃ k, RowAt (C.committed s) table pk k ∧ C.writes t k ≠ none

section Reachable

variable {ι : Type} [DecidableEq ι] {allow : Call → Local H → Prop} {s₀ : H.Store}
  {l₀ : ι → Local H} {g : (system H u).Config ι}

/-- Client `i` tries to commit the transaction `t` in the call `d`, after the calls `past`, the last
of them `ops` since it began; `since` is what everybody has done from its beginning until then. -/
structure Spans (log : List ((system H u).Entry ι)) (i : ι) (past ops : List (system H u).Done)
    (d : (system H u).Done) (t : H.Txn) (since : List ((system H u).Entry ι)) : Prop where
  log : ∃ before b e later, log = before ++ b :: since ++ e :: later ∧
    b.who = i ∧ b.access.op = .begin ∧ e.who = i ∧ e.access.op = .commit t ∧
    d.seen.head? = some e.access ∧ accessesOf (before ++ b :: since) i = accesses past
  own : accessesOf since i = accesses ops

/-- How a commit ends: with a failure of the store; or successfully, if none of the rows of its
transaction `t` was committed by another since its beginning; or with a conflict on such a row. -/
inductive Outcome (C : H.Contract) (s : H.Store) (t : H.Txn) (since : List ((system H u).Entry ι)) :
    Except (DbError H.StoreError) Unit → Prop
  | ok (hfree : ∀ table pk, WritesRow C s t table pk → ∀ t' ∈ commits since,
      ¬ WritesRow C s t' table pk) : Outcome C s t since (.ok ())
  | conflict {table : String} {pk : Value} {e : (system H u).Entry ι} {t' : H.Txn}
      (hown : WritesRow C s t table pk) (hother : e ∈ since)
      (hcommitted : committedTxn e.access = some t') (hrow : WritesRow C s t' table pk)
      (hcall : ¬ e.call.Creates u) : Outcome C s t since (.error (.conflict table pk))
  | store (e : H.StoreError) : Outcome C s t since (.error (.store e))

theorem IsCatalogKey.not_isRowKey {k : Bytes} (h : IsCatalogKey k) : ¬ IsRowKey k := by
  rcases h with rfl | rfl | ⟨name, hk⟩
  · exact not_isRowKey_catalogCounterKey
  · exact not_isRowKey_catalogIndexKey
  · exact not_isRowKey_of_catalogTableKey hk

/-- A creation commits no rows. -/
theorem not_creates_of_row (hlog : Logged allow s₀ l₀ g)
    {earlier later : List ((system H u).Entry ι)} {e : (system H u).Entry ι}
    (h : g.log = earlier ++ e :: later) {t : H.Txn} (ht : committedTxn e.access = some t) {k : Bytes}
    (hk : IsRowKey k) (hne : C.writes t k ≠ none) : ¬ e.call.Creates u := by
  intro hc
  obtain ⟨next, hleads⟩ := (hlog.entry earlier e later h).leads
  obtain ⟨s, hacc⟩ := committedTxn_eq_some.mp ht
  obtain ⟨who, past, call, l, seen, access⟩ := e
  subst hacc
  obtain ⟨base, th, hcreating, -⟩ := creating_of_body (C := C) hc hleads
  obtain ⟨key, names, htxn⟩ := hcreating.txn
  exact (htxn.isCatalogKey hne).not_isRowKey hk

theorem begin_of_returned {d : (system H u).Done} (hd : Returned (O := system H u) allow d)
    (hcall : d.call = .begin) : ∃ base, d.seen = [⟨base, .begin, (H.begin base).1⟩] ∧
      d.finish = .handle (some (H.begin base).1) := by
  have hleads := hd.leads
  have hen : d.call.Enabled d.start := hd.enabled
  change Leads (O := system H u) (d.call.body u d.start) _ _ at hleads
  rw [hcall] at hleads hen
  match hstart : d.start, hen with
  | .handle none, _ =>
    rw [hstart] at hleads
    obtain ⟨base, rest, hseen, h⟩ := Leads.of_call_done hleads
    obtain ⟨rfl, heq⟩ := Leads.of_done h
    injection heq with heq
    injection heq with hreply hfinish
    exact ⟨base, hseen, hfinish⟩

theorem commit_of_returned {d : (system H u).Done} (hd : Returned (O := system H u) allow d)
    (hcall : d.call = .commit) {t : H.Txn} (hstart : d.start = .handle (some t)) :
    ∃ r, d.reply = .done r ∧
      Leads (O := system H u) (RelTransaction.commit t) d.seen (.done r) := by
  have hleads := hd.leads
  change Leads (O := system H u) (d.call.body u d.start) _ _ at hleads
  rw [hcall, hstart] at hleads
  obtain ⟨seen₁, seen₂, r, hsplit, h₁, h₂⟩ := Leads.of_bind_done hleads
  obtain ⟨rfl, heq⟩ := h₂.of_done
  injection heq with heq
  injection heq with hreply hfinish
  rw [List.append_nil] at hsplit
  exact ⟨r, hreply, hsplit ▸ h₁⟩

/-- **What a commit reports.** -/
theorem outcome_of_past (hlog : Logged allow s₀ l₀ g) (hgood : (protocol C P u).Good s₀ g)
    (hnames : P.names) (hs₀ : Sound C P s₀) (hfew : FewTables (C.committed g.shared)) {i : ι}
    {before ops rest : List (system H u).Done} {b d : (system H u).Done}
    (hpast : (g.client i).past = before ++ b :: ops ++ d :: rest) (hb : b.call = .begin)
    (hops : ∀ o ∈ ops, o.call ≠ .commit ∧ o.call ≠ .abort) (hd : d.call = .commit) :
    ∃ t since r, Spans g.log i (before ++ b :: ops) ops d t since ∧
      (∀ table pk, WritesRow C g.shared t table pk ↔
        ∃ o ∈ ops, WroteRow (C.committed g.shared) o table pk) ∧
      d.reply = .done r ∧ Outcome C g.shared t since r := by
  obtain ⟨l, hrem⟩ := Remembers.of_client hlog i
  rw [hpast] at hrem
  obtain ⟨m, hbefore, hafter⟩ := hrem.split
  obtain ⟨m₀, -, hsince⟩ := hbefore.split
  obtain ⟨base, hbseen, hbfinish⟩ := begin_of_returned (hsince.returned b (by simp)) hb
  obtain ⟨-, hlinked⟩ := hsince.linked
  rw [hbfinish] at hlinked
  -- The stores that its accesses met follow each other.
  have hsub : (accesses ops ++ d.seen).Sublist (accesses (g.client i).past) := by
    rw [hpast, accesses_append, accesses_append, accesses_cons, accesses_cons]
    exact ((List.sublist_append_right _ _).trans (List.sublist_append_right _ _)).append
      (List.sublist_append_left _ _)
  obtain ⟨hpair, hmet⟩ := ordered_client hgood hlog i
  obtain ⟨hopsPair, hdPair, hfollow⟩ := List.pairwise_append.mp (hpair.sublist hsub)
  have hmet : ∀ a ∈ accesses ops ++ d.seen, Rely C P s₀ a.before ∧ Rely C P a.before g.shared :=
    fun a ha => hmet a (hsub.subset ha)
  have hwrote : ∀ s : H.Store, (∀ a ∈ accesses ops, Rely C P a.before s) →
      ∃ t, m = .handle (some t) ∧ Wrote C (C.committed s) ops (H.begin base).1 t := by
    intro s hs
    exact wrote_of_linked hlinked (fun o ho => hsince.returned o (by simp [ho])) hops
      (fun a ha => (hs a ha).entries) (hopsPair.imp Rely.entries)
  obtain ⟨t, rfl, hown⟩ := hwrote g.shared fun a ha => (hmet a (by simp [ha])).2
  obtain ⟨hstart, -⟩ := hafter.linked
  obtain ⟨r, hreply, hleads⟩ := commit_of_returned (hafter.returned d (by simp)) hd hstart
  obtain ⟨s, more, hseen, hcommit⟩ := leads_commit hleads
  rw [hseen] at hdPair hfollow hmet
  obtain ⟨earlier, x, since, e, later, hlogged, hx, hwho, hacc, hfront, hmid, hbase, hxacc⟩ :=
    exists_since hlog hpast hbseen (by rw [hseen]; rfl)
  have hs : s = replayLog s₀ (earlier ++ x :: since) := by
    have hmeets := (hlog.entry _ e later hlogged).before
    rwa [hacc] at hmeets
  obtain ⟨hpre, hwritten⟩ := writtenSince_replayLog hlog hgood hlogged
  have hsnapshot : C.snapshot t = C.history (replayLog s₀ earlier) := by
    rw [hown.snapshot, C.snapshot_begin, hbase]
  rw [← hs, ← hsnapshot] at hpre hwritten
  have hcommits : commits (x :: since) = commits since := by
    simp [commits, hxacc, committedTxn]
  rw [hcommits] at hwritten
  have hsound : Sound C P g.shared := hgood.shared.sound hs₀
  obtain ⟨ts, hts, -⟩ := hsound.catalog
  have hrows : ∀ table pk, WritesRow C g.shared t table pk ↔
      ∃ o ∈ ops, WroteRow (C.committed g.shared) o table pk := by
    intro table pk
    constructor
    · rintro ⟨k, hrow, hne⟩
      obtain hnew | ⟨o, ho, table', pk', hwrote', hrow'⟩ := (hown.writes k).mp hne
      · exact absurd (by simp) hnew
      · obtain ⟨rfl, rfl⟩ := hrow.inj hts (hts.length_lt hfew).le hrow'
        exact ⟨o, ho, hwrote'⟩
    · rintro ⟨o, ho, h⟩
      obtain ⟨k, hrow⟩ := hown.keyed o ho table pk h
      exact ⟨k, hrow, (hown.writes k).mpr (.inr ⟨o, ho, table, pk, h, hrow⟩)⟩
  refine ⟨t, since, r, ⟨⟨earlier, x, e, later, hlogged, hx, by rw [hxacc], hwho, by rw [hacc],
    by rw [hseen, hacc]; rfl, hfront⟩, hmid⟩, hrows, hreply, ?_⟩
  cases C.commit_cases hpre with
  | ok hres hfree happ =>
    rw [hres] at hcommit
    obtain rfl : r = .ok () := hcommit
    refine .ok ?_
    rintro table pk ⟨k, hrow, hne⟩ t' ht' ⟨k', hrow', hne'⟩
    obtain rfl := hrow.unique hrow'
    exact hfree k hne ((hwritten k).mpr ⟨t', ht', hne'⟩)
  | store err hres hsame =>
    rw [hres] at hcommit
    obtain rfl : r = .error (.store err) := hcommit
    exact .store err
  | conflict k hres hk hsince' hsame =>
    rw [hres] at hcommit
    obtain ⟨err, rfl, hnaming⟩ := hcommit
    obtain ⟨t', ht', hne'⟩ := (hwritten k).mp hsince'
    -- At the commit the table of the key existed already.
    obtain ⟨t₁, heq, hthen⟩ := hwrote s fun a ha => hfollow a ha _ List.mem_cons_self
    cases heq
    obtain hnew | ⟨o, ho, table, pk, -, hrow⟩ := (hthen.writes k).mp hk
    · exact absurd (by simp) hnew
    obtain ⟨hfirst, hmorePair⟩ := List.pairwise_cons.mp hdPair
    have hmore : ∀ a ∈ more, Sound C P a.before ∧ FewTables (C.committed a.before) ∧
        EntriesPersist (C.committed s) (C.committed a.before) := by
      intro a ha
      obtain ⟨hfrom, hto⟩ := hmet a (by simp [ha])
      exact ⟨hfrom.sound hs₀, hfew.of_persist hto.entries, (hfirst a ha).entries⟩
    obtain rfl := conflictError_of_leads hrow hnaming hnames hmore (hmorePair.imp Rely.entries)
    have hrow := hrow.persist (hmet ⟨s, .commit t, (H.commit t s).1⟩ (by simp)).2.entries
    obtain ⟨e', he', hcommitted⟩ := List.mem_filterMap.mp ht'
    obtain ⟨before', after', hsince'⟩ := List.append_of_mem he'
    have hentry : g.log = (earlier ++ x :: before') ++ e' :: (after' ++ e :: later) := by
      rw [hlogged, hsince']
      simp
    refine .conflict ⟨k, hrow, hk⟩ he' hcommitted ⟨k, hrow, hne'⟩ fun hc => ?_
    obtain ⟨th, -, hkey⟩ := hrow
    exact not_creates_of_row hlog hentry hcommitted (isRowKey_of_rowKey hkey) hne' hc

end Reachable

/-! ## Creations that conflict -/

/-- A creation that reports another one has tried to commit, last of all. -/
theorem conflict_of_createTable {name : String} {columns : List ColumnDef} {pk : Nat}
    {seen : List (system H u).Access}
    (h : Leads (O := system H u) (Catalog.createTable name columns pk) seen
      (.done (.error .concurrentCreateTable))) :
    ∃ base mid s t k key schema names, CreateTxn C t base key schema names ∧
      seen = ⟨base, .begin, (H.begin base).1⟩ :: (mid ++ [⟨s, .commit t, (H.commit t s).1⟩]) ∧
      (H.commit t s).1 = .error (.conflict k) := by
  unfold Catalog.createTable at h
  cases hkey : catalogTableKey name with
  | none =>
    rw [hkey] at h
    cases (Leads.of_done h).2
  | some key =>
  rw [hkey] at h
  dsimp only at h
  cases hschema : Schema.new name columns pk with
  | error e =>
    rw [hschema] at h
    cases (Leads.of_done h).2
  | ok schema =>
  obtain ⟨rfl, -, -⟩ := Schema.new_ok hschema
  rw [hschema] at h
  obtain ⟨base, seen₁, rfl, h₁⟩ := Leads.of_call_done h
  obtain ⟨s₁, seen₂, rfl, h₂⟩ := Leads.of_call_done h₁
  simp only [StoreOp.perform, C.read_view, C.view_begin] at h₂
  cases hfresh : C.committed base key with
  | some v =>
    rw [hfresh] at h₂
    obtain ⟨s₂, seen₃, rfl, h₃⟩ := Leads.of_call_done h₂
    cases (Leads.of_done h₃).2
  | none =>
  rw [hfresh] at h₂
  obtain ⟨s₂, seen₃, rfl, h₃⟩ := Leads.of_call_done h₂
  simp only [StoreOp.perform, C.read_view, C.view_begin, Prog.bind] at h₃
  split at h₃
  · obtain ⟨s₃, seen₄, rfl, h₄⟩ := Leads.of_call_done h₃
    cases (Leads.of_done h₄).2
  obtain ⟨s₃, seen₄, rfl, h₄⟩ := Leads.of_call_done h₃
  obtain ⟨s₄, seen₅, rfl, h₅⟩ := Leads.of_call_done h₄
  obtain ⟨s₅, seen₆, rfl, h₆⟩ := Leads.of_call_done h₅
  have hindex : C.view (H.put (H.put (H.begin base).1 catalogCounterKey
      (le 4 (nextTableId (C.committed base catalogCounterKey) + 1).toNat)) key
      (encodeTableEntry (nextTableId (C.committed base catalogCounterKey)) schema))
      catalogIndexKey = C.committed base catalogIndexKey := by
    simp [(catalogTableKey_ne_index hkey).symm, catalogCounterKey_ne_index.symm]
  simp only [StoreOp.perform, C.read_view, hindex, Prog.bind] at h₆
  cases hnames : indexedNames (C.committed base catalogIndexKey) with
  | error e =>
    rw [hnames] at h₆
    obtain ⟨s₆, seen₇, rfl, h₇⟩ := Leads.of_call_done h₆
    cases (Leads.of_done h₇).2
  | ok names =>
  rw [hnames] at h₆
  obtain ⟨s₆, seen₇, rfl, h₇⟩ := Leads.of_call_done h₆
  obtain ⟨s₇, seen₈, rfl, h₈⟩ := Leads.of_call_done h₇
  simp only [StoreOp.perform] at h₈
  have htxn := createTxn_of (C := C) hkey hfresh hnames
  rcases hc : (H.commit _ s₇).1 with (k | e) | ⟨⟩
  · rw [hc] at h₈
    obtain ⟨rfl, -⟩ := Leads.of_done h₈
    exact ⟨base, [_, _, _, _, _, _], s₇, _, k, key, schema, names, htxn, rfl, hc⟩
  · rw [hc] at h₈
    cases (Leads.of_done h₈).2
  · rw [hc] at h₈
    cases (Leads.of_done h₈).2

/-- The call is a creation that has failed because of another one. -/
def ConflictsCreating (u : Unicode) (d : (system H u).Done) : Prop :=
  d.call.Creates u ∧ (d.reply = .created (.error (.catalog .concurrentCreateTable)) ∨
    d.reply = .result (.error (.db (.catalog .concurrentCreateTable))))

theorem conflict_of_returned {allow : Call → Local H → Prop} {d : (system H u).Done}
    (hd : Returned (O := system H u) allow d) (h : ConflictsCreating u d) :
    ∃ name columns pk, Leads (O := system H u) (Catalog.createTable name columns pk) d.seen
      (.done (.error .concurrentCreateTable)) := by
  have hleads := hd.leads
  change Leads (O := system H u) (d.call.body u d.start) _ _ at hleads
  obtain ⟨⟨name, columns, pk, hcall⟩ | ⟨name, columns, hstmt⟩, hreply⟩ := h
  · rw [hcall] at hleads
    change Leads (O := system H u) ((_ <$> Catalog.createTable name columns pk) >>= _) _ _ at hleads
    rw [map_eq_pure_bind, bind_assoc] at hleads
    obtain ⟨seen₁, seen₂, r, hseen, h₁, h₂⟩ := Leads.of_bind_done hleads
    obtain ⟨rfl, heq⟩ := h₂.of_done
    injection heq with heq
    injection heq with hr hfinish
    rw [List.append_nil] at hseen
    rw [hr] at hreply
    refine ⟨name, columns, pk, ?_⟩
    rw [hseen]
    cases r with
    | ok th => rcases hreply with h | h <;> cases h
    | error e =>
      rcases hreply with h | h
      · cases h
        exact h₁
      · cases h
  · have hen : d.call.Enabled d.start := hd.enabled
    cases hstart : d.start with
    | handle txn =>
      rw [hstart] at hen
      cases hcall : d.call with
      | execute sql | executeStatement stmt =>
        rw [hcall] at hen
        exact hen.elim
      | _ =>
        rw [hcall] at hstmt
        cases hstmt
    | session self =>
      obtain ⟨r, self', hr, -, hleads⟩ := returned_statement hd hstart hstmt
      rw [hr] at hreply
      obtain rfl : r = .error (.db (.catalog .concurrentCreateTable)) := by
        rcases hreply with h | h <;> cases h
        rfl
      obtain ⟨txn, failed⟩ := self
      cases txn with
      | some t => cases (Leads.of_done hleads).2
      | none =>
        obtain ⟨seen₁, seen₂, r₁, hseen, h₁, h₂⟩ := Leads.of_bind_done hleads
        obtain ⟨rfl, heq⟩ := h₂.of_done
        cases heq
        rw [List.append_nil] at hseen
        unfold Session.createTable at h₁
        split at h₁
        next pk _ =>
          obtain ⟨seen₃, seen₄, r₂, rfl, h₃, h₄⟩ := Leads.of_bind_done h₁
          change Leads (O := system H u) (_ <$> Catalog.createTable _ _ _) _ _ at h₃
          rw [map_eq_pure_bind] at h₃
          obtain ⟨seen₅, seen₆, r₃, rfl, h₅, h₆⟩ := Leads.of_bind_done h₃
          obtain ⟨rfl, heq⟩ := h₆.of_done
          cases heq
          cases r₃ with
          | ok th => cases (Leads.of_done h₄).2
          | error e =>
            obtain ⟨rfl, heq⟩ := Leads.of_done h₄
            cases heq
            simp only [List.append_nil] at hseen
            exact ⟨_, _, _, hseen ▸ h₅⟩
        · cases (Leads.of_done h₁).2

section Reachable

variable {ι : Type} [DecidableEq ι] {allow : Call → Local H → Prop} {s₀ : H.Store}
  {l₀ : ι → Local H} {g : (system H u).Config ι}

/-- Client `i` made the call `d` after the calls `past`; `since` is what everybody has done between
its first access and its last. -/
def During (log : List ((system H u).Entry ι)) (i : ι) (past : List (system H u).Done)
    (d : (system H u).Done) (since : List ((system H u).Entry ι)) : Prop :=
  ∃ before b e later, log = before ++ b :: since ++ e :: later ∧ b.who = i ∧ e.who = i ∧
    d.seen.head? = some b.access ∧ d.seen.getLast? = some e.access ∧
    accessesOf before i = accesses past

/-- **A creation conflicts with creations only.** -/
theorem creation_of_past (hlog : Logged allow s₀ l₀ g) (hgood : (protocol C P u).Good s₀ g)
    (hrows : ∀ e ∈ g.log, e.start.WritesRows C) {i : ι} {past rest : List (system H u).Done}
    {d : (system H u).Done} (hpast : (g.client i).past = past ++ d :: rest)
    (hd : ConflictsCreating u d) : ∃ since, During g.log i past d since ∧
      ∃ e ∈ since, e.call.Creates u ∧ (committedTxn e.access).isSome := by
  obtain ⟨l, hrem⟩ := Remembers.of_client hlog i
  obtain ⟨name, columns, pk, hleads⟩ :=
    conflict_of_returned (hrem.returned d (by rw [hpast]; simp)) hd
  obtain ⟨base, mid, s, t, k, key, schema, names, htxn, hseen, hres⟩ :=
    conflict_of_createTable (C := C) hleads
  obtain ⟨more, hown⟩ := accessesOf_past hlog i
  have hsplit : accessesOf g.log i = accesses past ++ ⟨base, .begin, (H.begin base).1⟩ :: mid ++
      ⟨s, .commit t, (H.commit t s).1⟩ :: (accesses rest ++ more) := by
    rw [hown, hpast, accesses_append, accesses_cons, hseen]
    simp
  obtain ⟨front, e, later, hfront, hwho, hacc, hfirst, -⟩ := exists_entry_of_accessesOf hsplit
  obtain ⟨earlier, x, since, rfl, hx, hxacc, hpastAcc, -⟩ := exists_entry_of_accessesOf hfirst
  have hbase := (hlog.entry earlier x (since ++ e :: later) (by simpa using hfront)).before
  have hs := (hlog.entry (earlier ++ x :: since) e later hfront).before
  rw [hxacc] at hbase
  rw [hacc] at hs
  dsimp only at hbase hs
  obtain ⟨hpre, hwritten⟩ := writtenSince_replayLog hlog hgood hfront
  rw [← hs, ← hbase, ← htxn.snapshot] at hpre hwritten
  have hcommits : commits (x :: since) = commits since := by
    simp [commits, hxacc, committedTxn]
  rw [hcommits] at hwritten
  obtain ⟨hk, hsince, -⟩ := C.commit_conflict t s k hpre hres
  obtain ⟨t', ht', hne⟩ := (hwritten k).mp hsince
  obtain ⟨e', he', hcommitted⟩ := List.mem_filterMap.mp ht'
  refine ⟨since, ⟨earlier, x, e, later, hfront, hx, hwho, by rw [hseen, hxacc]; rfl, ?_, hpastAcc⟩,
    e', he', ?_, by rw [hcommitted]; rfl⟩
  · rw [hseen, hacc, ← List.cons_append, List.getLast?_concat]
  · by_contra hc
    obtain ⟨before', after', hsince'⟩ := List.append_of_mem he'
    have hentry : g.log = (earlier ++ x :: before') ++ e' :: (after' ++ e :: later) := by
      rw [hfront, hsince']
      simp
    exact hne ((committing_of_entry (C := C) hlog hentry hcommitted).writesRows
      (hrows e' (by rw [hentry]; simp)) hc (htxn.isCatalogKey hk).not_isRowKey)

/-- **Commit outcomes are exact and attributable.** On a new database, any number of clients begin,
use and end relational transactions, create tables and run sessions, in any interleaving; the names
and column counts of tables fit the fields of a catalog entry, and there are fewer than 2^32 tables.
A relational transaction has written just the rows that its calls wrote or deleted. Its commit, the
store's own failures aside, succeeds when none of them was committed by another transaction since its
beginning; else it fails with a conflict that names one that was, by a call that creates no table. And
a creation of a table that fails because of another one had one committed while it ran. -/
theorem commit_outcome (hallow : ∀ c l, allow c l → c.FitsNames u) (C : H.Contract)
    (hs₀ : C.history s₀ = []) (hl₀ : ∀ i, (l₀ i).Idle) (hg : Reachable allow (start s₀ l₀) g)
    (hfew : FewTables (C.committed g.shared)) (i : ι) :
    (∀ before b ops d rest, (g.client i).past = before ++ b :: ops ++ d :: rest → b.call = .begin →
      (∀ o ∈ ops, o.call ≠ .commit ∧ o.call ≠ .abort) → d.call = .commit →
      ∃ t since r, Spans g.log i (before ++ b :: ops) ops d t since ∧
        (∀ table pk, WritesRow C g.shared t table pk ↔
          ∃ o ∈ ops, WroteRow (C.committed g.shared) o table pk) ∧
        d.reply = .done r ∧ Outcome C g.shared t since r) ∧
    ∀ past d rest, (g.client i).past = past ++ d :: rest → ConflictsCreating u d →
      ∃ since, During g.log i past d since ∧
        ∃ e ∈ since, e.call.Creates u ∧ (committedTxn e.access).isSome := by
  have hwithin : ∀ c l, allow c l → c.Within ⟨False, True⟩ u :=
    fun c l hc => ⟨False.elim, fun _ => hallow c l hc⟩
  have hempty : Sound C ⟨False, True⟩ s₀ := .of_nil C _ hs₀
  have hgood := good_of_reachable hwithin hempty hl₀ hg
  refine ⟨fun before b ops d rest hpast hb hops hd => ?_, fun past d rest hpast hd => ?_⟩
  · exact outcome_of_past hg.logged hgood trivial hempty hfew hpast hb hops hd
  · exact creation_of_past hg.logged hgood (writesRows_of_reachable hwithin hempty hl₀ hg).2 hpast hd

end Reachable

/-- Two transactions on one row; the second one to commit has deleted it. -/
def conflictingCalls : List (ℕ × Call) :=
  [(0, .createTable "a" [⟨"k", .integer, false⟩] 0), (0, .begin), (1, .begin),
    (0, .write "a" [.integer 1]), (1, .delete "a" (.integer 1)), (0, .commit), (1, .commit)]

/-- The clients of a new database, without sessions. -/
def newHandles : ℕ → Local (Reference.host true) := fun _ => .handle none

theorem idle_newHandles (i : ℕ) : (newHandles i).Idle := rfl

def conflictingRun : (system (Reference.host true) Unicode.ascii).Config ℕ :=
  solos (start ([] : List Reference.WriteList) newHandles) conflictingCalls

/-- BEGIN, a deletion and COMMIT, which reports a conflict on this row. -/
def Conflicted (table : String) (pk : Value) : List (system (Reference.host true) .ascii).Done → Bool
  | [⟨.begin, _, _, _, _⟩, ⟨.delete _ _, _, _, _, _⟩,
      ⟨.commit, _, _, .done (.error (.conflict table' pk')), _⟩] => table' == table && pk' == pk
  | _ => false

theorem commit_outcome_sample : ∃ b o d, (conflictingRun.client 1).past = [b, o, d] ∧
    d.reply = .done (.error (.conflict "a" (.integer 1))) ∧
    ∃ t since r, Spans conflictingRun.log 1 [b, o] [o] d t since ∧ d.reply = .done r ∧
      Outcome (Reference.contract true) conflictingRun.shared t since r := by
  have hg : Reachable (fun (c : Call) _ => c.FitsNames Unicode.ascii)
      (start ([] : List Reference.WriteList) newHandles) conflictingRun := by
    refine reachable_solos _ fun c hc _ => ?_
    simp only [conflictingCalls, List.mem_cons, List.not_mem_nil, or_false] at hc
    rcases hc with rfl | rfl | rfl | rfl | rfl | rfl | rfl
    · exact ⟨by decide, List.forall_mem_singleton.mpr (by decide), by decide⟩
    all_goals exact nofun
  have hconflict : Conflicted "a" (.integer 1) (conflictingRun.client 1).past = true := by
    decide +kernel
  generalize hpast : (conflictingRun.client 1).past = past at hconflict
  unfold Conflicted at hconflict
  split at hconflict
  next =>
    obtain ⟨htable, hpk⟩ := Bool.and_eq_true_iff.mp hconflict
    obtain rfl := beq_iff_eq.mp htable
    obtain rfl := beq_iff_eq.mp hpk
    refine ⟨_, _, _, rfl, rfl, ?_⟩
    obtain ⟨t, since, r, hspans, -, hreply, houtcome⟩ := (commit_outcome (fun _ _ h => h)
      (Reference.contract true) rfl idle_newHandles hg (Reference.fewTables (by decide +kernel)) 1).1
      [] _ [_] _ [] hpast rfl (List.forall_mem_singleton.mpr ⟨nofun, nofun⟩) rfl
    exact ⟨t, since, r, hspans, hreply, houtcome⟩
  next => cases hconflict

end Choam

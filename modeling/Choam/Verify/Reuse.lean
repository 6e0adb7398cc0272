import Choam.Verify.Readable

/-!
# Table ids

A creation takes the id that the counter holds, and counts in 32 bits. Until 2^32 tables have been
created no id is given twice (`table_ids_distinct`); a build that checks for overflow creates no more
(`Catalogued.length_lt`), one that does not wraps around to the first (`table_ids_reused`).
-/

namespace Choam

open ByteString Overlay Interleave Catalog

variable {H : Host} {C : H.Contract} {u : Unicode}

/-! ## A creation alone, to its end -/

section Alone

variable {s : H.Store} {name : String} {columns : List ColumnDef} {pk : Nat} {key : Bytes}
  {schema : Schema} {names : List String}

/-- What becomes of the store `s` when a table is created, and nobody else is there. -/
inductive CreateCase (C : H.Contract) (s : H.Store) :
    Except (CatalogError H.StoreError) TableHandle × H.Store → Prop
  | created (th : TableHandle) (s' : H.Store) (key : Bytes) (names : List String)
      (id : th.tableId = nextTableId (C.committed s catalogCounterKey))
      (creates : Creates (C.committed s) (C.committed s') key th.schema names) :
      CreateCase C s (.ok th, s')
  | failed (e : CatalogError H.StoreError) (s' : H.Store) (same : C.history s' = C.history s) :
      CreateCase C s (.error e, s')

theorem createTxn_created (hkey : catalogTableKey schema.tableName = some key)
    (hfresh : C.committed s key = none)
    (hnames : indexedNames (C.committed s catalogIndexKey) = .ok names) :
    CreateTxn C (Catalog.created s key schema (nextTableId (C.committed s catalogCounterKey)) names)
      s key schema names :=
  createTxn_of hkey hfresh hnames

theorem CreateTxn.prefix {t : H.Txn} (h : CreateTxn C t s key schema names) :
    C.snapshot t <+: C.history (H.begin s).2 := by
  have heq : C.snapshot t = C.history (H.begin s).2 := h.snapshot.trans (C.history_begin s).symm
  exact heq ▸ List.prefix_rfl

/-- A commit that nobody has overtaken is that of a creation, or the store refuses it. -/
theorem createCase_commit (hkey : catalogTableKey schema.tableName = some key)
    (hfresh : C.committed s key = none)
    (hnames : indexedNames (C.committed s catalogIndexKey) = .ok names) :
    CreateCase C s
      (match H.commit (Catalog.created s key schema
          (nextTableId (C.committed s catalogCounterKey)) names) (H.begin s).2 with
      | (.ok (), s') => (.ok ⟨nextTableId (C.committed s catalogCounterKey), schema⟩, s')
      | (.error (.conflict _), s') => (.error .concurrentCreateTable, s')
      | (.error (.store e), s') => (.error (.store e), s')) := by
  have htxn := createTxn_created hkey hfresh hnames
  have hprefix := htxn.prefix
  generalize hcommit : H.commit _ _ = p
  obtain ⟨r, s'⟩ := p
  cases C.commit_cases hprefix with
  | ok hres hfree happ =>
    rw [hcommit] at hres happ
    cases hres
    refine .created _ s' key names rfl ?_
    have hnew : C.committed s' = _ := happ.replay
    rw [hnew, C.history_begin]
    exact htxn.creates fun k _ => rfl
  | conflict k hres hk hsince hsame =>
    rw [hcommit] at hres hsame
    cases hres
    exact .failed _ s' (hsame.trans (C.history_begin s))
  | store e hres hsame =>
    rw [hcommit] at hres hsame
    cases hres
    exact .failed _ s' (hsame.trans (C.history_begin s))

theorem createTable_cases (C : H.Contract) (s : H.Store) (name : String) (columns : List ColumnDef)
    (pk : Nat) : CreateCase C s ((Catalog.createTable name columns pk).run StoreOp.perform s) := by
  unfold Catalog.createTable
  cases hkey : catalogTableKey name with
  | none => exact .failed _ _ rfl
  | some key =>
  dsimp only
  cases hschema : Schema.new name columns pk with
  | error e => exact .failed _ _ rfl
  | ok schema =>
  obtain ⟨rfl, -, -⟩ := Schema.new_ok hschema
  have hindex : C.view (H.put (H.put (H.begin s).1 catalogCounterKey
      (le 4 (nextTableId (C.committed s catalogCounterKey) + 1).toNat)) key
      (encodeTableEntry (nextTableId (C.committed s catalogCounterKey)) schema))
      catalogIndexKey = C.committed s catalogIndexKey := by
    simp [(catalogTableKey_ne_index hkey).symm, catalogCounterKey_ne_index.symm]
  simp only [StoreM.begin_bind, StoreM.read_bind, Prog.run_call, StoreOp.perform, C.read_view,
    C.view_begin]
  cases hfresh : C.committed s key with
  | some v => exact .failed _ _ (by simp [StoreOp.perform])
  | none =>
  simp only [Prog.run_call, StoreOp.perform, C.read_view, C.view_begin]
  split
  · exact .failed _ _ (by simp [StoreOp.perform])
  simp only [StoreM.put_bind, Prog.run_call, StoreOp.perform, C.read_view]
  rw [hindex]
  cases hnames : indexedNames (C.committed s catalogIndexKey) with
  | error e => exact .failed _ _ (by simp [StoreOp.perform])
  | ok names =>
    simp only [StoreM.commit_bind, Prog.run_call, StoreOp.perform]
    have hcase := createCase_commit hkey hfresh hnames
    rw [← Catalog.created]
    generalize hcommit : H.commit _ _ = p at hcase ⊢
    rcases p with ⟨(k | e) | ⟨⟩, s'⟩ <;> exact hcase

/-- The store refuses no commit for reasons of its own. -/
def Host.Accepts (H : Host) : Prop := ∀ t s e, (H.commit t s).1 ≠ .error (.store e)

/-- A creation that finds no table of its name, and can read the index, succeeds. -/
theorem createTable_ok (C : H.Contract) (haccepts : H.Accepts) (hkey : catalogTableKey name = some key)
    (hschema : Schema.new name columns pk = .ok schema) (hfresh : C.committed s key = none)
    (hroom : (H.overflowChecks && (nextTableId (C.committed s catalogCounterKey)).toNat + 1 ==
      2 ^ 32) = false) (hnames : indexedNames (C.committed s catalogIndexKey) = .ok names) :
    ∃ s', (Catalog.createTable name columns pk).run StoreOp.perform s =
        (.ok ⟨nextTableId (C.committed s catalogCounterKey), schema⟩, s') ∧
      ∃ key names, Creates (C.committed s) (C.committed s') key schema names := by
  have hrun := createTable_run C hkey hschema hfresh hroom
  have hcase := createTable_cases C s name columns pk
  generalize (Catalog.createTable name columns pk).run StoreOp.perform s = p at hrun hcase ⊢
  obtain ⟨rfl, -, -⟩ := Schema.new_ok hschema
  -- nobody else commits, and the store refuses nothing else
  have hok : (H.commit (Catalog.created s key schema
      (nextTableId (C.committed s catalogCounterKey)) names) (H.begin s).2).1 = .ok () := by
    have htxn := createTxn_created hkey hfresh hnames
    cases C.commit_cases htxn.prefix with
    | ok hres hfree happ => exact hres
    | conflict k hres hk hsince hsame =>
      rw [htxn.snapshot, C.history_begin] at hsince
      exact absurd hsince (not_writtenSince_self _ k)
    | store e hres hsame => exact absurd hres (haccepts _ _ e)
  rw [hnames] at hrun
  dsimp only at hrun
  rw [hok] at hrun
  cases hcase with
  | created th s' key names hid hcreates =>
    cases hrun
    exact ⟨s', rfl, key, names, hcreates⟩
  | failed e s' hsame => cases hrun

end Alone

/-! ## Ids in the catalog -/

/-- Some table's entry holds the id. -/
def IdHeld (c : Contents Bytes Bytes) (id : UInt32) : Prop :=
  ∃ name k schema, catalogTableKey name = some k ∧ c k = some (encodeTableEntry id schema)

theorem encodeTableEntry_id {id id' : UInt32} {schema schema' : Schema}
    (h : encodeTableEntry id schema = encodeTableEntry id' schema') : id = id' := by
  simp only [encodeTableEntry, List.append_assoc] at h
  exact UInt32.toNat_inj.mp ((le_inj id.toNat_lt id'.toNat_lt).mp (List.append_inj h (by simp)).1)

theorem CatalogOk.idHeld {c : Contents Bytes Bytes} {ts : List Schema} (h : CatalogOk c ts)
    {id : UInt32} (hid : IdHeld c id) : ∃ i, i < ts.length ∧ id = UInt32.ofNat i := by
  obtain ⟨name, k, schema, hk, hc⟩ := hid
  obtain ⟨s, hs, rfl⟩ := List.mem_map.mp (h.listed name k hk (by simp [hc]))
  obtain ⟨i, hi⟩ := List.mem_iff_getElem?.mp hs
  have hentry := h.entry i s k hi hk
  rw [hc] at hentry
  exact ⟨i, (List.getElem?_eq_some_iff.mp hi).1, encodeTableEntry_id (Option.some.inj hentry)⟩

/-- The next creation takes an id that no table holds, or changes nothing. -/
def NextIsFresh (C : H.Contract) (s : H.Store) : Prop :=
  ∀ name columns pk,
    (∀ th, ((Catalog.createTable name columns pk).run StoreOp.perform s).1 = .ok th →
      ¬ IdHeld (C.committed s) th.tableId) ∧
    ∀ e, ((Catalog.createTable name columns pk).run StoreOp.perform s).1 = .error e →
      ∀ k, H.get ((Catalog.createTable name columns pk).run StoreOp.perform s).2 k = H.get s k

/-- Under no key is there a row of two tables. -/
def RowsApart (c : Contents Bytes Bytes) : Prop :=
  ∀ name name' th th', lookupTable c name = .ok (some th) → lookupTable c name' = .ok (some th') →
    name ≠ name' → ∀ k, rowKeyPrefix th.tableId <+: k → ¬ rowKeyPrefix th'.tableId <+: k

theorem CatalogOk.nextIsFresh {s : H.Store} {ts : List Schema} (h : CatalogOk (C.committed s) ts)
    (hfew : ts.length < 2 ^ 32) : NextIsFresh C s := by
  intro name columns pk
  have hcase := createTable_cases C s name columns pk
  generalize (Catalog.createTable name columns pk).run StoreOp.perform s = p at hcase ⊢
  cases hcase with
  | created th s' key names hid _ =>
    refine ⟨fun th' heq hheld => ?_, nofun⟩
    cases heq
    obtain ⟨i, hi, hsame⟩ := h.idHeld hheld
    rw [hid, h.counter] at hsame
    have := ofNat_inj hfew (hi.trans hfew) hsame
    omega
  | failed e s' hsame =>
    refine ⟨nofun, fun _ _ k => ?_⟩
    rw [C.get_eq, C.get_eq, hsame]

theorem CatalogOk.rowsApart {c : Contents Bytes Bytes} {ts : List Schema} (h : CatalogOk c ts)
    (hfew : ts.length ≤ 2 ^ 32) : RowsApart c := by
  rintro name name' th th' hl hl' hne k ⟨rest, rfl⟩ ⟨rest', heq⟩
  exact hne (h.lookup_inj hfew hl hl' (rowKeyPrefix_append_inj.mp heq).1.symm).1

section Reachable

variable {ι : Type} [DecidableEq ι] {s₀ : H.Store} {l₀ : ι → Local H} {g : (system H u).Config ι}

omit [DecidableEq ι] in
/-- Where overflow is checked, the counter never wraps around. -/
theorem Catalogued.length_lt {c : Contents Bytes Bytes} {es : List ((system H u).Entry ι)}
    {tables : List TableHandle} (h : Catalogued C c es tables) (hchecks : H.overflowChecks = true) :
    tables.length < 2 ^ 32 := by
  by_contra hlt
  have hlast : 2 ^ 32 - 1 < tables.length := by omega
  obtain ⟨hlen, hmade⟩ := List.forall₂_iff_get.mp h.made
  obtain ⟨t, base, -, hcreating⟩ := (hmade (2 ^ 32 - 1) (hlen ▸ hlast) hlast).creating
  refine hcreating.room hchecks ?_
  rw [List.get_eq_getElem, h.ids (2 ^ 32 - 1) _ (List.getElem?_eq_getElem hlast)]
  rfl

/-- **Table ids are never reused**, and no row belongs to two tables, in every state that any number
of clients of an empty database reach, in any interleaving, as long as the build checks for overflow
or fewer than 2^32 tables have been created. -/
theorem table_ids_distinct {allow : Call → Local H → Prop} (C : H.Contract)
    (hs₀ : C.history s₀ = []) (hl₀ : ∀ i, (l₀ i).Idle) (hg : Reachable allow (start s₀ l₀) g)
    (hroom : H.overflowChecks = true ∨ (creations g.log).length < 2 ^ 32) :
    NextIsFresh C g.shared ∧ RowsApart (C.committed g.shared) := by
  have hwithin : ∀ c l, allow c l → c.Within unpromised u := fun c _ _ => within_unpromised c
  have hempty : Sound C unpromised s₀ := .of_nil C _ hs₀
  have hlog := hg.logged
  obtain ⟨tables, htables⟩ := catalogued_replayLog hlog (good_of_reachable hwithin hempty hl₀ hg)
    (writesRows_of_reachable hwithin hempty hl₀ hg).2 hs₀ (List.append_nil g.log).symm
  rw [← hlog.shared] at htables
  have hfew : (tables.map (·.schema)).length < 2 ^ 32 := by
    rw [List.length_map]
    rcases hroom with hchecks | hfew
    · exact htables.length_lt hchecks
    · exact htables.made.length_eq ▸ hfew
  exact ⟨htables.catalog.nextIsFresh hfew, htables.catalog.rowsApart hfew.le⟩

end Reachable

theorem table_ids_distinct_sample :
    NextIsFresh (Reference.contract true) (sampleRun creatingCalls).shared ∧
      RowsApart ((Reference.contract true).committed (sampleRun creatingCalls).shared) := by
  have hg : Reachable (fun _ _ => True) (start ([] : List Reference.WriteList) newSessions)
      (sampleRun creatingCalls) := reachable_sampleRun fun _ _ _ => trivial
  exact table_ids_distinct (Reference.contract true) rfl idle_newSessions hg (.inl rfl)

/-! ## Without overflow checks -/

/-- The 32 low-order bits of a number, as a name. -/
def bitName (i : ℕ) : String :=
  String.ofList ((List.range 32).map fun j => if i.testBit j then '1' else '0')

theorem bitName_inj {i j : ℕ} (hi : i < 2 ^ 32) (hj : j < 2 ^ 32) (h : bitName i = bitName j) :
    i = j := by
  refine Nat.eq_of_testBit_eq fun b => ?_
  by_cases hb : b < 32
  · have hmap := List.map_inj_left.mp (String.ofList_inj.mp h) b (List.mem_range.mpr hb)
    cases hib : i.testBit b <;> cases hjb : j.testBit b <;> simp_all
  · have hpow : 2 ^ 32 ≤ 2 ^ b := Nat.pow_le_pow_right (by decide) (by omega)
    rw [Nat.testBit_lt_two_pow (hi.trans_le hpow), Nat.testBit_lt_two_pow (hj.trans_le hpow)]

theorem fits_bitName (i : ℕ) : FitsName (bitName i) := by
  have hone : ∀ b : Bool, (if b then '1' else '0').utf8Size = 1 := by decide
  have hlen : (utf8 (bitName i)).length = 32 := by
    rw [bitName, length_utf8_ofList, List.map_map]
    simp [Function.comp_def, hone]
  rw [FitsName, hlen]
  decide

theorem bitName_ne_empty (i : ℕ) : bitName i ≠ "" := by
  intro h
  have hlist := congrArg String.toList h
  simp [bitName] at hlist

/-- One column, which is the primary key. -/
def keyOnly (name : String) : Schema :=
  ⟨name, [⟨"k", .integer, false⟩], 0, by decide, by rfl, by decide⟩

/-- Tables of that kind created one after another, in a build that does not check for overflow. -/
def createAll (names : List String) (s : List Reference.WriteList) : List Reference.WriteList :=
  names.foldl (fun s name => ((Catalog.createTable (H := Reference.host false) name
    [⟨"k", .integer, false⟩] 0).run StoreOp.perform s).2) s

theorem creates_reference {s : List Reference.WriteList} {name : String} {key : Bytes}
    {names : List String} (hkey : catalogTableKey name = some key)
    (hfresh : (Reference.contract false).committed s key = none)
    (hnames : indexedNames ((Reference.contract false).committed s catalogIndexKey) = .ok names) :
    ∃ th s', (Catalog.createTable (H := Reference.host false) name [⟨"k", .integer, false⟩] 0).run
        StoreOp.perform s = (.ok th, s') ∧
      th = ⟨nextTableId ((Reference.contract false).committed s catalogCounterKey), keyOnly name⟩ ∧
      ∃ key names, Creates ((Reference.contract false).committed s)
        ((Reference.contract false).committed s') key (keyOnly name) names := by
  have hschema : Schema.new name [⟨"k", .integer, false⟩] 0 = .ok (keyOnly name) := rfl
  obtain ⟨s', hrun, hcreates⟩ := createTable_ok (Reference.contract false) nofun hkey hschema hfresh
    rfl hnames
  exact ⟨_, s', hrun, rfl, hcreates⟩

theorem map_keyOnly (names : List String) :
    (names.map keyOnly).map (fun schema => schema.tableName) = names := by
  rw [List.map_map]
  exact List.map_id _

theorem exists_catalogTableKey {name : String} (h : name ≠ "") :
    ∃ key, catalogTableKey name = some key := ⟨_, if_neg h⟩

/-- One more creation, whose name is new. -/
theorem catalogOk_concat {names : List String} {name : String}
    (h : CatalogOk ((Reference.contract false).committed (createAll names [])) (names.map keyOnly))
    {indexed : List String} (hindexed : indexedNames ((Reference.contract false).committed
      (createAll names []) catalogIndexKey) = .ok indexed)
    (hname : name ≠ "") (hnew : name ∉ names) :
    let s := createAll names []
    let c := (Reference.contract false).committed (createAll (names ++ [name]) [])
    ((Catalog.createTable (H := Reference.host false) name [⟨"k", .integer, false⟩] 0).run
        StoreOp.perform s).1 = .ok ⟨UInt32.ofNat names.length, keyOnly name⟩ ∧
      CatalogOk c ((names ++ [name]).map keyOnly) ∧
        c catalogIndexKey = some (encodeTableIndex (indexed ++ [name])) := by
  intro s c
  obtain ⟨key, hkey⟩ := exists_catalogTableKey hname
  have hfresh : (Reference.contract false).committed s key = none := by
    by_contra hlive
    have hmem := h.listed name _ hkey hlive
    rw [map_keyOnly] at hmem
    exact hnew hmem
  obtain ⟨th, s', hrun, rfl, key', names', hcreates⟩ := creates_reference hkey hfresh hindexed
  have hc : c = (Reference.contract false).committed s' := by
    have hlast : createAll (names ++ [name]) [] = s' := by
      rw [createAll, List.foldl_append, List.foldl_cons, List.foldl_nil, ← createAll, hrun]
    rw [← hlast]
  have hsame : names' = indexed := Except.ok.inj (hcreates.listed.symm.trans hindexed)
  refine ⟨?_, ?_, ?_⟩
  · rw [hrun, h.counter, List.length_map]
  · rw [hc, List.map_append, List.map_singleton]
    exact h.create hcreates
  · rw [hc, hcreates.index, hsame]
    rfl

/-- Up to 2^32 tables, what is in the catalog. -/
theorem catalogOk_createAll {n : ℕ} (hn : n ≤ 2 ^ 32) :
    let names := (List.range n).map bitName
    let c := (Reference.contract false).committed (createAll names [])
    CatalogOk c (names.map keyOnly) ∧
      (n ≠ 0 → c catalogIndexKey = some (encodeTableIndex names)) := by
  induction n with
  | zero => exact ⟨CatalogOk.empty, absurd rfl⟩
  | succ n ih =>
    obtain ⟨hcat, -⟩ := ih (by omega)
    have hindexed := hcat.index (List.forall_mem_map.mpr (List.forall_mem_map.mpr fun i _ =>
      fits_bitName i)) (by rw [List.length_map, List.length_map, List.length_range]; omega)
    rw [map_keyOnly] at hindexed
    have hnew : bitName n ∉ (List.range n).map bitName := by
      simp only [List.mem_map, List.mem_range]
      rintro ⟨i, hi, heq⟩
      exact absurd (bitName_inj (by omega) (by omega) heq) (by omega)
    obtain ⟨-, hcat', hindex'⟩ := catalogOk_concat hcat hindexed (bitName_ne_empty n) hnew
    rw [List.range_succ, List.map_append, List.map_singleton]
    exact ⟨hcat', fun _ => hindex'⟩

/-- A list whose length its count cannot hold reads as the empty one. -/
theorem decodeTableIndex_wrapped {names : List String} (h : names.length = 2 ^ 32) :
    decodeTableIndex (encodeTableIndex names) = .ok [] := by
  have hcount : ofLe (le 4 names.length) = 0 := by rw [ofLe_le, h]; rfl
  refine decodeTableIndex_eq_ok.mpr ⟨by simp [encodeTableIndex], ?_⟩
  rw [encodeTableIndex, List.take_left' (length_le _ _), hcount]
  rfl

/-- **The counter wraps around** where overflow is not checked: past 2^32 tables, the next creation
takes the id of the first. -/
theorem table_ids_reused : ∃ (names : List String) (th : TableHandle), names.length = 2 ^ 32 ∧
    ((Catalog.createTable (H := Reference.host false) "x" [⟨"k", .integer, false⟩] 0).run
      StoreOp.perform (createAll names [])).1 = .ok th ∧
    IdHeld ((Reference.contract false).committed (createAll names [])) th.tableId := by
  obtain ⟨hcat, hindex⟩ := catalogOk_createAll (Nat.le_refl (2 ^ 32))
  generalize hnames : (List.range (2 ^ 32)).map bitName = names at hcat hindex
  have hlen : names.length = 2 ^ 32 := by rw [← hnames, List.length_map, List.length_range]
  have hindexed : indexedNames ((Reference.contract false).committed (createAll names [])
      catalogIndexKey) = .ok [] := by
    rw [hindex (by omega), indexedNames, decodeTableIndex_wrapped hlen]
  have hnew : "x" ∉ names := by
    rw [← hnames]
    simp only [List.mem_map]
    rintro ⟨i, -, heq⟩
    have hlist := congrArg (fun s => s.toList.length) heq
    simp [bitName] at hlist
  obtain ⟨hrun, -, -⟩ := catalogOk_concat hcat hindexed (by decide) hnew
  refine ⟨names, _, hlen, hrun, ?_⟩
  have hfirst : 0 < names.length := by omega
  have hentry : (names.map keyOnly)[0]? = some (keyOnly names[0]) := by
    rw [List.getElem?_map, List.getElem?_eq_getElem hfirst]
    rfl
  obtain ⟨key, hkey⟩ := exists_catalogTableKey (hcat.named _ (List.mem_of_getElem? hentry))
  refine ⟨_, key, keyOnly names[0], hkey, ?_⟩
  rw [hcat.entry 0 _ key hentry hkey, hlen]
  rfl

end Choam

import Choam.Verify.Describe
import Choam.Verify.FirstCommitter
import Choam.Verify.Handle

/-!
# How the tables evolve

Whatever the clients do, three things happen to the committed tables (`Changes`): nothing; a new
table without rows appears behind the others; or the rows that one transaction has written take the
place of those there, which are still the rows that it began with, so that no update is lost. Every
access of every run is one of these (`tables_evolve`).
-/

namespace Choam

open ByteString Overlay Interleave

variable {H : Host} {C : H.Contract} {u : Unicode}

/-- The tables of the handles, with the rows committed in the store. -/
def tablesAt (s : H.Store) (hs : List TableHandle) : List Table := hs.map (tableOf (H.begin s).1)

variable {ι : Type}

/-- What the access `e`, made behind those of `earlier`, does to the tables of the handles `hs`. -/
inductive Changes (C : H.Contract) (s₀ : H.Store) (earlier : List ((system H u).Entry ι))
    (e : (system H u).Entry ι) (hs : List TableHandle) : List TableHandle → Prop
  | nothing (hcommit : committedTxn e.access = none)
      (hsame : tablesAt (replayLog s₀ (earlier ++ [e])) hs = tablesAt (replayLog s₀ earlier) hs) :
      Changes C s₀ earlier e hs hs
  | created {t : H.Txn} {th : TableHandle} (hcommit : committedTxn e.access = some t)
      (hcreates : e.call.Creates u)
      (hnew : ∀ old ∈ hs, old.schema.tableName ≠ th.schema.tableName)
      (htables : tablesAt (replayLog s₀ (earlier ++ [e])) (hs ++ [th]) =
        tablesAt (replayLog s₀ earlier) hs ++ [⟨th.schema, []⟩]) :
      Changes C s₀ earlier e hs (hs ++ [th])
  | merged {t : H.Txn} {front : List ((system H u).Entry ι)}
      (hcommit : committedTxn e.access = some t) (hcreates : ¬ e.call.Creates u)
      (hmerges : Merges (WritesRow C (replayLog s₀ earlier) t) (tablesAt (replayLog s₀ earlier) hs)
        (hs.map (tableOf t)) (tablesAt (replayLog s₀ (earlier ++ [e])) hs))
      (hfront : front <+: earlier) (hbegan : C.snapshot t = C.history (replayLog s₀ front))
      (hkept : ∀ name pk, WritesRow C (replayLog s₀ earlier) t name pk →
        Tables.row? (tablesAt (replayLog s₀ earlier) hs) name pk =
          Tables.row? (tablesAt (replayLog s₀ front) hs) name pk) :
      Changes C s₀ earlier e hs hs

section Reachable

variable [DecidableEq ι] {allow : Call → Local H → Prop} {s₀ : H.Store} {l₀ : ι → Local H}
  {g : (system H u).Config ι} {P : Promises} {s s' : H.Store} {hs : List TableHandle}

theorem tablesAt_congr (h : ∀ k, IsRowKey k → C.committed s' k = C.committed s k) :
    tablesAt s' hs = tablesAt s hs := by
  refine List.map_congr_left fun th _ => ?_
  have hrows : tableRows H (H.begin s').1 th = tableRows H (H.begin s).1 th := by
    refine tableRows_congr (C := C) fun k hk => ?_
    obtain ⟨c, rfl⟩ := hk
    rw [C.view_begin, C.view_begin, h _ (isRowKey_rowKeyPrefix _ _)]
  rw [tableOf, tableOf, hrows]

/-- Whatever was committed once was so behind some access. -/
theorem exists_front (hlog : Logged allow s₀ l₀ g) (hgood : (protocol C P u).Good s₀ g)
    (hs₀ : C.history s₀ = []) {earlier later : List ((system H u).Entry ι)}
    (h : g.log = earlier ++ later) {old : List WriteSet}
    (hold : old <+: C.history (replayLog s₀ earlier)) :
    ∃ front, front <+: earlier ∧ old = C.history (replayLog s₀ front) := by
  induction earlier using List.reverseRecOn generalizing later with
  | nil =>
    change old <+: C.history s₀ at hold
    rw [hs₀, List.prefix_nil] at hold
    exact ⟨[], List.prefix_rfl, hold.trans hs₀.symm⟩
  | append_singleton earlier e ih =>
    have hsplit : g.log = earlier ++ e :: later := by
      rw [h]
      simp
    by_cases heq : old = C.history (replayLog s₀ (earlier ++ [e]))
    · exact ⟨_, List.prefix_rfl, heq⟩
    · have hbefore : old <+: C.history (replayLog s₀ earlier) := by
        rcases entry_cases hlog hgood hsplit with ⟨t, -, -, happ⟩ | ⟨-, hsame⟩
        · rcases happ with happ | ⟨-, happ⟩
          · rw [happ] at hold heq
            exact (List.prefix_concat_iff.mp hold).resolve_left heq
          · rwa [← happ]
        · rwa [← hsame]
      obtain ⟨front, hfront, hfold⟩ := ih hsplit hbefore
      exact ⟨front, hfront.trans (List.prefix_append _ _), hfold⟩

/-- What a store can rely on from one access of the log to another. -/
theorem rely_between (hlog : Logged allow s₀ l₀ g) (hgood : (protocol C P u).Good s₀ g)
    {front mid later : List ((system H u).Entry ι)} {e : (system H u).Entry ι}
    (h : g.log = front ++ mid ++ e :: later) :
    Rely C P (replayLog s₀ front) (replayLog s₀ (front ++ mid)) := by
  cases mid with
  | nil =>
    rw [List.append_nil]
    exact .refl _
  | cons x mid =>
    have hx := (hlog.entry front x (mid ++ e :: later) (by simpa using h)).before
    have horder := hgood.order
    rw [h, List.append_assoc, List.cons_append, List.pairwise_append] at horder
    have hrely := (List.pairwise_cons.mp horder.2.1).1 e
      (List.mem_append_right _ List.mem_cons_self)
    rwa [hx, (hlog.entry _ e later h).before] at hrely

theorem Sound.ofFits (h : Sound C allFit s) : Sound C valuesFit s :=
  ⟨h.catalog.imp fun _ hts => ⟨hts.1, False.elim⟩, h.history, h.rows⟩

/-- A commit that creates no table. -/
theorem changes_merged (hlog : Logged allow s₀ l₀ g) (hgood : (protocol C allFit u).Good s₀ g)
    (hs₀ : C.history s₀ = []) (hrows : ∀ e ∈ g.log, e.start.WritesRows C)
    {earlier later : List ((system H u).Entry ι)} {e : (system H u).Entry ι}
    (h : g.log = earlier ++ e :: later) (hl : Lists C (replayLog s₀ earlier) hs) {t : H.Txn}
    (ht : committedTxn e.access = some t) (hc : ¬ e.call.Creates u)
    (hfree : ∀ k, C.writes t k ≠ none →
      ¬ WrittenSince (C.snapshot t) (C.history (replayLog s₀ earlier)) k)
    (happ : Appends (C.writes t) (C.history (replayLog s₀ earlier))
      (C.history (replayLog s₀ (earlier ++ [e])))) :
    Lists C (replayLog s₀ (earlier ++ [e])) hs ∧ Changes C s₀ earlier e hs hs := by
  have hempty : Sound C allFit s₀ := .of_nil C _ hs₀
  have hlogged' : g.log = (earlier ++ [e]) ++ later := by
    rw [h]
    simp
  have hrely := rely_replayLog hlog hgood h
  have hrely' := rely_replayLog hlog hgood hlogged'
  have happlied : C.committed (replayLog s₀ (earlier ++ [e])) =
      (C.writes t).apply (C.committed (replayLog s₀ earlier)) := happ.replay
  have hcatalog : ∀ k, ¬ IsRowKey k → C.writes t k = none := fun k hk =>
    (committing_of_entry (C := C) hlog h ht).writesRows
      (hrows e (h ▸ List.mem_append_right _ List.mem_cons_self)) hc hk
  have hl' : Lists C (replayLog s₀ (earlier ++ [e])) hs := hl.congr fun k hk => by
    rw [happlied, Writes.apply_of_none (hcatalog k hk)]
  -- It was a transaction on rows.
  obtain ⟨s, hacc⟩ := committedTxn_eq_some.mp ht
  have hbefore := (hlog.entry earlier e later h).before
  have hok : TxnOk C allFit t (replayLog s₀ earlier) := by
    have hcommit := hgood.log e (h ▸ List.mem_append_right _ List.mem_cons_self) t (by rw [hacc])
    rw [hbefore] at hcommit
    rcases hcommit with hok | ⟨base, key, schema, names, htxn, -⟩
    · exact hok
    · have hindex := hcatalog _ not_isRowKey_catalogIndexKey
      rw [htxn.writes, Writes.set_self] at hindex
      cases hindex
  obtain ⟨front, hfront, hbegan⟩ := exists_front hlog hgood hs₀ h hok.snapshot
  obtain ⟨mid, rfl⟩ := id hfront
  have hfrontLog : g.log = front ++ (mid ++ e :: later) := by
    rw [h, List.append_assoc]
  have hthen := rowsTyped_begin hempty hl (rely_replayLog hlog hgood hfrontLog).1
    (rely_between hlog hgood h)
  have hsound := hrely.1.sound hempty
  have hview := hok.viewTyped hsound trivial hl.fewTables
  have hafter : ∀ th ∈ hs, RowsTyped C (H.begin (replayLog s₀ (front ++ mid ++ [e]))).1 th :=
    rowsTyped_begin hempty hl' hrely'.1 (.refl _)
  have hnow := rowsTyped_begin hempty hl hrely.1 (.refl _)
  refine ⟨hl', .merged ht hc (merges_of_applied hl hnow
    (fun th hth => hview.rows _ th (hl.lookup_mem hth)) hafter happlied ?_) hfront hbegan ?_⟩
  · intro table pk k hrow
    exact ⟨fun hk => ⟨k, hrow, hk⟩, fun hw => by
      obtain ⟨k', hrow', hk'⟩ := hw
      rwa [hrow.unique hrow']⟩
  · intro name pk hw
    obtain ⟨k, hrow, hk⟩ := hw
    rw [Tables.row?, Tables.row?, tablesAt, tablesAt, Lists.find_tables, Lists.find_tables]
    cases hth : hs.find? (·.schema.tableName == name) with
    | none => rfl
    | some th =>
      have hmem := List.mem_of_find?_eq_some hth
      refine row?_congr (hthen th hmem) (hnow th hmem) fun k' hk' => ?_
      obtain rfl := hrow.unique ⟨th, hth ▸ hl.lookup name, hk'⟩
      have hunwritten := hfree k hk
      rw [hbegan] at hunwritten
      rw [C.view_begin, C.view_begin]
      exact replay_eq_of_not_writtenSince (hbegan ▸ hok.snapshot) hunwritten

/-- The commit of a creation. -/
theorem changes_created (hlog : Logged allow s₀ l₀ g) (hgood : (protocol C allFit u).Good s₀ g)
    (hallow : ∀ c l, allow c l → c.FitsNames u) (hs₀ : C.history s₀ = [])
    (hfew : FewTables (C.committed g.shared)) {earlier later : List ((system H u).Entry ι)}
    {e : (system H u).Entry ι} (h : g.log = earlier ++ e :: later)
    (hl : Lists C (replayLog s₀ earlier) hs) {t : H.Txn}
    (ht : committedTxn e.access = some t) (hc : e.call.Creates u)
    (hfree : ∀ k, C.writes t k ≠ none →
      ¬ WrittenSince (C.snapshot t) (C.history (replayLog s₀ earlier)) k)
    (happ : Appends (C.writes t) (C.history (replayLog s₀ earlier))
      (C.history (replayLog s₀ (earlier ++ [e])))) :
    ∃ th, Lists C (replayLog s₀ (earlier ++ [e])) (hs ++ [th]) ∧
      Changes C s₀ earlier e hs (hs ++ [th]) := by
  have hempty : Sound C allFit s₀ := .of_nil C _ hs₀
  have hlogged' : g.log = (earlier ++ [e]) ++ later := by
    rw [h]
    simp
  obtain ⟨th, key, names, hmade, hcreates, hid⟩ :=
    creates_of_entry hlog hgood hempty h hc ht happ hfree
  have hcatalog := hl.catalog.create hcreates
  have hnew : ∀ old ∈ hs, old.schema.tableName ≠ th.schema.tableName := by
    have hnodup := hcatalog.nodup
    rw [List.map_append, List.nodup_append] at hnodup
    exact fun old hold => hnodup.2.2 _ (List.mem_map_of_mem (List.mem_map_of_mem hold)) _
      List.mem_cons_self
  have hlast : th.tableId = UInt32.ofNat hs.length := by
    rw [hid, hl.catalog.counter, List.length_map]
  have hfits : th.schema.FitsEntry :=
    (hmade.asksFor hc).fitsEntry (hallow _ _ (hlog.entry earlier e later h).allowed)
  have hl' : Lists C (replayLog s₀ (earlier ++ [e])) (hs ++ [th]) := by
    refine hl.append hcreates hlast hfits ?_
    have hlen := hcatalog.length_lt (hfew.of_persist (rely_replayLog hlog hgood hlogged').2.entries)
    rwa [List.length_append, List.length_map, List.length_singleton] at hlen
  refine ⟨th, hl', .created ht hc hnew ?_⟩
  have hrows : ∀ k, IsRowKey k → C.committed (replayLog s₀ (earlier ++ [e])) k =
      C.committed (replayLog s₀ earlier) k := fun k hk => hcreates.of_isRowKey hk
  have hempty' : tableRows H (H.begin (replayLog s₀ (earlier ++ [e]))).1 th = [] := by
    refine tableRows_new hl ((rely_replayLog hlog hgood h).1.sound hempty).ofFits (fun k hk => ?_)
      hlast
    rw [C.view_begin, hrows k hk]
  rw [tablesAt, List.map_append, List.map_singleton, tableOf, hempty']
  exact congrArg (· ++ [_]) (tablesAt_congr hrows)

/-- **The tables evolve by creations and merges.** On a new database, among any number of clients
and in any interleaving, where values and names fit their length fields: every access either leaves
the committed tables as they are, or commits a new table, which is put behind the others and has no
rows; or it commits a transaction, whose rows take the place of those with the same keys, while all
other rows stay, and those which are replaced are still what they were when it began. -/
theorem tables_evolve (C : H.Contract) (hallow : ∀ c l, allow c l → c.FitsValues u ∧ c.FitsNames u)
    (hs₀ : C.history s₀ = []) (hl₀ : ∀ i, (l₀ i).Idle) (hg : Reachable allow (start s₀ l₀) g)
    (hfew : FewTables (C.committed g.shared)) {earlier later : List ((system H u).Entry ι)}
    {e : (system H u).Entry ι} (h : g.log = earlier ++ e :: later) :
    ∃ hs hs' : List TableHandle,
      (alone Catalog.listTables (replayLog s₀ earlier)).1 =
        (.ok hs : Except (CatalogError H.StoreError) _) ∧
      (alone Catalog.listTables (replayLog s₀ (earlier ++ [e]))).1 =
        (.ok hs' : Except (CatalogError H.StoreError) _) ∧
      Changes C s₀ earlier e hs hs' := by
  have hwithin : ∀ c l, allow c l → c.Within allFit u :=
    fun c l hc => ⟨fun _ => (hallow c l hc).1, fun _ => (hallow c l hc).2⟩
  have hempty : Sound C allFit s₀ := .of_nil C _ hs₀
  have hlog := hg.logged
  have hgood := good_of_reachable hwithin hempty hl₀ hg
  have hrely := rely_replayLog hlog hgood h
  obtain ⟨hs, hl⟩ := lists_of_rely hempty hfew hrely.1 hrely.2
  have hchanges : ∃ hs', Lists C (replayLog s₀ (earlier ++ [e])) hs' ∧
      Changes C s₀ earlier e hs hs' := by
    rcases entry_cases hlog hgood h with ⟨t, ht, hfree, happ⟩ | ⟨hnone, hsame⟩
    · by_cases hc : e.call.Creates u
      · obtain ⟨th, hth⟩ := changes_created hlog hgood (fun c l hc => (hallow c l hc).2) hs₀ hfew h
          hl ht hc hfree happ
        exact ⟨hs ++ [th], hth⟩
      · exact ⟨hs, changes_merged hlog hgood hs₀ (writesRows_of_reachable hwithin hempty hl₀ hg).2 h
          hl ht hc hfree happ⟩
    · have hcommitted : C.committed (replayLog s₀ (earlier ++ [e])) =
          C.committed (replayLog s₀ earlier) := by
        rw [Host.Contract.committed, hsame]
        rfl
      exact ⟨hs, hl.congr fun k _ => congrFun hcommitted k,
        .nothing hnone (tablesAt_congr fun k _ => congrFun hcommitted k)⟩
  obtain ⟨hs', hl', hchange⟩ := hchanges
  refine ⟨hs, hs', ?_, ?_, hchange⟩
  · rw [hl.catalog.listed_all hl.ids hl.fits hl.few]
  · rw [hl'.catalog.listed_all hl'.ids hl'.fits hl'.few]

end Reachable

theorem tables_evolve_sample : ∃ earlier e, handlingRun.log = earlier ++ [e] ∧
    (committedTxn e.access).isSome = true ∧ ∃ hs hs' : List TableHandle,
      (alone (H := Reference.host true) Catalog.listTables (replayLog [] earlier)).1 =
        (.ok hs : Except (CatalogError Empty) _) ∧
      (alone (H := Reference.host true) Catalog.listTables (replayLog [] (earlier ++ [e]))).1 =
        (.ok hs' : Except (CatalogError Empty) _) ∧
      Changes (Reference.contract true) [] earlier e hs hs' := by
  have hlast : (handlingRun.log.getLast?.any fun e => (committedTxn e.access).isSome) = true := by
    decide +kernel
  obtain ⟨e, he, hcommit⟩ := (Option.any_eq_true _ _).mp hlast
  obtain ⟨earlier, h⟩ := List.getLast?_eq_some_iff.mp he
  exact ⟨earlier, e, h, hcommit, tables_evolve (Reference.contract true) (fun _ _ h => h) rfl
    idle_newHandles reachable_handlingRun (Reference.fewTables (by decide +kernel)) h⟩

end Choam

import Choam.Verify.Conflict
import Choam.Verify.Memory

/-!
# A relational transaction is a copy of the tables

What a relational transaction is for: it has the tables as they were when it began, for itself; a
read finds a row by its primary key, a scan gives all rows in the order of their keys, a write puts
a row in the place of that with the same key, and a deletion takes it away (`Table.serve`). Among
any other clients, each of its operations answers just so (`transaction_refines_tables`); only a
table that is created meanwhile comes into sight at some moment, and has no rows then. A commit that
succeeds puts the rows it has written among those that are there at that moment
(`commit_merges_rows`).
-/

namespace Choam

open ByteString Overlay Interleave Relational

/-! ## Tables in memory -/

/-- What an operation on rows answers. -/
inductive Answer where
  | row (r : Option Row)
  | rows (rows : List Row)
  | done

namespace Table

/-- The row with this primary key. -/
def row? (t : Table) (pk : Value) : Option Row :=
  t.rows.find? fun row => row[t.schema.primaryKey]? = some pk

/-- The rows but for that with this primary key. -/
def others (t : Table) (pk : Option Value) : List Row :=
  t.rows.filter fun row => !decide (row[t.schema.primaryKey]? = pk)

/-- The rows with this one among them, in the place of that with the same primary key. -/
def put (t : Table) (row : Row) : List Row :=
  (t.others row[t.schema.primaryKey]?).orderedInsert (before t.schema) row

/-- An operation on the rows of the table, which is refused or answered, and the rows behind it. -/
def serve (t : Table) : Call → Option (Answer × List Row)
  | .read _ pk =>
    if pk.columnType = some t.schema.primaryKeyType then some (.row (t.row? pk), t.rows) else none
  | .scan _ => some (.rows t.rows, t.rows)
  | .write _ values => if t.schema.IsRow values then some (.done, t.put values) else none
  | .delete _ pk =>
    if pk.columnType = some t.schema.primaryKeyType then some (.done, t.others (some pk)) else none
  | _ => none

end Table

/-- The table that an operation on rows names. -/
def Call.rowTable? : Call → Option String
  | read table _ | scan table | write table _ | delete table _ => some table
  | _ => none

/-- An operation on rows, on the table that it names. -/
def Tables.serve (db : List Table) (c : Call) : Option (Answer × List Table) :=
  c.rowTable?.bind fun name => (find db name).bind fun t =>
    (t.serve c).map fun r => (r.1, replace db name r.2)

variable {H : Host} {C : H.Contract} {u : Unicode} {s : H.Store} {t t' : H.Txn} {th : TableHandle}
  {table : String} {rows : List Row} {pk : Value} {k : Bytes} {E : Type}

/-! ## One operation -/

theorem Represents.congr (h : Represents C t th rows) (hview : ∀ k, C.view t' k = C.view t k) :
    Represents C t' th rows := by
  refine ⟨h.sorted, h.typed, fun row hrow k hk => ?_, fun k v hp hv => ?_⟩
  · rw [hview]
    exact h.stored row hrow k hk
  · rw [hview] at hv
    exact h.only k v hp hv

/-- The rows without that of a deleted key. -/
theorem RowsTyped.represents_delete (hrows : RowsTyped C t th)
    (hk : rowKey th.tableId pk th.schema.primaryKeyType = .ok k) :
    Represents C (H.delete t k) th ((tableOf t th).others (some pk)) := by
  have hiff {row : Row} {k' : Bytes} (hk' : Keyed th row k') :
      row[th.schema.primaryKey]? = some pk ↔ k' = k := by
    obtain ⟨pk', hpk', hrow⟩ := hk'
    rw [hpk', Option.some.injEq]
    constructor
    · rintro rfl
      exact Except.ok.inj (hrow.symm.trans hk)
    · rintro rfl
      exact rowKey_inj hrow hk
  refine hrows.represents.delete (p := fun row => decide (row[th.schema.primaryKey]? = some pk))
    (fun row _ hp k' hk' => ?_) fun k' hk' => ?_
  · obtain rfl := (hiff hk').mp (of_decide_eq_true hp)
    rw [C.view_delete, Function.update_self]
  · rw [C.view_delete]
    by_cases heq : k' = k
    · subst heq
      rw [Function.update_self]
      cases hv : C.view t k' with
      | none => rfl
      | some v =>
        -- a row there would be the deleted one
        obtain ⟨c, -, rfl⟩ := rowKey_ok hk
        obtain ⟨row, hrow, hkey⟩ := hrows.represents.only _ v (List.prefix_append _ _) hv
        exact absurd hkey (hk' row hrow (decide_eq_true ((hiff hkey).mpr rfl)))
    · exact Function.update_of_ne heq _ _

/-- The rows with that of a written key. -/
theorem RowsTyped.represents_put (hrows : RowsTyped C t th) {values : Row} {bs : Bytes}
    (hvalues : th.schema.IsRow values) (hpk : values[th.schema.primaryKey]? = some pk)
    (hk : rowKey th.tableId pk th.schema.primaryKeyType = .ok k)
    (hbs : encodeRow th.schema values = .ok bs) :
    Represents C (H.put t k bs) th ((tableOf t th).put values) := by
  have hdeleted := hrows.represents_delete hk
  rw [← hpk] at hdeleted
  have hput := hdeleted.insert hvalues ⟨pk, hpk, hk⟩ hbs fun r hr => by
    exact of_decide_eq_false ((Bool.not_eq_true' _).mp (List.mem_filter.mp hr).2)
  refine hput.congr fun k' => ?_
  rw [C.view_put, C.view_put, C.view_delete, Function.update_idem]

/-- The row with a primary key is what is stored under its key. -/
theorem RowsTyped.row?_eq (hrows : RowsTyped C t th)
    (hk : rowKey th.tableId pk th.schema.primaryKeyType = .ok k) :
    (tableOf t th).row? pk = (C.view t k).bind fun v => (decodeRow th.schema v).toOption := by
  have hkeyed {row : Row} (hpk : row[th.schema.primaryKey]? = some pk) : Keyed th row k :=
    ⟨pk, hpk, hk⟩
  cases hv : C.view t k with
  | none =>
    refine List.find?_eq_none.mpr fun row hrow hpk => ?_
    obtain ⟨v, hv', -⟩ := hrows.represents.stored row hrow k (hkeyed (of_decide_eq_true hpk))
    cases hv.symm.trans hv'
  | some v =>
    obtain ⟨c, -, rfl⟩ := rowKey_ok hk
    obtain ⟨row, hrow, ⟨pk', hpk', hk'⟩, hdecode⟩ :=
      hrows.represents.entry fits_of_tableRows (List.prefix_append _ _) hv
    obtain rfl := rowKey_inj hk' hk
    rw [Option.bind_some, hdecode]
    cases hfind : (tableOf t th).row? pk' with
    | none => exact absurd (decide_eq_true hpk') (List.find?_eq_none.mp hfind row hrow)
    | some row' =>
      have hpk : row'[th.schema.primaryKey]? = some pk' := by
        have := List.find?_some (p := fun row => decide (row[th.schema.primaryKey]? = some pk'))
          hfind
        exact of_decide_eq_true this
      rw [hrows.represents.eq_of_keyed (List.mem_of_find?_eq_some hfind) hrow (hkeyed hpk)
        (hkeyed hpk')]
      rfl

/-- What an operation on the table `th` has given, by the answer and the rows that it has in
memory, if it is not refused there. -/
inductive Gives (C : H.Contract) (th : TableHandle) (t : H.Txn) :
    Option (Answer × List Row) → Except (DbError E) Answer → H.Txn → Prop
  | ok {a : Answer} {rows : List Row} {t' : H.Txn} (hrep : Represents C t' th rows)
      (hfits : ∀ row ∈ rows, Row.Fits row) (hframe : Frame C th t t') :
      Gives C th t (some (a, rows)) (.ok a) t'
  | refused (e : DbError E) : Gives C th t none (.error e) t

section Operations

variable (hh : lookupTable (C.committed s) table = .ok (some th)) (hrows : RowsTyped C t th)

include hh hrows

theorem exec_read_gives {r : Except (DbError E) (Option Row)}
    (hexec : (RelTransaction.read table pk).exec s t = (r, t')) :
    Gives C th t ((tableOf t th).serve (.read table pk)) (r.map .row) t' := by
  rw [exec_read_of pk (tableAt_committed hh)] at hexec
  obtain ⟨rfl, rfl⟩ := Prod.mk.inj hexec
  by_cases hty : pk.columnType = some th.schema.primaryKeyType
  · obtain ⟨k, hk⟩ := (@rowKey_isOk th.tableId _ _).mpr hty
    have hserve : (tableOf t th).serve (.read table pk) =
        some (.row ((tableOf t th).row? pk), tableRows H t th) := if_pos hty
    rw [hserve, hk, hrows.row?_eq hk]
    dsimp only
    rw [C.read_view]
    cases hv : C.view t k with
    | none => exact .ok hrows.represents fits_of_tableRows fun _ _ => rfl
    | some v =>
      obtain ⟨c, -, rfl⟩ := rowKey_ok hk
      obtain ⟨row, -, hdecode, -⟩ := hrows _ _ (List.prefix_append _ _) hv
      dsimp only [Option.bind_some]
      rw [hdecode]
      exact .ok hrows.represents fits_of_tableRows fun _ _ => rfl
  · have hserve : (tableOf t th).serve (.read table pk) = none := if_neg hty
    rw [hserve, rowKey_error hty]
    exact .refused _

theorem exec_scan_gives {r : Except (DbError E) (List Row)}
    (hexec : (RelTransaction.scan table).exec s t = (r, t')) :
    Gives C th t ((tableOf t th).serve (.scan table)) (r.map .rows) t' := by
  rw [exec_scan_of (tableAt_committed hh)] at hexec
  obtain ⟨rfl, rfl⟩ := Prod.mk.inj hexec
  have hdecode : RelTransaction.decodeRows th.schema (H.scan t (rowKeyPrefix th.tableId)) =
      .ok (tableRows H t th) := by
    refine decodeRows_eq_map fun e he => ?_
    obtain ⟨hp, hv⟩ := C.mem_scan_view.mp he
    obtain ⟨row, -, hdecode, -⟩ := hrows _ _ hp hv
    exact ⟨row, hdecode⟩
  rw [hdecode]
  exact .ok hrows.represents fits_of_tableRows fun _ _ => rfl

theorem exec_write_gives {values : Row} (hfits : Row.Fits values) {r : Except (DbError E) Unit}
    (hexec : (RelTransaction.write table values).exec s t = (r, t')) :
    Gives C th t ((tableOf t th).serve (.write table values)) (r.map fun _ => .done) t' := by
  rw [exec_write_eq values (tableAt_committed hh)] at hexec
  by_cases hvalues : th.schema.IsRow values
  · obtain ⟨pk, hpk, hty⟩ := hvalues.primaryKey
    obtain ⟨k, hk⟩ := (@rowKey_isOk th.tableId _ _).mpr hty
    obtain ⟨bs, hbs⟩ := encodeRow_isOk.mpr hvalues
    rw [hpk] at hexec
    dsimp only at hexec
    rw [hk] at hexec
    dsimp only at hexec
    rw [hbs] at hexec
    obtain ⟨rfl, rfl⟩ := Prod.mk.inj hexec
    have hserve : (tableOf t th).serve (.write table values) =
        some (.done, (tableOf t th).put values) := if_pos hvalues
    rw [hserve]
    refine .ok (hrows.represents_put hvalues hpk hk hbs) (fun row hrow => ?_) fun k' hk' => ?_
    · rcases (List.mem_orderedInsert _).mp hrow with rfl | hrow
      · exact hfits
      · exact fits_of_tableRows row (List.mem_of_mem_filter hrow)
    · obtain ⟨c, -, rfl⟩ := rowKey_ok hk
      rw [C.view_put]
      refine Function.update_of_ne ?_ _ _
      rintro rfl
      exact hk' (List.prefix_append _ _)
  · have hserve : (tableOf t th).serve (.write table values) = none := if_neg hvalues
    rw [hserve]
    cases hpk : values[th.schema.primaryKey]? with
    | none =>
      rw [hpk] at hexec
      obtain ⟨rfl, rfl⟩ := Prod.mk.inj hexec
      exact .refused _
    | some pk =>
      rw [hpk] at hexec
      dsimp only at hexec
      cases hk : rowKey th.tableId pk th.schema.primaryKeyType with
      | error e =>
        rw [hk] at hexec
        obtain ⟨rfl, rfl⟩ := Prod.mk.inj hexec
        exact .refused _
      | ok k =>
        rw [hk] at hexec
        dsimp only at hexec
        cases hbs : encodeRow th.schema values with
        | error e =>
          rw [hbs] at hexec
          obtain ⟨rfl, rfl⟩ := Prod.mk.inj hexec
          exact .refused _
        | ok bs => exact absurd (encodeRow_isOk.mp ⟨bs, hbs⟩) hvalues

theorem exec_delete_gives {r : Except (DbError E) Unit}
    (hexec : (RelTransaction.delete table pk).exec s t = (r, t')) :
    Gives C th t ((tableOf t th).serve (.delete table pk)) (r.map fun _ => .done) t' := by
  by_cases hty : pk.columnType = some th.schema.primaryKeyType
  · obtain ⟨k, hk⟩ := (@rowKey_isOk th.tableId _ _).mpr hty
    rw [exec_delete_of (tableAt_committed hh) hk] at hexec
    obtain ⟨rfl, rfl⟩ := Prod.mk.inj hexec
    have hserve : (tableOf t th).serve (.delete table pk) =
        some (.done, (tableOf t th).others (some pk)) := if_pos hty
    rw [hserve]
    refine .ok (hrows.represents_delete hk) (fun row hrow => ?_) fun k' hk' => ?_
    · exact fits_of_tableRows row (List.mem_of_mem_filter hrow)
    · obtain ⟨c, -, rfl⟩ := rowKey_ok hk
      rw [C.view_delete]
      refine Function.update_of_ne ?_ _ _
      rintro rfl
      exact hk' (List.prefix_append _ _)
  · have hserve : (tableOf t th).serve (.delete table pk) = none := if_neg hty
    rw [hserve]
    unfold RelTransaction.delete at hexec
    simp only [RowM.exec_bind, exec_tableHandle, tableAt_committed hh, RowM.exec_ofExcept,
      rowKey_error hty] at hexec
    obtain ⟨rfl, rfl⟩ := Prod.mk.inj hexec
    exact .refused _

end Operations

/-! ## The tables of a transaction -/

namespace Reply

/-- What an operation on rows has answered. -/
def answer : Reply H → Option Answer
  | .row (.ok r) => some (.row r)
  | .rows (.ok rows) => some (.rows rows)
  | .done (.ok ()) => some .done
  | _ => none

/-- The error of an operation on rows. -/
def error? : Reply H → Option (DbError H.StoreError)
  | .row (.error e) | .rows (.error e) | .done (.error e) => some e
  | _ => none

end Reply

/-- The call `d` has done to the tables `db` what it does to tables in memory; a table that is not
in the catalog `c` may not be there yet. -/
inductive Serves (c : Contents Bytes Bytes) (db : List Table) (d : (system H u).Done) :
    List Table → Prop
  | ok {a : Answer} {db' : List Table} (h : Tables.serve db d.call = some (a, db'))
      (hreply : d.reply.answer = some a) : Serves c db d db'
  | refused {e : DbError H.StoreError} (h : Tables.serve db d.call = none)
      (hreply : d.reply.error? = some e) : Serves c db d db
  | unknown {name : String} (hname : d.call.rowTable? = some name)
      (hnew : lookupTable c name = .ok none)
      (hreply : d.reply.error? = some (.unknownTable name)) : Serves c db d db
  | other (h : d.call.rowTable? = none) : Serves c db d db

/-- The calls of `ops` have made the tables `db'` of `db`, one after another. -/
inductive ServesAll (c : Contents Bytes Bytes) :
    List Table → List (system H u).Done → List Table → Prop
  | nil (db : List Table) : ServesAll c db [] db
  | cons {db db' db'' : List Table} {d : (system H u).Done} {ops : List (system H u).Done}
      (hd : Serves c db d db') (hops : ServesAll c db' ops db'') : ServesAll c db (d :: ops) db''

/-- The store `s` lies between the beginning `base` and the end `last`. -/
structure Between (C : H.Contract) (base last s : H.Store) : Prop where
  began : ∃ hs, Lists C base hs
  lists : ∃ hs, Lists C s hs
  since : EntriesPersist (C.committed base) (C.committed s)
  later : EntriesPersist (C.committed s) (C.committed last)

section Handle

variable {allow : Call → Local H → Prop} {d : (system H u).Done} {base last : H.Store}
  {hs : List TableHandle}

/-- An operation on one of the tables leaves the others as they are. -/
theorem Gives.tables (hl : Lists C last hs) (hth : th ∈ hs) (htyped : ∀ th ∈ hs, RowsTyped C t th)
    {served : Option (Answer × List Row)} {r : Except (DbError E) Answer}
    (h : Gives C th t served r t') :
    (∀ th ∈ hs, RowsTyped C t' th) ∧
      (served = none ∧ t' = t ∨ ∃ a, served = some (a, tableRows H t' th) ∧
        hs.map (tableOf t') =
          Tables.replace (hs.map (tableOf t)) th.schema.tableName (tableRows H t' th)) := by
  cases h with
  | refused e => exact ⟨htyped, .inl ⟨rfl, rfl⟩⟩
  | @ok a rows t' hrep hfits hframe =>
    refine ⟨fun th' hth' => ?_, .inr ⟨a, by rw [hrep.tableRows_eq hfits], ?_⟩⟩
    · by_cases heq : th' = th
      · subst heq
        exact hrep.rowsTyped hfits
      · intro k v hp hv
        rw [hframe k fun hp' => heq (hl.apart hth' hth hp hp')] at hv
        exact htyped th' hth' k v hp hv
    · exact hl.replace_tables hth hframe

/-- A program that looks its table up and then does what the table in memory does. -/
theorem serves_of_exec {α : Type} {m : RowM (DbError H.StoreError) α}
    {reply : Except (DbError H.StoreError) α → Reply H} {answer : α → Answer}
    (hok : ∀ x, (reply (.ok x)).answer = some (answer x))
    (herror : ∀ e, (reply (.error e)).error? = some e)
    (hl : Lists C last hs) (htyped : ∀ th ∈ hs, RowsTyped C t th) (hs' : Between C base last s)
    (hname : d.call.rowTable? = some table) {r : Except (DbError H.StoreError) α}
    (hreply : d.reply = reply r) (hexec : m.exec s t = (r, t'))
    (hunknown : ∀ e, tableAt (H.get s) table = .error e → m.exec s t = (.error e, t))
    (hgives : ∀ th, lookupTable (C.committed s) table = .ok (some th) → RowsTyped C t th →
      Gives C th t ((tableOf t th).serve d.call) (r.map answer) t') :
    (∀ th ∈ hs, RowsTyped C t' th) ∧
      Serves (C.committed base) (hs.map (tableOf t)) d (hs.map (tableOf t')) := by
  have hfind := Lists.find_tables hs t table
  obtain ⟨⟨known, hknown⟩, ⟨listed, hlisted⟩, hsince, hlater⟩ := hs'
  cases hth : listed.find? (·.schema.tableName == table) with
  | none =>
    have hlookup : lookupTable (C.committed s) table = .ok none := hth ▸ hlisted.lookup table
    have hat : (tableAt (H.get s) table : Except (DbError H.StoreError) _) =
        .error (.unknownTable table) := by
      rw [tableAt_congr fun k _ => C.get_committed s k, tableAt, hlookup]
    obtain ⟨rfl, rfl⟩ := Prod.mk.inj (hexec.symm.trans (hunknown _ hat))
    refine ⟨htyped, .unknown hname ?_ (hreply ▸ herror _)⟩
    cases hth₀ : known.find? (·.schema.tableName == table) with
    | none => exact hth₀ ▸ hknown.lookup table
    | some th₀ =>
      -- a table that was there then would be there now
      have hlater := hsince.lookup (hth₀ ▸ hknown.lookup table)
      cases hlookup.symm.trans hlater
  | some th =>
    have hlookup : lookupTable (C.committed s) table = .ok (some th) := hth ▸ hlisted.lookup table
    have hlast := (hl.lookup table).symm.trans (hlater.lookup hlookup)
    have hmem : th ∈ hs := List.mem_of_find?_eq_some (Except.ok.inj hlast)
    have htable : th.schema.tableName = table := by
      simpa using List.find?_some (Except.ok.inj hlast)
    rw [Except.ok.inj hlast] at hfind
    have hserve : Tables.serve (hs.map (tableOf t)) d.call = ((tableOf t th).serve d.call).map
        fun r => (r.1, Tables.replace (hs.map (tableOf t)) table r.2) := by
      rw [Tables.serve, hname, Option.bind_some, hfind]
      rfl
    have hgives := hgives th hlookup (htyped th hmem)
    obtain ⟨htyped', hserved⟩ := hgives.tables hl hmem htyped
    refine ⟨htyped', ?_⟩
    rcases hserved with ⟨hnone, rfl⟩ | ⟨a, hsome, htables⟩
    · rw [hnone] at hgives hserve
      cases r with
      | error e => exact .refused hserve (hreply ▸ herror e)
      | ok x => cases hgives
    · rw [hsome] at hgives hserve
      rw [htables, htable]
      cases r with
      | error e => cases hgives
      | ok x =>
        have ha : answer x = a := by
          cases hgives
          rfl
        exact .ok hserve (by rw [hreply, hok, ha])

/-- One call of a relational transaction that does not end it. -/
theorem serves_of_returned (hd : Returned (O := system H u) allow d)
    (hstart : d.start = .handle (some t)) (hends : d.call ≠ .commit ∧ d.call ≠ .abort)
    (hfits : d.call.FitsValues u) (hl : Lists C last hs) (htyped : ∀ th ∈ hs, RowsTyped C t th)
    (hlast : Between C base last last) (hmet : ∀ a ∈ d.seen, Between C base last a.before)
    (hseen : d.seen.Pairwise fun a a' =>
      EntriesPersist (C.committed a.before) (C.committed a'.before)) :
    ∃ t', d.finish = .handle (some t') ∧ (∀ th ∈ hs, RowsTyped C t' th) ∧
      Serves (C.committed base) (hs.map (tableOf t)) d (hs.map (tableOf t')) := by
  have hleads := hd.leads
  have hen : d.call.Enabled d.start := hd.enabled
  change Leads (O := system H u) (d.call.body u d.start) _ _ at hleads
  rw [hstart] at hleads hen
  have hfirst : Between C base last (RowM.metFirst last d.seen) := by
    cases hhead : d.seen.head? with
    | none => rwa [RowM.metFirst, hhead]
    | some a =>
      rw [RowM.metFirst, hhead]
      exact hmet a (List.mem_of_mem_head? hhead)
  cases hcall : d.call with
  | commit => exact absurd hcall hends.1
  | abort => exact absurd hcall hends.2
  | execute | executeStatement | begin =>
    rw [hcall] at hen
    exact hen.elim
  | createTable name columns pk | getTable name | listTables =>
    rw [hcall] at hleads
    obtain ⟨seen₁, seen₂, r, -, -, h₂⟩ := Leads.of_bind_done hleads
    obtain ⟨-, heq⟩ := h₂.of_done
    injection heq with heq
    injection heq with hreply hfinish
    exact ⟨t, hfinish, htyped, .other (by rw [hcall]; rfl)⟩
  | read table pk =>
    rw [hcall] at hleads
    obtain ⟨r, t', hreply, hfinish, hexec⟩ :=
      returned_within (RowM.onTable_read pk) hleads hseen last
    refine ⟨t', hfinish, serves_of_exec (fun _ => rfl) (fun _ => rfl) hl htyped hfirst
      (by rw [hcall]; rfl) hreply hexec (fun e he => ?_) fun th hth hrows => ?_⟩
    · unfold RelTransaction.read
      rw [RowM.exec_bind, exec_tableHandle, he]
    · rw [hcall]
      exact exec_read_gives hth hrows hexec
  | scan table =>
    rw [hcall] at hleads
    obtain ⟨r, t', hreply, hfinish, hexec⟩ := returned_within RowM.onTable_scan hleads hseen last
    refine ⟨t', hfinish, serves_of_exec (fun _ => rfl) (fun _ => rfl) hl htyped hfirst
      (by rw [hcall]; rfl) hreply hexec (fun e he => ?_) fun th hth hrows => ?_⟩
    · unfold RelTransaction.scan
      rw [RowM.exec_bind, exec_tableHandle, he]
    · rw [hcall]
      exact exec_scan_gives hth hrows hexec
  | write table values =>
    rw [hcall] at hleads hfits
    obtain ⟨r, t', hreply, hfinish, hexec⟩ :=
      returned_within (RowM.onTable_write False.elim) hleads hseen last
    refine ⟨t', hfinish, serves_of_exec (fun _ => rfl) (fun _ => rfl) hl htyped hfirst
      (by rw [hcall]; rfl) hreply hexec (fun e he => ?_) fun th hth hrows => ?_⟩
    · unfold RelTransaction.write
      rw [RowM.exec_bind, exec_tableHandle, he]
    · rw [hcall]
      exact exec_write_gives hth hrows hfits hexec
  | delete table pk =>
    rw [hcall] at hleads
    obtain ⟨r, t', hreply, hfinish, hexec⟩ :=
      returned_within (RowM.onTable_delete pk) hleads hseen last
    refine ⟨t', hfinish, serves_of_exec (fun _ => rfl) (fun _ => rfl) hl htyped hfirst
      (by rw [hcall]; rfl) hreply hexec (fun e he => ?_) fun th hth hrows => ?_⟩
    · unfold RelTransaction.delete
      rw [RowM.exec_bind, exec_tableHandle, he]
    · rw [hcall]
      exact exec_delete_gives hth hrows hexec

/-- All calls of a relational transaction, up to its end. -/
theorem serves_of_linked {ops : List (system H u).Done} {l : Local H}
    (hlinked : Linked (O := system H u) (.handle (some t)) ops l)
    (hret : ∀ d ∈ ops, Returned (O := system H u) allow d)
    (hends : ∀ d ∈ ops, d.call ≠ .commit ∧ d.call ≠ .abort)
    (hfits : ∀ d ∈ ops, d.call.FitsValues u) (hl : Lists C last hs)
    (htyped : ∀ th ∈ hs, RowsTyped C t th) (hlast : Between C base last last)
    (hmet : ∀ a ∈ accesses ops, Between C base last a.before)
    (hseen : (accesses ops).Pairwise fun a a' =>
      EntriesPersist (C.committed a.before) (C.committed a'.before)) :
    ∃ t', l = .handle (some t') ∧ (∀ th ∈ hs, RowsTyped C t' th) ∧
      ServesAll (C.committed base) (hs.map (tableOf t)) ops (hs.map (tableOf t')) := by
  induction ops generalizing t with
  | nil => exact ⟨t, hlinked, htyped, .nil _⟩
  | cons d ops ih =>
    obtain ⟨hstart, hrest⟩ := hlinked
    rw [accesses_cons] at hmet hseen
    obtain ⟨hd, hops, -⟩ := List.pairwise_append.mp hseen
    obtain ⟨t₁, hfinish, htyped₁, hserves⟩ := serves_of_returned (hret d (by simp)) hstart
      (hends d (by simp)) (hfits d (by simp)) hl htyped hlast
      (fun a ha => hmet a (List.mem_append_left _ ha)) hd
    rw [hfinish] at hrest
    obtain ⟨t', hl', htyped', hall⟩ := ih hrest (fun d' hd' => hret d' (by simp [hd']))
      (fun d' hd' => hends d' (by simp [hd'])) (fun d' hd' => hfits d' (by simp [hd'])) htyped₁
      (fun a ha => hmet a (List.mem_append_right _ ha)) hops
    exact ⟨t', hl', htyped', .cons hserves hall⟩

end Handle

/-! ## Every interleaving -/

section Reachable

variable {ι : Type} [DecidableEq ι] {allow : Call → Local H → Prop} {s₀ : H.Store}
  {l₀ : ι → Local H} {g : (system H u).Config ι}

/-- The values and the names of tables and columns fit. -/
def allFit : Promises := ⟨True, True⟩

theorem rely_replayLog {P : Promises} (hlog : Logged allow s₀ l₀ g)
    (hgood : (protocol C P u).Good s₀ g) {earlier later : List ((system H u).Entry ι)}
    (h : g.log = earlier ++ later) :
    Rely C P s₀ (replayLog s₀ earlier) ∧ Rely C P (replayLog s₀ earlier) g.shared := by
  cases later with
  | nil =>
    rw [List.append_nil] at h
    rw [← h, ← hlog.shared]
    exact ⟨hgood.shared, .refl _⟩
  | cons e later =>
    rw [← (hlog.entry earlier e later h).before]
    exact hgood.since e (h ▸ List.mem_append_right _ List.mem_cons_self)

/-- The tables of a store on the way to a sound one are all there in the end. -/
theorem lists_of_rely (hs₀ : Sound C allFit s₀) (hfew : FewTables (C.committed last))
    (h : Rely C allFit s₀ s) (h' : Rely C allFit s last) : ∃ hs, Lists C s hs := by
  obtain ⟨tables, hlen, hcat, hids, hfits⟩ :=
    (h.sound hs₀).exists_tables trivial (hfew.of_persist h'.entries)
  exact ⟨tables, hcat, hids, hfits, hlen⟩

/-- What a new transaction on such a store sees. -/
theorem rowsTyped_begin (hs₀ : Sound C allFit s₀) (hl : Lists C last hs)
    (h : Rely C allFit s₀ s) (h' : Rely C allFit s last) :
    ∀ th ∈ hs, RowsTyped C (H.begin s).1 th := by
  have hview := ((TxnOk.begin (h.sound hs₀)).stable h').viewTyped ((h.trans h').sound hs₀) trivial
    hl.fewTables
  exact fun th hth => hview.rows _ th (hl.lookup_mem hth)

/-- A table that was not there at the beginning has no rows then. -/
theorem tableRows_unknown (hs₀ : Sound C allFit s₀) (hl : Lists C last hs)
    (h : Rely C allFit s₀ s) (h' : Rely C allFit s last) (hth : th ∈ hs)
    (hnew : lookupTable (C.committed s) th.schema.tableName = .ok none) :
    tableRows H (H.begin s).1 th = [] := by
  refine tableRows_eq_nil (C := C) fun k hk => Option.eq_none_iff_forall_ne_some.mpr fun v hv => ?_
  rw [C.view_begin] at hv
  -- whatever row there is belongs to a table of that time, and no two tables share an id
  obtain ⟨name, th', pk, row, hlookup, hkey, -⟩ := (h.sound hs₀).rows trivial k v
    (isRowKey_of_isPrefix hk) hv
  obtain ⟨rfl, -⟩ := hl.catalog.lookup_inj (by simpa using hl.few.le) (h'.entries.lookup hlookup)
    (hl.lookup_mem hth) (rowKey_tableId hkey hk)
  cases hlookup.symm.trans hnew

/-- A relational transaction since its beginning. -/
theorem served_of_past (hlog : Logged allow s₀ l₀ g) (hgood : (protocol C allFit u).Good s₀ g)
    (hallow : ∀ c l, allow c l → c.FitsValues u) (hs₀ : Sound C allFit s₀)
    (hl : Lists C g.shared hs) {i : ι} {before ops rest : List (system H u).Done}
    {b : (system H u).Done} (hpast : (g.client i).past = before ++ b :: ops ++ rest)
    (hb : b.call = .begin) (hops : ∀ d ∈ ops, d.call ≠ .commit ∧ d.call ≠ .abort) :
    ∃ base t l, b.seen = [⟨base, .begin, (H.begin base).1⟩] ∧
      (Rely C allFit s₀ base ∧ Rely C allFit base g.shared) ∧
      Remembers u allow (.handle (some t)) rest l ∧ (∀ th ∈ hs, RowsTyped C t th) ∧
      Wrote C (C.committed g.shared) ops (H.begin base).1 t ∧
      ServesAll (C.committed base) (hs.map (tableOf (H.begin base).1)) ops
        (hs.map (tableOf t)) := by
  obtain ⟨l, hrem⟩ := Remembers.of_client hlog i
  rw [hpast] at hrem
  obtain ⟨m, hbefore, hafter⟩ := hrem.split
  obtain ⟨m₀, -, hsince⟩ := hbefore.split
  have hret : ∀ d ∈ ops, Returned allow d := fun d hd => hsince.returned d (by simp [hd])
  obtain ⟨base, hbseen, hbfinish⟩ := begin_of_returned (hsince.returned b (by simp)) hb
  obtain ⟨-, hlinked⟩ := hsince.linked
  rw [hbfinish] at hlinked
  -- The stores that its accesses met follow each other, and that at its beginning is the first.
  have hsub : (⟨base, .begin, (H.begin base).1⟩ :: accesses ops).Sublist
      (accesses (g.client i).past) := by
    rw [hpast, accesses_append, accesses_append, accesses_cons, hbseen]
    exact (List.sublist_append_right _ _).trans (List.sublist_append_left _ _)
  obtain ⟨hpair, hmet⟩ := ordered_client hgood hlog i
  obtain ⟨hfrom, hopsPair⟩ := List.pairwise_cons.mp (hpair.sublist hsub)
  have hbase := hmet _ (hsub.subset List.mem_cons_self)
  have hknown := lists_of_rely hs₀ hl.fewTables hbase.1 hbase.2
  have hmet : ∀ a ∈ accesses ops, Between C base g.shared a.before := by
    intro a ha
    obtain ⟨hto, hlater⟩ := hmet a (hsub.subset (List.mem_cons_of_mem _ ha))
    exact ⟨hknown, lists_of_rely hs₀ hl.fewTables hto hlater, (hfrom a ha).entries, hlater.entries⟩
  have hlast : Between C base g.shared g.shared :=
    ⟨hknown, ⟨hs, hl⟩, hbase.2.entries, EntriesPersist.refl _⟩
  have hfollow := hopsPair.imp Rely.entries
  obtain ⟨t, rfl, htyped, hall⟩ := serves_of_linked hlinked hret hops
    (fun d hd => hallow _ _ (hret d hd).allowed) hl (rowsTyped_begin hs₀ hl hbase.1 hbase.2) hlast
    hmet hfollow
  obtain ⟨t', heq, hwrote⟩ := wrote_of_linked hlinked hret hops (fun a ha => (hmet a ha).later)
    hfollow
  cases heq
  exact ⟨base, t, l, hbseen, hbase, hafter, htyped, hwrote, hall⟩

/-- **A relational transaction is a copy of the tables.** On a new database, among any number of
clients and in any interleaving, where values and names fit their length fields: from its beginning,
the operations of a relational transaction answer one after another what they answer on tables in
memory, namely those with the rows committed at its beginning; a table that was not there then
starts with none. An operation fails where it is refused there, and else only where its table is
still unknown, which was then not there at the beginning. -/
theorem transaction_refines_tables (C : H.Contract)
    (hallow : ∀ c l, allow c l → c.FitsValues u ∧ c.FitsNames u) (hs₀ : C.history s₀ = [])
    (hl₀ : ∀ i, (l₀ i).Idle) (hg : Reachable allow (start s₀ l₀) g)
    (hfew : FewTables (C.committed g.shared)) {i : ι}
    {before ops rest : List (system H u).Done} {b : (system H u).Done}
    (hpast : (g.client i).past = before ++ b :: ops ++ rest) (hb : b.call = .begin)
    (hops : ∀ d ∈ ops, d.call ≠ .commit ∧ d.call ≠ .abort) :
    ∃ base, ∃ hs : List TableHandle, ∃ db, b.seen = [⟨base, .begin, (H.begin base).1⟩] ∧
      (alone Catalog.listTables g.shared).1 = (.ok hs : Except (CatalogError H.StoreError) _) ∧
      (∀ th ∈ hs, lookupTable (C.committed base) th.schema.tableName = .ok none →
        tableRows H (H.begin base).1 th = []) ∧
      ServesAll (C.committed base) (hs.map (tableOf (H.begin base).1)) ops db := by
  have hwithin : ∀ c l, allow c l → c.Within allFit u :=
    fun c l hc => ⟨fun _ => (hallow c l hc).1, fun _ => (hallow c l hc).2⟩
  have hempty : Sound C allFit s₀ := .of_nil C _ hs₀
  have hgood := good_of_reachable hwithin hempty hl₀ hg
  obtain ⟨hs, hl⟩ := lists_of_rely hempty hfew hgood.shared (.refl _)
  obtain ⟨base, t, -, hbseen, ⟨hto, hlater⟩, -, -, -, hall⟩ := served_of_past hg.logged hgood
    (fun c l hc => (hallow c l hc).1) hempty hl hpast hb hops
  refine ⟨base, hs, _, hbseen, ?_, fun th => tableRows_unknown hempty hl hto hlater, hall⟩
  rw [hl.catalog.listed_all hl.ids hl.fits hl.few]

/-! ## Its commit -/

/-- The row with this primary key in the table of this name. -/
def Tables.row? (db : List Table) (name : String) (pk : Value) : Option Row :=
  (find db name).bind (·.row? pk)

/-- The rows that were written are in `db'` as in `db`, all others as in `db₀`. -/
def Merges (written : String → Value → Prop) (db₀ db db' : List Table) : Prop :=
  ∀ name pk, (written name pk → Tables.row? db' name pk = Tables.row? db name pk) ∧
    (¬ written name pk → Tables.row? db' name pk = Tables.row? db₀ name pk)

/-- Where two transactions see the same under the key of a row, they have the same row. -/
theorem row?_congr (hrows : RowsTyped C t th) (hrows' : RowsTyped C t' th)
    (h : ∀ k, rowKey th.tableId pk th.schema.primaryKeyType = .ok k → C.view t' k = C.view t k) :
    (tableOf t' th).row? pk = (tableOf t th).row? pk := by
  by_cases hty : pk.columnType = some th.schema.primaryKeyType
  · obtain ⟨k, hk⟩ := (@rowKey_isOk th.tableId _ _).mpr hty
    rw [hrows.row?_eq hk, hrows'.row?_eq hk, h k hk]
  · -- no row has a key of another type
    have hnone {t : H.Txn} (hrows : RowsTyped C t th) : (tableOf t th).row? pk = none := by
      refine List.find?_eq_none.mpr fun row hrow hpk => hty ?_
      obtain ⟨pk', hpk', hty'⟩ := (hrows.represents.typed row hrow).primaryKey
      cases hpk'.symm.trans (of_decide_eq_true hpk)
      exact hty'
    rw [hnone hrows, hnone hrows']

/-- What a commit makes of the rows, by the keys that its transaction has written. -/
theorem merges_of_applied {written : String → Value → Prop} {s' : H.Store} (hl : Lists C last hs)
    (hbefore : ∀ th ∈ hs, RowsTyped C (H.begin s).1 th) (htyped : ∀ th ∈ hs, RowsTyped C t th)
    (hafter : ∀ th ∈ hs, RowsTyped C (H.begin s').1 th)
    (happ : C.committed s' = (C.writes t).apply (C.committed s))
    (hwritten : ∀ table pk k, RowAt (C.committed last) table pk k →
      (C.writes t k ≠ none ↔ written table pk)) :
    Merges written (hs.map (tableOf (H.begin s).1)) (hs.map (tableOf t))
      (hs.map (tableOf (H.begin s').1)) := by
  intro name pk
  rw [Tables.row?, Tables.row?, Tables.row?, Lists.find_tables, Lists.find_tables,
    Lists.find_tables]
  cases hth : hs.find? (·.schema.tableName == name) with
  | none => exact ⟨fun _ => rfl, fun _ => rfl⟩
  | some th =>
    have hmem := List.mem_of_find?_eq_some hth
    have hrow {k : Bytes} (hk : rowKey th.tableId pk th.schema.primaryKeyType = .ok k) :
        C.writes t k ≠ none ↔ written name pk :=
      hwritten name pk k ⟨th, hth ▸ hl.lookup name, hk⟩
    refine ⟨fun hw => ?_, fun hw => ?_⟩
    · refine row?_congr (htyped th hmem) (hafter th hmem) fun k hk => ?_
      obtain ⟨v, hv⟩ := Option.ne_none_iff_exists'.mp ((hrow hk).mpr hw)
      rw [C.view_begin, happ, Writes.apply_of_some hv, Host.Contract.view, Writes.apply_of_some hv]
    · refine row?_congr (hbefore th hmem) (hafter th hmem) fun k hk => ?_
      have hv : C.writes t k = none := not_not.mp fun hne => hw ((hrow hk).mp hne)
      rw [C.view_begin, C.view_begin, happ, Writes.apply_of_none hv]

/-- **A commit merges rows.** Under the same conditions, a commit that succeeds puts the rows that
the transaction has written or deleted, as they are in its tables, in the place of those that are
committed at that moment, and leaves all other rows as they are there, whoever committed them. -/
theorem commit_merges_rows (C : H.Contract)
    (hallow : ∀ c l, allow c l → c.FitsValues u ∧ c.FitsNames u) (hs₀ : C.history s₀ = [])
    (hl₀ : ∀ i, (l₀ i).Idle) (hg : Reachable allow (start s₀ l₀) g)
    (hfew : FewTables (C.committed g.shared)) {i : ι}
    {before ops rest : List (system H u).Done} {b d : (system H u).Done}
    (hpast : (g.client i).past = before ++ b :: ops ++ d :: rest) (hb : b.call = .begin)
    (hops : ∀ d ∈ ops, d.call ≠ .commit ∧ d.call ≠ .abort) (hd : d.call = .commit)
    (hreply : d.reply = .done (.ok ())) :
    ∃ base s t, ∃ hs : List TableHandle, b.seen = [⟨base, .begin, (H.begin base).1⟩] ∧
      d.seen.head? = some ⟨s, .commit t, .ok ()⟩ ∧
      (alone Catalog.listTables g.shared).1 = (.ok hs : Except (CatalogError H.StoreError) _) ∧
      ServesAll (C.committed base) (hs.map (tableOf (H.begin base).1)) ops (hs.map (tableOf t)) ∧
      Merges (fun name pk => ∃ o ∈ ops, WroteRow (C.committed g.shared) o name pk)
        (hs.map (tableOf (H.begin s).1)) (hs.map (tableOf t))
        (hs.map (tableOf (H.begin (H.commit t s).2).1)) := by
  have hwithin : ∀ c l, allow c l → c.Within allFit u :=
    fun c l hc => ⟨fun _ => (hallow c l hc).1, fun _ => (hallow c l hc).2⟩
  have hempty : Sound C allFit s₀ := .of_nil C _ hs₀
  have hlog := hg.logged
  have hgood := good_of_reachable hwithin hempty hl₀ hg
  obtain ⟨hs, hl⟩ := lists_of_rely hempty hfew hgood.shared (.refl _)
  obtain ⟨base, t, l, hbseen, -, hafter, htyped, hwrote, hall⟩ := served_of_past hlog hgood
    (fun c l hc => (hallow c l hc).1) hempty hl hpast hb hops
  obtain ⟨hstart, -⟩ := hafter.linked
  obtain ⟨r, hr, hleads⟩ := commit_of_returned (hafter.returned d (by simp)) hd hstart
  cases hreply.symm.trans hr
  obtain ⟨s, more, hseen, hcommit⟩ := leads_commit hleads
  obtain ⟨earlier, x, since, e, later, hlogged, -, -, hacc, -, -, hbase, -⟩ :=
    exists_since hlog hpast hbseen (by rw [hseen]; rfl)
  have hmeets : s = replayLog s₀ (earlier ++ x :: since) := by
    have := (hlog.entry _ e later hlogged).before
    rwa [hacc] at this
  have hleaves : (H.commit t s).2 = replayLog s₀ (earlier ++ x :: since ++ [e]) := by
    rw [replayLog_concat, hacc, ← hmeets]
    rfl
  have hlogged' : g.log = (earlier ++ x :: since ++ [e]) ++ later := by
    rw [hlogged]
    simp
  obtain ⟨hto, hlater⟩ := rely_replayLog hlog hgood hlogged
  obtain ⟨hto', hlater'⟩ := rely_replayLog hlog hgood hlogged'
  obtain ⟨hpre, -⟩ := writtenSince_replayLog hlog hgood hlogged
  rw [← hmeets] at hto hlater hpre
  rw [← hleaves] at hto' hlater'
  rw [← hbase, ← C.snapshot_begin, ← hwrote.snapshot] at hpre
  cases C.commit_cases hpre with
  | ok hres hfree happ =>
    refine ⟨base, s, t, hs, hbseen, by rw [hseen, hres]; rfl, ?_, hall, ?_⟩
    · rw [hl.catalog.listed_all hl.ids hl.fits hl.few]
    refine merges_of_applied hl (rowsTyped_begin hempty hl hto hlater) htyped
      (rowsTyped_begin hempty hl hto' hlater') happ.replay fun table pk k hrow => ?_
    rw [hwrote.writes k]
    constructor
    · rintro (hnew | ⟨o, ho, table', pk', hwrote', hrow'⟩)
      · exact absurd (by simp) hnew
      · obtain ⟨rfl, rfl⟩ := hrow.inj hl.catalog (by simpa using hl.few.le) hrow'
        exact ⟨o, ho, hwrote'⟩
    · rintro ⟨o, ho, hwrote'⟩
      exact .inr ⟨o, ho, table, pk, hwrote', hrow⟩
  | store err hres hsame =>
    rw [hres] at hcommit
    cases hcommit
  | conflict k hres hk hsince' hsame =>
    rw [hres] at hcommit
    obtain ⟨err, heq, -⟩ := hcommit
    cases heq

end Reachable

/-- A transaction that scans what it has written, not what another one has committed meanwhile, and
commits it beside that. -/
def handlingCalls : List (ℕ × Call) :=
  [(0, .createTable "a" [⟨"k", .integer, false⟩] 0), (0, .begin), (1, .begin),
    (1, .write "a" [.integer 2]), (1, .commit), (0, .write "a" [.integer 1]), (0, .scan "a"),
    (0, .commit)]

def handlingRun : (system (Reference.host true) Unicode.ascii).Config ℕ :=
  solos (start ([] : List Reference.WriteList) newHandles) handlingCalls

theorem reachable_handlingRun :
    Reachable (fun (c : Call) _ => c.FitsValues .ascii ∧ c.FitsNames .ascii)
      (start ([] : List Reference.WriteList) newHandles) handlingRun := by
  refine reachable_solos _ fun c hc _ => ?_
  simp only [handlingCalls, List.mem_cons, List.not_mem_nil, or_false] at hc
  rcases hc with rfl | rfl | rfl | rfl | rfl | rfl | rfl | rfl
  · exact ⟨fun _ h => (by cases h), by decide, List.forall_mem_singleton.mpr (by decide), by decide⟩
  · exact ⟨fun _ h => (by cases h), fun _ h => (by cases h)⟩
  · exact ⟨fun _ h => (by cases h), fun _ h => (by cases h)⟩
  · exact ⟨List.forall_mem_singleton.mpr trivial, fun _ h => (by cases h)⟩
  · exact ⟨fun _ h => (by cases h), fun _ h => (by cases h)⟩
  · exact ⟨List.forall_mem_singleton.mpr trivial, fun _ h => (by cases h)⟩
  · exact ⟨fun _ h => (by cases h), fun _ h => (by cases h)⟩
  · exact ⟨fun _ h => (by cases h), fun _ h => (by cases h)⟩

/-- A creation, BEGIN, a write, a scan that gives just this row, and COMMIT. -/
def Handled (rows : List Row) : List (system (Reference.host true) .ascii).Done → Bool
  | [⟨.createTable _ _ _, _, _, _, _⟩, ⟨.begin, _, _, _, _⟩, ⟨.write _ _, _, _, _, _⟩,
      ⟨.scan _, _, _, .rows (.ok rows'), _⟩, ⟨.commit, _, _, .done (.ok ()), _⟩] => rows' == rows
  | _ => false

theorem handlingRun_past : ∃ c b o o' d, (handlingRun.client 0).past = [c, b, o, o', d] ∧
    b.call = .begin ∧ (∀ a ∈ [o, o'], a.call ≠ .commit ∧ a.call ≠ .abort) ∧
    o'.reply = .rows (.ok [[.integer 1]]) ∧ d.call = .commit ∧ d.reply = .done (.ok ()) := by
  have hhandled : Handled [[.integer 1]] (handlingRun.client 0).past = true := by decide +kernel
  generalize hpast : (handlingRun.client 0).past = past at hhandled
  unfold Handled at hhandled
  split at hhandled
  next =>
    obtain rfl := eq_of_beq hhandled
    refine ⟨_, _, _, _, _, rfl, rfl, fun a ha => ?_, rfl, rfl, rfl⟩
    rcases List.mem_cons.mp ha with rfl | ha
    · exact ⟨fun h => (by cases h), fun h => (by cases h)⟩
    · obtain rfl := List.mem_singleton.mp ha
      exact ⟨fun h => (by cases h), fun h => (by cases h)⟩
  next => cases hhandled

theorem transaction_refines_tables_sample : ∃ c b o o' d,
    (handlingRun.client 0).past = [c, b, o, o', d] ∧ o'.reply = .rows (.ok [[.integer 1]]) ∧
    ∃ base, ∃ hs : List TableHandle, ∃ db, b.seen = [⟨base, .begin, ⟨base, []⟩⟩] ∧
      (alone (H := Reference.host true) Catalog.listTables handlingRun.shared).1 =
        (.ok hs : Except (CatalogError Empty) _) ∧
      (∀ th ∈ hs,
        lookupTable ((Reference.contract true).committed base) th.schema.tableName = .ok none →
          tableRows (Reference.host true) ⟨base, []⟩ th = []) ∧
      ServesAll ((Reference.contract true).committed base)
        (hs.map (tableOf (H := Reference.host true) ⟨base, []⟩)) [o, o'] db := by
  obtain ⟨c, b, o, o', d, hpast, hb, hops, hscan, -, -⟩ := handlingRun_past
  have hserves := @transaction_refines_tables (Reference.host true) .ascii ℕ _ _ _ _ _
    (Reference.contract true) (fun _ _ h => h) rfl idle_newHandles reachable_handlingRun
    (Reference.fewTables (by decide +kernel)) 0 [c] [o, o'] [d] b hpast hb hops
  exact ⟨c, b, o, o', d, hpast, hscan, hserves⟩

theorem commit_merges_rows_sample : ∃ c b o o' d,
    (handlingRun.client 0).past = [c, b, o, o', d] ∧
    ∃ base s t, ∃ hs : List TableHandle, b.seen = [⟨base, .begin, ⟨base, []⟩⟩] ∧
      d.seen.head? = some ⟨s, .commit t, .ok ()⟩ ∧
      (alone (H := Reference.host true) Catalog.listTables handlingRun.shared).1 =
        (.ok hs : Except (CatalogError Empty) _) ∧
      ServesAll ((Reference.contract true).committed base)
        (hs.map (tableOf (H := Reference.host true) ⟨base, []⟩)) [o, o'] (hs.map (tableOf t)) ∧
      Merges (fun name pk => ∃ a ∈ [o, o'],
          WroteRow ((Reference.contract true).committed handlingRun.shared) a name pk)
        (hs.map (tableOf (H := Reference.host true) ⟨s, []⟩)) (hs.map (tableOf t))
        (hs.map (tableOf (H := Reference.host true)
          ⟨((Reference.host true).commit t s).2, []⟩)) := by
  obtain ⟨c, b, o, o', d, hpast, hb, hops, -, hd, hreply⟩ := handlingRun_past
  have hmerges := @commit_merges_rows (Reference.host true) .ascii ℕ _ _ _ _ _
    (Reference.contract true) (fun _ _ h => h) rfl idle_newHandles reachable_handlingRun
    (Reference.fewTables (by decide +kernel)) 0 [c] [o, o'] [] b d hpast hb hops hd hreply
  exact ⟨c, b, o, o', d, hpast, hmerges⟩

end Choam

import Choam.Verify.Refine
import Choam.Verify.Reuse
import Choam.Verify.SessionRun

/-!
# A session is a database in memory

What a session is for: tables are lists of rows, a statement is its relational effect, a transaction
is a copy of the tables that COMMIT puts in place of the others (`Memory.step`). A session that has
the store to itself does just that: from stores that hold the tables (`Holds`), whatever it is asked
to execute, each reply is the one that the database in memory gives, and the store holds its tables
again (`session_refines_memory`).
-/

namespace Choam

open ByteString Overlay Interleave Relational

/-! ## The database in memory -/

/-- A table with its rows, in the order of their primary keys. -/
structure Table where
  schema : Schema
  rows : List Row

namespace Tables

def find (db : List Table) (name : String) : Option Table :=
  db.find? fun t => t.schema.tableName == name

def replace (db : List Table) (name : String) (rows : List Row) : List Table :=
  db.map fun t => if t.schema.tableName = name then { t with rows } else t

open Classical in
/-- A statement on rows, which fails or has its effect on the table that it names. -/
noncomputable def execute (db : List Table) (stmt : Statement) :
    Option (QueryResult × List Table) :=
  stmt.table?.bind fun name => (find db name).bind fun t =>
    if Valid t.schema stmt then
      (effect t.schema stmt t.rows).map fun r => (r.1, replace db name r.2)
    else
      none

theorem execute_unknown {db : List Table} {stmt : Statement} {name : String}
    (hname : stmt.table? = some name) (hfind : find db name = none) : execute db stmt = none := by
  rw [execute, hname, Option.bind_some, hfind, Option.bind_none]

theorem execute_eq_some {db : List Table} {stmt : Statement} {name : String} {t : Table}
    (hname : stmt.table? = some name) (hfind : find db name = some t)
    (hvalid : Valid t.schema stmt) {q : QueryResult} {rows : List Row}
    (h : effect t.schema stmt t.rows = some (q, rows)) :
    execute db stmt = some (q, replace db name rows) := by
  rw [execute, hname, Option.bind_some, hfind, Option.bind_some, if_pos hvalid, h]
  rfl

theorem execute_eq_none {db : List Table} {stmt : Statement} {name : String} {t : Table}
    (hname : stmt.table? = some name) (hfind : find db name = some t)
    (h : Valid t.schema stmt → effect t.schema stmt t.rows = none) : execute db stmt = none := by
  rw [execute, hname, Option.bind_some, hfind, Option.bind_some]
  split
  next hvalid => rw [h hvalid, Option.map_none]
  next => rfl

open Classical in
/-- CREATE TABLE, behind the other tables. -/
noncomputable def create (db : List Table) (name : String) (columns : List ColumnSpec) :
    Option (List Table) :=
  if h : name ≠ "" ∧ find db name = none ∧ ∃ schema, Specifies name columns schema then
    some (db ++ [⟨h.2.2.choose, []⟩])
  else
    none

/-- A CREATE TABLE determines the schema. -/
theorem create_eq_some {db : List Table} {name : String} {columns : List ColumnSpec}
    {schema : Schema} (hname : name ≠ "") (hfind : find db name = none)
    (h : Specifies name columns schema) :
    create db name columns = some (db ++ [⟨schema, []⟩]) := by
  have hall : name ≠ "" ∧ find db name = none ∧ ∃ schema, Specifies name columns schema :=
    ⟨hname, hfind, schema, h⟩
  have hschema : hall.2.2.choose = schema := by
    obtain ⟨pk, hpk, hnew⟩ := h
    obtain ⟨pk', hpk', hnew'⟩ := hall.2.2.choose_spec
    cases hpk.symm.trans hpk'
    exact Except.ok.inj (hnew'.symm.trans hnew)
  rw [create, dif_pos hall, hschema]

/-- The WHERE and SET of the statement go wrong on no row of its table. -/
def Total (db : List Table) (stmt : Statement) : Prop :=
  ∀ name t, stmt.table? = some name → find db name = some t →
    Relational.Total t.schema t.rows stmt.rowExprs

end Tables

/-- The tables committed, those of the open transaction, and whether a statement of it failed. -/
structure Memory where
  committed : List Table
  working : Option (List Table)
  failed : Bool

namespace Memory

def empty : Memory := ⟨[], none, false⟩

/-- What a statement on rows sees. -/
def seen (m : Memory) : List Table := m.working.getD m.committed

/-- A statement on rows: refused in a failed transaction, and failing it otherwise if it fails. -/
noncomputable def execute (m : Memory) (stmt : Statement) : Option QueryResult × Memory :=
  if m.failed then
    (none, m)
  else
    match m.working, Tables.execute m.seen stmt with
    | some _, some (q, db) => (some q, { m with working := some db })
    | some _, none => (none, { m with failed := true })
    | none, some (q, db) => (some q, { m with committed := db })
    | none, none => (none, m)

/-- One piece of SQL, which may be no statement at all: its result, unless it fails. -/
noncomputable def step (m : Memory) : Option Statement → Option QueryResult × Memory
  | none => (none, m)
  | some .begin =>
    match m.working with
    | some _ => (none, m)
    | none => (some .default, { m with working := some m.committed })
  | some .commit =>
    match m.working with
    | none => (none, m)
    | some db =>
      if m.failed then (none, ⟨m.committed, none, false⟩) else (some .default, ⟨db, none, false⟩)
  | some .rollback =>
    match m.working with
    | none => (none, m)
    | some _ => (some .default, ⟨m.committed, none, false⟩)
  | some (.createTable name columns) =>
    match m.working, Tables.create m.committed name columns with
    | none, some db => (some .default, { m with committed := db })
    | _, _ => (none, m)
  | some stmt => m.execute stmt

/-- Several, one after another. -/
noncomputable def run : Memory → List (Option Statement) → List (Option QueryResult) × Memory
  | m, [] => ([], m)
  | m, stmt :: stmts =>
    let r := m.step stmt
    let rest := run r.2 stmts
    (r.1 :: rest.1, rest.2)

/-- What the statement stores fits its length fields, there is room for one more table, and its
arithmetic goes wrong on no row. -/
structure Admits (m : Memory) (stmt : Statement) : Prop where
  values : stmt.Fits
  names : stmt.FitsNames
  room : m.committed.length + 1 < 2 ^ 32
  total : m.failed = false → Tables.Total m.seen stmt

/-- Each of them, where it is executed. -/
def AdmitsAll : Memory → List (Option Statement) → Prop
  | _, [] => True
  | m, stmt :: stmts => (∀ st, stmt = some st → m.Admits st) ∧ (m.step stmt).2.AdmitsAll stmts

end Memory

/-! ## The tables of a store -/

variable {H : Host} {C : H.Contract} {u : Unicode} {s s' : H.Store} {t t' : H.Txn}

theorem tableRows_congr {th : TableHandle}
    (h : ∀ k, rowKeyPrefix th.tableId <+: k → C.view t k = C.view t' k) :
    tableRows H t th = tableRows H t' th :=
  congrArg (List.map (rowOf th.schema)) (C.scan_eq_of_view h)

/-- A table under whose keys nothing is stored has no rows. -/
theorem tableRows_eq_nil {th : TableHandle}
    (h : ∀ k, rowKeyPrefix th.tableId <+: k → C.view t k = none) : tableRows H t th = [] := by
  have hscan : H.scan t (rowKeyPrefix th.tableId) = [] := by
    refine List.eq_nil_iff_forall_not_mem.mpr fun e he => ?_
    obtain ⟨hp, hv⟩ := C.mem_scan_view.mp he
    cases (h e.1 hp).symm.trans hv
  rw [tableRows, hscan]
  rfl

/-- The tables of the store are those of the handles, in order of their ids. -/
structure Lists (C : H.Contract) (s : H.Store) (hs : List TableHandle) : Prop where
  catalog : CatalogOk (C.committed s) (hs.map (·.schema))
  ids : ∀ i th, hs[i]? = some th → th.tableId = UInt32.ofNat i
  fits : ∀ th ∈ hs, th.schema.FitsEntry
  few : hs.length < 2 ^ 32

/-- A table with the rows that the transaction sees. -/
def tableOf (t : H.Txn) (th : TableHandle) : Table := ⟨th.schema, tableRows H t th⟩

namespace Lists

variable {hs : List TableHandle}

theorem empty (h : C.history s = []) : Lists C s [] := by
  refine ⟨?_, by simp, by simp, by decide⟩
  rw [show C.committed s = fun _ => none by simp [Host.Contract.committed, h]]
  exact CatalogOk.empty

theorem congr (h : Lists C s hs) (hcat : ∀ k, ¬ IsRowKey k → C.committed s' k = C.committed s k) :
    Lists C s' hs :=
  ⟨h.catalog.congr hcat, h.ids, h.fits, h.few⟩

theorem fewTables (h : Lists C s hs) : FewTables (C.committed s) := by
  refine ⟨(hs.map (·.schema)).map (·.tableName), by simpa using h.few, h.catalog.listed⟩

theorem lookup (h : Lists C s hs) (name : String) :
    lookupTable (C.committed s) name = .ok (hs.find? (·.schema.tableName == name)) :=
  h.catalog.lookup_find? h.ids h.fits name

theorem lookup_mem (h : Lists C s hs) {th : TableHandle} (hth : th ∈ hs) :
    lookupTable (C.committed s) th.schema.tableName = .ok (some th) :=
  h.catalog.lookup_mem h.ids h.fits hth

theorem find_tables (hs : List TableHandle) (t : H.Txn) (name : String) :
    Tables.find (hs.map (tableOf t)) name =
      (hs.find? (·.schema.tableName == name)).map (tableOf t) := by
  rw [Tables.find, List.find?_map]
  rfl

/-- Rows of different tables lie under different keys. -/
theorem apart (h : Lists C s hs) {th th' : TableHandle} (hth : th ∈ hs) (hth' : th' ∈ hs)
    {k : Bytes} (hk : rowKeyPrefix th.tableId <+: k) (hk' : rowKeyPrefix th'.tableId <+: k) :
    th = th' := by
  obtain ⟨rest, rfl⟩ := hk
  obtain ⟨rest', hrest⟩ := hk'
  obtain ⟨hid, -⟩ := rowKeyPrefix_append_inj.mp hrest
  exact (h.catalog.lookup_inj (by simpa using h.few.le) (h.lookup_mem hth) (h.lookup_mem hth')
    hid.symm).2

/-- What the tables become when one of them changes. -/
theorem replace_tables (h : Lists C s hs) {th : TableHandle} (hth : th ∈ hs)
    (hframe : ∀ k, ¬ rowKeyPrefix th.tableId <+: k → C.view t' k = C.view t k) :
    hs.map (tableOf t') =
      Tables.replace (hs.map (tableOf t)) th.schema.tableName (tableRows H t' th) := by
  rw [Tables.replace, List.map_map]
  refine List.map_congr_left fun th' hth' => ?_
  change tableOf t' th' = if th'.schema.tableName = th.schema.tableName then
    (⟨th'.schema, tableRows H t' th⟩ : Table) else ⟨th'.schema, tableRows H t th'⟩
  by_cases hname : th'.schema.tableName = th.schema.tableName
  · have hsame := (h.lookup_mem hth').symm.trans (hname ▸ h.lookup_mem hth)
    obtain rfl : th' = th := by simpa using hsame
    rw [if_pos rfl]
    rfl
  · have hrows : tableRows H t' th' = tableRows H t th' :=
      tableRows_congr (C := C) fun k hk => hframe k fun hk' =>
        hname (by rw [h.apart hth' hth hk hk'])
    rw [if_neg hname, tableOf, hrows]

end Lists

/-! ## Statements on rows -/

theorem fits_of_constant {e : Expr} {a : Ideal} (he : e.Fits) (h : constant e = some a) :
    a.value.Fits :=
  eval_fits (E := Empty) he (fun c hc => by cases hc) (eval_of_constant h)

theorem fits_null : Value.null.Fits := by
  exact trivial

/-- The rows that a statement makes fit, if its values and the rows there fit. -/
theorem effect_fits {schema : Schema} {stmt : Statement} {rows rows' : List Row} {q : QueryResult}
    (hfits : stmt.Fits) (hrows : ∀ row ∈ rows, Row.Fits row)
    (htyped : ∀ row ∈ rows, schema.IsRow row)
    (hvalid : Valid schema stmt) (htotal : Relational.Total schema rows stmt.rowExprs)
    (h : effect schema stmt rows = some (q, rows')) : ∀ row ∈ rows', Row.Fits row := by
  cases stmt with
  | createTable | begin | commit | rollback => cases h
  | insert table columns exprs =>
    obtain ⟨rows₁, hfold, heq⟩ := Option.map_eq_some_iff.mp h
    cases heq
    clear h hvalid htotal htyped
    replace hfits : ∀ es ∈ exprs, ∀ e ∈ es, e.Fits := hfits
    induction exprs generalizing rows with
    | nil =>
      cases hfold
      exact hrows
    | cons es rest ih =>
      obtain ⟨hes, hrest⟩ := List.forall_mem_cons.mp hfits
      rw [List.foldlM_cons] at hfold
      obtain ⟨rows₂, hone, hfold⟩ := Option.bind_eq_some_iff.mp hfold
      refine ih ?_ hfold hrest
      unfold insertOne at hone
      split at hone
      · obtain ⟨values, hvalues, hone⟩ := Option.bind_eq_some_iff.mp hone
        dsimp only at hone
        split at hone
        · cases hone
          intro row hrow
          rcases (List.mem_orderedInsert _).mp hrow with rfl | hrow
          · intro v hv
            obtain ⟨c, -, rfl⟩ := List.mem_map.mp hv
            cases hfind : (((columns.getD (names schema)).zip values).find? (·.1 = c.name)) with
            | none => exact fits_null
            | some p =>
              have hmem := (List.of_mem_zip (List.mem_of_find?_eq_some hfind)).2
              obtain ⟨e, he, hconst⟩ := exists_of_forall₂ (mapM_eq_some.mp hvalues) hmem
              exact fits_of_constant (hes e he) hconst
          · exact hrows row hrow
        · cases hone
      · cases hone
  | select projection table filter orderBy limit =>
    cases h
    exact hrows
  | delete table filter =>
    cases h
    exact fun row hrow => hrows row (List.mem_filter.mp hrow).1
  | update table assignments filter =>
    rw [effect] at h
    split at h
    · cases h
      intro row' hrow'
      obtain ⟨row, hrow, rfl⟩ := List.mem_map.mp hrow'
      split
      · intro v hv
        obtain ⟨p, hp, rfl⟩ := List.mem_map.mp hv
        cases hfind : assignments.find? (·.1 = p.1.name) with
        | none => exact hrows row hrow _ (List.of_mem_zip hp).2
        | some a =>
          have hmem := List.mem_of_find?_eq_some hfind
          obtain ⟨c, -, -, -, hty⟩ := hvalid.1.2 a hmem
          have heval : ∃ ty, a.2.HasTy schema ty := hty.elim (fun h => ⟨_, h⟩) fun h => ⟨_, h⟩
          obtain ⟨ty, hty⟩ := heval
          obtain ⟨w, hw, hideal, -⟩ := eval_total (E := Empty) (htyped row hrow).typed hty
            fun n hn =>
            htotal a.2 (List.mem_append_left _ (List.mem_map_of_mem hmem)) row hrow n hn
          have hval : w = (reference schema row a.2).value := by rw [← hideal, Value.value_ideal]
          rw [Option.elim_some, ← hval]
          refine eval_fits (hfits a hmem) (fun c hc => ?_) hw
          cases hc
          exact hrows row hrow
      · exact hrows row hrow
    · cases h

theorem exec_unknown {stmt : Statement} {table : String} (htable : stmt.table? = some table)
    {e : DbError H.StoreError} (h : (tableAt (H.get s) table : Except _ TableHandle) = .error e) :
    ∃ e, ((run u stmt : RowM (ExecError H.StoreError) _).exec s t).1 = .error e := by
  have hschema : (schemaOf table : RowM (ExecError H.StoreError) _).exec s t =
      (.error (.db e), t) := by
    rw [exec_schemaOf, h]
    rfl
  refine ⟨.db e, ?_⟩
  cases stmt with
  | createTable | begin | commit | rollback => cases htable
  | insert name columns rows =>
    cases htable
    change ((insert _ _ _ : RowM (ExecError H.StoreError) _).exec s t).1 = _
    rw [insert, RowM.exec_bind, hschema]
  | select projection name filter orderBy limit =>
    cases htable
    change ((select _ _ _ _ _ : RowM (ExecError H.StoreError) _).exec s t).1 = _
    rw [select, RowM.exec_bind, hschema]
  | update name assignments filter =>
    cases htable
    change ((update u _ _ _ : RowM (ExecError H.StoreError) _).exec s t).1 = _
    rw [update, RowM.exec_bind, hschema]
  | delete name filter =>
    cases htable
    change ((delete _ _ : RowM (ExecError H.StoreError) _).exec s t).1 = _
    rw [delete, RowM.exec_bind, hschema]

/-- **A statement on rows** in a transaction has its effect on the tables that this sees, or fails
as it does there. -/
theorem execute_tables {hs : List TableHandle} (hl : Lists C s hs) (hsound : Sound C valuesFit s)
    (ht : TxnOk C valuesFit t s) {stmt : Statement} {table : String}
    (htable : stmt.table? = some table)
    (hfits : stmt.Fits) (htotal : Tables.Total (hs.map (tableOf t)) stmt)
    {r : Session.Reply H} (hexec : (run u stmt).exec s t = (r, t')) :
    (TxnOk C valuesFit t' s ∧ C.snapshot t' = C.snapshot t) ∧
    ((∃ q, r = .ok q ∧
        Tables.execute (hs.map (tableOf t)) stmt = some (q, hs.map (tableOf t'))) ∨
      (∃ e, r = .error e) ∧ Tables.execute (hs.map (tableOf t)) stmt = none) := by
  have hok : TxnOk C valuesFit t' s := by
    have := (ht.exec ((RowM.onTable_run (u := u) (E := H.StoreError) htable fun _ => hfits).asks
      (rowsAllowed hsound table))).1
    rwa [hexec] at this
  have hsnap : C.snapshot t' = C.snapshot t := by
    have := ((RowM.looksUp_run (u := u) (E := H.StoreError) htable).exec_writes C s t).1
    rwa [hexec] at this
  refine ⟨⟨hok, hsnap⟩, ?_⟩
  have hfind := Lists.find_tables hs t table
  have hlookup := hl.lookup table
  cases hh : hs.find? (·.schema.tableName == table) with
  | none =>
    -- there is no such table
    rw [hh] at hlookup hfind
    refine .inr ⟨?_, Tables.execute_unknown htable hfind⟩
    have hget : (tableAt (H.get s) table : Except (DbError H.StoreError) TableHandle) =
        .error (.unknownTable table) := by
      rw [tableAt_congr fun k _ => C.get_committed s k, tableAt, hlookup]
    obtain ⟨e, he⟩ := exec_unknown (u := u) (t := t) htable hget
    rw [hexec] at he
    exact ⟨e, he⟩
  | some th =>
    rw [hh] at hlookup hfind
    have hth : th ∈ hs := List.mem_of_find?_eq_some hh
    obtain rfl : th.schema.tableName = table := by simpa using List.find?_some hh
    have hview := ht.viewTyped hsound trivial hl.fewTables
    have hrows := hview.rows _ th hlookup
    have htotal : Relational.Total th.schema (tableRows H t th) stmt.rowExprs :=
      htotal _ _ htable hfind
    obtain ⟨hsucceeds, hfails⟩ := follows_run (u := u) htable hlookup hrows htotal
    by_cases hgood : Valid th.schema stmt ∧
        (effect th.schema stmt (tableRows H t th)).isSome
    · obtain ⟨hvalid, hsome⟩ := hgood
      obtain ⟨⟨q, rows'⟩, heffect⟩ := Option.isSome_iff_exists.mp hsome
      obtain ⟨t'', hexec', hrep, hframe⟩ := hsucceeds q rows' hvalid heffect
      cases hexec.symm.trans hexec'
      have hrows' : tableRows H t' th = rows' := hrep.tableRows_eq
        (effect_fits hfits fits_of_tableRows hrows.isRow hvalid htotal heffect)
      refine .inl ⟨q, rfl, ?_⟩
      rw [hl.replace_tables hth hframe, hrows']
      exact Tables.execute_eq_some htable hfind hvalid heffect
    · have hnone : Valid th.schema stmt → effect th.schema stmt (tableRows H t th) = none :=
        fun hvalid => Option.not_isSome_iff_eq_none.mp fun h => hgood ⟨hvalid, h⟩
      obtain ⟨e, he⟩ := hfails hnone
      rw [hexec] at he
      exact .inr ⟨⟨e, he⟩, Tables.execute_eq_none htable hfind hnone⟩

/-! ## COMMIT and CREATE TABLE, alone -/

/-- A transaction that nobody has overtaken commits, and what it sees is committed. -/
theorem commit_alone (haccepts : H.Accepts) (ht : TxnOk C valuesFit t s)
    (hsnap : C.snapshot t = C.history s) (hsound : Sound C valuesFit s) :
    (H.commit t s).1 = .ok () ∧ C.committed (H.commit t s).2 = C.view t ∧
      Sound C valuesFit (H.commit t s).2 := by
  cases C.commit_cases ht.snapshot with
  | conflict k hres hk hsince hsame =>
    rw [hsnap] at hsince
    exact absurd hsince (not_writtenSince_self _ k)
  | store e hres hsame => exact absurd hres (haccepts _ _ e)
  | ok hres hfree happ =>
    refine ⟨hres, ?_, ht.commit.sound hsound⟩
    rw [Host.Contract.committed, happ.replay, Host.Contract.view, hsnap]

theorem lists_of_view {hs : List TableHandle} (hl : Lists C s hs) (ht : TxnOk C valuesFit t s)
    (hsnap : C.snapshot t = C.history s) (hcommitted : C.committed s' = C.view t) :
    Lists C s' hs := by
  refine hl.congr fun k hk => ?_
  rw [hcommitted, ht.view_of_not_isRowKey hk, hsnap]
  rfl

/-- The rows that a new transaction sees are those committed. -/
theorem tables_begin {hs : List TableHandle} (hcommitted : C.committed s' = C.view t) :
    hs.map (tableOf (H.begin s').1) = hs.map (tableOf t) := by
  refine List.map_congr_left fun th _ => ?_
  have hrows : tableRows H (H.begin s').1 th = tableRows H t th :=
    tableRows_congr (C := C) fun k _ => by rw [C.view_begin, hcommitted]
  rw [tableOf, tableOf, hrows]

theorem createTable_refused (C : H.Contract) {name : String} {columns : List ColumnDef} {pk : ℕ}
    (h : name = "" ∨ (∃ e, Schema.new name columns pk = .error e) ∨
      ∃ key v, catalogTableKey name = some key ∧ C.committed s key = some v) :
    ∃ e s', (Catalog.createTable name columns pk).run StoreOp.perform s = (.error e, s') ∧
      C.history s' = C.history s := by
  unfold Catalog.createTable
  cases hkey : catalogTableKey name with
  | none => exact ⟨_, _, rfl, rfl⟩
  | some key =>
  dsimp only
  cases hschema : Schema.new name columns pk with
  | error e => exact ⟨_, _, rfl, rfl⟩
  | ok schema =>
  obtain ⟨v, hv⟩ : ∃ v, C.committed s key = some v := by
    rcases h with rfl | ⟨e, he⟩ | ⟨key', v, hkey', hv⟩
    · cases hkey
    · rw [he] at hschema
      cases hschema
    · rw [hkey] at hkey'
      cases hkey'
      exact ⟨v, hv⟩
  simp only [StoreM.begin_bind, StoreM.read_bind, Prog.run_call, StoreOp.perform, C.read_view,
    C.view_begin, hv]
  exact ⟨_, _, rfl, by simp [StoreOp.perform]⟩

/-- A new table is empty. -/
theorem tableRows_new {hs : List TableHandle} (hl : Lists C s hs) (hsound : Sound C valuesFit s)
    (hrows : ∀ k, IsRowKey k → C.view t k = C.committed s k)
    {th : TableHandle} (hid : th.tableId = UInt32.ofNat hs.length) : tableRows H t th = [] := by
  refine tableRows_eq_nil (C := C) fun k hk => Option.eq_none_iff_forall_ne_some.mpr fun v hv => ?_
  have hrow := isRowKey_of_isPrefix hk
  rw [hrows k hrow] at hv
  -- whatever row there is belongs to an older table
  obtain ⟨name, th', pk, row, hlookup, hkey, -⟩ := hsound.rows trivial k v hrow hv
  obtain ⟨i, schema, hi, -, hid', -⟩ := hl.catalog.exists_of_lookup hlookup
  have hlt : i < hs.length := by simpa using (List.getElem?_eq_some_iff.mp hi).1
  have hids := rowKey_tableId hkey hk
  rw [hid', hid] at hids
  exact hlt.ne (ofNat_inj (hlt.trans hl.few) hl.few hids)

/-- One more table, behind the others. -/
theorem Lists.append {hs : List TableHandle} (hl : Lists C s hs) {th : TableHandle} {key : Bytes}
    {names : List String}
    (hcreates : Creates (C.committed s) (C.committed s') key th.schema names)
    (hid : th.tableId = UInt32.ofNat hs.length) (hfits : th.schema.FitsEntry)
    (hroom : hs.length + 1 < 2 ^ 32) : Lists C s' (hs ++ [th]) := by
  refine ⟨?_, fun i th' hi => ?_, fun th' hth => ?_, by simpa using hroom⟩
  · rw [List.map_append]
    exact hl.catalog.create hcreates
  · rcases Nat.lt_trichotomy i hs.length with hlt | rfl | hgt
    · exact hl.ids i th' (by rwa [List.getElem?_append_left hlt] at hi)
    · rw [List.getElem?_concat_length] at hi
      cases hi
      exact hid
    · rw [List.getElem?_eq_none (by simpa using Nat.succ_le_of_lt hgt)] at hi
      cases hi
  · rcases List.mem_append.mp hth with hth | hth
    · exact hl.fits th' hth
    · obtain rfl := List.mem_singleton.mp hth
      exact hfits

/-- A new table is put behind the others, and no row changes. -/
theorem Lists.create (haccepts : H.Accepts) {hs : List TableHandle} (hl : Lists C s hs)
    (hroom : hs.length + 1 < 2 ^ 32) {name : String} {columns : List ColumnSpec} {schema : Schema}
    (hspec : Specifies name columns schema) (hname : name ≠ "")
    (hnew : name ∉ (hs.map (·.schema)).map (·.tableName))
    (hfits : FitsTable name (columns.map (·.name))) :
    ∃ s', (Session.createTable name columns).run StoreOp.perform s = (.ok .default, s') ∧
      Lists C s' (hs ++ [⟨UInt32.ofNat hs.length, schema⟩]) ∧
      ∀ k, IsRowKey k → C.committed s' k = C.committed s k := by
  obtain ⟨pk, hpk, hschema⟩ := id hspec
  obtain ⟨rfl, -, -⟩ := Schema.new_ok hschema
  obtain ⟨key, hkey⟩ := Option.ne_none_iff_exists'.mp (catalogTableKey_eq_none.not.mpr hname)
  have hfresh : C.committed s key = none := by
    by_contra hne
    exact hnew (hl.catalog.listed _ _ hkey hne)
  have hcounter : Catalog.nextTableId (C.committed s catalogCounterKey) =
      UInt32.ofNat hs.length := by
    simpa using hl.catalog.counter
  have hindex := hl.catalog.indexed hl.fits hl.few
  have hcount : (H.overflowChecks && (Catalog.nextTableId (C.committed s catalogCounterKey)).toNat
      + 1 == 2 ^ 32) = false := by
    rw [hcounter, UInt32.toNat_ofNat_of_lt' hl.few, beq_eq_false_iff_ne.mpr hroom.ne,
      Bool.and_false]
  obtain ⟨s', hrun, key', names, hcreates⟩ :=
    createTable_ok C haccepts hkey hschema hfresh hcount hindex
  have hfits : schema.FitsEntry := by
    rw [fitsEntry_iff hschema, columnDefs_names]
    exact hfits
  refine ⟨s', ?_, hl.append hcreates rfl hfits hroom, fun k hk => hcreates.of_isRowKey hk⟩
  unfold Session.createTable
  rw [hpk]
  dsimp only
  rw [Database.createTable]
  simp only [Prog.run_bind, hrun]
  rfl

/-- **CREATE TABLE**, alone, appends an empty table, or fails as it does in memory. -/
theorem createTable_alone (haccepts : H.Accepts) {hs : List TableHandle} (hl : Lists C s hs)
    (hsound : Sound C valuesFit s) (hroom : hs.length + 1 < 2 ^ 32) {name : String}
    {columns : List ColumnSpec} (hfits : FitsTable name (columns.map (·.name))) :
    ∃ r s', (Session.createTable name columns).run StoreOp.perform s = (r, s') ∧
      ((r = .ok .default ∧ ∃ hs', Lists C s' hs' ∧
          Tables.create (hs.map (tableOf (H.begin s).1)) name columns =
            some (hs'.map (tableOf (H.begin s').1))) ∨
        (∃ e, r = .error e) ∧ C.history s' = C.history s ∧
          Tables.create (hs.map (tableOf (H.begin s).1)) name columns = none) := by
  have hfind := Lists.find_tables hs (H.begin s).1 name
  by_cases hgood : name ≠ "" ∧ Tables.find (hs.map (tableOf (H.begin s).1)) name = none ∧
      ∃ schema, Specifies name columns schema
  · obtain ⟨hname, hnone, schema, hspec⟩ := hgood
    have hnew : name ∉ (hs.map (·.schema)).map (·.tableName) := by
      rw [hfind, Option.map_eq_none_iff, List.find?_eq_none] at hnone
      simpa using hnone
    obtain ⟨s', hrun, hlists, hsame⟩ := hl.create haccepts hroom hspec hname hnew hfits
    refine ⟨.ok .default, s', hrun,
      .inl ⟨rfl, hs ++ [⟨UInt32.ofNat hs.length, schema⟩], hlists, ?_⟩⟩
    have hrows : ∀ k, IsRowKey k → C.view (H.begin s').1 k = C.committed s k := fun k hk => by
      rw [C.view_begin, hsame k hk]
    have hold : hs.map (tableOf (H.begin s').1) = hs.map (tableOf (H.begin s).1) := by
      refine List.map_congr_left fun th _ => ?_
      have h : tableRows H (H.begin s').1 th = tableRows H (H.begin s).1 th :=
        tableRows_congr (C := C) fun k hk => by
          obtain ⟨c, rfl⟩ := hk
          rw [hrows _ (isRowKey_rowKeyPrefix _ _), C.view_begin]
      rw [tableOf, tableOf, h]
    rw [Tables.create_eq_some hname hnone hspec, List.map_append, hold, List.map_singleton,
      tableOf, tableRows_new hl hsound hrows rfl]
  · -- the name is empty or taken, or the columns do not make a schema
    have hnone : Tables.create (hs.map (tableOf (H.begin s).1)) name columns = none := dif_neg hgood
    cases hpk : Session.primaryKeys columns with
    | nil =>
      refine ⟨_, s, ?_, .inr ⟨⟨.primaryKeyCount, rfl⟩, rfl, hnone⟩⟩
      unfold Session.createTable
      rw [hpk]
      rfl
    | cons pk pks =>
    cases pks with
    | cons pk' pks =>
      refine ⟨_, s, ?_, .inr ⟨⟨.primaryKeyCount, rfl⟩, rfl, hnone⟩⟩
      unfold Session.createTable
      rw [hpk]
      rfl
    | nil =>
      have hrefused : name = "" ∨
          (∃ e, Schema.new name (Session.columnDefs pk columns) pk = .error e) ∨
          ∃ key v, catalogTableKey name = some key ∧ C.committed s key = some v := by
        by_contra hno
        obtain ⟨hname, hno⟩ := not_or.mp hno
        obtain ⟨hschema, hfresh⟩ := not_or.mp hno
        obtain ⟨key, hkey⟩ := Option.ne_none_iff_exists'.mp (catalogTableKey_eq_none.not.mpr hname)
        refine hgood ⟨hname, ?_, ?_⟩
        · rw [hfind, Option.map_eq_none_iff, List.find?_eq_none]
          intro th hth heq
          obtain ⟨i, hi⟩ := List.getElem?_of_mem hth
          have hsi : (hs.map (·.schema))[i]? = some th.schema := by simp [hi]
          have hth' : th.schema.tableName = name := by simpa using heq
          exact hfresh ⟨key, _, hkey, hl.catalog.entry i th.schema key hsi (by rwa [hth'])⟩
        · cases hnew : Schema.new name (Session.columnDefs pk columns) pk with
          | error e => exact absurd ⟨e, hnew⟩ hschema
          | ok schema => exact ⟨schema, pk, hpk, hnew⟩
      obtain ⟨e, s', hrun, hsame⟩ := createTable_refused C hrefused
      refine ⟨.error (.db (.catalog e)), s', ?_, .inr ⟨⟨_, rfl⟩, hsame, hnone⟩⟩
      unfold Session.createTable
      rw [hpk]
      dsimp only
      rw [Database.createTable]
      simp only [Prog.run_bind, hrun]
      rfl

/-! ## The session -/

/-- The database in memory that a session has on its store. -/
inductive Holds (C : H.Contract) : Session H → H.Store → Memory → Prop
  | outside {s : H.Store} {hs : List TableHandle} (hsound : Sound C valuesFit s)
      (hl : Lists C s hs) :
      Holds C Session.new s ⟨hs.map (tableOf (H.begin s).1), none, false⟩
  | inside {s : H.Store} {hs : List TableHandle} {t : H.Txn} {failed : Bool} {db : List Table}
      (hsound : Sound C valuesFit s) (hl : Lists C s hs) (ht : TxnOk C valuesFit t s)
      (hsnap : C.snapshot t = C.history s) (hdb : failed = false → db = hs.map (tableOf t)) :
      Holds C ⟨some t, failed⟩ s ⟨hs.map (tableOf (H.begin s).1), some db, failed⟩

namespace Holds

variable {self self' : Session H} {m : Memory}

/-- An empty store. -/
theorem empty (h : C.history s = []) : Holds C Session.new s Memory.empty :=
  .outside (.of_nil C _ h) (.empty h)

/-- Outside a transaction the session has the tables that are committed. -/
theorem of_view {hs : List TableHandle} (hl : Lists C s hs) (ht : TxnOk C valuesFit t s)
    (hsnap : C.snapshot t = C.history s) (hsound : Sound C valuesFit s')
    (hcommitted : C.committed s' = C.view t) :
    Holds C Session.new s' ⟨hs.map (tableOf t), none, false⟩ := by
  have htables : hs.map (tableOf (H.begin s').1) = hs.map (tableOf t) := tables_begin hcommitted
  rw [← htables]
  exact .outside hsound (lists_of_view hl ht hsnap hcommitted)

/-- A commit publishes the tables that the transaction sees. -/
theorem commit (haccepts : H.Accepts) {hs : List TableHandle} (hl : Lists C s hs)
    (hsound : Sound C valuesFit s) (ht : TxnOk C valuesFit t s)
    (hsnap : C.snapshot t = C.history s) :
    (RelTransaction.commit t).run StoreOp.perform s = (.ok (), (H.commit t s).2) ∧
      Holds C Session.new (H.commit t s).2 ⟨hs.map (tableOf t), none, false⟩ := by
  obtain ⟨hok, hcommitted, hsound'⟩ := commit_alone haccepts ht hsnap hsound
  obtain ⟨hafter, hres⟩ := commit_run t s
  exact ⟨Prod.ext (hres.mpr hok) hafter, of_view hl ht hsnap hsound' hcommitted⟩

/-- Nothing changes where the store keeps its history. -/
theorem of_history {hs : List TableHandle} (hl : Lists C s hs) (hsound : Sound C valuesFit s)
    (h : C.history s' = C.history s) :
    Holds C Session.new s' ⟨hs.map (tableOf (H.begin s).1), none, false⟩ := by
  refine of_view hl (.begin hsound) (C.snapshot_begin s) ((Rely.of_history_eq h).sound hsound) ?_
  rw [C.view_begin, Host.Contract.committed, h]
  rfl

/-- A transaction as it begins sees what is committed. -/
theorem begun {hs : List TableHandle} (hl : Lists C s hs) (hsound : Sound C valuesFit s) :
    Sound C valuesFit (H.begin s).2 ∧ Lists C (H.begin s).2 hs ∧
      TxnOk C valuesFit (H.begin s).1 (H.begin s).2 ∧
      C.snapshot (H.begin s).1 = C.history (H.begin s).2 ∧
      hs.map (tableOf (H.begin (H.begin s).2).1) = hs.map (tableOf (H.begin s).1) := by
  have hhist := C.history_begin s
  have hrely : Rely C valuesFit s (H.begin s).2 := .of_history_eq hhist
  have hsame : C.committed (H.begin s).2 = C.view (H.begin s).1 := by
    rw [C.view_begin, Host.Contract.committed, hhist]
    rfl
  exact ⟨hrely.sound hsound, lists_of_view hl (.begin hsound) (C.snapshot_begin s) hsame,
    (TxnOk.begin hsound).stable hrely, (C.snapshot_begin s).trans hhist.symm, tables_begin hsame⟩

/-- A statement on rows. -/
theorem execute (haccepts : H.Accepts) (h : Holds C self s m) {stmt : Statement} {table : String}
    (htable : stmt.table? = some table) (hadm : m.Admits stmt) {r : Session.Reply H}
    (hrun : (self.executeStatement u stmt).run StoreOp.perform s = ((r, self'), s')) :
    r.toOption = (m.execute stmt).1 ∧ Holds C self' s' (m.execute stmt).2 := by
  rw [executeStatement_row _ htable] at hrun
  cases h with
  | @inside _ hs t failed db hsound hl ht hsnap hdb =>
    cases failed with
    | true =>
      cases hrun
      exact ⟨rfl, .inside hsound hl ht hsnap hdb⟩
    | false =>
      obtain rfl := hdb rfl
      dsimp only at hrun
      rw [if_neg Bool.false_ne_true, Prog.run_bind, RowM.run_onStore] at hrun
      cases hrun
      generalize hexec : (run u stmt : RowM (ExecError H.StoreError) _).exec s t = x
      obtain ⟨r', t'⟩ := x
      obtain ⟨⟨ht', hsnap'⟩, hcase⟩ :=
        execute_tables hl hsound ht htable hadm.values (hadm.total rfl) hexec
      rcases hcase with ⟨q, rfl, htables⟩ | ⟨⟨e, rfl⟩, htables⟩
      · simp only [Memory.execute, Memory.seen, Option.getD_some, htables]
        exact ⟨rfl, .inside hsound hl ht' (hsnap'.trans hsnap) fun _ => rfl⟩
      · simp only [Memory.execute, Memory.seen, Option.getD_some, htables]
        exact ⟨rfl, .inside hsound hl ht' (hsnap'.trans hsnap) fun h => by cases h⟩
  | @outside _ hs hsound hl =>
    change (autocommit u Session.new stmt).run StoreOp.perform s = _ at hrun
    unfold autocommit at hrun
    simp only [StoreM.begin_bind, Prog.run_call, StoreOp.perform, Prog.run_bind,
      RowM.run_onStore] at hrun
    generalize hexec : (run u stmt : RowM (ExecError H.StoreError) _).exec (H.begin s).2
      (H.begin s).1 = x at hrun
    obtain ⟨r', t'⟩ := x
    obtain ⟨hsound₁, hl₁, ht₁, hsnap₁, -⟩ := begun hl hsound
    obtain ⟨⟨ht', hsnap'⟩, hcase⟩ :=
      execute_tables hl₁ hsound₁ ht₁ htable hadm.values (hadm.total rfl) hexec
    rcases hcase with ⟨q, rfl, htables⟩ | ⟨⟨e, rfl⟩, htables⟩
    · obtain ⟨hcommit, hholds⟩ := commit haccepts hl₁ hsound₁ ht' (hsnap'.trans hsnap₁)
      dsimp only at hrun
      rw [Prog.run_bind, hcommit] at hrun
      cases hrun
      simp only [Memory.execute, Memory.seen, Option.getD_none, htables]
      exact ⟨rfl, hholds⟩
    · cases hrun
      simp only [Memory.execute, Memory.seen, Option.getD_none, htables]
      exact ⟨rfl, of_history hl hsound ((C.history_abort _ _).trans (C.history_begin s))⟩

/-- **A statement** does to the store what it does to the database in memory. -/
theorem step (haccepts : H.Accepts) (h : Holds C self s m) {stmt : Statement}
    (hadm : m.Admits stmt) {r : Session.Reply H}
    (hrun : (self.executeStatement u stmt).run StoreOp.perform s = ((r, self'), s')) :
    r.toOption = (m.step (some stmt)).1 ∧ Holds C self' s' (m.step (some stmt)).2 := by
  cases stmt with
  | insert | select | update | delete => exact h.execute haccepts rfl hadm hrun
  | begin =>
    cases h with
    | inside hsound hl ht hsnap hdb =>
      cases hrun
      exact ⟨rfl, .inside hsound hl ht hsnap hdb⟩
    | outside hsound hl =>
      cases hrun
      obtain ⟨hsound₁, hl₁, ht₁, hsnap₁, htables⟩ := begun hl hsound
      rw [← htables]
      exact ⟨rfl, .inside hsound₁ hl₁ ht₁ hsnap₁ fun _ => htables⟩
  | commit =>
    cases h with
    | outside hsound hl =>
      cases hrun
      exact ⟨rfl, .outside hsound hl⟩
    | @inside _ hs t failed db hsound hl ht hsnap hdb =>
      cases failed with
      | true =>
        cases hrun
        exact ⟨rfl, of_history hl hsound (C.history_abort t s)⟩
      | false =>
        obtain rfl := hdb rfl
        obtain ⟨hcommit, hholds⟩ := commit haccepts hl hsound ht hsnap
        change (RelTransaction.commit t >>= _).run StoreOp.perform s = _ at hrun
        rw [Prog.run_bind, hcommit] at hrun
        cases hrun
        exact ⟨rfl, hholds⟩
  | rollback =>
    cases h with
    | outside hsound hl =>
      cases hrun
      exact ⟨rfl, .outside hsound hl⟩
    | @inside _ hs t failed db hsound hl ht hsnap hdb =>
      cases hrun
      exact ⟨rfl, of_history hl hsound (C.history_abort t s)⟩
  | createTable name columns =>
    cases h with
    | inside hsound hl ht hsnap hdb =>
      cases hrun
      exact ⟨rfl, .inside hsound hl ht hsnap hdb⟩
    | @outside _ hs hsound hl =>
      have hsound' : Sound C valuesFit s' := by
        have hkeeps : Keeps C valuesFit u ((Session.new : Session H).executeStatement u
            (.createTable name columns) >>= fun r => pure (.result r.1, .session r.2)) s :=
          keeps_executeStatement (fun _ => hadm.values) False.elim hsound fun t ht => by cases ht
        have hend := Safe.run Rely.refl hkeeps
        rw [Prog.run_bind, hrun] at hend
        exact hend.1.1
      obtain ⟨r', s'', hcreate, hcase⟩ := createTable_alone haccepts hl hsound
        (by simpa using hadm.room) hadm.names
      change (Session.createTable name columns >>= _).run StoreOp.perform s = _ at hrun
      rw [Prog.run_bind, hcreate] at hrun
      cases hrun
      rcases hcase with ⟨rfl, hs', hl', htables⟩ | ⟨⟨e, rfl⟩, hsame, htables⟩
      · simp only [Memory.step, htables]
        exact ⟨rfl, .outside hsound' hl'⟩
      · simp only [Memory.step, htables]
        exact ⟨rfl, of_history hl hsound hsame⟩

/-- One call. -/
theorem call (haccepts : H.Accepts) (h : Holds C self s m) {c : Call} (hsql : c.IsSql)
    (hadm : ∀ stmt, c.statement u = some stmt → m.Admits stmt) :
    ∃ r self' s', made (O := system H u) c (.session self) s =
        ⟨c, .session self, s, .result r, .session self', s'⟩ ∧
      r.toOption = (m.step (c.statement u)).1 ∧ Holds C self' s' (m.step (c.statement u)).2 := by
  cases hstmt : c.statement u with
  | none =>
    obtain ⟨e, hbody⟩ := Call.body_of_no_statement (u := u) self hsql hstmt
    exact ⟨.error (.parse e), self, s, by simp [made, hbody], rfl, h⟩
  | some stmt =>
    obtain ⟨hreply, hholds⟩ := h.step haccepts (hadm stmt hstmt) (u := u) rfl
    exact ⟨_, _, _, by simp [made, Call.body_statement self hstmt], hreply, hholds⟩

end Holds

/-- What a session answered to some SQL. -/
def Reply.value? : Reply H → Option QueryResult
  | .result r => r.toOption
  | _ => none

/-- What a session answers, alone on the store. -/
def answers (u : Unicode) (self : Session H) (s : H.Store) (calls : List Call) :
    List (Option QueryResult) :=
  (Interleave.alone (O := system H u) (.session self) s calls).map (·.reply.value?)

/-- Where the calls leave the session and the store, they have the database in memory `m`. -/
def Leaves (C : H.Contract) (u : Unicode) (self : Session H) (s : H.Store) (calls : List Call)
    (m : Memory) : Prop :=
  ∃ self', (aloneEnd (O := system H u) (.session self) s calls).1 = .session self' ∧
    Holds C self' (aloneEnd (O := system H u) (.session self) s calls).2 m

/-- All calls. -/
theorem Holds.run (haccepts : H.Accepts) {calls : List Call} (hsql : ∀ c ∈ calls, c.IsSql)
    {self : Session H} {m : Memory} (h : Holds C self s m)
    (hadm : m.AdmitsAll (calls.map (·.statement u))) :
    answers u self s calls = (m.run (calls.map (·.statement u))).1 ∧
      Leaves C u self s calls (m.run (calls.map (·.statement u))).2 := by
  induction calls generalizing self s m with
  | nil => exact ⟨rfl, self, rfl, h⟩
  | cons c calls ih =>
    obtain ⟨hfirst, hrest⟩ := hadm
    obtain ⟨r, self', s', hmade, hreply, hholds⟩ :=
      h.call haccepts (hsql c List.mem_cons_self) hfirst
    obtain ⟨hreplies, self'', hend, hholds'⟩ :=
      ih (fun c hc => hsql c (List.mem_cons_of_mem _ hc)) hholds hrest
    rw [answers, Leaves, Interleave.alone, aloneEnd_cons, hmade, List.map_cons, List.map_cons,
      Memory.run]
    refine ⟨?_, self'', hend, hholds'⟩
    rw [← hreplies, ← hreply]
    rfl

/-- **A session is a database in memory**: whatever SQL it is given, alone on a store that has these
tables, it answers as this does, and leaves the tables that this keeps. -/
theorem session_refines_memory (haccepts : H.Accepts) {hs : List TableHandle}
    (hsound : Sound C valuesFit s) (hl : Lists C s hs) {calls : List Call}
    (hsql : ∀ c ∈ calls, c.IsSql) :
    let m : Memory := ⟨hs.map (tableOf (H.begin s).1), none, false⟩
    m.AdmitsAll (calls.map (·.statement u)) →
      answers u Session.new s calls = (m.run (calls.map (·.statement u))).1 ∧
        Leaves C u Session.new s calls (m.run (calls.map (·.statement u))).2 :=
  (Holds.outside hsound hl).run haccepts hsql

/-! ## On the sample statements -/

theorem step_createSample : (Memory.empty.step (some createSample)) =
    (some .default, ⟨[⟨sampleTable.schema, []⟩], none, false⟩) := by
  have hspec : Specifies "a" [⟨"k", .integer, true, false⟩, ⟨"v", .text, false, false⟩]
      sampleTable.schema := ⟨0, rfl, rfl⟩
  have hcreate : Tables.create [] "a" [⟨"k", .integer, true, false⟩, ⟨"v", .text, false, false⟩] =
      some [⟨sampleTable.schema, []⟩] := Tables.create_eq_some (by decide) rfl hspec
  simp only [Memory.step, createSample, Memory.empty, hcreate]

theorem admits_createSample : Memory.empty.Admits createSample := by
  have hnames : createSample.FitsNames := by
    simp [createSample, Statement.FitsNames, FitsTable, FitsName]
    decide
  exact ⟨trivial, hnames, by decide, fun _ name t hname => by cases hname⟩

theorem admits_insertSample {m : Memory} (hroom : m.committed.length + 1 < 2 ^ 32) (k : Int64) :
    m.Admits (insertSample k) := by
  refine ⟨?_, trivial, hroom, fun _ name t hname hfind => ?_⟩
  · simp [insertSample, Statement.Fits, Expr.Fits, Literal.Fits, literalValue, Value.Fits]
    decide
  · intro e he
    cases he

theorem accepts_reference : (Reference.host true).Accepts := fun _ _ e => e.elim

theorem session_refines_memory_sample :
    answers (H := Reference.host true) .ascii Session.new []
        [.executeStatement createSample, .executeStatement (insertSample 7)] =
      (Memory.empty.run [some createSample, some (insertSample 7)]).1 := by
  have hsql : ∀ c ∈ [Call.executeStatement createSample, .executeStatement (insertSample 7)],
      c.IsSql := by simp [Call.IsSql]
  refine (session_refines_memory (C := Reference.contract true) accepts_reference
    (.of_nil _ _ rfl) (.empty rfl) hsql ⟨?_, ?_, trivial⟩).1
  · rintro stmt ⟨⟩
    exact admits_createSample
  · rintro stmt ⟨⟩
    change Memory.Admits (Memory.empty.step (some createSample)).2 (insertSample 7)
    rw [step_createSample]
    exact admits_insertSample (by decide) 7

/-- The store of `createSample`. -/
def createdStore : List Reference.WriteList :=
  (((Session.new : Session (Reference.host true)).executeStatement .ascii createSample).run
    StoreOp.perform []).2

theorem holds_created : Holds (Reference.contract true) Session.new createdStore
    ⟨[⟨sampleTable.schema, []⟩], none, false⟩ := by
  have hempty : Holds (Reference.contract true) Session.new [] Memory.empty := .empty rfl
  have hstep := (hempty.step (u := .ascii) accepts_reference admits_createSample rfl).2
  rw [step_createSample] at hstep
  exact hstep

end Choam

import Choam.Verify.Atomic

/-!
# What all clients keep

`Protocol` is the promise that every client of the database keeps and relies on: the store stays
sound, the history of committed write sets only grows, table entries stay, an open transaction
writes rows only, and what is committed is such a transaction or the creation of a table. Every
call keeps it (`callSafe`), so that it holds in every interleaving (`good_of_reachable`).
-/

namespace Choam

open ByteString Overlay Interleave Catalog

variable {H : Host} {u : Unicode}

/-- What a client holds between two calls. -/
def LocalOk (C : H.Contract) (P : Promises) : Local H → H.Store → Prop
  | .session self, s => ∀ t, self.txn = some t → TxnOk C P t s
  | .handle txn, s => ∀ t, txn = some t → TxnOk C P t s

/-- What is committed. -/
def CommitOk (C : H.Contract) (P : Promises) (t : H.Txn) (s : H.Store) : Prop :=
  TxnOk C P t s ∨ ∃ s₀ key schema names, CreateTxn C t s₀ key schema names ∧
    (P.names → schema.FitsEntry) ∧ Rely C P s₀ s

variable {C : H.Contract} {P : Promises}

theorem LocalOk.stable {l : Local H} {s s' : H.Store} (h : LocalOk C P l s)
    (hr : Rely C P s s') : LocalOk C P l s' := by
  cases l with
  | session self => exact fun t ht => (h t ht).stable hr
  | handle txn => exact fun t ht => (h t ht).stable hr

theorem CommitOk.snapshot {t : H.Txn} {s : H.Store} (h : CommitOk C P t s) :
    C.snapshot t <+: C.history s := by
  rcases h with h | ⟨s₀, key, schema, names, h, -, hr⟩
  · exact h.snapshot
  · exact h.snapshot ▸ hr.history

theorem CommitOk.commit {t : H.Txn} {s : H.Store} (h : CommitOk C P t s)
    (hs : Sound C P s) : Rely C P s (H.commit t s).2 := by
  rcases h with h | ⟨s₀, key, schema, names, h, hfits, hr⟩
  · exact h.commit
  · exact h.commit hfits hr hs

/-- The call failed to decode a stored row. -/
def Reply.IsDecode : Reply H → Prop
  | .result (.error e) => e.IsDecode
  | .row (.error e) | .rows (.error e) | .done (.error e) => e.IsDecode
  | _ => False

/-- No row is ever undecodable, as long as values fit and table ids have not wrapped around. -/
def Decodes (C : H.Contract) (P : Promises) (r : Reply H) (s : H.Store) : Prop :=
  P.values → FewTables (C.committed s) → ¬ r.IsDecode

theorem Decodes.stable {r : Reply H} {s s' : H.Store} (h : Decodes C P r s)
    (hr : Rely C P s s') : Decodes C P r s' :=
  fun hv hfew => h hv (hfew.of_persist hr.entries)

/-- The promise of every client. -/
def protocol (C : H.Contract) (P : Promises) (u : Unicode) : Protocol (system H u) where
  rely := Rely C P
  refl := Rely.refl
  trans := Rely.trans
  inv l s := Sound C P s ∧ LocalOk C P l s
  stable h hr := ⟨hr.sound h.1, h.2.stable hr⟩
  reply := Decodes C P
  replyStable := Decodes.stable
  access a := ∀ t, a.op = .commit t → CommitOk C P t a.before

/-! ## Programs that keep it -/

namespace StoreOp

/-- The operations that leave the store alone. -/
def Quiet : StoreOp H → Prop
  | get _ | read _ _ | scan _ _ | put _ _ _ | delete _ _ => True
  | begin | commit _ | abort _ => False

theorem perform_of_quiet (o : StoreOp H) (s : H.Store) (h : o.Quiet) : (o.perform s).2 = s := by
  cases o <;> first | rfl | cases h

end StoreOp

/-- The program leaves the store alone, whatever it is answered. -/
def IsQuiet {α : Type} (p : StoreM H α) : Prop :=
  p.Ensures (fun _ _ => True) StoreOp.Quiet fun _ => True

/-- From `s` on, the program keeps the promise and ends well. -/
def Keeps (C : H.Contract) (P : Promises) (u : Unicode) (p : StoreM H (Reply H × Local H))
    (s : H.Store) : Prop := (protocol C P u).CallSafe p s

namespace Keeps

variable {s : H.Store} {α : Type}

theorem done {r : Reply H × Local H} (hs : Sound C P s) (hl : LocalOk C P r.2 s)
    (hd : Decodes C P r.1 s) : Keeps C P u (.done r) s :=
  fun _ hr => ⟨⟨hr.sound hs, hl.stable hr⟩, hd.stable hr⟩

theorem begin {f : H.Txn → StoreM H (Reply H × Local H)}
    (h : ∀ s₁, Rely C P s s₁ → Keeps C P u (f (H.begin s₁).1) (H.begin s₁).2) :
    Keeps C P u (.call .begin f) s := fun s₁ hr =>
  ⟨Rely.of_history_eq (C.history_begin s₁), nofun, h s₁ hr⟩

theorem abort {t : H.Txn} {f : Unit → StoreM H (Reply H × Local H)}
    (h : ∀ s₁, Rely C P s s₁ → Keeps C P u (f ()) s₁) :
    Keeps C P u (.call (.abort t) f) s := fun s₁ hr =>
  have hab : Rely C P s₁ (H.abort t s₁) := Rely.of_history_eq (C.history_abort t s₁)
  ⟨hab, nofun, h _ (hr.trans hab)⟩

theorem commit {t : H.Txn} {f : Except (TxnError H.StoreError) Unit → StoreM H (Reply H × Local H)}
    (hs : Sound C P s) (ht : ∀ s₁, Rely C P s s₁ → CommitOk C P t s₁)
    (h : ∀ r s₁, Rely C P s s₁ → Keeps C P u (f r) s₁) :
    Keeps C P u (.call (.commit t) f) s := fun s₁ hr =>
  have hcommit : Rely C P s₁ (H.commit t s₁).2 := (ht s₁ hr).commit (hr.sound hs)
  ⟨hcommit, fun _ heq => by cases heq; exact ht s₁ hr, h _ _ (hr.trans hcommit)⟩

/-- One operation that leaves the store alone. -/
theorem step {o : StoreOp H} (ho : o.Quiet) {f : o.Res → StoreM H (Reply H × Local H)}
    (h : ∀ s₁, Rely C P s s₁ → Keeps C P u (f (o.perform s₁).1) s₁) :
    Keeps C P u (.call o f) s := fun s₁ hr => by
  have hsame := StoreOp.perform_of_quiet o s₁ ho
  refine ⟨?_, fun t heq => ?_, ?_⟩
  · show Rely C P s₁ (o.perform s₁).2
    rw [hsame]
    exact Rely.refl s₁
  · cases heq
    exact ho.elim
  · show Keeps C P u (f (o.perform s₁).1) (o.perform s₁).2
    rw [hsame]
    exact h s₁ hr

theorem quiet {p : StoreM H α} {f : α → StoreM H (Reply H × Local H)}
    (hp : IsQuiet p)
    (h : ∀ seen a s₁, Leads (O := system H u) p seen (.done a) →
      Ordered (O := system H u) (Rely C P) s seen s₁ → Keeps C P u (f a) s₁) :
    Keeps C P u (p >>= f) s :=
  Safe.bind_of_quiet (O := system H u) StoreOp.perform_of_quiet Rely.refl
    (fun a ha t heq => by rw [heq] at ha; exact ha.elim) hp h

end Keeps

/-! ## Quiet programs -/

section Quiet

variable {E α β : Type}

theorem IsQuiet.bind {p : StoreM H α} {f : α → StoreM H β} (h : IsQuiet p)
    (hf : ∀ a, IsQuiet (f a)) : IsQuiet (p >>= f) :=
  Prog.ensures_bind.mpr (h.mono fun a _ => hf a)

theorem IsQuiet.bind_run {p : ExceptT E (StoreM H) α} {f : α → ExceptT E (StoreM H) β}
    (h : IsQuiet (ExceptT.run p)) (hf : ∀ a, IsQuiet (ExceptT.run (f a))) :
    IsQuiet (ExceptT.run (p >>= f)) := by
  rw [ExceptT.run_bind]
  refine h.bind fun r => ?_
  cases r with
  | ok a => exact hf a
  | error e => trivial

theorem quiet_get (k : Bytes) :
    IsQuiet (ExceptT.run (ExceptT.lift (StoreGet.get k) : ExceptT E (StoreM H) _)) :=
  ⟨trivial, fun _ _ => trivial⟩

theorem quiet_getTable (name : String) :
    IsQuiet (ExceptT.run (Catalog.getTable (m := StoreM H) (E := E) name)) := by
  unfold Catalog.getTable
  cases catalogTableKey name with
  | none => trivial
  | some k =>
    refine IsQuiet.bind_run (quiet_get k) fun r => ?_
    cases r with
    | none => trivial
    | some bytes =>
      dsimp only
      cases decodeTableEntry bytes <;> trivial

theorem quiet_collectTables (names : List String) :
    IsQuiet (ExceptT.run (Catalog.collectTables (m := StoreM H) (E := E) names)) := by
  induction names with
  | nil => trivial
  | cons name names ih =>
    refine IsQuiet.bind_run (quiet_getTable name) fun o => ?_
    cases o with
    | none => exact ih
    | some handle => exact IsQuiet.bind_run ih fun _ => trivial

theorem quiet_listTables :
    IsQuiet (ExceptT.run (Catalog.listTables (m := StoreM H) (E := E))) := by
  refine IsQuiet.bind_run (quiet_get catalogIndexKey) fun r => ?_
  cases r with
  | none => exact quiet_collectTables []
  | some bytes =>
    dsimp only
    cases decodeTableIndex bytes with
    | error e => trivial
    | ok names => exact quiet_collectTables names

theorem IsQuiet.adapt {E' : Type} {f : E → E'} {p : ExceptT E (StoreM H) α}
    (h : IsQuiet (ExceptT.run p)) : IsQuiet (ExceptT.run (p.adapt f)) :=
  Prog.ensures_map.mpr h

theorem ensures_conflictError (key : Bytes) :
    (Database.conflictError (H := H) key).Ensures (fun _ _ => True) StoreOp.Quiet
      fun e => ¬ e.IsDecode := by
  unfold Database.conflictError
  cases splitRowKey key with
  | none => exact id
  | some p =>
    refine Prog.ensures_bind.mpr (quiet_listTables.adapt.mono fun r _ => ?_)
    cases r with
    | error e => exact id
    | ok tables =>
      dsimp only
      cases tables.find? (·.tableId == p.1) with
      | none => exact id
      | some handle =>
        dsimp only
        cases decodeKeyComponent p.2 handle.schema.primaryKeyType <;> exact id

theorem quiet_conflictError (key : Bytes) : IsQuiet (Database.conflictError (H := H) key) :=
  (ensures_conflictError key).mono fun _ _ => trivial

theorem quiet_onStore (m : RowM E α) (t : H.Txn) : IsQuiet (m.onStore t) := by
  unfold RowM.onStore
  generalize ExceptT.run m = p
  induction p generalizing t with
  | done a => trivial
  | call o next ih =>
    cases o with
    | get k | read k | scan p | put k v | delete k => exact ⟨trivial, fun r _ => ih _ _⟩

end Quiet

/-! ## The calls -/

/-- A new table's names and column count fit the fields of its catalog entry. -/
def FitsTable (name : String) (columns : List String) : Prop :=
  FitsName name ∧ (∀ c ∈ columns, FitsName c) ∧ columns.length ≤ 65535

def Statement.FitsNames : Statement → Prop
  | .createTable name columns => FitsTable name (columns.map (·.name))
  | _ => True

namespace Call

/-- The statement that a call executes. -/
def statement (u : Unicode) : Call → Option Statement
  | execute sql => (parse u sql).toOption
  | executeStatement stmt => some stmt
  | _ => none

/-- The call gives SQL to a session. -/
def IsSql : Call → Prop
  | execute _ | executeStatement _ => True
  | _ => False

theorem body_statement {c : Call} {stmt : Statement} (self : Session H)
    (h : c.statement u = some stmt) : c.body u (.session self) =
      self.executeStatement u stmt >>= fun r => pure (.result r.1, .session r.2) := by
  cases c with
  | execute sql =>
    have hparse : parse u sql = .ok stmt := by
      cases hp : parse u sql with
      | error e => simp [statement, hp, Except.toOption] at h
      | ok stmt' => simpa [statement, hp, Except.toOption] using h
    show self.execute u sql >>= _ = _
    rw [Session.execute, hparse]
  | executeStatement stmt' =>
    cases h
    rfl
  | _ => cases h

/-- Text that does not parse. -/
theorem body_of_no_statement {c : Call} (self : Session H) (hsql : c.IsSql)
    (h : c.statement u = none) :
    ∃ e, c.body u (.session self) = pure (.result (.error (.parse e)), .session self) := by
  cases c with
  | execute sql =>
    cases hp : parse u sql with
    | ok stmt => simp [statement, hp, Except.toOption] at h
    | error e =>
      refine ⟨e, ?_⟩
      show self.execute u sql >>= _ = _
      rw [Session.execute, hp]
      rfl
  | executeStatement stmt => cases h
  | _ => exact hsql.elim

/-- Every value that the call may store fits its length field. -/
def FitsValues (u : Unicode) : Call → Prop
  | write _ values => Row.Fits values
  | c => ∀ stmt, c.statement u = some stmt → stmt.Fits

def FitsNames (u : Unicode) : Call → Prop
  | createTable name columns _ => FitsTable name (columns.map (·.name))
  | c => ∀ stmt, c.statement u = some stmt → stmt.FitsNames

/-- The call keeps what was promised. -/
structure Within (P : Promises) (u : Unicode) (c : Call) : Prop where
  values : P.values → c.FitsValues u
  names : P.names → c.FitsNames u

end Call

section Calls

variable {s : H.Store} {ε α : Type}

/-- A program on one table keeps the promise, and the transaction stays one on rows. -/
theorem keeps_onStore {table : String} {m : RowM ε α} {D : ε → Prop}
    (hm : RowM.OnTable P.values table m D) {t : H.Txn} (hs : Sound C P s) (ht : TxnOk C P t s)
    {f : Except ε α × H.Txn → StoreM H (Reply H × Local H)}
    (h : ∀ r t' s', Rely C P s s' → TxnOk C P t' s' →
      (P.values → FewTables (C.committed s') → ∀ e, r = .error e → ¬ D e) →
      Keeps C P u (f (r, t')) s') : Keeps C P u (m.onStore t >>= f) s := by
  refine Keeps.quiet (quiet_onStore m t) fun seen a s' hleads hord => ?_
  obtain ⟨r, t'⟩ := a
  have hpersist := (hord.pairwise Rely.trans).imp fun h => h.entries
  have hexec := RowM.atomic (C := C) hm.starts hm.looksUp hleads s hpersist
  have hmet : Rely C P s (RowM.metFirst s seen) ∧ Rely C P (RowM.metFirst s seen) s' := by
    cases seen with
    | nil => exact ⟨Rely.refl s, hord⟩
    | cons a seen => exact hord.before Rely.trans List.mem_cons_self
  obtain ⟨h₁, h₂⟩ := hmet
  obtain ⟨hend, herr⟩ := (ht.stable h₁).exec (hm.asks (rowsAllowed (h₁.sound hs) table))
  rw [hexec] at hend herr
  refine h r t' s' (h₁.trans h₂) (hend.stable h₂) fun hv hfew e he hD => ?_
  exact herr e he hD ⟨hv, hfew.of_persist h₂.entries⟩

theorem keeps_relCommit {t : H.Txn} (hs : Sound C P s) (ht : TxnOk C P t s)
    {f : Except (DbError H.StoreError) Unit → StoreM H (Reply H × Local H)}
    (h : ∀ r s', Rely C P s s' → (∀ e, r = .error e → ¬ e.IsDecode) → Keeps C P u (f r) s') :
    Keeps C P u (RelTransaction.commit t >>= f) s := by
  refine Keeps.commit hs (fun s₁ hr => .inl (ht.stable hr)) fun r s₁ hr => ?_
  match r with
  | .ok () => exact h _ s₁ hr nofun
  | .error (.conflict key) =>
    show Keeps C P u ((Except.error <$> Database.conflictError key) >>= f) s₁
    rw [map_eq_pure_bind, bind_assoc]
    refine Keeps.quiet (quiet_conflictError key) fun seen a s' hleads hord => ?_
    refine h _ s' (hr.trans (hord.rel Rely.trans)) fun e he => ?_
    cases he
    exact hleads.ensures (ensures_conflictError key)
  | .error (.store e) => exact h _ s₁ hr fun e he => by cases he; exact id

theorem createTxn_of {s₀ : H.Store} {key : Bytes} {schema : Schema} {names : List String}
    (hkey : catalogTableKey schema.tableName = some key) (hfresh : C.committed s₀ key = none)
    (hnames : indexedNames (C.committed s₀ catalogIndexKey) = .ok names) :
    CreateTxn C (H.put (H.put (H.put (H.begin s₀).1 catalogCounterKey
      (le 4 (nextTableId (C.committed s₀ catalogCounterKey) + 1).toNat)) key
      (encodeTableEntry (nextTableId (C.committed s₀ catalogCounterKey)) schema)) catalogIndexKey
      (encodeTableIndex (names ++ [schema.tableName]))) s₀ key schema names :=
  ⟨by simp, by simp, hkey, hfresh, hnames⟩

/-- The creation of a table keeps the promise. -/
theorem keeps_createTable {name : String} {columns : List ColumnDef} {pk : Nat}
    (hfits : P.names → FitsTable name (columns.map (·.name))) (hs : Sound C P s)
    {f : Except (CatalogError H.StoreError) TableHandle → StoreM H (Reply H × Local H)}
    (h : ∀ r s', Rely C P s s' → Keeps C P u (f r) s') :
    Keeps C P u (Catalog.createTable name columns pk >>= f) s := by
  unfold Catalog.createTable
  cases hkey : catalogTableKey name with
  | none => exact h _ s (Rely.refl s)
  | some key =>
  dsimp only
  cases hschema : Schema.new name columns pk with
  | error e => exact h _ s (Rely.refl s)
  | ok schema =>
  obtain ⟨rfl, rfl, -⟩ := Schema.new_ok hschema
  have hentry : P.names → schema.FitsEntry := fun hn => by
    obtain ⟨hname, hcols, hlen⟩ := hfits hn
    exact ⟨hname, fun c hc => hcols _ (List.mem_map_of_mem hc), by simpa using hlen⟩
  refine Keeps.begin fun s₀ hr₀ => ?_
  have hb : Rely C P s₀ (H.begin s₀).2 := Rely.of_history_eq (C.history_begin s₀)
  refine Keeps.step (o := .read (H.begin s₀).1 key) trivial fun s₁ hr₁ => ?_
  have hr₁ := hb.trans hr₁
  simp only [StoreOp.perform, C.read_view, C.view_begin]
  cases hfresh : C.committed s₀ key with
  | some v => exact Keeps.abort fun s₂ hr₂ => h _ s₂ (hr₀.trans (hr₁.trans hr₂))
  | none =>
  refine Keeps.step (o := .read (H.begin s₀).1 catalogCounterKey) trivial fun s₂ hr₂ => ?_
  have hr₂ := hr₁.trans hr₂
  simp only [StoreOp.perform, C.read_view, C.view_begin, Prog.bind]
  split
  · exact Keeps.abort fun s₃ hr₃ => h _ s₃ (hr₀.trans (hr₂.trans hr₃))
  refine Keeps.step (o := .put _ _ _) trivial fun s₃ hr₃ => ?_
  refine Keeps.step (o := .put _ _ _) trivial fun s₄ hr₄ => ?_
  refine Keeps.step (o := .read _ _) trivial fun s₅ hr₅ => ?_
  have hr₅ := hr₂.trans (hr₃.trans (hr₄.trans hr₅))
  have hindex : C.view (H.put (H.put (H.begin s₀).1 catalogCounterKey
      (le 4 (nextTableId (C.committed s₀ catalogCounterKey) + 1).toNat)) key
      (encodeTableEntry (nextTableId (C.committed s₀ catalogCounterKey)) schema))
      catalogIndexKey = C.committed s₀ catalogIndexKey := by
    simp [(catalogTableKey_ne_index hkey).symm, catalogCounterKey_ne_index.symm]
  simp only [StoreOp.perform, C.read_view, hindex, Prog.bind]
  cases hnames : indexedNames (C.committed s₀ catalogIndexKey) with
  | error e => exact Keeps.abort fun s₆ hr₆ => h _ s₆ (hr₀.trans (hr₅.trans hr₆))
  | ok names =>
  refine Keeps.step (o := .put _ _ _) trivial fun s₆ hr₆ => ?_
  have hr₆ := hr₅.trans hr₆
  refine Keeps.commit ((hr₀.trans hr₆).sound hs) (fun s₇ hr₇ => .inr ⟨s₀, key, schema, names,
    createTxn_of hkey hfresh hnames, hentry, hr₆.trans hr₇⟩) fun r s₇ hr₇ => ?_
  have hr₇ := hr₀.trans (hr₆.trans hr₇)
  rcases r with (_ | _) | ⟨⟩ <;> exact h _ s₇ hr₇

/-- A statement on rows in autocommit mode: its own transaction, committed if it succeeds. -/
def autocommit (u : Unicode) (self : Session H) (stmt : Statement) :
    StoreM H (Session.Reply H × Session H) := do
  let txn ← StoreM.begin
  let (r, txn) ← (run u stmt).onStore txn
  match r with
  | .error e =>
    StoreM.abort txn
    pure (.error e, self)
  | .ok r =>
    match ← RelTransaction.commit txn with
    | .ok () => pure (.ok r, self)
    | .error e => pure (.error (.db e), self)

/-- What a session does with a statement on rows. -/
theorem executeStatement_row (self : Session H) {stmt : Statement} {table : String}
    (h : stmt.table? = some table) : self.executeStatement u stmt =
      if self.failed then pure (.error .transactionAborted, self)
      else match self.txn with
        | some txn => (run u stmt).onStore txn >>= fun r =>
          pure (r.1, ⟨some r.2, Session.isError r.1⟩)
        | none => autocommit u self stmt := by
  cases stmt <;> cases h <;> rfl

theorem columnDefs_names (pk : Nat) (columns : List ColumnSpec) :
    (Session.columnDefs pk columns).map (·.name) = columns.map (·.name) := by
  refine List.ext_getElem? fun i => ?_
  simp only [Session.columnDefs, List.getElem?_map, List.getElem?_mapIdx, Option.map_map]
  rfl

/-- So does every statement of a session. -/
theorem keeps_executeStatement {self : Session H} {stmt : Statement}
    (hvalues : P.values → stmt.Fits) (hnames : P.names → stmt.FitsNames) (hs : Sound C P s)
    (hl : LocalOk C P (.session self) s) :
    Keeps C P u (self.executeStatement u stmt >>= fun r => pure (.result r.1, .session r.2)) s := by
  obtain ⟨txn, failed⟩ := self
  have hnew : ∀ s', LocalOk C P (.session (Session.new : Session H)) s' :=
    fun _ t ht => by cases ht
  by_cases htable : stmt.table? = none
  · cases stmt with
    | insert | select | update | delete => cases htable
    | begin =>
      cases txn with
      | some t => exact Keeps.done hs hl fun _ _ => id
      | none =>
        refine Keeps.begin fun s₁ hr => ?_
        have hb : Rely C P s₁ (H.begin s₁).2 := Rely.of_history_eq (C.history_begin s₁)
        refine Keeps.done (hb.sound (hr.sound hs)) (fun t ht => ?_) fun _ _ => id
        cases ht
        exact (TxnOk.begin (hr.sound hs)).stable hb
    | commit =>
      cases txn with
      | none => exact Keeps.done hs hl fun _ _ => id
      | some t =>
        cases failed with
        | true => exact Keeps.abort fun s₁ hr => Keeps.done (hr.sound hs) (hnew s₁) fun _ _ => id
        | false =>
          show Keeps C P u ((RelTransaction.commit t >>= _) >>= _) s
          rw [bind_assoc]
          refine keeps_relCommit hs (hl t rfl) fun r s₁ hr herr => ?_
          cases r with
          | ok _ => exact Keeps.done (hr.sound hs) (hnew s₁) fun _ _ => id
          | error e => exact Keeps.done (hr.sound hs) (hnew s₁) fun _ _ => herr e rfl
    | rollback =>
      cases txn with
      | none => exact Keeps.done hs hl fun _ _ => id
      | some t => exact Keeps.abort fun s₁ hr => Keeps.done (hr.sound hs) (hnew s₁) fun _ _ => id
    | createTable name columns =>
      cases txn with
      | some t => exact Keeps.done hs hl fun _ _ => id
      | none =>
        show Keeps C P u ((_ >>= _) >>= _) s
        rw [bind_assoc]
        unfold Session.createTable
        split
        next pk _ =>
          have hfits : P.names → FitsTable name ((Session.columnDefs pk columns).map (·.name)) :=
            fun hn => by
              rw [columnDefs_names]
              exact hnames hn
          show Keeps C P u (((Except.mapError _ <$> Catalog.createTable _ _ _) >>= _) >>= _) s
          rw [map_eq_pure_bind, bind_assoc, bind_assoc]
          refine keeps_createTable hfits hs fun r s₁ hr => ?_
          cases r <;> exact Keeps.done (hr.sound hs) (hl.stable hr) fun _ _ => id
        · exact Keeps.done hs hl fun _ _ => id
  · obtain ⟨table, htable⟩ := Option.ne_none_iff_exists'.mp htable
    rw [executeStatement_row _ htable]
    have hrun := RowM.onTable_run (u := u) (E := H.StoreError) htable hvalues
    have hdec : ∀ {r : Session.Reply H} {s' : H.Store},
        (P.values → FewTables (C.committed s') → ∀ e, r = .error e → ¬ e.IsDecode) →
        Decodes C P (.result r) s' := fun {r s'} h hv hfew => by
      cases r with
      | ok _ => exact id
      | error e => exact h hv hfew e rfl
    split
    · exact Keeps.done hs hl fun _ _ => id
    cases txn with
    | some t =>
      dsimp only
      rw [bind_assoc]
      refine keeps_onStore hrun hs (hl t rfl) fun r t' s₁ hr ht' hd => ?_
      refine Keeps.done (hr.sound hs) (fun t'' heq => ?_) (hdec hd)
      cases heq
      exact ht'
    | none =>
      refine Keeps.begin fun s₁ hr₁ => ?_
      have hb : Rely C P s₁ (H.begin s₁).2 := Rely.of_history_eq (C.history_begin s₁)
      have ht := (TxnOk.begin (hr₁.sound hs)).stable hb
      have hr₁ := hr₁.trans hb
      show Keeps C P u (((run u stmt).onStore (H.begin s₁).1 >>= _) >>= _) _
      rw [bind_assoc]
      refine keeps_onStore hrun (hr₁.sound hs) ht fun r t' s₂ hr₂ ht' hd => ?_
      have hr₂ := hr₁.trans hr₂
      cases r with
      | error e =>
        exact Keeps.abort fun s₃ hr₃ =>
          Keeps.done ((hr₂.trans hr₃).sound hs) nofun ((hdec hd).stable hr₃)
      | ok r =>
        show Keeps C P u ((RelTransaction.commit t' >>= _) >>= _) s₂
        rw [bind_assoc]
        refine keeps_relCommit (hr₂.sound hs) ht' fun r' s₃ hr₃ herr => ?_
        cases r' with
        | ok _ => exact Keeps.done ((hr₂.trans hr₃).sound hs) nofun fun _ _ => id
        | error e => exact Keeps.done ((hr₂.trans hr₃).sound hs) nofun fun _ _ => herr e rfl

theorem keeps_within {table : String} {m : RowM (DbError H.StoreError) α}
    (hm : RowM.OnTable P.values table m DbError.IsDecode)
    {reply : Except (DbError H.StoreError) α → Reply H}
    (hreply : ∀ r, (reply r).IsDecode → ∃ e, r = .error e ∧ e.IsDecode) {t : H.Txn}
    (hs : Sound C P s) (ht : TxnOk C P t s) : Keeps C P u (Call.within m reply t) s := by
  refine keeps_onStore hm hs ht fun r t' s' hr ht' hd => ?_
  refine Keeps.done (hr.sound hs) (fun t'' heq => by cases heq; exact ht') fun hv hfew h => ?_
  obtain ⟨e, he, hdec⟩ := hreply r h
  exact hd hv hfew e he hdec

/-- **Every call keeps the promise.** -/
theorem keeps_body {c : Call} {l : Local H} (hc : c.Within P u) (hs : Sound C P s)
    (hl : LocalOk C P l s) : Keeps C P u (c.body u l) s := by
  have hnone : ∀ s', LocalOk C P (.handle none : Local H) s' := fun _ t ht => by cases ht
  cases c with
  | createTable name columns pk =>
    show Keeps C P u ((Except.mapError _ <$> Catalog.createTable _ _ _) >>= _) s
    rw [map_eq_pure_bind, bind_assoc]
    exact keeps_createTable hc.names hs fun r s₁ hr =>
      Keeps.done (hr.sound hs) (hl.stable hr) fun _ _ => id
  | getTable name =>
    exact Keeps.quiet (quiet_getTable name).adapt fun seen r s₁ _ hord =>
      Keeps.done ((hord.rel Rely.trans).sound hs) (hl.stable (hord.rel Rely.trans)) fun _ _ => id
  | listTables =>
    exact Keeps.quiet quiet_listTables.adapt fun seen r s₁ _ hord =>
      Keeps.done ((hord.rel Rely.trans).sound hs) (hl.stable (hord.rel Rely.trans)) fun _ _ => id
  | execute sql =>
    cases l with
    | handle txn => exact Keeps.done hs hl fun _ _ => id
    | session self =>
      show Keeps C P u (self.execute u sql >>= _) s
      unfold Session.execute
      cases hparse : parse u sql with
      | error e => exact Keeps.done hs hl fun _ _ => id
      | ok stmt =>
        have hstmt : (Call.execute sql).statement u = some stmt := by
          simp [Call.statement, hparse, Except.toOption]
        exact keeps_executeStatement (fun hv => hc.values hv stmt hstmt)
          (fun hn => hc.names hn stmt hstmt) hs hl
  | executeStatement stmt =>
    cases l with
    | handle txn => exact Keeps.done hs hl fun _ _ => id
    | session self =>
      exact keeps_executeStatement (fun hv => hc.values hv stmt rfl)
        (fun hn => hc.names hn stmt rfl) hs hl
  | begin =>
    rcases l with self | (_ | t)
    · exact Keeps.done hs hl fun _ _ => id
    · refine Keeps.begin fun s₁ hr => ?_
      have hb : Rely C P s₁ (H.begin s₁).2 := Rely.of_history_eq (C.history_begin s₁)
      refine Keeps.done (hb.sound (hr.sound hs)) (fun t ht => ?_) fun _ _ => id
      cases ht
      exact (TxnOk.begin (hr.sound hs)).stable hb
    · exact Keeps.done hs hl fun _ _ => id
  | read table pk =>
    rcases l with self | (_ | t)
    · exact Keeps.done hs hl fun _ _ => id
    · exact Keeps.done hs hl fun _ _ => id
    · exact keeps_within (RowM.onTable_read pk) (fun r h => by cases r <;> simp_all [Reply.IsDecode])
        hs (hl t rfl)
  | scan table =>
    rcases l with self | (_ | t)
    · exact Keeps.done hs hl fun _ _ => id
    · exact Keeps.done hs hl fun _ _ => id
    · exact keeps_within RowM.onTable_scan (fun r h => by cases r <;> simp_all [Reply.IsDecode])
        hs (hl t rfl)
  | write table values =>
    rcases l with self | (_ | t)
    · exact Keeps.done hs hl fun _ _ => id
    · exact Keeps.done hs hl fun _ _ => id
    · exact keeps_within (RowM.onTable_write hc.values)
        (fun r h => by cases r <;> simp_all [Reply.IsDecode]) hs (hl t rfl)
  | delete table pk =>
    rcases l with self | (_ | t)
    · exact Keeps.done hs hl fun _ _ => id
    · exact Keeps.done hs hl fun _ _ => id
    · exact keeps_within (RowM.onTable_delete pk)
        (fun r h => by cases r <;> simp_all [Reply.IsDecode]) hs (hl t rfl)
  | commit =>
    rcases l with self | (_ | t)
    · exact Keeps.done hs hl fun _ _ => id
    · exact Keeps.done hs hl fun _ _ => id
    · refine keeps_relCommit hs (hl t rfl) fun r s₁ hr herr => ?_
      cases r with
      | ok _ => exact Keeps.done (hr.sound hs) (hnone s₁) fun _ _ => id
      | error e => exact Keeps.done (hr.sound hs) (hnone s₁) fun _ _ => herr e rfl
  | abort =>
    rcases l with self | (_ | t)
    · exact Keeps.done hs hl fun _ _ => id
    · exact Keeps.done hs hl fun _ _ => id
    · exact Keeps.abort fun s₁ hr => Keeps.done (hr.sound hs) (hnone s₁) fun _ _ => id

end Calls

/-! ## All interleavings -/

section Reachable

variable {ι : Type} [DecidableEq ι]

/-- A client at the beginning: without an open transaction. -/
def Local.Idle : Local H → Prop
  | .session self => self.txn = none ∧ self.failed = false
  | .handle txn => txn = none

/-- **In every interleaving** of any number of clients, started on a sound store, every promise is
kept. -/
theorem good_of_reachable {allow : Call → Local H → Prop} (hallow : ∀ c l, allow c l → c.Within P u)
    {s₀ : H.Store} {l₀ : ι → Local H} (hs₀ : Sound C P s₀) (hl₀ : ∀ i, (l₀ i).Idle)
    {g : (system H u).Config ι} (hg : Reachable allow (start s₀ l₀) g) :
    (protocol C P u).Good s₀ g := by
  have hbody : ∀ c l s, (system H u).enabled c l → allow c l →
      (protocol C P u).inv l s → (protocol C P u).CallSafe ((system H u).body c l) s :=
    fun c l s _ hal hinv => keeps_body (hallow c l hal) hinv.1 hinv.2
  have hstart : (protocol C P u).Good s₀ (start s₀ l₀ : (system H u).Config ι) := by
    refine Protocol.Good.start (P := protocol C P u) fun i => ⟨hs₀, ?_⟩
    have hidle := hl₀ i
    cases hl : l₀ i with
    | session self =>
      rw [hl] at hidle
      intro t ht
      rw [hidle.1] at ht
      cases ht
    | handle txn =>
      rw [hl] at hidle
      intro t ht
      rw [hidle] at ht
      cases ht
  exact Protocol.reachable (P := protocol C P u) hbody hstart hg

/-- A store that clients of a new database have made, whatever they called. -/
def Grown (C : H.Contract) (u : Unicode) (s : H.Store) : Prop :=
  ∃ (s₀ : H.Store) (l₀ : ℕ → Local H) (g : (system H u).Config ℕ), C.history s₀ = [] ∧
    (∀ i, (l₀ i).Idle) ∧ Reachable (fun _ _ => True) (start s₀ l₀) g ∧ g.shared = s

/-- Nothing promised. -/
def unpromised : Promises := ⟨False, False⟩

theorem within_unpromised (c : Call) : c.Within unpromised u := ⟨False.elim, False.elim⟩

theorem Grown.sound {s : H.Store} (h : Grown C u s) : Sound C unpromised s := by
  obtain ⟨s₀, l₀, g, hs₀, hl₀, hg, rfl⟩ := h
  have hempty : Sound C unpromised s₀ := .of_nil C _ hs₀
  exact (good_of_reachable (fun c _ _ => within_unpromised c) hempty hl₀ hg).shared.sound hempty

theorem Grown.of_nil {s : H.Store} (h : C.history s = []) : Grown C u s :=
  ⟨s, fun _ => .handle none, start s fun _ => .handle none, h, fun _ => rfl, .refl, rfl⟩

end Reachable

end Choam

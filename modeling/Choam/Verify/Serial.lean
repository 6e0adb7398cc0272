import Choam.Verify.AccessPath
import Choam.Verify.Unique

/-!
# Point lookups are serializable

Snapshot isolation alone is not serializability. Statements that pin the primary key read no row but
the one that they look up (`points_run`), and what they do depends on that row and their table only
(`RowM.Points.exec_congr`). Where a transaction writes every row that it looks up, no other
transaction can have committed one of them before it commits, so that it might as well have begun
right then (`Transacted.serial`).
-/

namespace Choam

open ByteString Overlay Interleave

variable {H : Host} {C : H.Contract} {P : Promises} {u : Unicode}

/-! ## What a statement looks up -/

/-- The filter by which a statement picks its rows; an INSERT picks none. -/
def Statement.filter? : Statement → Option (Option Expr)
  | .select _ _ filter _ _ => some filter
  | .update _ _ filter => some filter
  | .delete _ filter => some filter
  | _ => none

/-- The primary key to which a statement pins its rows. -/
def Statement.pinned (schema : Schema) (stmt : Statement) : Option Value :=
  stmt.filter?.join.bind (findKey schema)

/-- The statement picks its rows by a primary key, if it picks any. -/
def Statement.IsPoint (schema : Schema) (stmt : Statement) : Prop :=
  stmt.filter?.isSome → (stmt.pinned schema).isSome

/-- The statement looks the row with this primary key up. -/
def Statement.LooksUp (E : Type) (schema : Schema) (stmt : Statement) (pk : Value) : Prop :=
  stmt.pinned schema = some pk ∨ ∃ table columns rows, stmt = .insert table columns rows ∧
    ∃ exprs ∈ rows, insertedKey E schema columns exprs = some pk

/-- A filter that compares the primary key with a constant pins it. -/
theorem pinned_of_eq {schema : Schema} {stmt : Statement} {e : Expr} {v : Value}
    (hfilter : stmt.filter? = some (some (.binary (.column schema.pkColumn.name) .eq e)))
    (hv : (eval e none : Except (ExecError Empty) _) = .ok v)
    (htype : lookupType v schema.primaryKeyType = true) : stmt.pinned schema = some v := by
  rw [Statement.pinned, hfilter]
  exact findKey_eq.mpr ⟨e, by simp [otherOperand], hv, htype⟩

/-! ## Programs that read what they look up -/

/-- A lookup of the table's entry finds `th`. -/
def Finds (table : String) (th : TableHandle) : Answers
  | .get k, r => catalogTableKey table = some k → ∀ bytes, r = some bytes →
      decodeTableEntry bytes = .ok (th.tableId, th.schema)
  | _, _ => True

/-- Operations that look the table up, and read rows under certain keys only. -/
def PointOp (table : String) (reads : Bytes → Prop) : RowOp → Prop
  | .get k => catalogTableKey table = some k
  | .read k => reads k
  | .scan _ => False
  | .put _ _ => True
  | .delete _ => True

/-- The program reads rows of the table `th` under certain keys only. -/
def RowM.Points {ε α : Type} (table : String) (th : TableHandle) (reads : Bytes → Prop)
    (m : RowM ε α) (Q : α → Prop) : Prop :=
  m.Guarantees (Finds table th) (PointOp table reads) Q fun _ => True

section Points

variable {E ε ε' α β : Type} {table : String} {th : TableHandle} {reads : Bytes → Prop}

theorem RowM.Points.bind {m : RowM ε α} {f : α → RowM ε β} {Q : α → Prop} {R : β → Prop}
    (h : m.Points table th reads Q) (hf : ∀ a, Q a → (f a).Points table th reads R) :
    (m >>= f).Points table th reads R :=
  RowM.Guarantees.bind h hf

theorem RowM.Points.adapt {f : ε → ε'} {m : RowM ε α} {Q : α → Prop}
    (h : m.Points table th reads Q) : RowM.Points table th reads (ExceptT.adapt f m) Q :=
  RowM.Guarantees.adapt (F := fun _ => True) h

theorem points_ofExcept {f : ε' → ε} {r : Except ε' α} :
    (RowM.ofExcept f r).Points table th reads fun a => r = .ok a :=
  RowM.guarantees_ofExcept (fun _ h => h) fun _ _ => trivial

theorem points_getTable : RowM.Points table th reads (Database.getTable (E := E) table)
    fun o => ∀ h, o = some h → h = th := by
  refine RowM.Points.adapt ?_
  unfold Catalog.getTable
  cases hk : catalogTableKey table with
  | none => exact fun h hh => by cases hh
  | some k =>
    refine RowM.Points.bind (Q := fun r => ∀ bytes, r = some bytes →
      decodeTableEntry bytes = .ok (th.tableId, th.schema)) ⟨hk, fun r hr => hr hk⟩ fun r hr => ?_
    cases r with
    | none => exact fun h hh => by cases hh
    | some bytes =>
      dsimp only
      rw [hr bytes rfl]
      intro h hh
      cases hh
      rfl

theorem points_tableHandle : RowM.Points table th reads (Database.tableHandle (E := E) table)
    (· = th) := by
  refine RowM.Points.bind points_getTable fun o ho => ?_
  cases o with
  | none => exact trivial
  | some h => exact ho h rfl

theorem points_schemaOf : RowM.Points table th reads (schemaOf (E := E) table)
    (· = th.schema) := by
  refine RowM.Points.bind points_getTable.adapt fun o ho => ?_
  cases o with
  | none => exact trivial
  | some h => exact congrArg _ (ho h rfl)

theorem points_read {pk : Value}
    (hreads : ∀ k, rowKey th.tableId pk th.schema.primaryKeyType = .ok k → reads k) :
    RowM.Points table th reads (RelTransaction.read (E := E) table pk) fun _ => True := by
  refine RowM.Points.bind points_tableHandle fun h hh => ?_
  subst hh
  refine RowM.Points.bind points_ofExcept fun k hk => ?_
  refine RowM.Points.bind (Q := fun _ => True)
    (RowM.guarantees_read (hreads k hk) fun _ _ => trivial) fun r _ => ?_
  cases r with
  | none => exact trivial
  | some bytes => exact RowM.Points.bind points_ofExcept fun _ _ => trivial

theorem points_write {values : Row} :
    RowM.Points table th reads (RelTransaction.write (E := E) table values) fun _ => True := by
  refine RowM.Points.bind points_tableHandle fun h _ => ?_
  cases values[h.schema.primaryKey]? with
  | none => exact trivial
  | some pk =>
    exact RowM.Points.bind points_ofExcept fun k _ =>
      RowM.Points.bind points_ofExcept fun bs _ => RowM.guarantees_put trivial trivial

theorem points_delete {pk : Value} :
    RowM.Points table th reads (RelTransaction.delete (E := E) table pk) fun _ => True :=
  RowM.Points.bind points_tableHandle fun _ _ => RowM.Points.bind points_ofExcept fun _ _ =>
    RowM.guarantees_delete trivial trivial

/-- A pinned filter makes for one read. -/
theorem points_matchingRows {filter : Option Expr} {pk : Value}
    (hpk : filter.bind (findKey th.schema) = some pk)
    (hreads : ∀ k, rowKey th.tableId pk th.schema.primaryKeyType = .ok k → reads k) :
    RowM.Points table th reads (matchingRows (E := E) table th.schema filter) fun _ => True := by
  have hcandidates : RowM.Points table th reads (candidateRows (E := E) table th.schema filter)
      fun _ => True := by
    refine RowM.Points.bind points_ofExcept fun _ _ => ?_
    rw [accessPath, hpk]
    exact RowM.Points.bind (points_read hreads).adapt fun _ _ => trivial
  exact RowM.Points.bind hcandidates fun _ _ =>
    RowM.Guarantees.mono points_ofExcept (fun _ _ => trivial) fun _ _ => trivial

theorem points_insertRow {targets : List Nat} {exprs : List Expr}
    (hreads : ∀ values pk k, (fillRow (targets.zip exprs)
      (List.replicate th.schema.columns.length .null) : Except (ExecError E) _) = .ok values →
      values[th.schema.primaryKey]? = some pk →
      rowKey th.tableId pk th.schema.primaryKeyType = .ok k → reads k) :
    RowM.Points table th reads (insertRow (E := E) table th.schema targets exprs) fun _ => True := by
  unfold insertRow
  split
  · exact trivial
  refine RowM.Points.bind points_ofExcept fun values hvalues => ?_
  split
  · exact trivial
  · exact trivial
  next pk _ hpk =>
  refine RowM.Points.bind (points_read fun k hk => hreads values pk k hvalues hpk hk).adapt
    fun o _ => ?_
  cases o with
  | some _ => exact trivial
  | none => exact points_write.adapt

theorem points_insertRows {targets : List Nat} {rows : List (List Expr)}
    (hreads : ∀ exprs ∈ rows, ∀ values pk k, (fillRow (targets.zip exprs)
      (List.replicate th.schema.columns.length .null) : Except (ExecError E) _) = .ok values →
      values[th.schema.primaryKey]? = some pk →
      rowKey th.tableId pk th.schema.primaryKeyType = .ok k → reads k) :
    RowM.Points table th reads (insertRows (E := E) table th.schema targets rows) fun _ => True := by
  induction rows with
  | nil => exact trivial
  | cons exprs rows ih =>
    exact RowM.Points.bind (points_insertRow (hreads exprs List.mem_cons_self)) fun _ _ =>
      ih fun exprs' h => hreads exprs' (List.mem_cons_of_mem _ h)

theorem points_updateRows {targets : List (Nat × Expr)} {rows : List Row} :
    RowM.Points table th reads (updateRows (E := E) table th.schema targets rows) fun _ => True := by
  induction rows with
  | nil => exact trivial
  | cons old rows ih =>
    exact RowM.Points.bind points_ofExcept fun _ _ =>
      RowM.Points.bind points_write.adapt fun _ _ => ih

theorem points_deleteRows {rows : List Row} :
    RowM.Points table th reads (deleteRows (E := E) table th.schema rows) fun _ => True := by
  induction rows with
  | nil => exact trivial
  | cons row rows ih =>
    unfold deleteRows
    split
    · exact trivial
    · exact RowM.Points.bind points_delete.adapt fun _ _ => ih

/-- **A statement that pins the primary key reads the rows that it looks up, and no other.** -/
theorem points_run {stmt : Statement} (htable : stmt.table? = some table)
    (hpoint : stmt.IsPoint th.schema) (hreads : ∀ pk k, stmt.LooksUp E th.schema pk →
      rowKey th.tableId pk th.schema.primaryKeyType = .ok k → reads k) :
    RowM.Points table th reads (run (E := E) u stmt) fun _ => True := by
  have hmatching : ∀ filter, stmt.filter? = some filter →
      RowM.Points table th reads (matchingRows (E := E) table th.schema filter) fun _ => True := by
    intro filter hfilter
    obtain ⟨pk, hpk⟩ := Option.isSome_iff_exists.mp (hpoint (by rw [hfilter]; rfl))
    have hpin : filter.bind (findKey th.schema) = some pk := by
      rwa [Statement.pinned, hfilter] at hpk
    exact points_matchingRows hpin fun k => hreads pk k (.inl hpk)
  cases stmt with
  | insert name columns rows =>
    cases htable
    refine RowM.Points.bind points_schemaOf fun schema hschema => ?_
    subst hschema
    refine RowM.Points.bind points_ofExcept fun targets htargets => ?_
    refine RowM.Points.bind (points_insertRows fun exprs hexprs values pk k hvalues hpk hk => ?_)
      fun _ _ => trivial
    refine hreads pk k (.inr ⟨_, columns, rows, rfl, exprs, hexprs, ?_⟩) hk
    simp only [insertedKey, htargets, hvalues, hpk]
  | select projection name filter orderBy limit =>
    cases htable
    refine RowM.Points.bind points_schemaOf fun schema hschema => ?_
    subst hschema
    exact RowM.Points.bind points_ofExcept fun _ _ => RowM.Points.bind points_ofExcept fun _ _ =>
      RowM.Points.bind (hmatching filter rfl) fun _ _ => trivial
  | update name assignments filter =>
    cases htable
    refine RowM.Points.bind points_schemaOf fun schema hschema => ?_
    subst hschema
    exact RowM.Points.bind points_ofExcept fun _ _ => RowM.Points.bind (hmatching filter rfl)
      fun _ _ => RowM.Points.bind points_updateRows fun _ _ => trivial
  | delete name filter =>
    cases htable
    refine RowM.Points.bind points_schemaOf fun schema hschema => ?_
    subst hschema
    exact RowM.Points.bind (hmatching filter rfl) fun _ _ =>
      RowM.Points.bind points_deleteRows fun _ _ => trivial
  | createTable | begin | commit | rollback => cases htable

/-- **What such a program does depends on its table and on these rows only**, and it writes the
same. -/
theorem RowM.Points.exec_congr {m : RowM ε α} {Q : α → Prop} (h : m.Points table th reads Q)
    {s s' : H.Store} {t t' : H.Txn}
    (hlookup : lookupTable (C.committed s) table = .ok (some th))
    (hcat : ∀ k, catalogTableKey table = some k → C.committed s k = C.committed s' k)
    (hreads : ∀ k, reads k → C.view t k = C.view t' k) (hwrites : C.writes t = C.writes t') :
    (m.exec s t).1 = (m.exec s' t').1 ∧
      (∀ k, reads k → C.view (m.exec s t).2 k = C.view (m.exec s' t').2 k) ∧
      C.writes (m.exec s t).2 = C.writes (m.exec s' t').2 := by
  obtain ⟨key, bytes, hkey, hbytes, hdecode⟩ := lookupTable_eq_some.mp hlookup
  have halong : (ExceptT.run m).Along (RowOp.step s) (fun o _ => PointOp table reads o) t := by
    refine (Prog.Ensures.run (I := fun _ : H.Txn => True) (fun o t ho _ => ⟨?_, trivial⟩) h
      trivial).2.2
    cases o with
    | get k =>
      intro hk bytes' hbytes'
      rw [hkey] at hk
      cases hk
      have hget : H.get s key = some bytes' := hbytes'
      rw [C.get_committed, hbytes] at hget
      cases hget
      exact hdecode
    | read | scan | put | delete => exact trivial
  refine Prog.run_sim (R := fun t t' => (∀ k, reads k → C.view t k = C.view t' k) ∧
    C.writes t = C.writes t') (fun o t t' ho hR => ?_) halong ⟨hreads, hwrites⟩
  obtain ⟨hview, hwrites⟩ := hR
  cases o with
  | get k =>
    exact ⟨(C.get_committed s k).trans ((hcat k ho).trans (C.get_committed s' k).symm),
      hview, hwrites⟩
  | read k => exact ⟨by simp only [RowOp.step, C.read_view, hview k ho], hview, hwrites⟩
  | scan p => cases ho
  | put k v =>
    refine ⟨rfl, fun k' hk' => ?_, by simp only [RowOp.step, C.writes_put, hwrites]⟩
    simp only [RowOp.step, C.view_put, Function.update_apply, hview k' hk']
  | delete k =>
    refine ⟨rfl, fun k' hk' => ?_, by simp only [RowOp.step, C.writes_delete, hwrites]⟩
    simp only [RowOp.step, C.view_delete, Function.update_apply, hview k' hk']

end Points

/-! ## A transaction that might as well have begun later -/

theorem EntriesPersist.entry_eq {c c' : Contents Bytes Bytes} (hp : EntriesPersist c c')
    {table : String} {th : TableHandle} (h : lookupTable c table = .ok (some th)) {k : Bytes}
    (hk : catalogTableKey table = some k) : c' k = c k := by
  obtain ⟨k', bytes, hk', hbytes, -⟩ := lookupTable_eq_some.mp h
  rw [hk] at hk'
  cases hk'
  rw [hbytes, hp table k bytes hk hbytes]

/-- What a call looks up in the tables of `c` is under the keys `rows`. -/
def PointsAt (u : Unicode) (c : Contents Bytes Bytes) (rows : Bytes → Prop)
    (d : (system H u).Done) : Prop :=
  ∀ x table, rowReply u d.call d.reply = some x → x.1.table? = some table → ∃ th,
    lookupTable c table = .ok (some th) ∧ x.1.IsPoint th.schema ∧
    ∀ pk k, x.1.pinned th.schema = some pk →
      rowKey th.tableId pk th.schema.primaryKeyType = .ok k → rows k

/-- **A transaction does what it would do on a later store**, if that has the rows that it looks up
and writes as they were at its beginning. -/
theorem Transacted.serial {base later : H.Store} {ops : List (system H u).Done} {self : Session H}
    (h : Transacted u base ops self) (hfollow : Follow C base (accesses ops))
    (hlater : EntriesPersist (C.committed base) (C.committed later)) {rows : Bytes → Prop}
    (hrows : ∀ k, rows k → C.committed base k = C.committed later k)
    (hpoint : ∀ o ∈ ops, PointsAt u (C.committed base) rows o) :
    ∀ t, self = ⟨some t, false⟩ → (∀ k, C.writes t k ≠ none → rows k) → ∃ t', BegunOn C later t' ∧
      (∀ k, rows k → C.view t k = C.view t' k) ∧ C.writes t = C.writes t' ∧
      Effects C u (C.committed later) (rowReplies u (ops.map fun o => (o.call, o.reply)))
        (C.view t') := by
  induction h with
  | begin =>
    intro t ht hwritten
    cases ht
    refine ⟨(H.begin later).1, .begin later, fun k hk => ?_, by simp, C.view_begin later⟩
    rw [C.view_begin, C.view_begin, hrows k hk]
  | @step ops t₀ failed d self h hstart hfinish hd ih =>
    intro t ht hwritten
    rw [accesses_append, accesses_cons, accesses_nil, List.append_nil] at hfollow
    obtain ⟨hfollow, hown⟩ := hfollow.append
    have ih := ih hfollow fun o ho => hpoint o (by simp [ho])
    rw [List.map_append, List.map_singleton, rowReplies_concat]
    cases hd with
    | same hrow =>
      cases ht
      have hnone : rowReply u d.call d.reply = none := by
        by_contra hsome
        obtain ⟨x, hx⟩ := Option.ne_none_iff_exists'.mp hsome
        obtain ⟨stmt, table, hstmt, htable, -⟩ := rowReply_eq_some.mp hx
        cases (hrow stmt table hstmt htable).1
      rw [hnone]
      simpa using ih t₀ rfl hwritten
    | @ran stmt table r t₁ hfailed hstmt htable hreply hleads =>
      subst hfailed
      injection ht with ht hok
      cases ht
      have hsome : rowReply u d.call d.reply = some (stmt, r) :=
        rowReply_eq_some.mpr ⟨stmt, table, hstmt, htable, rfl, hreply⟩
      rw [hsome]
      obtain ⟨t', hbegun, hview, hwrites, heffects⟩ := ih t₀ rfl fun k hk =>
        hwritten k (RowM.writes_onStore C hleads hk)
      obtain ⟨th, hlookup, hispoint, hpinned⟩ := hpoint d (by simp) _ table hsome htable
      -- The store that the statement met still has the table.
      have hmet : EntriesPersist (C.committed base) (C.committed (RowM.metFirst base d.seen)) := by
        cases hseen : d.seen with
        | nil => exact .refl _
        | cons a seen => exact hown.base a (by simp [hseen])
      have hexec := RowM.atomic (C := C) (RowM.startsOn_run htable) (RowM.looksUp_run htable) hleads
        base hown.pairwise
      have hreads : ∀ pk k, stmt.LooksUp H.StoreError th.schema pk →
          rowKey th.tableId pk th.schema.primaryKeyType = .ok k → rows k := by
        rintro pk k (hpin | ⟨name, columns, values, rfl, exprs, hexprs, hkey⟩) hk
        · exact hpinned pk k hpin hk
        · cases htable
          cases r with
          | error e => cases hok
          | ok q =>
            obtain ⟨th', hlookup', hinserted⟩ := exec_insert C hexec
            cases (hmet.lookup hlookup).symm.trans hlookup'
            obtain ⟨pk', k', hkey', hk', -, hput⟩ := hinserted exprs hexprs
            cases hkey.symm.trans hkey'
            cases hk.symm.trans hk'
            exact hwritten k hput
      have hcat : ∀ k, catalogTableKey table = some k →
          C.committed (RowM.metFirst base d.seen) k = C.committed later k := fun k hk =>
        (hmet.entry_eq hlookup hk).trans (hlater.entry_eq hlookup hk).symm
      obtain ⟨hsame, hview', hwrites'⟩ := (points_run (u := u) htable hispoint hreads).exec_congr
        (hmet.lookup hlookup) hcat hview hwrites
      rw [hexec] at hsame hview' hwrites'
      obtain ⟨hsnap, hcatalog⟩ := (RowM.looksUp_run (u := u) (E := H.StoreError) htable).exec_writes C
        later t'
      refine ⟨_, ⟨hsnap.trans hbegun.snapshot, fun k hk =>
        (hcatalog k hk).trans (hbegun.rowKeys k hk)⟩, hview', hwrites', heffects.concat ?_⟩
      exact ⟨later, t', ((run u stmt).exec later t').2,
        fun k hk => (hbegun.view_of_not_isRowKey hk).symm, rfl, Prod.ext hsame.symm rfl, rfl⟩

/-! ## Every interleaving -/

/-- Transactions run one after another, with the replies to their statements on rows. -/
def Serially (C : H.Contract) (u : Unicode) :
    Contents Bytes Bytes → List (List (Statement × Session.Reply H)) → Contents Bytes Bytes → Prop
  | c, [], c' => c' = c
  | c, l :: rest, c' => ∃ m, Effects C u c l m ∧ Serially C u m rest c'

theorem Serially.concat {c c' c'' : Contents Bytes Bytes}
    {rest : List (List (Statement × Session.Reply H))} {l : List (Statement × Session.Reply H)}
    (h : Serially C u c rest c') (hlast : Effects C u c' l c'') :
    Serially C u c (rest ++ [l]) c'' := by
  induction rest generalizing c with
  | nil =>
    obtain rfl : c' = c := h
    exact ⟨c'', hlast, rfl⟩
  | cons x rest ih =>
    obtain ⟨m, hfirst, hrest⟩ := h
    exact ⟨m, hfirst, ih hrest⟩

/-- The statements have one serial run. -/
theorem Serially.unique {c c' c'' : Contents Bytes Bytes}
    {ls ls' : List (List (Statement × Session.Reply H))}
    (hrows : ∀ l ∈ ls, ∀ x ∈ l, ∃ table, x.1.table? = some table)
    (hsame : ls.map (·.map (·.1)) = ls'.map (·.map (·.1)))
    (h : Serially C u c ls c') (h' : Serially C u c ls' c'') : ls = ls' ∧ c' = c'' := by
  induction ls generalizing c ls' with
  | nil =>
    obtain rfl : ls' = [] := by simpa using hsame.symm
    exact ⟨rfl, Eq.trans h (Eq.symm h')⟩
  | cons l ls ih =>
    cases ls' with
    | nil => cases hsame
    | cons l' ls' =>
      obtain ⟨hstmts, hrest⟩ := List.cons.inj hsame
      obtain ⟨m, hfirst, htail⟩ := h
      obtain ⟨m', hfirst', htail'⟩ := h'
      obtain ⟨rfl, rfl⟩ := hfirst.unique (hrows l (by simp)) hstmts hfirst'
      obtain ⟨rfl, rfl⟩ := ih (fun l hl => hrows l (by simp [hl])) hrest htail htail'
      exact ⟨rfl, rfl⟩

/-- What every one of the transactions preserves. -/
theorem Serially.preserves {α : Type*} (f : Contents Bytes Bytes → α) {c c' : Contents Bytes Bytes}
    {ls : List (List (Statement × Session.Reply H))} (h : Serially C u c ls c')
    (hf : ∀ l ∈ ls, ∀ c c', Effects C u c l c' → f c' = f c) : f c' = f c := by
  induction ls generalizing c with
  | nil =>
    obtain rfl : c' = c := h
    rfl
  | cons l ls ih =>
    obtain ⟨m, hfirst, hrest⟩ := h
    exact (ih hrest fun l hl => hf l (by simp [hl])).trans (hf l (by simp) _ _ hfirst)

section Reachable

variable {ι : Type} [DecidableEq ι] {allow : Call → Local H → Prop} {s₀ : H.Store}
  {l₀ : ι → Local H} {g : (system H u).Config ι}

/-- The statements on rows of the open transaction of the session that an access is of, with their
replies. -/
def statementsOf (u : Unicode) (e : (system H u).Entry ι) : List (Statement × Session.Reply H) :=
  rowReplies u (((sinceBegin u e.past).getD []).map fun o => (o.call, o.reply))

/-- The transactions that have been committed, in the order of their commits. -/
def transactions (u : Unicode) (log : List ((system H u).Entry ι)) :
    List (List (Statement × Session.Reply H)) :=
  (log.filter fun e => (committedTxn e.access).isSome).map (statementsOf u)

/-- The statements on rows of the call pick them by primary key, in tables of `c`. -/
def Call.IsPoint (u : Unicode) (c : Contents Bytes Bytes) (call : Call) : Prop :=
  ∀ stmt table, call.statement u = some stmt → stmt.table? = some table →
    ∃ th, lookupTable c table = .ok (some th) ∧ stmt.IsPoint th.schema

/-- The transaction `t`, which an access commits, has written or deleted every row of the tables of
`c` that it has looked up. -/
def WritesLookups (C : H.Contract) (u : Unicode) (c : Contents Bytes Bytes)
    (e : (system H u).Entry ι) (t : H.Txn) : Prop :=
  ∀ x ∈ statementsOf u e, ∀ table th pk k, x.1.table? = some table →
    lookupTable c table = .ok (some th) → x.1.pinned th.schema = some pk →
    rowKey th.tableId pk th.schema.primaryKeyType = .ok k → C.writes t k ≠ none

/-- A transaction does what it would have done right before its commit. -/
theorem serial_of_entry (hlog : Logged allow s₀ l₀ g) (hgood : (protocol C P u).Good s₀ g)
    (hl₀ : ∀ i, (l₀ i).Idle) (hallow : ∀ c l, allow c l → c.IsPoint u (C.committed s₀))
    {earlier later : List ((system H u).Entry ι)} {e : (system H u).Entry ι}
    (he : g.log = earlier ++ e :: later) {t : H.Txn} (ht : committedTxn e.access = some t)
    (hcommit : e.call.statement u = some .commit)
    (hwritten : WritesLookups C u (C.committed s₀) e t) :
    Effects C u (C.committed e.access.before) (statementsOf u e)
      ((C.writes t).apply (C.committed e.access.before)) := by
  have hrem := Remembers.of_entry hlog he
  obtain ⟨hstart, hseen⟩ : e.start = .session ⟨some t, false⟩ ∧ e.seen = [] := by
    cases committing_of_entry (C := C) hlog he ht with
    | session _ hlocal hseen => exact ⟨hlocal, hseen⟩
    | autocommit _ hcall htable =>
      rw [hcommit] at hcall
      cases hcall
      cases htable
    | handle hcall =>
      rw [hcall] at hcommit
      cases hcommit
    | create hcall =>
      rcases hcall with ⟨name, columns, pk, hcall⟩ | ⟨name, columns, hcall⟩
      · rw [hcall] at hcommit
        cases hcommit
      · rw [hcommit] at hcall
        cases hcall
  cases hops : sinceBegin u e.past with
  | none => cases hrem.no_txn (hl₀ e.who) hops hstart
  | some ops =>
  obtain ⟨before, b, base, self, hpast, hbegin, hlocal, htrans⟩ :=
    hrem.transacted (hl₀ e.who).sane hops
  rw [hstart] at hlocal
  cases hlocal
  have hbegun : BegunOn C base t := htrans.begunOn t rfl
  obtain ⟨earlier', since, hbegan⟩ : ∃ earlier' since,
      Began u s₀ earlier e.who base (accesses ops) earlier' since := by
    refine exists_began hlog he (show accessesOf earlier e.who =
      accesses before ++ _ :: accesses ops from ?_)
    rw [(hlog.entry earlier e later he).own, hseen, hpast, accesses_append, accesses_cons, hbegin]
    simp
  have hunwritten : ∀ k, C.writes t k ≠ none →
      C.committed base k = C.committed e.access.before k := fun k hk =>
    (hbegan.unwritten hlog hgood he ht hbegun.snapshot hk).2.symm
  have hfirst : EntriesPersist (C.committed s₀) (C.committed base) := by
    obtain ⟨b', hb', -, haccess⟩ := hbegan.log
    have hrely := (hgood.since b' (by simp [he, hb'])).1
    rw [haccess] at hrely
    exact hrely.entries
  have hpair := ordered_entry hgood hlog he
  rw [hpast, hseen, accesses_append, accesses_cons, hbegin, List.append_nil, List.append_assoc,
    List.singleton_append, List.cons_append] at hpair
  have hfollow := follow_of_pairwise hpair
  have hstatements : statementsOf u e = rowReplies u (ops.map fun o => (o.call, o.reply)) := by
    rw [statementsOf, hops]
    rfl
  have hpoint : ∀ o ∈ ops, PointsAt u (C.committed base) (fun k => C.writes t k ≠ none) o := by
    intro o ho x table hx htable
    obtain ⟨stmt, table', hstmt, htable', rfl, -⟩ := rowReply_eq_some.mp hx
    have hallowed := (hrem.returned o (by simp [hpast, ho])).allowed
    obtain ⟨th, hlookup, hispoint⟩ := hallow _ _ hallowed _ table hstmt htable
    refine ⟨th, hfirst.lookup hlookup, hispoint, fun pk k hpk hk => ?_⟩
    refine hwritten x ?_ table th pk k htable hlookup hpk hk
    rw [hstatements]
    exact List.mem_filterMap.mpr ⟨_, List.mem_map_of_mem ho, hx⟩
  obtain ⟨t', hbegun', -, hwrites, heffects⟩ := htrans.serial hfollow.append.1
    (hfollow.base _ (by simp)) hunwritten hpoint t rfl fun _ hk => hk
  rw [hbegun'.view_eq, ← hwrites] at heffects
  rwa [hstatements]

/-- **Transactions that write what they look up are serializable**, in the order of their commits.
In every interleaving of any number of clients whose statements on rows pick them by primary key, in
tables that exist, and that commit with COMMIT: the transactions committed, run alone one after
another on what was there at first, give the same replies and end in what is committed; no other
replies and no other end are possible. So what each of them preserves when it runs alone, all of
them preserve together. -/
theorem serializable (hs₀ : Grown C u s₀) (hl₀ : ∀ i, (l₀ i).Idle)
    (hallow : ∀ c l, allow c l → c.IsPoint u (C.committed s₀))
    (hg : Reachable allow (start s₀ l₀) g)
    (hcommit : ∀ e ∈ g.log, ∀ t, committedTxn e.access = some t →
      e.call.statement u = some .commit ∧ WritesLookups C u (C.committed s₀) e t) :
    Serially C u (C.committed s₀) (transactions u g.log) (C.committed g.shared) ∧
    (∀ ls c, ls.map (·.map (·.1)) = (transactions u g.log).map (·.map (·.1)) →
      Serially C u (C.committed s₀) ls c → ls = transactions u g.log ∧ c = C.committed g.shared) ∧
    ∀ (α : Type) (f : Contents Bytes Bytes → α),
      (∀ l ∈ transactions u g.log, ∀ c c', Effects C u c l c' → f c' = f c) →
      f (C.committed g.shared) = f (C.committed s₀) := by
  have hlog := hg.logged
  have hgood : (protocol C unpromised u).Good s₀ g :=
    good_of_reachable (fun c _ _ => within_unpromised c) hs₀.sound hl₀ hg
  have hserial : ∀ earlier later, g.log = earlier ++ later →
      Serially C u (C.committed s₀) (transactions u earlier) (C.committed (replayLog s₀ earlier)) := by
    intro earlier
    induction earlier using List.reverseRecOn with
    | nil => exact fun _ _ => rfl
    | append_singleton earlier e ih =>
      intro later h
      have he : g.log = earlier ++ e :: later := by simpa using h
      have ih := ih _ he
      have hbefore := (hlog.entry earlier e later he).before
      cases ht : committedTxn e.access with
      | none =>
        have hsame : C.committed (replayLog s₀ (earlier ++ [e])) =
            C.committed (replayLog s₀ earlier) := by
          rw [committed_replayLog hlog hgood h, committed_replayLog hlog hgood he]
          simp [commits, ht]
        have hlist : transactions u (earlier ++ [e]) = transactions u earlier := by
          simp [transactions, ht]
        rwa [hsame, hlist]
      | some t =>
        obtain ⟨hcall, hwritten⟩ := hcommit e (by simp [he]) t ht
        have hafter : C.committed (replayLog s₀ (earlier ++ [e])) =
            (C.writes t).apply (C.committed e.access.before) := by
          rw [committed_replayLog hlog hgood h, hbefore, committed_replayLog hlog hgood he]
          simp [commits, ht, applyAll]
        have hlist : transactions u (earlier ++ [e]) = transactions u earlier ++ [statementsOf u e] := by
          simp [transactions, ht]
        rw [hafter, hlist]
        rw [← hbefore] at ih
        exact ih.concat (serial_of_entry hlog hgood hl₀ hallow he ht hcall hwritten)
  have hall := hserial g.log [] (List.append_nil _).symm
  rw [← hlog.shared] at hall
  refine ⟨hall, fun ls c hsame h => ?_, fun α f hf => hall.preserves f hf⟩
  have hrows : ∀ l ∈ transactions u g.log, ∀ x ∈ l, ∃ table, x.1.table? = some table := by
    intro l hl x hx
    obtain ⟨e, -, rfl⟩ := List.mem_map.mp hl
    obtain ⟨y, -, hy⟩ := List.mem_filterMap.mp hx
    obtain ⟨stmt, table, -, htable, rfl, -⟩ := rowReply_eq_some.mp hy
    exact ⟨table, htable⟩
  obtain ⟨hlist, hend⟩ := hall.unique hrows hsame.symm h
  exact ⟨hlist.symm, hend.symm⟩

end Reachable

/-- k = n. -/
def keyIs (n : Int64) : Option Expr :=
  some (.binary (.column "k") .eq (.literal (.integer n)))

/-- One session updates a row while another deletes a second one and commits first. -/
def crossingCalls : List (ℕ × Call) :=
  [(1, .executeStatement .begin), (2, .executeStatement .begin),
    (1, .executeStatement (.update "a" [("v", .literal (.text "y"))] (keyIs 7))),
    (2, .executeStatement (.delete "a" (keyIs 8))), (2, .executeStatement .commit),
    (1, .executeStatement .commit)]

theorem serializable_sample :
    let g : (system (Reference.host true) .ascii).Config ℕ :=
      solos (start sampleStore newSessions) crossingCalls
    (transactions .ascii g.log).length = 2 ∧
      Serially (Reference.contract true) .ascii ((Reference.contract true).committed sampleStore)
        (transactions .ascii g.log) ((Reference.contract true).committed g.shared) := by
  intro g
  have hlookup : lookupTable ((Reference.contract true).committed sampleStore) "a" =
      .ok (some sampleTable) := by decide +kernel
  have hgrown : Grown (Reference.contract true) .ascii sampleStore :=
    ⟨[], newSessions, _, rfl, idle_newSessions, reachable_sampleRun fun _ _ _ => trivial, rfl⟩
  have hg : Reachable (fun (c : Call) _ => c.IsPoint .ascii
      ((Reference.contract true).committed sampleStore)) (start sampleStore newSessions) g := by
    refine reachable_solos _ fun c hc _ => ?_
    simp only [crossingCalls, List.mem_cons, List.not_mem_nil, or_false] at hc
    rcases hc with rfl | rfl | rfl | rfl | rfl | rfl <;> rintro stmt table ⟨⟩ ⟨⟩
    · exact ⟨sampleTable, hlookup, fun _ =>
        Option.isSome_iff_exists.mpr ⟨_, pinned_of_eq (e := .literal (.integer 7)) rfl rfl rfl⟩⟩
    · exact ⟨sampleTable, hlookup, fun _ =>
        Option.isSome_iff_exists.mpr ⟨_, pinned_of_eq (e := .literal (.integer 8)) rfl rfl rfl⟩⟩
  have hall : g.log.all (fun e => (committedTxn e.access).all fun t =>
      decide (e.call.statement .ascii = some .commit) && (statementsOf .ascii e).all fun x =>
        decide (x.1.table? = some "a") && (x.1.pinned sampleTable.schema).all fun pk =>
          (rowKey 0 pk .integer).toOption.all fun k =>
            ((Reference.contract true).writes t k).isSome) = true := by decide +kernel
  refine ⟨by decide +kernel, (serializable (C := Reference.contract true) hgrown idle_newSessions
    (fun _ _ h => h) hg fun e he t ht => ?_).1⟩
  have hone := List.all_eq_true.mp hall e he
  rw [ht, Option.all_some, Bool.and_eq_true, decide_eq_true_eq] at hone
  refine ⟨hone.1, fun x hx table th pk k htable hth hpin hk => ?_⟩
  have hrow := List.all_eq_true.mp hone.2 x hx
  rw [Bool.and_eq_true, decide_eq_true_eq] at hrow
  cases hrow.1.symm.trans htable
  cases hlookup.symm.trans hth
  have hlast := hrow.2
  have hkey : (rowKey 0 pk .integer).toOption = some k := Except.toOption_eq_some.mpr hk
  rw [hpin, Option.all_some, hkey, Option.all_some] at hlast
  exact Option.isSome_iff_ne_none.mp hlast

end Choam

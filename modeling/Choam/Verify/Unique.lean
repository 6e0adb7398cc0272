import Choam.Verify.AccessPath
import Choam.Verify.FirstCommitter
import Choam.Verify.Snapshot

/-!
# Primary keys stay unique

An INSERT looks for the key in what its transaction sees, which is what was committed at its
beginning with its own writes laid over it; what others have committed since, it does not see. A
commit is refused when one of them has written the same key. Together: where a committed INSERT
lands, there was no row, unless its own transaction had deleted it.
-/

namespace Choam

open ByteString Overlay Interleave

variable {H : Host} {C : H.Contract} {P : Promises} {u : Unicode}

/-! ## What a transaction has written stays written -/

theorem RowOp.writes_step (C : H.Contract) (o : RowOp) (s : H.Store) (t : H.Txn) {k : Bytes}
    (h : C.writes t k ≠ none) : C.writes (o.step s t).2 k ≠ none := by
  cases o with
  | get | read | scan => exact h
  | put k' v =>
    show C.writes (H.put t k' v) k ≠ none
    by_cases hk : k = k'
    · simp [hk]
    · rwa [C.writes_put, Writes.set_of_ne _ hk]
  | delete k' =>
    show C.writes (H.delete t k') k ≠ none
    by_cases hk : k = k'
    · simp [hk]
    · rwa [C.writes_delete, Writes.set_of_ne _ hk]

theorem RowM.writes_exec (C : H.Contract) {ε α : Type} (m : RowM ε α) (s : H.Store) (t : H.Txn)
    {k : Bytes} (h : C.writes t k ≠ none) : C.writes (m.exec s t).2 k ≠ none :=
  have htrue : (ExceptT.run m).Ensures (fun _ _ => True) (fun _ => True) fun _ => True :=
    (ExceptT.run m).ensures_true
  (Prog.Ensures.run (I := fun t => C.writes t k ≠ none) (fun o t _ ht =>
    ⟨trivial, RowOp.writes_step C o s t ht⟩) htrue h).2.1

theorem RowM.writes_onStore (C : H.Contract) {ε α : Type} {m : RowM ε α} {t t' : H.Txn}
    {seen : List (system H u).Access} {r : Except ε α}
    (hleads : Leads (O := system H u) (m.onStore t) seen (.done (r, t'))) {k : Bytes}
    (h : C.writes t k ≠ none) : C.writes t' k ≠ none :=
  (RowM.steps_of_leads hleads).inv (I := fun t => C.writes t k ≠ none)
    (ExceptT.run m).ensures_true (fun o s t _ ht => RowOp.writes_step C o s t ht) h

/-- What a call has written, its transaction has written at the end. -/
theorem Transacted.writes {base : H.Store} {ops₁ ops₂ : List (system H u).Done}
    {d : (system H u).Done} {self self' : Session H}
    (h : Transacted u base (ops₁ ++ d :: ops₂) self) (hfinish : d.finish = .session self')
    {t t' : H.Txn} (ht : self.txn = some t) (ht' : self'.txn = some t') {k : Bytes}
    (hk : C.writes t' k ≠ none) : C.writes t k ≠ none := by
  induction ops₂ using List.reverseRecOn generalizing self t with
  | nil =>
    obtain ⟨-, -, -, -, hlast, -⟩ := h.last
    cases hfinish.symm.trans hlast
    cases ht.symm.trans ht'
    exact hk
  | append_singleton ops₂ d' ih =>
    rw [← List.cons_append, ← List.append_assoc] at h
    obtain ⟨t₁, failed, hbefore, -, -, hd⟩ := h.last
    have hwritten := ih hbefore rfl
    cases hd with
    | same =>
      cases ht
      exact hwritten
    | ran _ _ _ _ hleads =>
      cases ht
      exact RowM.writes_onStore C hleads hwritten

/-! ## What an INSERT does -/

/-- The primary key of a row that an INSERT lists. -/
def insertedKey (E : Type) (schema : Schema) (columns : Option (List String)) (exprs : List Expr) :
    Option Value :=
  match (insertTargets schema columns : Except (ExecError E) _) with
  | .error _ => none
  | .ok targets =>
    match (fillRow (targets.zip exprs) (List.replicate schema.columns.length .null) :
      Except (ExecError E) _) with
    | .error _ => none
    | .ok values => values[schema.primaryKey]?

section Exec

variable {s : H.Store} {t t' : H.Txn} {table : String} {h : TableHandle}

/-- An INSERT of one row that succeeds finds nothing under its key, and writes there. -/
theorem exec_insertRow (hh : (tableAt (H.get s) table : Except (DbError H.StoreError) _) = .ok h)
    {targets : List Nat} {exprs : List Expr}
    (hexec : (insertRow table h.schema targets exprs : RowM (ExecError H.StoreError) _).exec s t =
      (.ok (), t')) : ∃ values pk k bs,
      (fillRow (targets.zip exprs) (List.replicate h.schema.columns.length .null) :
        Except (ExecError H.StoreError) _) = .ok values ∧ values[h.schema.primaryKey]? = some pk ∧
      rowKey h.tableId pk h.schema.primaryKeyType = .ok k ∧ H.read t k = none ∧
      t' = H.put t k bs := by
  unfold insertRow at hexec
  split at hexec
  · cases hexec
  rw [RowM.exec_bind, RowM.exec_ofExcept] at hexec
  cases hvalues : (fillRow (targets.zip exprs) (List.replicate h.schema.columns.length .null) :
      Except (ExecError H.StoreError) _) with
  | error e =>
    rw [hvalues] at hexec
    cases hexec
  | ok values =>
  rw [hvalues] at hexec
  dsimp only [Except.mapError_ok] at hexec
  split at hexec
  · cases hexec
  · cases hexec
  next pk _ hpk =>
  rw [RowM.exec_bind, RowM.exec_adapt, exec_read_of pk hh] at hexec
  cases hk : rowKey h.tableId pk h.schema.primaryKeyType with
  | error e =>
    rw [hk] at hexec
    cases hexec
  | ok k =>
  rw [hk] at hexec
  dsimp only at hexec
  cases hread : H.read t k with
  | some bytes =>
    rw [hread] at hexec
    dsimp only at hexec
    cases hdec : decodeRow h.schema bytes <;> rw [hdec] at hexec <;> cases hexec
  | none =>
  rw [hread] at hexec
  dsimp only [Except.mapError_ok] at hexec
  rw [RowM.exec_adapt, exec_write_eq values hh, hpk] at hexec
  dsimp only at hexec
  rw [hk] at hexec
  dsimp only at hexec
  cases hbs : encodeRow h.schema values with
  | error e =>
    rw [hbs] at hexec
    cases hexec
  | ok bs =>
    rw [hbs] at hexec
    cases hexec
    exact ⟨values, pk, k, bs, rfl, hpk, hk, hread, rfl⟩

/-- An INSERT that succeeds finds nothing under the keys of its rows, and writes there. -/
theorem exec_insertRows (C : H.Contract)
    (hh : (tableAt (H.get s) table : Except (DbError H.StoreError) _) = .ok h)
    {columns : Option (List String)} {targets : List Nat}
    (htargets : (insertTargets h.schema columns : Except (ExecError H.StoreError) _) = .ok targets)
    {rows : List (List Expr)}
    (hexec : (insertRows table h.schema targets rows : RowM (ExecError H.StoreError) _).exec s t =
      (.ok (), t')) : ∀ exprs ∈ rows, ∃ pk k,
      insertedKey H.StoreError h.schema columns exprs = some pk ∧
      rowKey h.tableId pk h.schema.primaryKeyType = .ok k ∧ C.view t k = none ∧
      C.writes t' k ≠ none := by
  induction rows generalizing t with
  | nil => exact nofun
  | cons exprs rows ih =>
    rw [insertRows, RowM.exec_bind] at hexec
    split at hexec
    next t₁ hfirst =>
      obtain ⟨values, pk, k, bs, hvalues, hpk, hk, hread, rfl⟩ := exec_insertRow hh hfirst
      intro exprs' hmem
      rcases List.mem_cons.mp hmem with rfl | hmem
      · refine ⟨pk, k, by simp [insertedKey, htargets, hvalues, hpk], hk, ?_, ?_⟩
        · rw [← C.read_view, hread]
        · have hlater := RowM.writes_exec C (insertRows table h.schema targets rows :
            RowM (ExecError H.StoreError) _) s (H.put t k bs) (k := k) (by simp)
          rwa [hexec] at hlater
      · obtain ⟨pk', k', hpk', hk', hview, hwrites⟩ := ih hexec exprs' hmem
        refine ⟨pk', k', hpk', hk', ?_, hwrites⟩
        rw [C.view_put, Function.update_apply] at hview
        split at hview
        · cases hview
        · exact hview
    · cases hexec

theorem exec_insert (C : H.Contract) {columns : Option (List String)} {rows : List (List Expr)}
    {r : QueryResult} (hexec : (run u (.insert table columns rows) :
      RowM (ExecError H.StoreError) _).exec s t = (.ok r, t')) : ∃ h,
      lookupTable (C.committed s) table = .ok (some h) ∧ ∀ exprs ∈ rows, ∃ pk k,
        insertedKey H.StoreError h.schema columns exprs = some pk ∧
        rowKey h.tableId pk h.schema.primaryKeyType = .ok k ∧ C.view t k = none ∧
        C.writes t' k ≠ none := by
  change (insert table columns rows : RowM (ExecError H.StoreError) _).exec s t = _ at hexec
  unfold insert at hexec
  rw [RowM.exec_bind, exec_schemaOf] at hexec
  cases hh : (tableAt (H.get s) table : Except (DbError H.StoreError) _) with
  | error e =>
    rw [hh] at hexec
    cases hexec
  | ok h =>
  rw [hh] at hexec
  dsimp only [Except.mapError_ok, Except.map_ok'] at hexec
  rw [RowM.exec_bind, RowM.exec_ofExcept] at hexec
  cases htargets : (insertTargets h.schema columns : Except (ExecError H.StoreError) _) with
  | error e =>
    rw [htargets] at hexec
    cases hexec
  | ok targets =>
  rw [htargets] at hexec
  dsimp only [Except.mapError_ok] at hexec
  rw [RowM.exec_bind] at hexec
  split at hexec
  next t₁ hrows =>
    cases hexec
    refine ⟨h, ?_, exec_insertRows C hh htargets hrows⟩
    rw [← tableAt_eq_ok (E := H.StoreError), ← hh]
    exact tableAt_congr fun k _ => (C.get_committed s k).symm
  · cases hexec

end Exec

/-! ## Transactions that commit -/

section Log

variable {ι : Type} {e : (system H u).Entry ι}

/-- The transaction that the access `e` commits began on the store `base`, has made the accesses
`own` since, and executed the statement, from `t` on, with success. -/
inductive Executed (u : Unicode) (e : (system H u).Entry ι) (base : H.Store)
    (own : List (system H u).Access) (stmt : Statement) (t : H.Txn) : Prop
  | explicit {before ops₁ ops₂ : List (system H u).Done} {b d : (system H u).Done}
      {r : QueryResult} (hcommit : e.call.statement u = some .commit)
      (hops : sinceBegin u e.past = some (ops₁ ++ d :: ops₂))
      (hpast : e.past = before ++ b :: (ops₁ ++ d :: ops₂))
      (hbegin : b.seen = [⟨base, .begin, (H.begin base).1⟩])
      (hown : accesses (ops₁ ++ d :: ops₂) = own) (hstmt : d.call.statement u = some stmt)
      (hstart : d.start = .session ⟨some t, false⟩) (hreply : d.reply = .result (.ok r))
  | autocommit (hstmt : e.call.statement u = some stmt)
      (hseen : e.seen = ⟨base, .begin, (H.begin base).1⟩ :: own) (ht : t = (H.begin base).1)

/-- Such a statement ran on a store whose tables are still there at the commit. -/
theorem exec_of_leads {t t' : H.Txn} {stmt : Statement} {table : String}
    (htable : stmt.table? = some table) {seen : List (system H u).Access} {a : (system H u).Access}
    {r : Session.Reply H} (hleads : Leads (O := system H u) ((run u stmt).onStore t) seen (.done (r, t')))
    (hpair : (seen ++ [a]).Pairwise fun a a' => Rely C P a.before a'.before) :
    ∃ s, (run u stmt).exec s t = (r, t') ∧ EntriesPersist (C.committed s) (C.committed a.before) := by
  obtain ⟨hseen, -, hlast⟩ := List.pairwise_append.mp hpair
  have hexec := RowM.atomic (C := C) (RowM.startsOn_run htable) (RowM.looksUp_run htable) hleads
    a.before (hseen.imp fun h => h.entries)
  refine ⟨_, hexec, ?_⟩
  cases seen with
  | nil => exact EntriesPersist.refl _
  | cons b seen => exact (hlast b List.mem_cons_self a List.mem_cons_self).entries

theorem sublist_accesses {d : (system H u).Done} {past : List (system H u).Done} (h : d ∈ past) :
    d.seen.Sublist (accesses past) := by
  obtain ⟨before, after, rfl⟩ := List.append_of_mem h
  rw [accesses_append, accesses_cons]
  exact (List.sublist_append_left _ _).trans (List.sublist_append_right _ _)

variable [DecidableEq ι] {allow : Call → Local H → Prop} {s₀ : H.Store} {l₀ : ι → Local H}
  {g : (system H u).Config ι}

/-- **The statement, its transaction and its commit.** -/
theorem Executed.facts (hlog : Logged allow s₀ l₀ g) (hgood : (protocol C P u).Good s₀ g)
    (hl₀ : ∀ i, (l₀ i).Idle) {earlier later : List ((system H u).Entry ι)}
    (he : g.log = earlier ++ e :: later) {tc : H.Txn} (htc : committedTxn e.access = some tc)
    {base : H.Store} {own : List (system H u).Access} {stmt : Statement} {table : String}
    (htable : stmt.table? = some table) {t : H.Txn} (h : Executed u e base own stmt t) :
    BegunOn C base t ∧ C.snapshot tc = C.history base ∧
      (∃ before since, Began u s₀ earlier e.who base own before since) ∧
      ∃ s r t', (run u stmt : RowM (ExecError H.StoreError) _).exec s t = (.ok r, t') ∧
        EntriesPersist (C.committed s) (C.committed e.access.before) ∧
        ∀ k, C.writes t' k ≠ none → C.writes tc k ≠ none := by
  have hcommitting := committing_of_entry (C := C) hlog he htc
  have hown := (hlog.entry earlier e later he).own
  have hpair := ordered_entry hgood hlog he
  cases h with
  | @explicit before ops₁ ops₂ b d r hcommit hops hpast hbegin hownd hstmt hstart hreply =>
    have hself : e.start = .session ⟨some tc, false⟩ ∧ e.seen = [] := by
      cases hcommitting with
      | session _ hlocal hseen => exact ⟨hlocal, hseen⟩
      | autocommit _ hcall htable' =>
        rw [hcommit] at hcall
        cases hcall
        cases htable'
      | handle hcall =>
        rw [hcall] at hcommit
        cases hcommit
      | create hcall =>
        rcases hcall with ⟨name, columns, pk, hcall⟩ | ⟨name, columns, hcall⟩
        · rw [hcall] at hcommit
          cases hcommit
        · rw [hcommit] at hcall
          cases hcall
    obtain ⟨hself, hseen⟩ := hself
    have hrem := Remembers.of_entry hlog he
    obtain ⟨before', b', base', self, hpast', hbegin', hlocal, htrans⟩ :=
      hrem.transacted (hl₀ e.who).sane hops
    obtain ⟨rfl, hb⟩ := List.append_inj' (hpast.symm.trans hpast') rfl
    cases hb
    rw [hbegin] at hbegin'
    cases hbegin'
    rw [hself] at hlocal
    cases hlocal
    obtain ⟨t₁, failed, self', hfirst, hstart', hfinish, hd⟩ := htrans.split
    rw [hstart] at hstart'
    cases hstart'
    have hbegun : BegunOn C base t := hfirst.begunOn t rfl
    refine ⟨hbegun, (htrans.begunOn tc rfl).snapshot, ?_, ?_⟩
    · refine exists_began hlog he (show accessesOf earlier e.who = accesses before ++ _ :: own from ?_)
      rw [hown, hseen, hpast, accesses_append, accesses_cons, hbegin, hownd]
      simp
    · cases hd with
      | same hrow => cases (hrow stmt table hstmt htable).1
      | @ran stmt' table' r' t' _ hstmt' htable' hreply' hleads =>
        rw [hstmt] at hstmt'
        cases hstmt'
        rw [hreply] at hreply'
        cases hreply'
        have hsub : (d.seen ++ [e.access]).Sublist (accesses e.past ++ e.seen ++ [e.access]) :=
          ((sublist_accesses (by simp [hpast])).trans (List.sublist_append_left _ _)).append
            (List.Sublist.refl _)
        obtain ⟨s, hexec, hpersist⟩ := exec_of_leads htable hleads (hpair.sublist hsub)
        exact ⟨s, r, t', hexec, hpersist, fun k hk => htrans.writes hfinish rfl rfl hk⟩
  | autocommit hstmt hseen ht =>
    subst ht
    refine ⟨.begin base, ?_⟩
    cases hcommitting with
    | session hcall =>
      rw [hstmt] at hcall
      cases hcall
      cases htable
    | handle hcall =>
      rw [hcall] at hstmt
      cases hstmt
    | create hcall =>
      rcases hcall with ⟨name, columns, pk, hcall⟩ | ⟨name, columns, hcall⟩
      · rw [hcall] at hstmt
        cases hstmt
      · rw [hstmt] at hcall
        cases hcall
        cases htable
    | @autocommit stmt' table' base' r rest reply hok hcall htable' hlocal hseen' hleads =>
      subst hok
      rw [hstmt] at hcall
      cases hcall
      rw [hseen] at hseen'
      cases hseen'
      have hbegun := (BegunOn.begin (C := C) base).onStore (RowM.looksUp_run htable) hleads
      have hsub : (own ++ [e.access]).Sublist (accesses e.past ++ e.seen ++ [e.access]) := by
        rw [hseen]
        exact ((List.sublist_cons_self _ _).trans (List.sublist_append_right _ _)).append
          (List.Sublist.refl _)
      obtain ⟨s, hexec, hpersist⟩ := exec_of_leads htable hleads (hpair.sublist hsub)
      refine ⟨hbegun.snapshot, ?_, s, r, tc, hexec, hpersist, fun _ hk => hk⟩
      refine exists_began hlog he (show accessesOf earlier e.who = accesses e.past ++ _ :: own from ?_)
      rw [hown, hseen]

/-- A committed INSERT of the row `exprs` has landed under the key `k`. -/
structure Lands (C : H.Contract) (s : H.Store) (table : String) (columns : Option (List String))
    (exprs : List Expr) (k : Bytes) : Prop where
  key : ∃ h pk, lookupTable (C.committed s) table = .ok (some h) ∧
    insertedKey H.StoreError h.schema columns exprs = some pk ∧
    rowKey h.tableId pk h.schema.primaryKeyType = .ok k

omit [DecidableEq ι] in
theorem Lands.unique {s : H.Store} {table : String} {columns : Option (List String)}
    {exprs : List Expr} {k k' : Bytes} (h : Lands C s table columns exprs k)
    (h' : Lands C s table columns exprs k') : k = k' := by
  obtain ⟨th, pk, hl, hpk, hk⟩ := h.key
  obtain ⟨th', pk', hl', hpk', hk'⟩ := h'.key
  cases hl.symm.trans hl'
  cases hpk.symm.trans hpk'
  exact Except.ok.inj (hk.symm.trans hk')

theorem Executed.lands (hlog : Logged allow s₀ l₀ g) (hgood : (protocol C P u).Good s₀ g)
    (hl₀ : ∀ i, (l₀ i).Idle) {earlier later : List ((system H u).Entry ι)}
    (he : g.log = earlier ++ e :: later) {tc : H.Txn} (htc : committedTxn e.access = some tc)
    {base : H.Store} {own : List (system H u).Access} {table : String}
    {columns : Option (List String)} {rows : List (List Expr)} {t : H.Txn}
    (h : Executed u e base own (.insert table columns rows) t) {exprs : List Expr}
    (hexprs : exprs ∈ rows) : ∃ k, Lands C e.access.before table columns exprs k ∧
      C.writes tc k ≠ none ∧
      (C.committed e.access.before k = none ∨ C.writes t k = some none) := by
  obtain ⟨hbegun, hsnap, ⟨before, since, hbegan⟩, s, r, t', hexec, hpersist, hwrites⟩ :=
    h.facts hlog hgood hl₀ he htc rfl
  obtain ⟨th, hlookup, hrows⟩ := exec_insert C hexec
  obtain ⟨pk, k, hpk, hk, hview, hwritten⟩ := hrows exprs hexprs
  have hcommitted := hwrites k hwritten
  refine ⟨k, ⟨th, pk, hpersist.lookup hlookup, hpk, hk⟩, hcommitted, ?_⟩
  obtain ⟨-, hsame⟩ := hbegan.unwritten hlog hgood he htc hsnap hcommitted
  rw [hbegun.view_eq] at hview
  cases hw : C.writes t k with
  | none =>
    rw [Writes.apply_of_none hw] at hview
    exact .inl (hsame.trans hview)
  | some v =>
    rw [Writes.apply_of_some hw] at hview
    exact .inr (congrArg some hview)

/-- A statement in autocommit mode has been executed where it commits. -/
theorem exists_executed (C : H.Contract) (hlog : Logged allow s₀ l₀ g)
    {earlier later : List ((system H u).Entry ι)} (he : g.log = earlier ++ e :: later) {tc : H.Txn}
    (htc : committedTxn e.access = some tc) {stmt : Statement} {table : String}
    (hstmt : e.call.statement u = some stmt) (htable : stmt.table? = some table) :
    ∃ base own, Executed u e base own stmt (H.begin base).1 := by
  cases committing_of_entry (C := C) hlog he htc with
  | session hcall =>
    cases hstmt.symm.trans hcall
    cases htable
  | handle hcall =>
    rw [hcall] at hstmt
    cases hstmt
  | create hcall =>
    rcases hcall with ⟨name, columns, pk, hcall⟩ | ⟨name, columns, hcall⟩
    · rw [hcall] at hstmt
      cases hstmt
    · cases hstmt.symm.trans hcall
      cases htable
  | autocommit hok hcall htable' hlocal hseen => exact ⟨_, _, .autocommit hstmt hseen rfl⟩

/-- **Primary keys stay unique**, in every interleaving of any number of clients: where a committed
INSERT lands, nothing was committed before, unless its own transaction had deleted it; and of two
committed INSERTs that land at one place, the second's transaction began after the first's commit. -/
theorem primary_keys_unique (hs₀ : Grown C u s₀) (hl₀ : ∀ i, (l₀ i).Idle)
    (hg : Reachable allow (start s₀ l₀) g) :
    (∀ earlier e later tc base own table columns rows t, g.log = earlier ++ e :: later →
      committedTxn e.access = some tc → Executed u e base own (.insert table columns rows) t →
      ∀ exprs ∈ rows, ∃ k, Lands C e.access.before table columns exprs k ∧
        (C.committed e.access.before k = none ∨ C.writes t k = some none)) ∧
    ∀ earlier e₁ mid e₂ later t₁ t₂ base₁ base₂ own₁ own₂ table columns₁ columns₂ rows₁ rows₂ u₁ u₂,
      g.log = earlier ++ e₁ :: (mid ++ e₂ :: later) →
      committedTxn e₁.access = some t₁ → committedTxn e₂.access = some t₂ →
      Executed u e₁ base₁ own₁ (.insert table columns₁ rows₁) u₁ →
      Executed u e₂ base₂ own₂ (.insert table columns₂ rows₂) u₂ →
      ∀ exprs₁ ∈ rows₁, ∀ exprs₂ ∈ rows₂, ∀ k, Lands C e₁.access.before table columns₁ exprs₁ k →
        Lands C e₂.access.before table columns₂ exprs₂ k →
        ∃ before since, Began u s₀ (earlier ++ e₁ :: mid) e₂.who base₂ own₂ before since ∧
          earlier ++ [e₁] <+: before := by
  have hlog := hg.logged
  have hgood : (protocol C unpromised u).Good s₀ g :=
    good_of_reachable (fun c _ _ => within_unpromised c) hs₀.sound hl₀ hg
  refine ⟨?_, ?_⟩
  · intro earlier e later tc base own table columns rows t he htc hexec exprs hexprs
    obtain ⟨k, hlands, -, hfree⟩ := hexec.lands hlog hgood hl₀ he htc hexprs
    exact ⟨k, hlands, hfree⟩
  · intro earlier e₁ mid e₂ later t₁ t₂ base₁ base₂ own₁ own₂ table columns₁ columns₂ rows₁ rows₂
      u₁ u₂ he ht₁ ht₂ hexec₁ hexec₂ exprs₁ hexprs₁ exprs₂ hexprs₂ k hlands₁ hlands₂
    have he₂ : g.log = earlier ++ e₁ :: mid ++ e₂ :: later := by simpa using he
    obtain ⟨k₁, hk₁, hwritten₁, -⟩ := hexec₁.lands hlog hgood hl₀ he ht₁ hexprs₁
    obtain ⟨k₂, hk₂, hwritten₂, -⟩ := hexec₂.lands hlog hgood hl₀ he₂ ht₂ hexprs₂
    obtain rfl := hlands₁.unique hk₁
    obtain rfl := hlands₂.unique hk₂
    obtain ⟨-, hsnap, ⟨before, since, hbegan⟩, -⟩ := hexec₂.facts hlog hgood hl₀ he₂ ht₂ rfl
    refine ⟨before, since, hbegan, ?_⟩
    obtain ⟨hfree, -⟩ := hbegan.unwritten hlog hgood he₂ ht₂ hsnap hwritten₂
    obtain ⟨b, hsplit, -, hbegin⟩ := hbegan.log
    have hne : e₁ ≠ b := by
      rintro rfl
      obtain ⟨s, hs⟩ := committedTxn_eq_some.mp ht₁
      rw [hbegin] at hs
      cases hs
    -- Otherwise the first commit would be one of those since the second transaction began.
    rcases List.append_eq_append_iff.mp hsplit with ⟨as, rfl, has⟩ | ⟨bs, rfl, hbs⟩
    · cases as with
      | nil => exact absurd (List.cons.inj has).1 hne
      | cons a as =>
        obtain ⟨rfl, -⟩ := List.cons.inj has
        exact ⟨as, by simp⟩
    · cases bs with
      | nil => exact absurd (List.cons.inj hbs).1.symm hne
      | cons a bs =>
        obtain ⟨rfl, rfl⟩ := List.cons.inj hbs
        exact absurd (hfree t₁ (by simp [commits, ht₁])) hwritten₁

end Log

/-- A row inserted by one session, deleted by another, and inserted again by a third. -/
def reinsertingRun : (system (Reference.host true) Unicode.ascii).Config ℕ :=
  sampleRun [(0, .executeStatement createSample), (1, .executeStatement (insertSample 7)),
    (0, .executeStatement (.delete "a" none)), (2, .executeStatement (insertSample 7))]

/-- The `n`th access of the run commits the INSERT of the row. -/
def CommitsInsert (n : ℕ) : Prop :=
  (reinsertingRun.log[n]?.map fun e => (e.call.statement .ascii, (committedTxn e.access).isSome,
      lookupTable ((Reference.contract true).committed e.access.before) "a")) =
    some (some (insertSample 7), true, .ok (some sampleTable))

theorem commitsInsert_first : CommitsInsert 14 := by
  unfold CommitsInsert
  decide +kernel

theorem commitsInsert_second : CommitsInsert 28 := by
  unfold CommitsInsert
  decide +kernel

theorem exists_split {α : Type} {l : List α} {n : ℕ} (h : n < l.length) :
    ∃ before a after, l = before ++ a :: after ∧ before.length = n :=
  ⟨l.take n, l[n], l.drop (n + 1), by simp, List.length_take_of_le h.le⟩

theorem reinsertingRun_log : ∃ earlier e₁ mid e₂ later,
    reinsertingRun.log = earlier ++ e₁ :: (mid ++ e₂ :: later) ∧
      earlier.length = 14 ∧ mid.length = 13 := by
  have hlen : reinsertingRun.log.length = 29 := by decide +kernel
  generalize reinsertingRun.log = log at hlen ⊢
  obtain ⟨earlier, e₁, rest, rfl, hfirst⟩ := exists_split (l := log) (n := 14) (by omega)
  rw [List.length_append, List.length_cons] at hlen
  obtain ⟨mid, e₂, later, rfl, hmid⟩ := exists_split (l := rest) (n := 13) (by omega)
  exact ⟨earlier, e₁, mid, e₂, later, rfl, hfirst, hmid⟩

theorem reachable_reinsertingRun : Reachable (fun _ _ => True)
    (start ([] : List Reference.WriteList) newSessions) reinsertingRun :=
  reachable_sampleRun fun _ _ _ => trivial

/-- There it lands under the key 7. -/
theorem CommitsInsert.lands {n : ℕ} (h : CommitsInsert n) {earlier later : List _}
    {e : (system (Reference.host true) .ascii).Entry ℕ}
    (he : reinsertingRun.log = earlier ++ e :: later) (hn : earlier.length = n) {k : Bytes}
    (hk : rowKey 0 (.integer 7) .integer = .ok k) :
    (∃ tc base own t, committedTxn e.access = some tc ∧
      Executed .ascii e base own (insertSample 7) t) ∧
    Lands (Reference.contract true) e.access.before "a" none
      [.literal (.integer 7), .literal (.text "x")] k := by
  have hget : reinsertingRun.log[n]? = some e := by
    rw [he, ← hn, List.getElem?_append_right le_rfl, Nat.sub_self]
    rfl
  rw [CommitsInsert, hget, Option.map_some, Option.some.injEq] at h
  obtain ⟨hstmt, h⟩ := Prod.mk.inj h
  obtain ⟨hsome, hlookup⟩ := Prod.mk.inj h
  obtain ⟨tc, htc⟩ := Option.isSome_iff_exists.mp hsome
  obtain ⟨base, own, hexec⟩ := exists_executed (Reference.contract true)
    reachable_reinsertingRun.logged he htc hstmt rfl
  exact ⟨⟨tc, base, own, _, htc, hexec⟩, ⟨sampleTable, .integer 7, hlookup, rfl, hk⟩⟩

theorem primary_keys_unique_sample : ∃ earlier e₁ mid e₂ later base own t k before since,
    reinsertingRun.log = earlier ++ e₁ :: (mid ++ e₂ :: later) ∧
    Lands (Reference.contract true) e₁.access.before "a" none
      [.literal (.integer 7), .literal (.text "x")] k ∧
    Lands (Reference.contract true) e₂.access.before "a" none
      [.literal (.integer 7), .literal (.text "x")] k ∧
    ((Reference.contract true).committed e₂.access.before k = none ∨
      (Reference.contract true).writes t k = some none) ∧
    Began .ascii [] (earlier ++ e₁ :: mid) e₂.who base own before since ∧
    earlier ++ [e₁] <+: before := by
  obtain ⟨earlier, e₁, mid, e₂, later, hlog, hlen, hmid⟩ := reinsertingRun_log
  obtain ⟨k, hk⟩ := (@rowKey_isOk 0 (.integer 7) .integer).mpr rfl
  have hlog₂ : reinsertingRun.log = (earlier ++ e₁ :: mid) ++ e₂ :: later := by
    rw [hlog, List.append_assoc, List.cons_append]
  obtain ⟨⟨t₁, base₁, own₁, u₁, ht₁, hexec₁⟩, hlands₁⟩ :=
    commitsInsert_first.lands hlog hlen hk
  obtain ⟨⟨t₂, base₂, own₂, u₂, ht₂, hexec₂⟩, hlands₂⟩ :=
    commitsInsert_second.lands hlog₂ (by simp [hlen, hmid]) hk
  obtain ⟨hfree, hlater⟩ := primary_keys_unique (C := Reference.contract true) (.of_nil rfl)
    idle_newSessions reachable_reinsertingRun
  obtain ⟨k', hk', hfree⟩ := hfree _ e₂ _ t₂ base₂ own₂ "a" none _ u₂ hlog₂ ht₂ hexec₂ _
    (List.mem_singleton.mpr rfl)
  obtain rfl := hlands₂.unique hk'
  obtain ⟨before, since, hbegan, hprefix⟩ := hlater _ e₁ _ e₂ _ t₁ t₂ base₁ base₂ own₁ own₂ "a" none
    none _ _ u₁ u₂ hlog ht₁ ht₂ hexec₁ hexec₂ _ (List.mem_singleton.mpr rfl) _
    (List.mem_singleton.mpr rfl) k hlands₁ hlands₂
  exact ⟨earlier, e₁, mid, e₂, later, base₂, own₂, u₂, k, before, since, hlog, hlands₁, hlands₂,
    hfree, hbegan, hprefix⟩

end Choam

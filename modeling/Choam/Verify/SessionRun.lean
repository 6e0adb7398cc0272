import Choam.Lib.Sequential
import Choam.Verify.Effect
import Choam.Verify.Past

/-!
# One session alone

What a session does while it has the store to itself. `Alone` lists what one piece of SQL can do
then, `Life` is the invariant of a whole run: outside a transaction nothing has failed, and an open
transaction that has not failed sees what its statements have made of the contents at BEGIN. So a
COMMIT that succeeds commits exactly that (`session_atomic`).
-/

namespace Choam

open ByteString Overlay Interleave Session

variable {H : Host} {C : H.Contract} {u : Unicode}

/-! ## Parts that run alone -/

section Run

variable {α : Type} {s : H.Store}

theorem IsQuiet.run {p : StoreM H α} (h : IsQuiet p) (s : H.Store) :
    (p.run StoreOp.perform s).2 = s := by
  have hstep : ∀ (o : StoreOp H) (s' : H.Store), o.Quiet → s' = s →
      True ∧ (o.perform s').2 = s :=
    fun o s' ho hs => ⟨trivial, (StoreOp.perform_of_quiet o s' ho).trans hs⟩
  exact (Prog.Ensures.run (I := (· = s)) hstep h rfl).2.1

theorem commit_run (t : H.Txn) (s : H.Store) :
    ((RelTransaction.commit t).run StoreOp.perform s).2 = (H.commit t s).2 ∧
      (((RelTransaction.commit t).run StoreOp.perform s).1 = .ok () ↔ (H.commit t s).1 = .ok ()) := by
  unfold RelTransaction.commit
  rw [StoreM.commit_bind, Prog.run_call]
  simp only [StoreOp.perform]
  rcases (H.commit t s).1 with (k | e) | ⟨⟩
  · simp [(quiet_conflictError k).run]
  · simp
  · simp

/-- A program that ended so has committed nothing, or has succeeded. -/
def FailsClean (C : H.Contract) {ε : Type} (s : H.Store) (r : Except ε α × H.Store) : Prop :=
  C.history r.2 = C.history s ∨ ∃ a, r.1 = .ok a

theorem failsClean_createTable (name : String) (columns : List ColumnDef) (pk : Nat) (s : H.Store) :
    FailsClean C s ((Catalog.createTable name columns pk).run StoreOp.perform s) := by
  unfold Catalog.createTable
  split
  · exact .inl rfl
  split
  · exact .inl rfl
  simp only [StoreM.begin_bind, StoreM.read_bind, Prog.run_call, StoreOp.perform]
  split
  · exact .inl (by simp [StoreOp.perform])
  simp only [Prog.run_call, StoreOp.perform]
  refine iteInduction (motive := fun p => FailsClean C s (Prog.run StoreOp.perform p _)) (fun _ => ?_)
    fun _ => ?_
  · exact .inl (by simp [StoreOp.perform])
  simp only [StoreM.put_bind, Prog.run_call, StoreOp.perform]
  split
  · exact .inl (by simp [StoreOp.perform])
  simp only [StoreM.commit_bind, Prog.run_call, StoreOp.perform]
  generalize ht : H.put _ catalogIndexKey _ = t
  have hbase : C.snapshot t <+: C.history (H.begin s).2 := by simp [← ht]
  cases C.commit_cases hbase with
  | ok hres => exact .inr ⟨_, by rw [hres]; rfl⟩
  | conflict k hres hk hsince hsame => exact .inl (by rw [hres]; simpa using hsame)
  | store e hres hsame => exact .inl (by rw [hres]; simpa using hsame)

theorem failsClean_sessionCreateTable (name : String) (columns : List ColumnSpec) (s : H.Store) :
    FailsClean C s ((Session.createTable name columns).run StoreOp.perform s) := by
  unfold Session.createTable
  split
  next pk _ =>
    have hclean := failsClean_createTable (C := C) name (Session.columnDefs pk columns) pk s
    simp only [Database.createTable, bind_pure_comp, bind_map_left, Prog.run_bind]
    generalize (Catalog.createTable name _ pk).run StoreOp.perform s = r at hclean
    obtain ⟨_ | h, s'⟩ := r
    · rcases hclean with hsame | ⟨a, ha⟩
      · exact .inl hsame
      · cases ha
    · exact .inr ⟨_, rfl⟩
  · exact .inl rfl

/-- The reply of such a program, when it failed. -/
theorem FailsClean.of_isError {ε : Type} {s : H.Store} {r : Except ε α × H.Store}
    (h : FailsClean C s r) (hr : isError r.1 = true) : C.history r.2 = C.history s := by
  rcases h with h | ⟨a, ha⟩
  · exact h
  · rw [ha] at hr
    cases hr

theorem failsClean_autocommit (self : Session H) {stmt : Statement} {table : String}
    (htable : stmt.table? = some table) (s : H.Store) :
    FailsClean C s (((autocommit u self stmt).run StoreOp.perform s).1.1,
      ((autocommit u self stmt).run StoreOp.perform s).2) ∧
    ((autocommit u self stmt).run StoreOp.perform s).1.2 = self := by
  unfold autocommit
  simp only [StoreM.begin_bind, Prog.run_call, StoreOp.perform, Prog.run_bind, RowM.run_onStore]
  have hwrites := ((RowM.looksUp_run (u := u) (E := H.StoreError) htable).exec_writes C
    (H.begin s).2 (H.begin s).1).1
  generalize (run u stmt).exec (H.begin s).2 (H.begin s).1 = r at hwrites
  obtain ⟨r, t⟩ := r
  have hbase : C.snapshot t <+: C.history (H.begin s).2 := by
    have : C.snapshot t = _ := hwrites
    simp [this]
  cases r with
  | error e => exact ⟨.inl (by simp [StoreOp.perform]), rfl⟩
  | ok r =>
    obtain ⟨hafter, hok⟩ := commit_run t (H.begin s).2
    dsimp only
    rw [Prog.run_bind, hafter]
    cases hres : ((RelTransaction.commit t).run StoreOp.perform (H.begin s).2).1 with
    | ok _ => exact ⟨.inr ⟨r, rfl⟩, rfl⟩
    | error e =>
      have hfail : (H.commit t (H.begin s).2).1 ≠ .ok () := fun h => by
        rw [hok.mpr h] at hres
        cases hres
      refine ⟨.inl ?_, rfl⟩
      cases C.commit_cases hbase with
      | ok h => exact absurd h hfail
      | conflict k h hk hsince hsame => simpa using hsame
      | store e h hsame => simpa using hsame

end Run

/-! ## One piece of SQL -/

/-- What SQL does to a session alone on the store: `stmt` is what the text stands for, if it
parses. -/
inductive Alone (C : H.Contract) (u : Unicode) (self : Session H) (s : H.Store)
    (stmt : Option Statement) : Session.Reply H → Session H → H.Store → Prop
  | refused {e : ExecError H.StoreError}
      (hrow : ∀ st table, stmt = some st → st.table? = some table → self.failed = true)
      (hclose : stmt = some .commit ∨ stmt = some .rollback → self.txn = none) :
      Alone C u self s stmt (.error e) self s
  | begin (hstmt : stmt = some .begin) (htxn : self.txn = none) :
      Alone C u self s stmt (.ok .default) ⟨some (H.begin s).1, self.failed⟩ (H.begin s).2
  | aborted {r : Session.Reply H} {t : H.Txn} (htxn : self.txn = some t)
      (hstmt : stmt = some .rollback ∨ stmt = some .commit ∧ isError r = true) :
      Alone C u self s stmt r Session.new (H.abort t s)
  | commit {r : Session.Reply H} {t : H.Txn} (hstmt : stmt = some .commit)
      (hself : self = ⟨some t, false⟩) (hr : isError r = false ↔ (H.commit t s).1 = .ok ()) :
      Alone C u self s stmt r Session.new (H.commit t s).2
  | outside {st : Statement} {r : Session.Reply H} {s' : H.Store} (hstmt : stmt = some st)
      (hnot : st ≠ .begin ∧ st ≠ .commit ∧ st ≠ .rollback) (htxn : self.txn = none)
      (hr : isError r = true → C.history s' = C.history s) : Alone C u self s stmt r self s'
  | ran {st : Statement} {table : String} {t t' : H.Txn} {r : Session.Reply H}
      (hstmt : stmt = some st) (htable : st.table? = some table) (hself : self = ⟨some t, false⟩)
      (hexec : (run u st).exec s t = (r, t')) : Alone C u self s stmt r ⟨some t', isError r⟩ s

theorem alone_statement (self : Session H) (stmt : Statement) (s : H.Store) :
    Alone C u self s (some stmt) ((self.executeStatement u stmt).run StoreOp.perform s).1.1
      ((self.executeStatement u stmt).run StoreOp.perform s).1.2
      ((self.executeStatement u stmt).run StoreOp.perform s).2 := by
  obtain ⟨txn, failed⟩ := self
  by_cases htable : stmt.table? = none
  · have hrow : ∀ st table, some stmt = some st → st.table? = some table → failed = true :=
      fun st table h h' => by
        cases h
        rw [htable] at h'
        cases h'
    cases stmt with
    | insert | select | update | delete => cases htable
    | begin =>
      cases txn with
      | some t => exact .refused hrow (by simp)
      | none => exact .begin rfl rfl
    | commit =>
      cases txn with
      | none => exact .refused hrow fun _ => rfl
      | some t =>
        cases failed with
        | true => exact .aborted rfl (.inr ⟨rfl, rfl⟩)
        | false =>
          obtain ⟨hafter, hok⟩ := commit_run t s
          have hrun : ((⟨some t, false⟩ : Session H).executeStatement u .commit).run
              StoreOp.perform s = (((((RelTransaction.commit t).run StoreOp.perform s).1.map
                fun _ => QueryResult.default).mapError .db, Session.new), (H.commit t s).2) := by
            show ((RelTransaction.commit t >>= _).run StoreOp.perform s) = _
            rw [Prog.run_bind, hafter]
            cases ((RelTransaction.commit t).run StoreOp.perform s).1 <;> rfl
          rw [hrun]
          refine .commit rfl rfl ?_
          rw [← hok]
          cases ((RelTransaction.commit t).run StoreOp.perform s).1 <;> simp [isError]
    | rollback =>
      cases txn with
      | none => exact .refused hrow fun _ => rfl
      | some t => exact .aborted rfl (.inl rfl)
    | createTable name columns =>
      cases txn with
      | some t => exact .refused hrow (by simp)
      | none =>
        have hclean := failsClean_sessionCreateTable (C := C) name columns s
        have hrun : ((⟨none, failed⟩ : Session H).executeStatement u
            (.createTable name columns)).run StoreOp.perform s =
              ((((Session.createTable name columns).run StoreOp.perform s).1, ⟨none, failed⟩),
                ((Session.createTable name columns).run StoreOp.perform s).2) :=
          Prog.run_bind ..
        rw [hrun]
        exact .outside rfl ⟨by simp, by simp, by simp⟩ rfl fun hr => hclean.of_isError hr
  · obtain ⟨table, htable⟩ := Option.ne_none_iff_exists'.mp htable
    have hnot : ∀ {st : Statement}, st.table? = none → stmt ≠ st := fun {st} h heq => by
      rw [heq, h] at htable
      cases htable
    have hclose : some stmt = some .commit ∨ some stmt = some .rollback → txn = none := fun h => by
      rcases h with h | h <;> exact absurd (Option.some.inj h) (hnot rfl)
    rw [executeStatement_row _ htable]
    cases failed with
    | true => exact .refused (fun _ _ _ _ => rfl) hclose
    | false =>
      cases txn with
      | some t =>
        dsimp only
        rw [if_neg Bool.false_ne_true, Prog.run_bind, RowM.run_onStore]
        exact .ran rfl htable rfl rfl
      | none =>
        rw [if_neg Bool.false_ne_true]
        obtain ⟨hclean, hself⟩ := failsClean_autocommit (C := C) (u := u) ⟨none, false⟩ htable s
        dsimp only
        rw [hself]
        exact .outside rfl ⟨hnot rfl, hnot rfl, hnot rfl⟩ rfl fun hr => hclean.of_isError hr

theorem made_sql {c : Call} (hsql : c.IsSql) (self : Session H) (s : H.Store) :
    ∃ r self' s', made (O := system H u) c (.session self) s =
        ⟨c, .session self, s, .result r, .session self', s'⟩ ∧
      Alone C u self s (c.statement u) r self' s' := by
  cases hstmt : c.statement u with
  | none =>
    obtain ⟨e, hbody⟩ := Call.body_of_no_statement (u := u) self hsql hstmt
    refine ⟨.error (.parse e), self, s, ?_, .refused nofun (by simp)⟩
    simp [made, hbody]
  | some stmt =>
    refine ⟨_, _, _, ?_, alone_statement self stmt s⟩
    simp [made, Call.body_statement self hstmt]

/-! ## A whole run -/

/-- What was given to the session, and its replies. -/
def exchanges (steps : List (system H u).Solo) : List (Call × Reply H) :=
  steps.map fun x => (x.call, x.reply)

theorem exchanges_concat (steps : List (system H u).Solo) (x : (system H u).Solo) :
    exchanges (steps ++ [x]) = exchanges steps ++ [(x.call, x.reply)] := by
  simp [exchanges]

/-- What holds of a session and the store after the calls so far. -/
inductive Life (C : H.Contract) (u : Unicode) :
    List (system H u).Solo → Local H → H.Store → Prop
  | outside {past : List (system H u).Solo} {s : H.Store} :
      Life C u past (.session ⟨none, false⟩) s
  | inside {before mid : List (system H u).Solo} {b : (system H u).Solo} {t : H.Txn} {failed : Bool}
      {s : H.Store} (hbegin : b.call.statement u = some .begin) (hb : b.reply.failed = false)
      (hmid : ∀ x ∈ mid, x.call.statement u ≠ some .commit ∧ x.call.statement u ≠ some .rollback)
      (hsnap : C.snapshot t = C.history s) (hrow : ∀ k, ¬ IsRowKey k → C.writes t k = none)
      (heff : failed = false → (∀ x ∈ rowReplies u (exchanges mid), isError x.2 = false) ∧
        Effects C u (C.committed b.before) (rowReplies u (exchanges mid)) (C.view t)) :
      Life C u (before ++ b :: mid) (.session ⟨some t, failed⟩) s

/-- One call. -/
theorem Life.step {past : List (system H u).Solo} {l : Local H} {s : H.Store}
    (h : Life C u past l s) {c : Call} (hsql : c.IsSql) :
    Life C u (past ++ [made c l s]) (made (O := system H u) c l s).finish
      (made (O := system H u) c l s).after := by
  cases h with
  | outside =>
    obtain ⟨r, self', s', hmade, hstep⟩ := made_sql (C := C) (u := u) hsql ⟨none, false⟩ s
    rw [hmade]
    cases hstep with
    | refused hrow hclose => exact .outside
    | begin hstmt htxn =>
      refine .inside hstmt rfl (by simp) (by simp) (by simp) fun _ => ⟨by simp [exchanges, rowReplies], ?_⟩
      simp [exchanges, rowReplies, Effects]
    | aborted htxn hstmt => cases htxn
    | commit hstmt hself hr => cases hself
    | outside hstmt hnot htxn hr => exact .outside
    | ran hstmt htable hself hexec => cases hself
  | @inside before mid b t failed _ hbegin hb hmid hsnap hrow heff =>
    obtain ⟨r, self', s', hmade, hstep⟩ := made_sql (C := C) (u := u) hsql ⟨some t, failed⟩ s
    rw [hmade]
    rw [List.append_assoc, List.cons_append]
    cases hstep with
    | @refused e hrow' hclose =>
      refine .inside hbegin hb (fun x hx => ?_) hsnap hrow fun hf => ?_
      · rcases List.mem_append.mp hx with hx | hx
        · exact hmid x hx
        · rw [List.mem_singleton] at hx
          subst hx
          exact ⟨fun h => (by cases hclose (.inl h)), fun h => (by cases hclose (.inr h))⟩
      · have hnone : rowReply u c (.result (.error e)) = none := by
          by_contra hsome
          obtain ⟨x, hx⟩ := Option.ne_none_iff_exists'.mp hsome
          obtain ⟨st, table, hstmt, htable, -⟩ := rowReply_eq_some.mp hx
          rw [hf] at hrow'
          exact Bool.false_ne_true (hrow' st table hstmt htable)
        rw [exchanges_concat, rowReplies_concat, hnone]
        simpa using heff hf
    | begin hstmt htxn => cases htxn
    | aborted htxn hstmt => exact .outside
    | commit hstmt hself hr => exact .outside
    | outside hstmt hnot htxn hr => cases htxn
    | @ran st table t₁ t' _ hstmt htable hself hexec =>
      cases hself
      obtain ⟨hsnap', hrow'⟩ := (RowM.looksUp_run (u := u) htable).exec_writes C s t
      rw [hexec] at hsnap' hrow'
      refine .inside hbegin hb (fun x hx => ?_) (hsnap'.trans hsnap)
        (fun k hk => (hrow' k hk).trans (hrow k hk)) fun hf => ?_
      · rcases List.mem_append.mp hx with hx | hx
        · exact hmid x hx
        · rw [List.mem_singleton] at hx
          subst hx
          constructor
          all_goals
            intro h
            rw [hstmt] at h
            cases h
            cases htable
      · obtain ⟨hok, heffs⟩ := heff rfl
        have hsome : rowReply u c (.result r) = some (st, r) :=
          rowReply_eq_some.mpr ⟨st, table, hstmt, htable, rfl, rfl⟩
        rw [exchanges_concat, rowReplies_concat, hsome]
        refine ⟨fun x hx => ?_,
          heffs.concat (.of_exec s htable (fun _ _ => rfl) (fun k hk => ?_) hexec)⟩
        · rcases List.mem_append.mp hx with hx | hx
          · exact hok x hx
          · rw [Option.toList_some, List.mem_singleton] at hx
            subst hx
            exact hf
        · rw [Host.Contract.view, Writes.apply_of_none (hrow k hk), hsnap]
          rfl

@[simp] theorem failed_result (r : Session.Reply H) :
    (Reply.result r : Reply H).failed = isError r := by
  cases r <;> rfl

namespace Alone

variable {self self' : Session H} {s s' : H.Store} {stmt : Option Statement} {r : Session.Reply H}

/-- The flag is set only inside a transaction. -/
theorem failed_inTransaction (h : Alone C u self s stmt r self' s')
    (hsane : self.txn = none → self.failed = false) :
    self'.failed = true → self'.inTransaction = true := by
  have hself : self.failed = true → self.inTransaction = true := fun hf => by
    rw [inTransaction, Option.isSome_iff_ne_none]
    intro hnone
    rw [hsane hnone] at hf
    cases hf
  cases h with
  | refused | outside => exact hself
  | begin | ran => exact fun _ => rfl
  | aborted | commit => exact nofun

/-- What is committed changes only at a COMMIT or outside a transaction, and only by success. -/
theorem changes (h : Alone C u self s stmt r self' s')
    (hsnap : ∀ t, self.txn = some t → C.snapshot t = C.history s)
    (hne : C.history s' ≠ C.history s) :
    isError r = false ∧ (stmt = some .commit ∨ self.inTransaction = false) := by
  cases h with
  | refused => exact absurd rfl hne
  | begin => exact absurd (C.history_begin s) hne
  | @aborted _ t => exact absurd (C.history_abort t s) hne
  | ran => exact absurd rfl hne
  | @commit r t hstmt hself hr =>
    subst hself
    refine ⟨?_, .inl hstmt⟩
    have hpre : C.snapshot t <+: C.history s := hsnap t rfl ▸ List.prefix_rfl
    cases C.commit_cases hpre with
    | ok hres => exact hr.mpr hres
    | conflict k hres hk hsince hsame => exact absurd hsame hne
    | store e hres hsame => exact absurd hsame hne
  | outside hstmt hnot htxn hr =>
    refine ⟨?_, .inr (by simp [inTransaction, htxn])⟩
    by_contra herr
    exact hne (hr (by simpa using herr))

/-- Outside a transaction a failure changes nothing. -/
theorem outside_failed (h : Alone C u self s stmt r self' s') (htxn : self.txn = none)
    (herr : isError r = true) : C.history s' = C.history s ∧ self' = self := by
  cases h with
  | refused => exact ⟨rfl, rfl⟩
  | begin => cases herr
  | aborted htxn' =>
    rw [htxn] at htxn'
    cases htxn'
  | commit hstmt hself | ran hstmt htable hself =>
    subst hself
    cases htxn
  | outside hstmt hnot _ hr => exact ⟨hr herr, rfl⟩

/-- COMMIT and ROLLBACK end the transaction. -/
theorem closes (h : Alone C u self s stmt r self' s')
    (hsane : self.txn = none → self.failed = false)
    (hstmt : stmt = some .commit ∨ stmt = some .rollback) : self' = Session.new := by
  cases h with
  | refused hrow hclose =>
    have hnone := hclose hstmt
    obtain ⟨txn, failed⟩ := self
    cases hnone
    cases hsane rfl
    rfl
  | aborted | commit => rfl
  | begin hstmt' => rcases hstmt with h | h <;> rw [hstmt'] at h <;> cases h
  | outside hstmt' hnot =>
    rcases hstmt with h | h <;> rw [hstmt'] at h
    · exact absurd (Option.some.inj h) hnot.2.1
    · exact absurd (Option.some.inj h) hnot.2.2
  | ran hstmt' htable =>
    rcases hstmt with h | h <;> rw [hstmt'] at h <;> cases h <;> cases htable

/-- A COMMIT that succeeds commits what its transaction sees. -/
theorem committed (h : Alone C u self s (some .commit) r self' s') (hr : isError r = false)
    (hsnap : ∀ t, self.txn = some t → C.snapshot t = C.history s) :
    ∃ t, self = ⟨some t, false⟩ ∧ C.committed s' = C.view t := by
  cases h with
  | refused => cases hr
  | begin hstmt => cases hstmt
  | aborted htxn hstmt =>
    rcases hstmt with h | ⟨-, herr⟩
    · cases h
    · rw [hr] at herr
      cases herr
  | @commit _ t hstmt hself hok =>
    subst hself
    have hbase := hsnap t rfl
    obtain ⟨-, happ⟩ := C.commit_ok t s (hbase ▸ List.prefix_rfl) (hok.mp hr)
    refine ⟨t, rfl, ?_⟩
    rw [Host.Contract.committed, happ.replay, Host.Contract.view, hbase]
  | outside hstmt hnot => exact absurd (Option.some.inj hstmt).symm hnot.2.1
  | ran hstmt htable =>
    cases hstmt
    cases htable

end Alone

/-- What the invariant says of the session. -/
theorem Life.session {past : List (system H u).Solo} {l : Local H} {s : H.Store}
    (h : Life C u past l s) : ∃ self, l = .session self ∧ (self.txn = none → self.failed = false) ∧
      ∀ t, self.txn = some t → C.snapshot t = C.history s := by
  cases h with
  | outside => exact ⟨_, rfl, fun _ => rfl, nofun⟩
  | inside hbegin hb hmid hsnap =>
    refine ⟨_, rfl, nofun, fun t ht => ?_⟩
    cases ht
    exact hsnap

/-- **Sessions are atomic.** In a run of one session that has the store to itself, from any store:
the flag is set only inside a transaction; only a COMMIT or a statement outside a transaction
changes what is committed, and only when it succeeds; one that fails outside a transaction changes
nothing; a COMMIT that succeeds commits what the statements since its BEGIN, which all succeeded,
made of what was committed at BEGIN; and COMMIT and ROLLBACK leave a new session. -/
theorem session_atomic {calls : List Call} (hsql : ∀ c ∈ calls, c.IsSql) {s : H.Store}
    {past rest : List (system H u).Solo} {x : (system H u).Solo}
    (hrun : alone (O := system H u) (.session Session.new) s calls = past ++ x :: rest) :
    ∃ self self', x.start = .session self ∧ x.finish = .session self' ∧
      (self'.failed = true → self'.inTransaction = true) ∧
      (C.committed x.after ≠ C.committed x.before → x.reply.failed = false ∧
        (x.call.statement u = some .commit ∨ self.inTransaction = false)) ∧
      (self.inTransaction = false → x.reply.failed = true →
        C.committed x.after = C.committed x.before ∧ self'.inTransaction = false) ∧
      (x.call.statement u = some .commit → x.reply.failed = false → ∃ before b mid,
        past = before ++ b :: mid ∧ b.call.statement u = some .begin ∧ b.reply.failed = false ∧
        (∀ y ∈ mid, y.call.statement u ≠ some .commit ∧ y.call.statement u ≠ some .rollback) ∧
        (∀ y ∈ rowReplies u (exchanges mid), isError y.2 = false) ∧
        Effects C u (C.committed b.before) (rowReplies u (exchanges mid)) (C.committed x.after)) ∧
      (x.call.statement u = some .commit ∨ x.call.statement u = some .rollback →
        self' = Session.new) := by
  obtain ⟨hlife, hmem, hx⟩ := alone_invariant (O := system H u) (I := Life C u) .outside
    (fun past l s c hc h => h.step (hsql c hc)) hrun
  have hcall := hsql x.call hmem
  obtain ⟨self, hstart, hsane, hsnap⟩ := hlife.session
  rw [hstart] at hx hlife
  obtain ⟨r, self', s', hmade, hstep⟩ := made_sql (C := C) (u := u) hcall self x.before
  rw [hmade] at hx
  have hreply : x.reply.failed = isError r := by rw [hx]; exact failed_result r
  have hafter : x.after = s' := by rw [hx]
  have hcommitted : C.history s' = C.history x.before → C.committed s' = C.committed x.before :=
    fun h => by rw [Host.Contract.committed, h]; rfl
  have hout : self.inTransaction = false → self.txn = none := fun h => by
    simpa [inTransaction] using h
  refine ⟨self, self', hstart, by rw [hx], hstep.failed_inTransaction hsane, ?_, ?_, ?_,
    hstep.closes hsane⟩
  all_goals rw [hreply, hafter]
  · exact fun hne => hstep.changes hsnap fun h => hne (hcommitted h)
  · intro hself herr
    obtain ⟨hsame, rfl⟩ := hstep.outside_failed (hout hself) herr
    exact ⟨hcommitted hsame, hself⟩
  · intro hcommit hok
    rw [hcommit] at hstep
    obtain ⟨t, rfl, hview⟩ := hstep.committed hok hsnap
    cases hlife with
    | inside hbegin hb hmid hsnap hrow heff =>
      obtain ⟨hall, heffs⟩ := heff rfl
      rw [hview]
      exact ⟨_, _, _, rfl, hbegin, hb, hmid, hall, heffs⟩

/-- CREATE TABLE; BEGIN; INSERT (7, 'x'); COMMIT, alone on a new database. -/
def committingRun : List (system (Reference.host true) .ascii).Solo :=
  alone (O := system (Reference.host true) .ascii) (.session Session.new) ([] : List Reference.WriteList)
    [.executeStatement createSample, .executeStatement .begin, .executeStatement (insertSample 7),
      .executeStatement .commit]

theorem session_atomic_sample : ∃ x before b mid, committingRun = before ++ b :: mid ++ [x] ∧
    Effects (Reference.contract true) .ascii ((Reference.contract true).committed b.before)
      (rowReplies .ascii (exchanges mid)) ((Reference.contract true).committed x.after) := by
  obtain ⟨x, hlast, hcheck⟩ : ∃ x, committingRun.getLast? = some x ∧
      (x.call.statement .ascii, x.reply.failed) = (some .commit, false) :=
    Option.map_eq_some_iff.mp (by decide +kernel)
  obtain ⟨hcall, hok⟩ := Prod.mk.inj hcheck
  have hrun : committingRun = committingRun.dropLast ++ x :: [] :=
    (List.dropLast_append_getLast? x hlast).symm
  obtain ⟨self, self', -, -, -, -, -, hcommit, -⟩ :=
    session_atomic (C := Reference.contract true) (by simp [Call.IsSql]) hrun
  obtain ⟨before, b, mid, hpast, -, -, -, -, heffs⟩ := hcommit hcall hok
  exact ⟨x, before, b, mid, hpast ▸ hrun, heffs⟩

end Choam

import Choam.Verify.Representation

/-!
# What a client has done

`Remembers` is what every interleaving leaves of one client: its finished calls follow each other,
each made the accesses of its own program, and the stores that all its accesses met follow each
other. From it come the life of a session's transaction, from its BEGIN on (`Transacted`), and
what its COMMIT commits.
-/

namespace Choam

open ByteString Overlay Interleave

variable {H : Host} {C : H.Contract} {P : Promises} {u : Unicode}

/-- The client began with `l₀`, finished the calls `past`, and then holds `l`. -/
structure Remembers (u : Unicode) (allow : Call → Local H → Prop) (l₀ : Local H)
    (past : List (system H u).Done) (l : Local H) : Prop where
  returned : ∀ d ∈ past, Returned (O := system H u) allow d
  linked : Linked (O := system H u) l₀ past l

section Remembers

variable {allow : Call → Local H → Prop}

theorem Remembers.split {l₀ l : Local H} {past past' : List (system H u).Done}
    (h : Remembers u allow l₀ (past ++ past') l) :
    ∃ m, Remembers u allow l₀ past m ∧ Remembers u allow m past' l := by
  obtain ⟨m, h₁, h₂⟩ := h.linked.split
  exact ⟨m, ⟨fun d hd => h.returned d (by simp [hd]), h₁⟩,
    fun d hd => h.returned d (by simp [hd]), h₂⟩

variable {ι : Type} [DecidableEq ι] {s₀ : H.Store} {l₀ : ι → Local H} {g : (system H u).Config ι}

/-- A client, whatever it is doing. -/
theorem Remembers.of_client (hlog : Logged allow s₀ l₀ g) (i : ι) :
    ∃ l, Remembers u allow (l₀ i) (g.client i).past l := by
  have hthread := hlog.thread i
  rcases hk : (g.client i).thread with l | ⟨c, l, seen, rest⟩
  · exact ⟨l, hthread.past, (hthread.idle l hk).2⟩
  · exact ⟨l, hthread.past, (hthread.busy c l seen rest hk).2.1⟩

/-- The accesses of its finished calls are the first that it made. -/
theorem accessesOf_past (hlog : Logged allow s₀ l₀ g) (i : ι) :
    ∃ more, accessesOf g.log i = accesses (g.client i).past ++ more := by
  have hthread := hlog.thread i
  rcases hk : (g.client i).thread with l | ⟨c, l, seen, rest⟩
  · exact ⟨[], by rw [(hthread.idle l hk).1, List.append_nil]⟩
  · exact ⟨seen, (hthread.busy c l seen rest hk).1⟩

/-- Who made an access, when it was made. -/
theorem Remembers.of_entry (hlog : Logged allow s₀ l₀ g)
    {earlier later : List ((system H u).Entry ι)} {e : (system H u).Entry ι}
    (he : g.log = earlier ++ e :: later) : Remembers u allow (l₀ e.who) e.past e.start :=
  ⟨(hlog.entry earlier e later he).past, (hlog.entry earlier e later he).linked⟩

/-- The stores that a client's accesses met follow each other. -/
theorem ordered_client (hgood : (protocol C P u).Good s₀ g) (hlog : Logged allow s₀ l₀ g) (i : ι) :
    (accesses (g.client i).past).Pairwise (fun a a' => Rely C P a.before a'.before) ∧
      ∀ a ∈ accesses (g.client i).past, Rely C P s₀ a.before ∧ Rely C P a.before g.shared := by
  have hthread := hlog.thread i
  obtain ⟨hpair, hsince⟩ := hgood.own i
  rcases hk : (g.client i).thread with l | ⟨c, l, seen, rest⟩
  · rw [(hthread.idle l hk).1] at hpair hsince
    exact ⟨hpair, hsince⟩
  · rw [(hthread.busy c l seen rest hk).1] at hpair hsince
    exact ⟨(List.pairwise_append.mp hpair).1, fun a ha => hsince a (by simp [ha])⟩

/-- So do those that its accesses up to a given one met. -/
theorem ordered_entry (hgood : (protocol C P u).Good s₀ g) (hlog : Logged allow s₀ l₀ g)
    {earlier later : List ((system H u).Entry ι)} {e : (system H u).Entry ι}
    (he : g.log = earlier ++ e :: later) :
    (accesses e.past ++ e.seen ++ [e.access]).Pairwise fun a a' => Rely C P a.before a'.before := by
  have hpair := (hgood.own e.who).1
  rw [he] at hpair
  rw [← (hlog.entry earlier e later he).own]
  exact hpair.sublist (accessesOf_upTo earlier later e)

end Remembers

/-! ## One call of a session -/

section Calls

variable {allow : Call → Local H → Prop} {d : (system H u).Done}

/-- A call that executes a statement. -/
theorem returned_statement (hd : Returned (O := system H u) allow d) {self : Session H}
    (hstart : d.start = .session self) {stmt : Statement} (hstmt : d.call.statement u = some stmt) :
    ∃ r self', d.reply = .result r ∧ d.finish = .session self' ∧
      Leads (O := system H u) (self.executeStatement u stmt) d.seen (.done (r, self')) := by
  have hleads := hd.leads
  change Leads (O := system H u) (d.call.body u d.start) _ _ at hleads
  rw [hstart, Call.body_statement self hstmt] at hleads
  obtain ⟨seen₁, seen₂, ⟨r, self'⟩, hseen, h₁, h₂⟩ := hleads.of_bind_done
  obtain ⟨rfl, heq⟩ := h₂.of_done
  injection heq with heq
  injection heq with hreply hfinish
  rw [List.append_nil] at hseen
  exact ⟨r, self', hreply, hfinish, hseen ▸ h₁⟩

/-- A call of a session that executes no statement leaves the session as it is. -/
theorem returned_other (hd : Returned (O := system H u) allow d) {self : Session H}
    (hstart : d.start = .session self) (hstmt : d.call.statement u = none) :
    d.finish = .session self := by
  have hleads := hd.leads
  change Leads (O := system H u) (d.call.body u d.start) _ _ at hleads
  have hen : d.call.Enabled d.start := hd.enabled
  rw [hstart] at hleads hen
  by_cases hsql : d.call.IsSql
  · obtain ⟨e, hbody⟩ := Call.body_of_no_statement self hsql hstmt
    rw [hbody] at hleads
    obtain ⟨-, heq⟩ := Leads.of_done hleads
    injection heq with heq
    exact (Prod.ext_iff.mp heq).2
  · obtain ⟨call, start, seen, reply, finish⟩ := d
    cases call with
    | execute sql | executeStatement stmt => exact absurd trivial hsql
    | createTable name columns pk | getTable name | listTables =>
      obtain ⟨seen₁, seen₂, r, hseen, h₁, h₂⟩ := Leads.of_bind_done hleads
      obtain ⟨-, heq⟩ := h₂.of_done
      cases heq
      rfl
    | begin | read | scan | write | delete | commit | abort => exact hen.elim

/-- A BEGIN outside a transaction. -/
theorem returned_begin (hd : Returned (O := system H u) allow d) {failed : Bool}
    (hstart : d.start = .session ⟨none, failed⟩) (hstmt : d.call.statement u = some .begin) :
    ∃ s, d.seen = [⟨s, .begin, (H.begin s).1⟩] ∧ d.reply = .result (.ok .default) ∧
      d.finish = .session ⟨some (H.begin s).1, failed⟩ := by
  obtain ⟨r, self', hreply, hfinish, hleads⟩ := returned_statement hd hstart hstmt
  obtain ⟨s, rest, hseen, hleads⟩ := Leads.of_call_done hleads
  obtain ⟨rfl, heq⟩ := Leads.of_done hleads
  cases heq
  exact ⟨s, hseen, hreply, hfinish⟩

/-- How the commit of a transaction on rows runs. -/
theorem leads_commit {t : H.Txn} {seen : List (system H u).Access}
    {r : Except (DbError H.StoreError) Unit}
    (h : Leads (O := system H u) (RelTransaction.commit t) seen (.done r)) : ∃ s rest,
      seen = ⟨s, .commit t, (H.commit t s).1⟩ :: rest ∧
        match (H.commit t s).1 with
        | .ok () => r = .ok ()
        | .error (.conflict k) => ∃ e, r = .error e ∧
          Leads (O := system H u) (Database.conflictError k) rest (.done e)
        | .error (.store e) => r = .error (.store e) := by
  obtain ⟨s, rest, hseen, h⟩ := Leads.of_call_done h
  refine ⟨s, rest, hseen, ?_⟩
  change Leads (O := system H u) (match (H.commit t s).1 with
    | .ok () => pure (.ok ())
    | .error (.conflict key) => Except.error <$> Database.conflictError key
    | .error (.store e) => pure (.error (.store e))) rest _ at h
  rcases hc : (H.commit t s).1 with (k | e) | ⟨⟩
  · rw [hc] at h
    simp only [map_eq_pure_bind] at h
    obtain ⟨seen₁, seen₂, e, rfl, h₁, h₂⟩ := h.of_bind_done
    obtain ⟨rfl, heq⟩ := h₂.of_done
    cases heq
    exact ⟨e, rfl, by simpa using h₁⟩
  · rw [hc] at h
    obtain ⟨-, heq⟩ := h.of_done
    cases heq
    rfl
  · rw [hc] at h
    obtain ⟨-, heq⟩ := h.of_done
    cases heq
    rfl

/-- A COMMIT inside a transaction. -/
theorem returned_commit (hd : Returned (O := system H u) allow d) {t : H.Txn} {failed : Bool}
    (hstart : d.start = .session ⟨some t, failed⟩) (hstmt : d.call.statement u = some .commit) :
    d.finish = .session Session.new ∧
      if failed then
        ∃ s, d.seen = [⟨s, .abort t, ()⟩] ∧ d.reply = .result (.error .transactionAborted)
      else
        ∃ r, Leads (O := system H u) (RelTransaction.commit t) d.seen (.done r) ∧
          d.reply = .result (match r with
            | .ok () => .ok .default
            | .error e => .error (.db e)) := by
  obtain ⟨r, self', hreply, hfinish, hleads⟩ := returned_statement hd hstart hstmt
  cases failed with
  | true =>
    obtain ⟨s, rest, hseen, hleads⟩ := Leads.of_call_done hleads
    obtain ⟨rfl, heq⟩ := Leads.of_done hleads
    cases heq
    exact ⟨hfinish, s, hseen, hreply⟩
  | false =>
    obtain ⟨seen₁, seen₂, rc, hseen, h₁, h₂⟩ := Leads.of_bind_done hleads
    cases rc with
    | ok _ =>
      obtain ⟨rfl, heq⟩ := h₂.of_done
      cases heq
      rw [List.append_nil] at hseen
      exact ⟨hfinish, .ok (), hseen ▸ h₁, hreply⟩
    | error e =>
      obtain ⟨rfl, heq⟩ := h₂.of_done
      cases heq
      rw [List.append_nil] at hseen
      exact ⟨hfinish, .error e, hseen ▸ h₁, hreply⟩

/-- A statement on rows outside a transaction: a transaction of its own, committed if the statement
succeeds. -/
theorem returned_autocommit (hd : Returned (O := system H u) allow d)
    (hstart : d.start = .session ⟨none, false⟩) {stmt : Statement} {table : String}
    (hstmt : d.call.statement u = some stmt) (htable : stmt.table? = some table) :
    ∃ base seen rest r t, d.seen = ⟨base, .begin, (H.begin base).1⟩ :: (seen ++ rest) ∧
      Leads (O := system H u) ((run u stmt).onStore (H.begin base).1) seen (.done (r, t)) ∧
      match r with
      | .error e => d.reply = .result (.error e)
      | .ok q => ∃ rc, Leads (O := system H u) (RelTransaction.commit t) rest (.done rc) ∧
        d.reply = .result (match rc with
          | .ok () => .ok q
          | .error e => .error (.db e)) := by
  obtain ⟨r', self', hreply, -, hleads⟩ := returned_statement hd hstart hstmt
  rw [executeStatement_row _ htable] at hleads
  obtain ⟨base, rest, hseen, hleads⟩ := Leads.of_call_done hleads
  change Leads (O := system H u) ((run u stmt).onStore (H.begin base).1 >>= _) _ _ at hleads
  obtain ⟨seen, rest, ⟨r, t⟩, rfl, hrun, hend⟩ := Leads.of_bind_done hleads
  refine ⟨base, seen, rest, r, t, hseen, hrun, ?_⟩
  cases r with
  | error e =>
    obtain ⟨s, rest, rfl, h₁⟩ := Leads.of_call_done hend
    obtain ⟨-, heq⟩ := Leads.of_done h₁
    cases heq
    exact hreply
  | ok q =>
    obtain ⟨seen₁, seen₂, rc, rfl, h₁, h₂⟩ := Leads.of_bind_done hend
    cases rc with
    | ok _ =>
      obtain ⟨rfl, heq⟩ := h₂.of_done
      cases heq
      exact ⟨.ok (), by simpa using h₁, hreply⟩
    | error e =>
      obtain ⟨rfl, heq⟩ := h₂.of_done
      cases heq
      exact ⟨.error e, by simpa using h₁, hreply⟩

/-- What a call does inside a session's transaction, unless it ends it: a statement on rows runs,
and everything else leaves the session alone. -/
inductive Inside (u : Unicode) (t : H.Txn) (failed : Bool) (d : (system H u).Done) :
    Session H → Prop
  | same (hrow : ∀ stmt table, d.call.statement u = some stmt → stmt.table? = some table →
        failed = true ∧ d.seen = [] ∧ d.reply = .result (.error .transactionAborted)) :
      Inside u t failed d ⟨some t, failed⟩
  | ran {stmt : Statement} {table : String} {r : Session.Reply H} {t' : H.Txn}
      (hfailed : failed = false) (hstmt : d.call.statement u = some stmt)
      (htable : stmt.table? = some table) (hreply : d.reply = .result r)
      (hleads : Leads (O := system H u) ((run u stmt).onStore t) d.seen (.done (r, t'))) :
      Inside u t failed d ⟨some t', Session.isError r⟩

/-- The call does not end the transaction. -/
def Stays (u : Unicode) (d : (system H u).Done) : Prop :=
  d.call.statement u ≠ some .commit ∧ d.call.statement u ≠ some .rollback

theorem returned_inside (hd : Returned (O := system H u) allow d) {t : H.Txn} {failed : Bool}
    (hstart : d.start = .session ⟨some t, failed⟩) (hstays : Stays u d) :
    ∃ self', d.finish = .session self' ∧ Inside u t failed d self' := by
  cases hstmt : d.call.statement u with
  | none => exact ⟨_, returned_other hd hstart hstmt, .same fun stmt table h => by simp [hstmt] at h⟩
  | some stmt =>
    obtain ⟨r, self', hreply, hfinish, hleads⟩ := returned_statement hd hstart hstmt
    cases htable : stmt.table? with
    | none =>
      have hnone : ∀ stmt' table, d.call.statement u = some stmt' → stmt'.table? ≠ some table :=
        fun stmt' table h => by
          rw [hstmt] at h
          cases h
          simp [htable]
      have hsame : self' = ⟨some t, failed⟩ := by
        cases stmt with
        | insert | select | update | delete => cases htable
        | commit => exact absurd hstmt hstays.1
        | rollback => exact absurd hstmt hstays.2
        | begin | createTable =>
          obtain ⟨-, heq⟩ := Leads.of_done hleads
          cases heq
          rfl
      subst hsame
      exact ⟨_, hfinish, .same fun stmt' table h h' => absurd h' (hnone stmt' table h)⟩
    | some table =>
      rw [executeStatement_row _ htable] at hleads
      cases failed with
      | true =>
        obtain ⟨hseen, heq⟩ := Leads.of_done hleads
        cases heq
        exact ⟨_, hfinish, .same fun _ _ _ _ => ⟨rfl, hseen, hreply⟩⟩
      | false =>
        obtain ⟨seen₁, seen₂, ⟨r', t'⟩, hseen, h₁, h₂⟩ := Leads.of_bind_done hleads
        obtain ⟨rfl, heq⟩ := h₂.of_done
        cases heq
        rw [List.append_nil] at hseen
        exact ⟨_, hfinish, .ran rfl hstmt htable hreply (hseen ▸ h₁)⟩

end Calls

/-! ## Statements on rows and their replies -/

/-- The statement on rows that a call executed, and its reply. -/
def rowReply (u : Unicode) (c : Call) : Reply H → Option (Statement × Session.Reply H)
  | .result r => ((c.statement u).filter (·.table?.isSome)).map (·, r)
  | _ => none

/-- The statements on rows among some calls, with their replies. -/
def rowReplies (u : Unicode) (calls : List (Call × Reply H)) :
    List (Statement × Session.Reply H) := calls.filterMap fun x => rowReply u x.1 x.2

theorem rowReply_eq_some {c : Call} {r : Reply H} {x : Statement × Session.Reply H} :
    rowReply u c r = some x ↔ ∃ stmt table, c.statement u = some stmt ∧
      stmt.table? = some table ∧ stmt = x.1 ∧ r = .result x.2 := by
  obtain ⟨st, r'⟩ := x
  cases r with
  | result r =>
    simp only [rowReply, Option.map_eq_some_iff, Option.filter_eq_some_iff,
      Option.isSome_iff_exists, Reply.result.injEq, Prod.mk.injEq]
    constructor
    · rintro ⟨stmt, ⟨hstmt, table, htable⟩, rfl, rfl⟩
      exact ⟨stmt, table, hstmt, htable, rfl, rfl⟩
    · rintro ⟨stmt, table, hstmt, htable, rfl, rfl⟩
      exact ⟨stmt, ⟨hstmt, table, htable⟩, rfl, rfl⟩
  | _ => simp [rowReply]

theorem rowReplies_concat (calls : List (Call × Reply H)) (c : Call) (r : Reply H) :
    rowReplies u (calls ++ [(c, r)]) = rowReplies u calls ++ (rowReply u c r).toList := by
  rw [rowReplies, List.filterMap_append]
  cases h : rowReply u c r <;> simp [h, rowReplies]

/-! ## The life of a transaction -/

/-- What the calls since BEGIN have made of the session; BEGIN met the store `base`. -/
inductive Transacted (u : Unicode) (base : H.Store) : List (system H u).Done → Session H → Prop
  | begin : Transacted u base [] ⟨some (H.begin base).1, false⟩
  | step {ops : List (system H u).Done} {t : H.Txn} {failed : Bool} {d : (system H u).Done}
      {self : Session H} (h : Transacted u base ops ⟨some t, failed⟩)
      (hstart : d.start = .session ⟨some t, failed⟩) (hfinish : d.finish = .session self)
      (hd : Inside u t failed d self) : Transacted u base (ops ++ [d]) self

theorem Transacted.exists_txn {base : H.Store} {ops : List (system H u).Done} {self : Session H}
    (h : Transacted u base ops self) : ∃ t failed, self = ⟨some t, failed⟩ := by
  cases h with
  | begin => exact ⟨_, _, rfl⟩
  | step h hstart hfinish hd => cases hd <;> exact ⟨_, _, rfl⟩

/-- The last call. -/
theorem Transacted.last {base : H.Store} {ops : List (system H u).Done} {d : (system H u).Done}
    {self : Session H} (h : Transacted u base (ops ++ [d]) self) : ∃ t failed,
      Transacted u base ops ⟨some t, failed⟩ ∧ d.start = .session ⟨some t, failed⟩ ∧
      d.finish = .session self ∧ Inside u t failed d self := by
  generalize hops : ops ++ [d] = ops' at h
  cases h with
  | begin => simp at hops
  | step h hstart hfinish hd =>
    obtain ⟨rfl, hlast⟩ := List.append_inj' hops rfl
    cases hlast
    exact ⟨_, _, h, hstart, hfinish, hd⟩

/-- Any of its calls. -/
theorem Transacted.split {base : H.Store} {ops ops' : List (system H u).Done}
    {d : (system H u).Done} {self : Session H} (h : Transacted u base (ops ++ d :: ops') self) :
    ∃ t failed self', Transacted u base ops ⟨some t, failed⟩ ∧
      d.start = .session ⟨some t, failed⟩ ∧ d.finish = .session self' ∧
      Inside u t failed d self' := by
  induction ops' using List.reverseRecOn generalizing self with
  | nil =>
    obtain ⟨t, failed, hbefore, hstart, hfinish, hd⟩ := h.last
    exact ⟨t, failed, self, hbefore, hstart, hfinish, hd⟩
  | append_singleton ops' d' ih =>
    rw [← List.cons_append, ← List.append_assoc] at h
    obtain ⟨t, failed, hbefore, -⟩ := h.last
    exact ih hbefore

/-- A session without a transaction has not failed. -/
def Local.Sane : Local H → Prop
  | .session self => self.txn = none → self.failed = false
  | .handle _ => True

theorem Local.Idle.sane {l : Local H} (h : l.Idle) : l.Sane := by
  cases l with
  | session self => exact fun _ => h.2
  | handle txn => trivial

/-- What is no session does not become one. -/
theorem ensures_handle (c : Call) (txn : Option H.Txn) :
    (c.body u (.handle txn)).Ensures (fun _ _ => True) (fun _ => True)
      fun r => ∃ txn', r.2 = .handle txn' := by
  cases c with
  | execute | executeStatement => exact ⟨txn, rfl⟩
  | createTable | getTable | listTables => exact Prog.ensures_bind_of fun r => ⟨txn, rfl⟩
  | begin =>
    cases txn with
    | none => exact Prog.ensures_bind_of fun t => ⟨some t, rfl⟩
    | some t => exact ⟨some t, rfl⟩
  | read | scan | write | delete =>
    cases txn with
    | none => exact ⟨none, rfl⟩
    | some t => exact Prog.ensures_bind_of fun r => ⟨some r.2, rfl⟩
  | commit | abort =>
    cases txn with
    | none => exact ⟨none, rfl⟩
    | some t => exact Prog.ensures_bind_of fun r => ⟨none, rfl⟩

/-- A statement outside a transaction leaves the failure flag alone. -/
theorem ensures_failed (stmt : Statement) (failed : Bool) :
    ((⟨none, failed⟩ : Session H).executeStatement u stmt).Ensures (fun _ _ => True)
      (fun _ => True) fun r => r.2.failed = failed := by
  cases htable : stmt.table? with
  | some table =>
    rw [executeStatement_row _ htable]
    split
    · rfl
    · refine Prog.ensures_bind_of fun txn => Prog.ensures_bind_of fun r => ?_
      obtain ⟨_ | _, txn⟩ := r
      · exact Prog.ensures_bind_of fun _ => rfl
      · refine Prog.ensures_bind_of fun r => ?_
        cases r <;> rfl
  | none =>
    cases stmt with
    | insert | select | update | delete => cases htable
    | begin => exact Prog.ensures_bind_of fun txn => rfl
    | commit | rollback => rfl
    | createTable name columns => exact Prog.ensures_bind_of fun r => rfl

/-- A transaction ends with the failure flag cleared. -/
theorem ensures_sane (stmt : Statement) (t : H.Txn) (failed : Bool) :
    ((⟨some t, failed⟩ : Session H).executeStatement u stmt).Ensures (fun _ _ => True)
      (fun _ => True) fun r => r.2.txn = none → r.2.failed = false := by
  cases htable : stmt.table? with
  | some table =>
    rw [executeStatement_row _ htable]
    split
    · exact nofun
    · exact Prog.ensures_bind_of fun r => nofun
  | none =>
    cases stmt with
    | insert | select | update | delete => cases htable
    | begin | createTable => exact nofun
    | rollback => exact Prog.ensures_bind_of fun _ _ => rfl
    | commit =>
      cases failed with
      | true => exact Prog.ensures_bind_of fun _ _ => rfl
      | false =>
        refine Prog.ensures_bind_of fun r => ?_
        cases r <;> exact fun _ => rfl

theorem sane_of_returned {allow : Call → Local H → Prop} {d : (system H u).Done}
    (hd : Returned (O := system H u) allow d) (h : d.start.Sane) : d.finish.Sane := by
  cases hstart : d.start with
  | handle txn =>
    have hleads := hd.leads
    change Leads (O := system H u) (d.call.body u d.start) _ _ at hleads
    rw [hstart] at hleads
    obtain ⟨txn', heq⟩ := hleads.ensures (ensures_handle d.call txn)
    dsimp only at heq
    rw [heq]
    trivial
  | session self =>
    rw [hstart] at h
    cases hstmt : d.call.statement u with
    | none => exact returned_other hd hstart hstmt ▸ h
    | some stmt =>
      obtain ⟨r, self', -, hfinish, hleads⟩ := returned_statement hd hstart hstmt
      rw [hfinish]
      obtain ⟨_ | t, failed⟩ := self
      · obtain rfl : failed = false := h rfl
        exact fun _ => hleads.ensures (ensures_failed stmt false)
      · exact hleads.ensures (ensures_sane stmt t failed)

namespace Transacted

variable {allow : Call → Local H → Prop} {base : H.Store} {ops : List (system H u).Done}

/-- Calls that follow each other in a transaction. -/
theorem append {self : Session H} {l : Local H} {ops' : List (system H u).Done}
    (h : Transacted u base ops self) (hlinked : Linked (O := system H u) (.session self) ops' l)
    (hret : ∀ d ∈ ops', Returned (O := system H u) allow d) (hstays : ∀ d ∈ ops', Stays u d) :
    ∃ self', l = .session self' ∧ Transacted u base (ops ++ ops') self' := by
  induction ops' generalizing ops self with
  | nil => exact ⟨self, hlinked, by simpa using h⟩
  | cons d ops' ih =>
    obtain ⟨hstart, hrest⟩ := hlinked
    obtain ⟨t, failed, rfl⟩ := h.exists_txn
    obtain ⟨self', hfinish, hd⟩ := returned_inside (hret d (by simp)) hstart (hstays d (by simp))
    rw [hfinish] at hrest
    obtain ⟨self'', hl, htrans⟩ := ih (h.step hstart hfinish hd) hrest
      (fun d' hd' => hret d' (by simp [hd'])) fun d' hd' => hstays d' (by simp [hd'])
    exact ⟨self'', hl, by simpa using htrans⟩

end Transacted

/-- The call was a statement of a session, and failed. -/
def Reply.failed : Reply H → Bool
  | .result (.error _) => true
  | _ => false

/-- The call is a BEGIN that began a transaction. -/
abbrev Begins (u : Unicode) (d : (system H u).Done) : Prop :=
  d.call.statement u = some .begin ∧ d.reply.failed = false

instance (u : Unicode) (d : (system H u).Done) : Decidable (Stays u d) :=
  inferInstanceAs (Decidable (_ ∧ _))

/-- The calls since BEGIN, while that transaction is open. -/
def sinceBegin (u : Unicode) (past : List (system H u).Done) : Option (List (system H u).Done) :=
  past.foldl (fun ops d =>
    match ops with
    | none => if Begins u d then some [] else none
    | some ops => if Stays u d then some (ops ++ [d]) else none) none

theorem sinceBegin_concat (past : List (system H u).Done) (d : (system H u).Done) :
    sinceBegin u (past ++ [d]) = match sinceBegin u past with
      | none => if Begins u d then some [] else none
      | some ops => if Stays u d then some (ops ++ [d]) else none := by
  simp [sinceBegin]

theorem sinceBegin_eq_some {past ops : List (system H u).Done} (h : sinceBegin u past = some ops) :
    ∃ before b, past = before ++ b :: ops ∧ Begins u b ∧ ∀ d ∈ ops, Stays u d := by
  induction past using List.reverseRecOn generalizing ops with
  | nil => cases h
  | append_singleton past d ih =>
    rw [sinceBegin_concat] at h
    cases hpast : sinceBegin u past with
    | none =>
      rw [hpast] at h
      dsimp only at h
      split at h
      next hb =>
        cases h
        exact ⟨past, d, rfl, hb, by simp⟩
      · cases h
    | some ops' =>
      rw [hpast] at h
      dsimp only at h
      split at h
      next hstays =>
        cases h
        obtain ⟨before, b, rfl, hb, hops⟩ := ih hpast
        refine ⟨before, b, by simp, hb, fun d' hd' => ?_⟩
        rcases List.mem_append.mp hd' with hd' | hd'
        · exact hops d' hd'
        · rw [List.mem_singleton] at hd'
          exact hd' ▸ hstays
      · cases h

/-- **The transaction that a session has open** has the life that its calls since BEGIN gave it. -/
theorem Remembers.transacted {allow : Call → Local H → Prop} {l₀ l : Local H}
    {past ops : List (system H u).Done} (h : Remembers u allow l₀ past l) (hl₀ : l₀.Sane)
    (hops : sinceBegin u past = some ops) : ∃ before b base self, past = before ++ b :: ops ∧
      b.seen = [⟨base, .begin, (H.begin base).1⟩] ∧ l = .session self ∧
      Transacted u base ops self := by
  obtain ⟨before, b, rfl, hb, hstays⟩ := sinceBegin_eq_some hops
  obtain ⟨m, hbefore, hafter⟩ := h.split
  obtain ⟨hstart, hlinked⟩ := hafter.linked
  have hbret := hafter.returned b (by simp)
  have hsane : m.Sane :=
    hbefore.linked.invariant (fun d hd => sane_of_returned (hbefore.returned d hd)) hl₀
  cases m with
  | handle txn =>
    have hen : b.call.Enabled b.start := hbret.enabled
    rw [hstart] at hen
    obtain ⟨call, _, _, _, _⟩ := b
    cases call with
    | execute | executeStatement => exact hen.elim
    | _ => cases hb.1
  | session self =>
    obtain ⟨txn, failed⟩ := self
    cases txn with
    | some t =>
      obtain ⟨r, self', hreply, -, hleads⟩ := returned_statement hbret hstart hb.1
      obtain ⟨-, heq⟩ := Leads.of_done hleads
      cases heq
      have hok := hb.2
      rw [hreply] at hok
      cases hok
    | none =>
      obtain rfl : failed = false := hsane rfl
      obtain ⟨base, hseen, -, hfinish⟩ := returned_begin hbret hstart hb.1
      rw [hfinish] at hlinked
      obtain ⟨self, hl, htrans⟩ := Transacted.begin.append hlinked
        (fun d hd => hafter.returned d (by simp [hd])) hstays
      exact ⟨before, b, base, self, rfl, hseen, hl, htrans⟩

/-- A statement other than BEGIN opens no transaction. -/
theorem ensures_outside (stmt : Statement) (h : stmt ≠ .begin) (failed : Bool) :
    ((⟨none, failed⟩ : Session H).executeStatement u stmt).Ensures (fun _ _ => True)
      (fun _ => True) fun r => r.2.txn = none := by
  cases htable : stmt.table? with
  | some table =>
    rw [executeStatement_row _ htable]
    split
    · rfl
    · refine Prog.ensures_bind_of fun txn => Prog.ensures_bind_of fun r => ?_
      obtain ⟨_ | _, txn⟩ := r
      · exact Prog.ensures_bind_of fun _ => rfl
      · refine Prog.ensures_bind_of fun r => ?_
        cases r <;> rfl
  | none =>
    cases stmt with
    | insert | select | update | delete => cases htable
    | begin => exact absurd rfl h
    | commit | rollback => rfl
    | createTable name columns => exact Prog.ensures_bind_of fun r => rfl

/-- COMMIT and ROLLBACK leave none open. -/
theorem ensures_closes {stmt : Statement} (h : stmt = .commit ∨ stmt = .rollback)
    (self : Session H) : (self.executeStatement u stmt).Ensures (fun _ _ => True)
      (fun _ => True) fun r => r.2.txn = none := by
  obtain ⟨_ | t, failed⟩ := self
  · exact ensures_outside stmt (by rcases h with rfl | rfl <;> exact nofun) failed
  · rcases h with rfl | rfl
    · cases failed with
      | true => exact Prog.ensures_bind_of fun _ => rfl
      | false =>
        refine Prog.ensures_bind_of fun r => ?_
        cases r <;> rfl
    · exact Prog.ensures_bind_of fun _ => rfl

/-- A session that has no call since BEGIN has no transaction open. -/
theorem Remembers.no_txn {allow : Call → Local H → Prop} {l₀ l : Local H}
    {past : List (system H u).Done} (h : Remembers u allow l₀ past l) (hl₀ : l₀.Idle)
    (hnone : sinceBegin u past = none) {self : Session H} (hl : l = .session self) :
    self.txn = none := by
  induction past using List.reverseRecOn generalizing l self with
  | nil =>
    obtain rfl : l = l₀ := h.linked
    rw [hl] at hl₀
    exact hl₀.1
  | append_singleton past d ih =>
    obtain ⟨m, hpast, hd⟩ := h.split
    obtain ⟨hstart, hlast⟩ := hd.linked
    have hret := hd.returned d (by simp)
    have hfinish : d.finish = .session self := hlast.symm.trans hl
    rw [sinceBegin_concat] at hnone
    cases m with
    | handle txn =>
      have hleads := hret.leads
      change Leads (O := system H u) (d.call.body u d.start) _ _ at hleads
      rw [hstart] at hleads
      obtain ⟨txn', hhandle⟩ := hleads.ensures (ensures_handle d.call txn)
      cases hhandle.symm.trans hfinish
    | session self₀ =>
    cases hops : sinceBegin u past with
    | none =>
      have hbefore := ih hpast hops rfl
      obtain ⟨_, failed⟩ := self₀
      obtain rfl : _ = none := hbefore
      cases hstmt : d.call.statement u with
      | none =>
        cases (returned_other hret hstart hstmt).symm.trans hfinish
        rfl
      | some stmt =>
        by_cases hbegin : stmt = .begin
        · subst hbegin
          obtain ⟨s, -, hreply, -⟩ := returned_begin hret hstart hstmt
          rw [hops] at hnone
          simp [Begins, hstmt, hreply, Reply.failed] at hnone
        · obtain ⟨r, self', -, hself, hleads⟩ := returned_statement hret hstart hstmt
          cases hself.symm.trans hfinish
          exact hleads.ensures (ensures_outside stmt hbegin failed)
    | some ops =>
      rw [hops] at hnone
      dsimp only at hnone
      split at hnone
      · cases hnone
      next hends =>
        have hstmt : d.call.statement u = some .commit ∨ d.call.statement u = some .rollback := by
          simpa [Stays, or_iff_not_imp_left] using hends
        rcases hstmt with hstmt | hstmt
        all_goals
          obtain ⟨r, self', -, hself, hleads⟩ := returned_statement hret hstart hstmt
          cases hself.symm.trans hfinish
        · exact hleads.ensures (ensures_closes (.inl rfl) self₀)
        · exact hleads.ensures (ensures_closes (.inr rfl) self₀)

/-- A call in a transaction, found by evaluation. -/
theorem exists_sinceBegin (past : List (system H u).Done) (n : ℕ)
    (check : List (system H u).Done → Bool)
    (h : ((sinceBegin u (past.take n)).map check) = some true) (hlen : n < past.length) :
    ∃ ops d, past = past.take n ++ d :: past.drop (n + 1) ∧ past[n]? = some d ∧
      sinceBegin u (past.take n) = some ops ∧ check ops = true := by
  obtain ⟨ops, hops, hcheck⟩ := Option.map_eq_some_iff.mp h
  refine ⟨ops, past[n], ?_, List.getElem?_eq_getElem hlen, hops, hcheck⟩
  rw [List.getElem_cons_drop, List.take_append_drop]

end Choam

import Choam.Verify.Creations

/-!
# Which tables a transaction sees

Rows are read from the snapshot of a transaction, tables are looked up in the newest catalog. So a
table that is created while a transaction is open appears in it (`not_schema_visibility`). Where
none of the tables that it names is, the transaction finds exactly the tables of its beginning, and
replies what it would have replied in any other such run (`schema_visibility`).
-/

namespace Choam

open ByteString Overlay Interleave

variable {H : Host} {C : H.Contract} {P : Promises} {u : Unicode}

/-- The statement has found the entry of the table that it names. -/
def Resolves (d : (system H u).Done) (table : String) : Prop :=
  ∃ s k bytes rest, catalogTableKey table = some k ∧ d.seen = ⟨s, .get k, some bytes⟩ :: rest

/-! ## A statement and its table -/

theorem exec_run_unknown {s : H.Store} {t : H.Txn} {stmt : Statement} {table : String}
    (htable : stmt.table? = some table) (h : lookupTable (H.get s) table = .ok none) :
    (run u stmt : RowM (ExecError H.StoreError) _).exec s t =
      (.error (.db (.unknownTable table)), t) := by
  have hschema : (schemaOf table : RowM (ExecError H.StoreError) _).exec s t =
      (.error (.db (.unknownTable table)), t) := by
    rw [exec_schemaOf, tableAt, h]
    rfl
  cases stmt with
  | insert _ columns rows =>
    cases htable
    rw [run, insert, RowM.exec_bind, hschema]
  | select _ _ _ _ _ =>
    cases htable
    rw [run, select, RowM.exec_bind, hschema]
  | update _ _ _ =>
    cases htable
    rw [run, update, RowM.exec_bind, hschema]
  | delete _ _ =>
    cases htable
    rw [run, delete, RowM.exec_bind, hschema]
  | createTable | begin | commit | rollback => cases htable

/-- A statement finds its table when the store of its first access has it. -/
theorem resolves_iff {d : (system H u).Done} {t t' : H.Txn} {stmt : Statement} {table : String}
    {r : Session.Reply H} (htable : stmt.table? = some table)
    (hleads : Leads (O := system H u) ((run u stmt).onStore t) d.seen (.done (r, t')))
    {base : H.Store} (hentry : ∀ k, catalogTableKey table = some k → ∀ a ∈ d.seen.head?,
      C.committed a.before k = C.committed base k) :
    Resolves d table ↔ TableIn (C.committed base) table := by
  have hstart := RowM.startsOn_run (u := u) (E := H.StoreError) htable
  unfold RowM.StartsOn at hstart
  cases hk : catalogTableKey table with
  | none =>
    constructor
    · rintro ⟨_, _, _, _, hk', -⟩
      rw [hk] at hk'
      cases hk'
    · rintro ⟨_, hk', -⟩
      rw [hk] at hk'
      cases hk'
  | some k =>
    rw [hk] at hstart
    obtain ⟨next, hrun, -⟩ := hstart
    unfold RowM.onStore at hleads
    rw [hrun] at hleads
    obtain ⟨s, rest, hseen, -⟩ := Leads.of_call_done hleads
    have hsame : H.get s k = C.committed base k := by
      rw [C.get_committed]
      exact hentry k hk ⟨s, .get k, H.get s k⟩ (by rw [hseen]; rfl)
    have hfirst : d.seen = ⟨s, .get k, C.committed base k⟩ :: rest := hsame ▸ hseen
    constructor
    · rintro ⟨s', k', bytes, rest', hk', hseen'⟩
      rw [hfirst] at hseen'
      obtain ⟨ha, -⟩ := List.cons.inj hseen'
      injection ha with _ hop hanswer
      cases hop
      exact ⟨k, hk, by rw [hanswer]; exact nofun⟩
    · rintro ⟨k', hk', hlive⟩
      rw [hk] at hk'
      cases hk'
      obtain ⟨bytes, hbytes⟩ := Option.ne_none_iff_exists'.mp hlive
      exact ⟨s, k, bytes, rest, hk, by rw [hfirst, hbytes]⟩

/-! ## Creations in between -/

/-- Of the entries of tables, a creation writes that of its own. -/
theorem CreateTxn.key_eq {t : H.Txn} {s : H.Store} {key k : Bytes} {schema : Schema}
    {names : List String} (h : CreateTxn C t s key schema names) {table : String}
    (hk : catalogTableKey table = some k) (hne : C.writes t k ≠ none) : k = key := by
  by_contra hkey
  apply hne
  rw [h.writes, Writes.set_of_ne _ (catalogTableKey_ne_index hk), Writes.set_of_ne _ hkey,
    Writes.set_of_ne _ (catalogTableKey_ne_counter hk)]
  rfl

section Log

variable {ι : Type} [DecidableEq ι] {allow : Call → Local H → Prop} {s₀ : H.Store}
  {l₀ : ι → Local H} {g : (system H u).Config ι}

/-- The access has committed a creation of the table. -/
def CommitsTable (e : (system H u).Entry ι) (table : String) : Prop :=
  e.call.CreatesTable u table ∧ (committedTxn e.access).isSome

/-- Entries that commit no creation of the table leave its entry as it is. -/
theorem entry_of_not_created (hlog : Logged allow s₀ l₀ g) (hgood : (protocol C P u).Good s₀ g)
    (hrows : ∀ e ∈ g.log, e.start.WritesRows C) {table : String} {k : Bytes}
    (hk : catalogTableKey table = some k) {earlier since later : List ((system H u).Entry ι)}
    (h : g.log = earlier ++ since ++ later) (hnone : ∀ e ∈ since, ¬ CommitsTable e table) :
    C.committed (replayLog s₀ (earlier ++ since)) k = C.committed (replayLog s₀ earlier) k := by
  induction since using List.reverseRecOn generalizing later with
  | nil => rw [List.append_nil]
  | append_singleton since e ih =>
    have hsplit : g.log = (earlier ++ since) ++ e :: later := by simpa using h
    have ih := @ih (e :: later) hsplit fun e' he' => hnone e' (by simp [he'])
    rw [← ih, ← List.append_assoc]
    rcases entry_cases hlog hgood hsplit with ⟨t, ht, -, happ⟩ | ⟨-, hsame⟩
    · have hwrites : C.writes t k = none := by
        by_contra hne
        have hc : e.call.Creates u := by
          by_contra hc
          exact hne ((committing_of_entry (C := C) hlog hsplit ht).writesRows
            (hrows e (by rw [hsplit]; simp)) hc (not_isRowKey_of_catalogTableKey hk))
        obtain ⟨next, hleads⟩ := (hlog.entry _ e later hsplit).leads
        obtain ⟨s, hacc⟩ := committedTxn_eq_some.mp ht
        have hcommits := hnone e (by simp)
        obtain ⟨who, past, call, l, seen, access⟩ := e
        subst hacc
        obtain ⟨base, th, hcreating, hname, -⟩ := creating_of_body (C := C) hc hleads
        obtain ⟨key, names, htxn⟩ := hcreating.txn
        obtain rfl := htxn.key_eq hk hne
        have htable := catalogTableKey_inj hk htxn.tableKey
        exact hcommits ⟨htable ▸ hname, by rw [ht]; rfl⟩
      rw [Host.Contract.committed, happ.replay, Writes.apply_of_none hwrites]
      rfl
    · rw [Host.Contract.committed, hsame]
      rfl

/-- Between its BEGIN, which comes before the calls `ops`, and what it accesses after the calls
`past`, a creation of the table is committed. -/
def CreatedSince (log : List ((system H u).Entry ι)) (i : ι) (past ops : List (system H u).Done)
    (table : String) : Prop :=
  ∃ before b since e later, log = before ++ b :: since ++ e :: later ∧ b.who = i ∧ e.who = i ∧
    accessesOf (before ++ b :: since) i = accesses past ∧ accessesOf since i = accesses ops ∧
      ∃ x ∈ since, CommitsTable x table

/-- Client `i` made the call `d` in a transaction that had not failed: it began on the store `base`,
before the calls `ops`. No table that one of these calls or `d` names was created between the
beginning and that call. -/
structure Undisturbed (g : (system H u).Config ι) (i : ι) (base : H.Store)
    (ops : List (system H u).Done) (d : (system H u).Done) (t : H.Txn) : Prop where
  past : ∃ before b rest, (g.client i).past = before ++ b :: ops ++ d :: rest ∧
    sinceBegin u (before ++ b :: ops) = some ops ∧ b.seen = [⟨base, .begin, (H.begin base).1⟩] ∧
    ∀ ops₁ o ops₂, ops ++ [d] = ops₁ ++ o :: ops₂ → ∀ stmt table,
      o.call.statement u = some stmt → stmt.table? = some table →
        ¬ CreatedSince g.log i (before ++ b :: ops₁) ops₁ table
  start : d.start = .session ⟨some t, false⟩

/-- The first access after some calls of a client, and the BEGIN before it, in the log. -/
theorem exists_since (hlog : Logged allow s₀ l₀ g) {i : ι} {base : H.Store}
    {before ops rest : List (system H u).Done} {b d : (system H u).Done}
    (hpast : (g.client i).past = before ++ b :: ops ++ d :: rest)
    (hb : b.seen = [⟨base, .begin, (H.begin base).1⟩]) {a : (system H u).Access}
    (ha : d.seen.head? = some a) : ∃ earlier x since e later,
      g.log = earlier ++ x :: since ++ e :: later ∧ x.who = i ∧ e.who = i ∧ e.access = a ∧
        accessesOf (earlier ++ x :: since) i = accesses (before ++ b :: ops) ∧
        accessesOf since i = accesses ops ∧ base = replayLog s₀ earlier ∧
        x.access = ⟨base, .begin, (H.begin base).1⟩ := by
  obtain ⟨drest, hseen⟩ := List.head?_eq_some_iff.mp ha
  obtain ⟨more, hown⟩ := accessesOf_past hlog i
  have hsplit : accessesOf g.log i = accesses (before ++ b :: ops) ++ a ::
      (drest ++ accesses rest ++ more) := by
    rw [hown, hpast, accesses_append, accesses_cons, hseen]
    simp
  obtain ⟨front, e, later, hfront, hwho, hacc, hfirst, -⟩ := exists_entry_of_accessesOf hsplit
  have hbegin : accessesOf front i =
      accesses before ++ ⟨base, .begin, (H.begin base).1⟩ :: accesses ops := by
    rw [hfirst, accesses_append, accesses_cons, hb, List.singleton_append]
  obtain ⟨earlier, x, since, rfl, hx, hxacc, -, hsince⟩ := exists_entry_of_accessesOf hbegin
  refine ⟨earlier, x, since, e, later, hfront, hx, hwho, hacc, hfirst, hsince, ?_, hxacc⟩
  have hbase := (hlog.entry earlier x (since ++ e :: later) (by simpa using hfront)).before
  rwa [hxacc] at hbase

/-- A call whose tables were not created since then meets them as they were at BEGIN. -/
theorem meetsEntries_of_not_created (hlog : Logged allow s₀ l₀ g)
    (hgood : (protocol C P u).Good s₀ g) (hrows : ∀ e ∈ g.log, e.start.WritesRows C) {i : ι}
    {base : H.Store} {before ops rest : List (system H u).Done} {b o : (system H u).Done}
    (hpast : (g.client i).past = before ++ b :: ops ++ o :: rest)
    (hb : b.seen = [⟨base, .begin, (H.begin base).1⟩])
    (hcreated : ∀ stmt table, o.call.statement u = some stmt → stmt.table? = some table →
      ¬ CreatedSince g.log i (before ++ b :: ops) ops table) : MeetsEntries C base o := by
  intro stmt table k hstmt htable hk a ha
  obtain ⟨earlier, x, since, e, later, hsplit, hx, hwho, hacc, hfront, hsince, hbase, hxacc⟩ :=
    exists_since hlog hpast hb ha
  have hbefore := (hlog.entry (earlier ++ x :: since) e later hsplit).before
  rw [hacc] at hbefore
  rw [hbefore, hbase]
  refine entry_of_not_created hlog hgood hrows hk hsplit fun y hy hcommits => ?_
  rcases List.mem_cons.mp hy with rfl | hy
  · have hsome := hcommits.2
    rw [hxacc] at hsome
    cases hsome
  · exact hcreated stmt table hstmt htable
      ⟨earlier, x, since, e, later, hsplit, hx, hwho, hfront, hsince, y, hy, hcommits⟩

/-- What an undisturbed statement and those before it do is decided by what was committed at the
beginning of their transaction. -/
theorem effects_of_undisturbed (hs₀ : Grown C u s₀) (hl₀ : ∀ i, (l₀ i).Idle)
    (hg : Reachable allow (start s₀ l₀) g) {i : ι} {base : H.Store} {ops : List (system H u).Done}
    {d : (system H u).Done} {t : H.Txn} (h : Undisturbed g i base ops d t) {stmt : Statement}
    {table : String} (hstmt : d.call.statement u = some stmt) (htable : stmt.table? = some table) :
    Effects C u (C.committed base) (rowReplies u (ops.map fun o => (o.call, o.reply))) (C.view t) ∧
    (Resolves d table ↔ TableIn (C.committed base) table) ∧
    ∃ r c, d.reply = .result r ∧ Effect C u stmt (C.view t) r c ∧
      (¬ TableIn (C.committed base) table → r = .error (.db (.unknownTable table))) := by
  have hwithin : ∀ c l, allow c l → c.Within unpromised u := fun c _ _ => within_unpromised c
  have hlog := hg.logged
  have hgood := good_of_reachable hwithin hs₀.sound hl₀ hg
  have hrows := (writesRows_of_reachable hwithin hs₀.sound hl₀ hg).2
  obtain ⟨before, b, rest, hpast, hops, hb, hcreated⟩ := h.past
  have hmeets : ∀ o ∈ ops ++ [d], MeetsEntries C base o := by
    intro o ho
    obtain ⟨ops₁, ops₂, hsplit⟩ := List.append_of_mem ho
    have hall : (g.client i).past = before ++ b :: ops₁ ++ o :: (ops₂ ++ rest) := by
      have hcalls : before ++ b :: (ops ++ [d]) ++ rest = (g.client i).past := by
        rw [hpast]
        simp
      rw [← hcalls, hsplit]
      simp
    exact meetsEntries_of_not_created hlog hgood hrows hall hb (hcreated ops₁ o ops₂ hsplit)
  obtain ⟨l, hrem⟩ := Remembers.of_client hlog i
  rw [hpast] at hrem
  obtain ⟨m, hbefore, hafter⟩ := hrem.split
  obtain ⟨before', b', base', self, heq, hb', rfl, htrans⟩ :=
    hbefore.transacted (hl₀ i).sane hops
  obtain ⟨hlen, hcons⟩ := List.append_inj' heq rfl
  cases hcons
  rw [hb] at hb'
  cases hb'
  obtain ⟨hstart, -⟩ := hafter.linked
  have hself := hstart.symm.trans h.start
  cases hself
  have hpair := (ordered_client hgood hlog i).1
  rw [hpast, List.append_assoc, List.cons_append, accesses_append, accesses_cons, hb,
    List.singleton_append, accesses_append, accesses_cons] at hpair
  obtain ⟨hfollow, hd⟩ := (follow_of_pairwise hpair).append
  have hbegun : BegunOn C base t := htrans.begunOn t rfl
  have heffects := htrans.effects hfollow (fun o ho => hmeets o (by simp [ho])) t rfl
  have hstays : Stays u d := by
    constructor <;> intro h <;> rw [hstmt] at h <;> cases h <;> cases htable
  obtain ⟨self', hfinish, hinside⟩ :=
    returned_inside (hafter.returned d (by simp)) hstart hstays
  cases hinside with
  | same hrow => cases (hrow stmt table hstmt htable).1
  | @ran stmt' table' r t' hnot hstmt' htable' hreply hleads =>
    rw [hstmt] at hstmt'
    cases hstmt'
    have hentry : ∀ k, catalogTableKey table = some k → ∀ a ∈ d.seen.head?,
        C.committed a.before k = C.committed base k :=
      fun k hk => hmeets d (by simp) stmt table k hstmt htable hk
    have heffect := effect_of_entry hbegun htable hentry hleads hd.append.1
    refine ⟨heffects, resolves_iff htable hleads hentry, r, _, hreply, heffect, fun hnone => ?_⟩
    obtain ⟨s, t₁, t₁', hcat, hview, hexec, -⟩ := heffect.exec
    have hlookup : lookupTable (H.get s) table = .ok none := by
      unfold lookupTable
      cases hk : catalogTableKey table with
      | none => rfl
      | some k =>
        have habsent : H.get s k = none := by
          have hrow := not_isRowKey_of_catalogTableKey hk
          rw [C.get_committed, hcat k hrow, hbegun.view_of_not_isRowKey hrow]
          by_contra hlive
          exact hnone ⟨k, hk, hlive⟩
        dsimp only
        rw [habsent]
    rw [exec_run_unknown htable hlookup] at hexec
    cases hexec
    rfl

/-- **Where no table is created meanwhile, a transaction sees the tables of its beginning.** In any
interleaving of any number of clients, on any store that clients of a new database have made: a
statement on rows of an explicit transaction that has not failed, where no table that the
transaction has named so far was created between its BEGIN and the call that names it, finds its
table exactly when that existed at BEGIN, and otherwise replies that it is unknown. And in any other
such run, whatever else happens there, a transaction that began on the same contents and makes the
same statements gets the same replies. -/
theorem schema_visibility (hs₀ : Grown C u s₀) (hl₀ : ∀ i, (l₀ i).Idle)
    (hg : Reachable allow (start s₀ l₀) g) {i : ι} {base : H.Store}
    {ops : List (system H u).Done} {d : (system H u).Done} {t : H.Txn}
    (h : Undisturbed g i base ops d t) {stmt : Statement} {table : String}
    (hstmt : d.call.statement u = some stmt) (htable : stmt.table? = some table) :
    (Resolves d table ↔ TableIn (C.committed base) table) ∧
    (¬ TableIn (C.committed base) table →
      d.reply = .result (.error (.db (.unknownTable table)))) ∧
    ∀ (allow' : Call → Local H → Prop) (s₀' : H.Store) (l₀' : ι → Local H)
      (g' : (system H u).Config ι) (i' : ι) (base' : H.Store) (ops' : List (system H u).Done)
      (d' : (system H u).Done) (t' : H.Txn), Grown C u s₀' → (∀ i, (l₀' i).Idle) →
      Reachable allow' (start s₀' l₀') g' → Undisturbed g' i' base' ops' d' t' →
      C.committed base' = C.committed base → d'.call.statement u = some stmt →
      (rowReplies u (ops'.map fun o => (o.call, o.reply))).map (·.1) =
        (rowReplies u (ops.map fun o => (o.call, o.reply))).map (·.1) →
      rowReplies u (ops'.map fun o => (o.call, o.reply)) =
        rowReplies u (ops.map fun o => (o.call, o.reply)) ∧ d'.reply = d.reply := by
  obtain ⟨heffects, hresolves, r, c, hreply, heffect, hunknown⟩ :=
    effects_of_undisturbed (C := C) hs₀ hl₀ hg h hstmt htable
  refine ⟨hresolves, fun hnone => by rw [hreply, hunknown hnone], ?_⟩
  intro allow' s₀' l₀' g' i' base' ops' d' t' hs₀' hl₀' hg' h' hsame hstmt' hstatements
  obtain ⟨heffects', -, r', c', hreply', heffect', -⟩ :=
    effects_of_undisturbed (C := C) hs₀' hl₀' hg' h' hstmt' htable
  rw [hsame] at heffects'
  have hnamed : ∀ x ∈ rowReplies u (ops'.map fun o => (o.call, o.reply)),
      ∃ table, x.1.table? = some table := by
    intro x hx
    obtain ⟨y, -, hy⟩ := List.mem_filterMap.mp hx
    obtain ⟨stmt', table', -, htable', rfl, -⟩ := rowReply_eq_some.mp hy
    exact ⟨table', htable'⟩
  obtain ⟨hreplies, hview⟩ := Effects.unique hnamed hstatements heffects' heffects
  rw [hview] at heffect'
  obtain ⟨rfl, -⟩ := heffect'.unique htable heffect
  exact ⟨hreplies, by rw [hreply', hreply]⟩

end Log

/-- SELECT * FROM a. -/
def selectSample : Statement := .select .all "a" none none none

/-- BEGIN; then another session creates a table; then the transaction looks for a second one. -/
def otherCalls : List (ℕ × Call) :=
  [(1, .executeStatement .begin), (0, .createTable "b" [⟨"k", .integer, false⟩] 0),
    (1, .executeStatement selectSample)]

theorem schema_visibility_sample : ∃ b d, ((sampleRun otherCalls).client 1).past = [b, d] ∧
    (Resolves d "a" ↔ TableIn ((Reference.contract true).committed []) "a") := by
  have hg : Reachable (fun (c : Call) _ => ¬ c.CreatesTable Unicode.ascii "a")
      (start ([] : List Reference.WriteList) newSessions) (sampleRun otherCalls) := by
    refine reachable_sampleRun fun c hc _ => ?_
    simp only [otherCalls, List.mem_cons, List.not_mem_nil, or_false] at hc
    rcases hc with rfl | rfl | rfl
    · rintro (⟨_, _, h⟩ | ⟨_, h⟩) <;> cases h
    · rintro (⟨_, _, h⟩ | ⟨_, h⟩)
      · injection h with hname
        exact absurd hname (by decide)
      · cases h
    · rintro (⟨_, _, h⟩ | ⟨_, h⟩) <;> cases h
  refine ⟨_, _, rfl, (schema_visibility (C := Reference.contract true) (.of_nil rfl)
    idle_newSessions hg (show Undisturbed _ 1 _ [] _ _ from
      ⟨⟨[], _, [], rfl, rfl, rfl, ?_⟩, rfl⟩) rfl rfl).1⟩
  rintro ops₁ o ops₂ hops stmt table hstmt htable
    ⟨before, b, since, e, later, hsplit, -, -, -, -, x, hx, hc⟩
  have ho : o ∈ ops₁ ++ o :: ops₂ := by simp
  rw [← hops] at ho
  obtain rfl := List.mem_singleton.mp ho
  cases hstmt
  cases htable
  have hmem : x ∈ (sampleRun otherCalls).log := by
    rw [hsplit]
    simp [hx]
  obtain ⟨earlier, later', hentry⟩ := List.append_of_mem hmem
  exact (hg.logged.entry earlier x later' hentry).allowed hc.1

/-- BEGIN; then another session creates a table; then the transaction reads it. -/
def lateCalls : List (ℕ × Call) :=
  [(1, .executeStatement .begin), (0, .executeStatement createSample),
    (1, .executeStatement selectSample)]

/-- The transaction reads a table that did not exist when it began, where it would find none if the
other session had not created it. -/
theorem not_schema_visibility :
    (∃ b d, ((sampleRun lateCalls).client 1).past = [b, d] ∧
      b.seen = [⟨[], .begin, ((Reference.host true).begin []).1⟩] ∧
      ¬ TableIn ((Reference.contract true).committed []) "a" ∧ Resolves d "a" ∧
      d.reply = .result (.ok ⟨["k", "v"], [], 0⟩)) ∧
    ((sampleRun [(1, .executeStatement .begin), (1, .executeStatement selectSample)]).client 1).past.map
      (·.reply) = [.result (.ok .default), .result (.error (.db (.unknownTable "a")))] := by
  refine ⟨⟨_, _, rfl, rfl, ?_, ⟨_, _, _, _, rfl, rfl⟩, rfl⟩, rfl⟩
  rintro ⟨k, -, hlive⟩
  exact hlive rfl

end Choam

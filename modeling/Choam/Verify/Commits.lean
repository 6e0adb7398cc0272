import Choam.Verify.Past

/-!
# What is committed

The committed contents of a reachable store are the contents at the beginning with the write sets
of the successful commits applied to them, in the order of these commits (`committed_eq`). Every
commit is that of an explicit transaction in which nothing has failed, of a statement in autocommit
mode that succeeded, of a relational transaction, or of the creation of a table, which writes no
rows (`Committing`); and a call that made a successful commit succeeds (`committing_of_leads`).
-/

namespace Choam

open ByteString Overlay Interleave Catalog

variable {H : Host} {C : H.Contract} {P : Promises} {u : Unicode}

/-! ## The committed contents -/

/-- The transaction that an access has committed. -/
def committedTxn : (system H u).Access → Option H.Txn
  | ⟨_, .commit t, .ok ()⟩ => some t
  | _ => none

theorem committedTxn_eq_some {a : (system H u).Access} {t : H.Txn} :
    committedTxn a = some t ↔ ∃ s, a = ⟨s, .commit t, .ok ()⟩ := by
  constructor
  · intro h
    unfold committedTxn at h
    split at h
    · cases h
      exact ⟨_, rfl⟩
    · cases h
  · rintro ⟨s, rfl⟩
    rfl

/-- The transactions that a log has committed, in order. -/
def commits {ι : Type} (log : List ((system H u).Entry ι)) : List H.Txn :=
  log.filterMap fun e => committedTxn e.access

/-- The contents after the write sets of some transactions. -/
def applyAll (C : H.Contract) (c : Contents Bytes Bytes) (ts : List H.Txn) :
    Contents Bytes Bytes := ts.foldl (fun c t => (C.writes t).apply c) c

/-- The operations other than a commit leave the history alone. -/
theorem StoreOp.history_perform (C : H.Contract) {o : StoreOp H} (ho : ∀ t, o ≠ .commit t)
    (s : H.Store) : C.history (o.perform s).2 = C.history s := by
  cases o with
  | get k | read t k | scan t p | put t k v | delete t k => rfl
  | begin => exact C.history_begin s
  | abort t => exact C.history_abort t s
  | commit t => exact absurd rfl (ho t)

/-- One access: a successful commit of what nobody wrote in the meantime, or nothing is committed. -/
theorem access_cases {a : (system H u).Access}
    (hres : a.res = ((system H u).perform a.op a.before).1)
    (hsnap : ∀ t, a.op = .commit t → C.snapshot t <+: C.history a.before) :
    (∃ t, committedTxn a = some t ∧
      (∀ k, C.writes t k ≠ none → ¬ WrittenSince (C.snapshot t) (C.history a.before) k) ∧
      Appends (C.writes t) (C.history a.before)
        (C.history ((system H u).perform a.op a.before).2)) ∨
    committedTxn a = none ∧
      C.history ((system H u).perform a.op a.before).2 = C.history a.before := by
  obtain ⟨s, o, r⟩ := a
  dsimp only at hres hsnap ⊢
  subst hres
  by_cases hcommit : ∃ t, o = .commit t
  · obtain ⟨t, rfl⟩ := hcommit
    show (∃ t', committedTxn (u := u) ⟨s, .commit t, (H.commit t s).1⟩ = some t' ∧ _ ∧ _) ∨
      committedTxn (u := u) ⟨s, .commit t, (H.commit t s).1⟩ = none ∧ _
    cases C.commit_cases (hsnap t rfl) with
    | ok hres hfree happ => exact .inl ⟨t, by rw [hres]; rfl, hfree, happ⟩
    | conflict k hres hk hsince hsame => exact .inr ⟨by rw [hres]; rfl, hsame⟩
    | store e hres hsame => exact .inr ⟨by rw [hres]; rfl, hsame⟩
  · have hne : ∀ t, o ≠ .commit t := fun t h => hcommit ⟨t, h⟩
    refine .inr ⟨?_, StoreOp.history_perform C hne s⟩
    by_contra hsome
    obtain ⟨t, ht⟩ := Option.ne_none_iff_exists'.mp hsome
    obtain ⟨s', heq⟩ := committedTxn_eq_some.mp ht
    exact hne t (congrArg (·.op) heq)

section Log

variable {ι : Type} [DecidableEq ι] {allow : Call → Local H → Prop} {s₀ : H.Store}
  {l₀ : ι → Local H} {g : (system H u).Config ι}

/-- One entry of the log. -/
theorem entry_cases (hlog : Logged allow s₀ l₀ g) (hgood : (protocol C P u).Good s₀ g)
    {earlier later : List ((system H u).Entry ι)} {e : (system H u).Entry ι}
    (h : g.log = earlier ++ e :: later) :
    (∃ t, committedTxn e.access = some t ∧
      (∀ k, C.writes t k ≠ none →
        ¬ WrittenSince (C.snapshot t) (C.history (replayLog s₀ earlier)) k) ∧
      Appends (C.writes t) (C.history (replayLog s₀ earlier))
        (C.history (replayLog s₀ (earlier ++ [e])))) ∨
    committedTxn e.access = none ∧
      C.history (replayLog s₀ (earlier ++ [e])) = C.history (replayLog s₀ earlier) := by
  have he := hlog.entry earlier e later h
  have hcommit : ∀ t, e.access.op = .commit t → CommitOk C P t e.access.before :=
    hgood.log e (by simp [h])
  rw [replayLog_concat, ← he.before]
  exact access_cases he.res fun t ht => (hcommit t ht).snapshot

/-- **What is committed**, before every access and now. -/
theorem committed_replayLog (hlog : Logged allow s₀ l₀ g) (hgood : (protocol C P u).Good s₀ g)
    {earlier later : List ((system H u).Entry ι)} (h : g.log = earlier ++ later) :
    C.committed (replayLog s₀ earlier) = applyAll C (C.committed s₀) (commits earlier) := by
  induction earlier using List.reverseRecOn generalizing later with
  | nil => rfl
  | append_singleton earlier e ih =>
    have hsplit : g.log = earlier ++ e :: later := by simpa using h
    simp only [commits, List.filterMap_append, applyAll, List.foldl_append]
    rcases entry_cases hlog hgood hsplit with ⟨t, ht, -, happ⟩ | ⟨hnone, hsame⟩
    · rw [Host.Contract.committed, happ.replay, ← Host.Contract.committed, ih hsplit]
      simp [ht, commits, applyAll]
    · rw [Host.Contract.committed, hsame, ← Host.Contract.committed, ih hsplit]
      simp [hnone, commits, applyAll]

theorem committed_eq (hlog : Logged allow s₀ l₀ g) (hgood : (protocol C P u).Good s₀ g) :
    C.committed g.shared = applyAll C (C.committed s₀) (commits g.log) := by
  rw [hlog.shared]
  exact committed_replayLog hlog hgood (List.append_nil g.log).symm

/-- **Who wrote a key** between two moments: a transaction committed between them. -/
theorem writtenSince_replayLog (hlog : Logged allow s₀ l₀ g) (hgood : (protocol C P u).Good s₀ g)
    {earlier mid later : List ((system H u).Entry ι)} (h : g.log = earlier ++ mid ++ later) :
    C.history (replayLog s₀ earlier) <+: C.history (replayLog s₀ (earlier ++ mid)) ∧
      ∀ k, WrittenSince (C.history (replayLog s₀ earlier)) (C.history (replayLog s₀ (earlier ++ mid))) k ↔
        ∃ t ∈ commits mid, C.writes t k ≠ none := by
  induction mid using List.reverseRecOn generalizing later with
  | nil => simp [commits]
  | append_singleton mid e ih =>
    have hsplit : g.log = earlier ++ mid ++ e :: later := by simpa using h
    obtain ⟨hpre, hiff⟩ := ih hsplit
    rw [← List.append_assoc]
    rcases entry_cases hlog hgood hsplit with ⟨t, ht, -, happ⟩ | ⟨hnone, hsame⟩
    · refine ⟨hpre.trans happ.extends, fun k => ?_⟩
      rw [writtenSince_trans hpre happ.extends, hiff, happ.writtenSince]
      simp [commits, ht, or_and_right, exists_or]
    · rw [hsame]
      refine ⟨hpre, fun k => ?_⟩
      rw [hiff]
      simp [commits, hnone]

end Log

/-! ## Who commits -/

/-- The call failed. -/
def Reply.isError : Reply H → Bool
  | .result r => Session.isError r
  | .created r => Session.isError r
  | .table r => Session.isError r
  | .tables r => Session.isError r
  | .row r => Session.isError r
  | .rows r => Session.isError r
  | .done r => Session.isError r

/-- What commits `t`: the call `c`, made in the local state `l`, after the accesses `seen`. -/
inductive Committing (C : H.Contract) (u : Unicode) (c : Call) (l : Local H)
    (seen : List (system H u).Access) (t : H.Txn) : Prop
  | session (hcall : c.statement u = some .commit) (hlocal : l = .session ⟨some t, false⟩)
      (hseen : seen = [])
  | autocommit {stmt : Statement} {table : String} {base : H.Store} {r : QueryResult}
      {rest : List (system H u).Access} {reply : Session.Reply H} (hok : reply = .ok r)
      (hcall : c.statement u = some stmt)
      (htable : stmt.table? = some table) (hlocal : l = .session ⟨none, false⟩)
      (hseen : seen = ⟨base, .begin, (H.begin base).1⟩ :: rest)
      (hleads : Leads (O := system H u) ((run u stmt).onStore (H.begin base).1) rest
        (.done (reply, t)))
  | handle (hcall : c = .commit) (hlocal : l = .handle (some t)) (hseen : seen = [])
  | create (hcall : (∃ name columns pk, c = .createTable name columns pk) ∨
        ∃ name columns, c.statement u = some (.createTable name columns))
      (hrows : ∀ k, IsRowKey k → C.writes t k = none)

/-- How the store answers. -/
def AnsweredBy (o : StoreOp H) (r : o.Res) : Prop := ∃ s, r = (o.perform s).1

/-- At a commit the creation of a table has written no rows, and succeeds with it. -/
def CreatesAt (C : H.Contract) : (o : StoreOp H) →
    (o.Res → StoreM H (Except (CatalogError H.StoreError) TableHandle)) → Prop
  | .commit t, next => (∀ k, IsRowKey k → C.writes t k = none) ∧ ∃ h, next (.ok ()) = .done (.ok h)
  | _, _ => True

theorem always_createTable (name : String) (columns : List ColumnDef) (pk : Nat) :
    (Catalog.createTable (H := H) name columns pk).Always AnsweredBy (CreatesAt C) := by
  unfold Catalog.createTable
  split
  · trivial
  next key hkey =>
  split
  · trivial
  refine ⟨trivial, ?_⟩
  rintro _ ⟨s, rfl⟩
  refine ⟨trivial, fun (r : Option Bytes) _ => ?_⟩
  cases r with
  | some v => exact ⟨trivial, fun _ _ => trivial⟩
  | none =>
  refine ⟨trivial, fun (r : Option Bytes) _ => ?_⟩
  refine iteInduction (motive := fun p => Prog.Always _ _ p) (fun _ => ⟨trivial, fun _ _ => trivial⟩)
    fun _ => ?_
  refine ⟨trivial, ?_⟩
  rintro _ ⟨s₁, rfl⟩
  refine ⟨trivial, ?_⟩
  rintro _ ⟨s₂, rfl⟩
  refine ⟨trivial, fun (r : Option Bytes) _ => ?_⟩
  simp only [Prog.bind]
  split
  · exact ⟨trivial, fun _ _ => trivial⟩
  refine ⟨trivial, ?_⟩
  rintro _ ⟨s₃, rfl⟩
  refine ⟨⟨fun k hk => ?_, ⟨_, rfl⟩⟩, fun (r : Except (TxnError H.StoreError) Unit) _ => ?_⟩
  · have hcounter : k ≠ catalogCounterKey := fun h => not_isRowKey_catalogCounterKey (h ▸ hk)
    have hindex : k ≠ catalogIndexKey := fun h => not_isRowKey_catalogIndexKey (h ▸ hk)
    have hentry : k ≠ key := fun h => not_isRowKey_of_catalogTableKey hkey (h ▸ hk)
    simp [StoreOp.perform, Writes.set_of_ne, hcounter, hindex, hentry]
  · rcases r with (_ | _) | ⟨⟩ <;> trivial

section Leads

variable {α : Type} {seen : List (system H u).Access} {t : H.Txn}

theorem answeredBy (o : StoreOp H) (s : H.Store) : AnsweredBy o (o.perform s).1 := ⟨s, rfl⟩

theorem IsQuiet.not_commit {p : StoreM H α} {next : Except (TxnError H.StoreError) Unit → StoreM H α}
    (hp : IsQuiet p) : ¬ Leads (O := system H u) p seen (.call (.commit t) next) :=
  fun h => (h.ensured (fun _ _ => trivial) hp).1

theorem not_commit_of_done {a : α} {next : Except (TxnError H.StoreError) Unit → StoreM H α} :
    ¬ Leads (O := system H u) (.done a) seen (.call (.commit t) next) :=
  IsQuiet.not_commit (p := .done a) trivial

/-- The operation is a commit. -/
def StoreOp.IsCommit : StoreOp H → Prop
  | .commit _ => True
  | _ => False

/-- An operation that is no commit has been made. -/
theorem after_call {o : StoreOp H} {next' : o.Res → StoreM H α}
    {next : Except (TxnError H.StoreError) Unit → StoreM H α}
    (h : Leads (O := system H u) (.call o next') seen (.call (.commit t) next))
    (ho : ¬ o.IsCommit) :
    ∃ s rest, seen = ⟨s, o, (o.perform s).1⟩ :: rest ∧
      Leads (O := system H u) (next' (o.perform s).1) rest (.call (.commit t) next) := by
  rcases Leads.of_call h with ⟨-, heq⟩ | h
  · injection heq with ho'
    subst ho'
    exact absurd trivial ho
  · exact h

theorem relCommit_of_leads {t' : H.Txn}
    {next : Except (TxnError H.StoreError) Unit → StoreM H (Except (DbError H.StoreError) Unit)}
    (h : Leads (O := system H u) (RelTransaction.commit t') seen (.call (.commit t) next)) :
    t = t' ∧ seen = [] ∧ next (.ok ()) = .done (.ok ()) := by
  rcases Leads.of_call h with ⟨rfl, heq⟩ | ⟨s, rest, -, h⟩
  · cases heq
    exact ⟨rfl, rfl, rfl⟩
  · refine absurd h (IsQuiet.not_commit ?_)
    generalize ((StoreOp.commit t').perform s).1 = r
    rcases r with (k | e) | ⟨⟩
    · exact Prog.ensures_map.mpr (quiet_conflictError k)
    · trivial
    · trivial

theorem createTable_of_leads {name : String} {columns : List ColumnDef} {pk : Nat}
    {next : Except (TxnError H.StoreError) Unit →
      StoreM H (Except (CatalogError H.StoreError) TableHandle)}
    (h : Leads (O := system H u) (Catalog.createTable name columns pk) seen
      (.call (.commit t) next)) :
    (∀ k, IsRowKey k → C.writes t k = none) ∧ ∃ th, next (.ok ()) = .done (.ok th) :=
  (h.always answeredBy (always_createTable name columns pk)).1

theorem sessionCreateTable_of_leads {name : String} {columns : List ColumnSpec}
    {next : Except (TxnError H.StoreError) Unit → StoreM H (Session.Reply H)}
    (h : Leads (O := system H u) (Session.createTable name columns) seen
      (.call (.commit t) next)) :
    (∀ k, IsRowKey k → C.writes t k = none) ∧ ∃ r, next (.ok ()) = .done r ∧
      Session.isError r = false := by
  unfold Session.createTable at h
  split at h
  next pk _ =>
    simp only [Database.createTable, bind_pure_comp, bind_map_left] at h
    rcases Leads.of_bind_call h with ⟨next', h₁, rfl⟩ | ⟨seen₁, seen₂, r, -, -, h₂⟩
    · obtain ⟨hrows, th, hth⟩ := createTable_of_leads h₁
      refine ⟨hrows, .ok .default, ?_, rfl⟩
      dsimp only
      rw [hth]
      rfl
    · cases r <;> exact absurd h₂ not_commit_of_done
  · exact absurd h not_commit_of_done

/-- A statement of a session. -/
theorem committing_statement {c : Call} {self : Session H} {stmt : Statement}
    {next : Except (TxnError H.StoreError) Unit → StoreM H (Session.Reply H × Session H)}
    (hstmt : c.statement u = some stmt)
    (h : Leads (O := system H u) (self.executeStatement u stmt) seen (.call (.commit t) next)) :
    Committing C u c (.session self) seen t ∧ ∃ r self', next (.ok ()) = .done (r, self') ∧
      Session.isError r = false := by
  obtain ⟨txn, failed⟩ := self
  by_cases htable : stmt.table? = none
  · cases stmt with
    | insert | select | update | delete => cases htable
    | begin =>
      cases txn with
      | some t' => exact absurd h not_commit_of_done
      | none =>
        obtain ⟨s, rest, -, h⟩ := after_call h id
        exact absurd h not_commit_of_done
    | rollback =>
      cases txn with
      | none => exact absurd h not_commit_of_done
      | some t' =>
        obtain ⟨s, rest, -, h⟩ := after_call h id
        exact absurd h not_commit_of_done
    | commit =>
      cases txn with
      | none => exact absurd h not_commit_of_done
      | some t' =>
        cases failed with
        | true =>
          obtain ⟨s, rest, -, h⟩ := after_call h id
          exact absurd h not_commit_of_done
        | false =>
          rcases Leads.of_bind_call h with ⟨next', h₁, rfl⟩ | ⟨seen₁, seen₂, r, -, -, h₂⟩
          · obtain ⟨rfl, rfl, hnext⟩ := relCommit_of_leads h₁
            refine ⟨.session hstmt rfl rfl, .ok .default, Session.new, ?_, rfl⟩
            dsimp only
            rw [hnext]
            rfl
          · cases r <;> exact absurd h₂ not_commit_of_done
    | createTable name columns =>
      cases txn with
      | some t' => exact absurd h not_commit_of_done
      | none =>
        rcases Leads.of_bind_call h with ⟨next', h₁, rfl⟩ | ⟨seen₁, seen₂, r, -, -, h₂⟩
        · obtain ⟨hrows, r, hr, hok⟩ := sessionCreateTable_of_leads h₁
          refine ⟨.create (.inr ⟨name, columns, hstmt⟩) hrows, r, ⟨none, failed⟩, ?_, hok⟩
          dsimp only
          rw [hr]
          rfl
        · exact absurd h₂ not_commit_of_done
  · obtain ⟨table, htable⟩ := Option.ne_none_iff_exists'.mp htable
    rw [executeStatement_row _ htable] at h
    cases failed with
    | true => exact absurd h not_commit_of_done
    | false =>
      cases txn with
      | some t' =>
        rcases Leads.of_bind_call h with ⟨next', h₁, rfl⟩ | ⟨seen₁, seen₂, r, -, -, h₂⟩
        · exact absurd h₁ (quiet_onStore _ _).not_commit
        · exact absurd h₂ not_commit_of_done
      | none =>
        obtain ⟨base, rest, rfl, h₁⟩ := after_call h id
        change Leads (O := system H u) ((run u stmt).onStore (H.begin base).1 >>= _) _ _ at h₁
        rcases Leads.of_bind_call h₁ with ⟨next', h₁, -⟩ | ⟨seen₁, seen₂, ⟨r, t₁⟩, rfl, hrun, h₂⟩
        · exact absurd h₁ (quiet_onStore _ _).not_commit
        cases r with
        | error e =>
          obtain ⟨s, rest, -, h⟩ := after_call h₂ id
          exact absurd h not_commit_of_done
        | ok r =>
          rcases Leads.of_bind_call h₂ with ⟨next', h₃, rfl⟩ | ⟨seen₃, seen₄, r', -, -, h₃⟩
          · obtain ⟨rfl, rfl, hnext⟩ := relCommit_of_leads h₃
            refine ⟨.autocommit rfl hstmt htable rfl rfl (by simpa using hrun), .ok r,
              ⟨none, false⟩, ?_, rfl⟩
            dsimp only
            rw [hnext]
            rfl
          · cases r' <;> exact absurd h₃ not_commit_of_done

/-- **Who commits**: at a commit, a call is one of those that `Committing` lists, and succeeds if the
commit does. -/
theorem committing_of_leads {c : Call} {l : Local H}
    {next : Except (TxnError H.StoreError) Unit → StoreM H (Reply H × Local H)}
    (h : Leads (O := system H u) (c.body u l) seen (.call (.commit t) next)) :
    Committing C u c l seen t ∧ ∃ r l', next (.ok ()) = .done (r, l') ∧ r.isError = false := by
  have hstatement : ∀ self stmt, l = .session self → c.statement u = some stmt →
      Committing C u c l seen t ∧ ∃ r l', next (.ok ()) = .done (r, l') ∧ r.isError = false := by
    rintro self stmt rfl hstmt
    rw [Call.body_statement self hstmt] at h
    rcases Leads.of_bind_call h with ⟨next', h₁, rfl⟩ | ⟨seen₁, seen₂, r, -, -, h₂⟩
    · obtain ⟨hcommitting, r, self', hr, hok⟩ := committing_statement (C := C) hstmt h₁
      refine ⟨hcommitting, .result r, .session self', ?_, hok⟩
      dsimp only
      rw [hr]
      rfl
    · exact absurd h₂ not_commit_of_done
  have hwithin : ∀ {α : Type} (m : RowM (DbError H.StoreError) α) reply t', ¬ Leads (O := system H u)
      (Call.within m reply t') seen (.call (.commit t) next) := fun m reply t' h => by
    rcases Leads.of_bind_call h with ⟨next', h₁, rfl⟩ | ⟨seen₁, seen₂, r, -, -, h₂⟩
    · exact (quiet_onStore _ _).not_commit h₁
    · exact not_commit_of_done h₂
  cases c with
  | execute sql =>
    cases l with
    | handle txn => exact absurd h not_commit_of_done
    | session self =>
      cases hstmt : (Call.execute sql).statement u with
      | some stmt => exact hstatement self stmt rfl hstmt
      | none =>
        obtain ⟨e, hbody⟩ := Call.body_of_no_statement (c := .execute sql) self trivial hstmt
        rw [hbody] at h
        exact absurd h not_commit_of_done
  | executeStatement stmt =>
    cases l with
    | handle txn => exact absurd h not_commit_of_done
    | session self => exact hstatement self stmt rfl rfl
  | createTable name columns pk =>
    change Leads (O := system H u) ((_ <$> Catalog.createTable name columns pk) >>= _) _ _ at h
    rw [map_eq_pure_bind, bind_assoc] at h
    rcases Leads.of_bind_call h with ⟨next', h₁, rfl⟩ | ⟨seen₁, seen₂, r, -, -, h₂⟩
    · obtain ⟨hrows, th, hth⟩ := createTable_of_leads h₁
      refine ⟨.create (.inl ⟨name, columns, pk, rfl⟩) hrows, .created (.ok th), l, ?_, rfl⟩
      dsimp only
      rw [hth]
      rfl
    · exact absurd h₂ not_commit_of_done
  | getTable name =>
    rcases Leads.of_bind_call h with ⟨next', h₁, -⟩ | ⟨seen₁, seen₂, r, -, -, h₂⟩
    · exact absurd h₁ (quiet_getTable name).adapt.not_commit
    · exact absurd h₂ not_commit_of_done
  | listTables =>
    rcases Leads.of_bind_call h with ⟨next', h₁, -⟩ | ⟨seen₁, seen₂, r, -, -, h₂⟩
    · exact absurd h₁ quiet_listTables.adapt.not_commit
    · exact absurd h₂ not_commit_of_done
  | begin =>
    match l with
    | .session self | .handle (some t') => exact absurd h not_commit_of_done
    | .handle none =>
      obtain ⟨s, rest, -, h⟩ := after_call h id
      exact absurd h not_commit_of_done
  | abort =>
    match l with
    | .session self | .handle none => exact absurd h not_commit_of_done
    | .handle (some t') =>
      obtain ⟨s, rest, -, h⟩ := after_call h id
      exact absurd h not_commit_of_done
  | read | scan | write | delete =>
    match l with
    | .session self | .handle none => exact absurd h not_commit_of_done
    | .handle (some t') => exact absurd h (hwithin _ _ t')
  | commit =>
    match l with
    | .session self | .handle none => exact absurd h not_commit_of_done
    | .handle (some t') =>
      rcases Leads.of_bind_call h with ⟨next', h₁, rfl⟩ | ⟨seen₁, seen₂, r, -, -, h₂⟩
      · obtain ⟨rfl, rfl, hnext⟩ := relCommit_of_leads h₁
        refine ⟨.handle rfl rfl rfl, .done (.ok ()), .handle none, ?_, rfl⟩
        dsimp only
        rw [hnext]
        rfl
      · exact absurd h₂ not_commit_of_done

/-- A call that failed has committed nothing. -/
theorem not_committed_of_isError (C : H.Contract) {allow : Call → Local H → Prop}
    {d : (system H u).Done} (hd : Returned (O := system H u) allow d) (herr : d.reply.isError = true) :
    ∀ a ∈ d.seen, committedTxn a = none := by
  intro a ha
  by_contra hsome
  obtain ⟨t, ht⟩ := Option.ne_none_iff_exists'.mp hsome
  obtain ⟨s, rfl⟩ := committedTxn_eq_some.mp ht
  obtain ⟨before, after, hseen⟩ := List.append_of_mem ha
  have hleads := hd.leads
  rw [hseen] at hleads
  obtain ⟨next, h₁, h₂⟩ := hleads.split
  obtain ⟨-, r, l', hnext, hok⟩ := committing_of_leads (C := C) h₁
  change Leads (O := system H u) (next (.ok ())) after _ at h₂
  rw [hnext] at h₂
  obtain ⟨-, heq⟩ := h₂.of_done
  injection heq with heq
  have hr : d.reply = r := (Prod.ext_iff.mp heq).1
  rw [hr, hok] at herr
  cases herr

/-- The commits in a log. -/
theorem committing_of_entry {ι : Type} [DecidableEq ι] {allow : Call → Local H → Prop}
    {s₀ : H.Store} {l₀ : ι → Local H} {g : (system H u).Config ι} (hlog : Logged allow s₀ l₀ g)
    {earlier later : List ((system H u).Entry ι)} {e : (system H u).Entry ι}
    (h : g.log = earlier ++ e :: later) {t : H.Txn} (ht : committedTxn e.access = some t) :
    Committing C u e.call e.start e.seen t := by
  obtain ⟨next, hleads⟩ := (hlog.entry earlier e later h).leads
  obtain ⟨who, past, call, start, seen, access⟩ := e
  obtain ⟨s, rfl⟩ := committedTxn_eq_some.mp ht
  exact (committing_of_leads hleads).1

end Leads

end Choam

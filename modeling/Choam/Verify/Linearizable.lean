import Choam.Verify.Conflict
import Choam.Verify.Describe
import Choam.Verify.Serial

/-!
# What takes effect in one moment

A statement in autocommit mode begins a transaction, runs, and commits, while other clients step in
between. If it picks its rows by primary key, it nevertheless takes effect in one moment: that of
its commit, if it has written what it looked up, since nobody else has committed there
(`Began.unwritten`); else that of its beginning, since it has written nothing
(`exec_point_writes`). Both are accesses of its own, so that its moment lies between its call and
its reply (`autocommit_linearizable`).

The tables are listed key by key, in several accesses. Since they are only ever added, and never
changed, the list is nevertheless that of one moment, the first of them (`listTables_linearizable`).
-/

namespace Choam

open ByteString Overlay Interleave

variable {H : Host} {C : H.Contract} {P : Promises} {u : Unicode}

/-! ## What a statement that looks a row up writes -/

section Exec

variable {E : Type} {s : H.Store} {t t' : H.Txn} {table : String} {th : TableHandle} {pk : Value}
  {k : Bytes}

/-- The transaction `t'` has written what `t` has, and nothing else but the key `k`. -/
def WritesAt (C : H.Contract) (k : Bytes) (t t' : H.Txn) : Prop :=
  ∀ k', k' ≠ k → C.writes t' k' = C.writes t k'

theorem WritesAt.refl (C : H.Contract) (k : Bytes) (t : H.Txn) : WritesAt C k t t := fun _ _ => rfl

theorem WritesAt.trans {t'' : H.Txn} (h : WritesAt C k t t') (h' : WritesAt C k t' t'') :
    WritesAt C k t t'' := fun k' hk => (h' k' hk).trans (h k' hk)

theorem keepRows_true {filter : Option Expr} {schema : Schema} {rows kept : List Row}
    (h : (keepRows filter schema rows : Except (ExecError E) _) = .ok kept) :
    ∀ row ∈ kept, (keepsRow filter schema row : Except (ExecError E) _) = .ok true := by
  induction rows generalizing kept with
  | nil =>
    cases h
    simp
  | cons row rows ih =>
    rw [keepRows] at h
    obtain ⟨keep, hkeep, h⟩ := Except.bind_eq_ok.mp h
    obtain ⟨kept', hkept, h⟩ := Except.bind_eq_ok.mp h
    obtain rfl := Except.ok.inj h
    cases keep with
    | false => exact ih hkept
    | true =>
      intro row' hrow'
      rcases List.mem_cons.mp hrow' with rfl | hrow'
      · exact hkeep
      · exact ih hkept row' hrow'

/-- The rows that a filter keeps have the key to which it pins them. -/
theorem keepRows_pinned {f : Expr} {schema : Schema} (hpin : findKey schema f = some pk)
    {rows kept : List Row}
    (h : (keepRows (some f) schema rows : Except (ExecError E) _) = .ok kept) :
    ∀ row ∈ kept, row[schema.primaryKey]? = some pk := fun row hrow =>
  findKey_sound hpin (keepsRow_true (keepRows_true h row hrow))

theorem exec_candidateRows_txn (schema : Schema) (filter : Option Expr) :
    ((candidateRows table schema filter : RowM (ExecError E) _).exec s t).2 = t := by
  unfold candidateRows
  rw [RowM.exec_bind, RowM.exec_ofExcept]
  cases (checkFilter filter schema : Except (ExecError E) Unit) with
  | error e => rfl
  | ok _ =>
    cases accessPath schema filter with
    | pointLookup pk =>
      dsimp only [Except.mapError_ok]
      rw [RowM.exec_bind, RowM.exec_adapt]
      have htxn : ((RelTransaction.read table pk : RowM (DbError E) _).exec s t).2 = t :=
        exec_read_txn pk
      generalize (RelTransaction.read table pk : RowM (DbError E) _).exec s t = r at htxn
      obtain ⟨_ | row, t₁⟩ := r <;> exact htxn
    | fullScan =>
      dsimp only [Except.mapError_ok]
      rw [RowM.exec_adapt]
      exact exec_scan_txn

/-- Finding rows writes nothing, and finds none but the ones with the key. -/
theorem exec_matchingRows_pinned (table : String) {schema : Schema} {f : Expr}
    (hpin : findKey schema f = some pk) :
    ((matchingRows table schema (some f) : RowM (ExecError E) _).exec s t).2 = t ∧
      ∀ rows, ((matchingRows table schema (some f) : RowM (ExecError E) _).exec s t).1 = .ok rows →
        ∀ row ∈ rows, row[schema.primaryKey]? = some pk := by
  have htxn : ((candidateRows table schema (some f) : RowM (ExecError E) _).exec s t).2 = t :=
    exec_candidateRows_txn schema (some f)
  unfold matchingRows
  rw [RowM.exec_bind]
  generalize (candidateRows table schema (some f) : RowM (ExecError E) _).exec s t = r at htxn
  obtain ⟨_ | rows, t₁⟩ := r
  · exact ⟨htxn, fun rows h => by cases h⟩
  · refine ⟨by simpa using htxn, fun kept h => ?_⟩
    simp only [RowM.exec_ofExcept] at h
    cases hkept : (keepRows (some f) schema rows : Except (ExecError E) _) with
    | error e =>
      rw [hkept] at h
      cases h
    | ok rows' =>
      rw [hkept] at h
      cases h
      exact keepRows_pinned hpin hkept

theorem assignRow_primaryKey {schema : Schema} {old values new : Row} {targets : List (ℕ × Expr)}
    (htargets : ∀ p ∈ targets, p.1 ≠ schema.primaryKey)
    (h : (assignRow schema old targets values : Except (ExecError E) _) = .ok new) :
    new[schema.primaryKey]? = values[schema.primaryKey]? := by
  induction targets generalizing values with
  | nil =>
    cases h
    rfl
  | cons p rest ih =>
    obtain ⟨hp, hrest⟩ := List.forall_mem_cons.mp htargets
    obtain ⟨i, e⟩ := p
    rw [assignRow] at h
    obtain ⟨v, -, h⟩ := Except.bind_eq_ok.mp h
    rw [ih hrest h, List.getElem?_set_ne hp]

theorem updateTargets_ne {schema : Schema} {assignments : List (String × Expr)}
    {targets targets' : List (ℕ × Expr)} (htargets : ∀ p ∈ targets, p.1 ≠ schema.primaryKey)
    (h : (updateTargets u schema assignments targets : Except (ExecError E) _) = .ok targets') :
    ∀ p ∈ targets', p.1 ≠ schema.primaryKey := by
  induction assignments generalizing targets with
  | nil =>
    cases h
    exact htargets
  | cons a rest ih =>
    obtain ⟨name, e⟩ := a
    rw [updateTargets] at h
    obtain ⟨i, -, h⟩ := Except.bind_eq_ok.mp h
    split at h
    · cases h
    next hne =>
    split at h
    · cases h
    obtain ⟨ty, -, h⟩ := Except.bind_eq_ok.mp h
    dsimp only at h
    split at h
    · cases h
    refine ih (fun p hp => ?_) h
    rcases List.mem_append.mp hp with hp | hp
    · exact htargets p hp
    · rw [List.mem_singleton.mp hp]
      exact hne

variable (hlookup : lookupTable (C.committed s) table = .ok (some th))
  (hk : rowKey th.tableId pk th.schema.primaryKeyType = .ok k)
include hlookup hk

theorem exec_write_at {row : Row} (hrow : row[th.schema.primaryKey]? = some pk) :
    WritesAt C k t ((RelTransaction.write table row : RowM (DbError E) _).exec s t).2 := by
  intro k' hne
  rcases exec_write_cases (C := C) (Prod.mk.eta
    (p := (RelTransaction.write table row : RowM (DbError E) _).exec s t)).symm with
    ⟨-, h⟩ | ⟨-, th', pk', k'', v, hth, hpk', hk'', h⟩
  · rw [h]
  · cases hlookup.symm.trans hth
    cases hrow.symm.trans hpk'
    cases hk.symm.trans hk''
    rw [h, C.writes_put, Writes.set_of_ne _ hne]

theorem exec_delete_at :
    WritesAt C k t ((RelTransaction.delete table pk : RowM (DbError E) _).exec s t).2 := by
  intro k' hne
  rcases exec_delete_cases (C := C) (Prod.mk.eta
    (p := (RelTransaction.delete table pk : RowM (DbError E) _).exec s t)).symm with
    ⟨-, h⟩ | ⟨-, th', k'', hth, hk'', h⟩
  · rw [h]
  · cases hlookup.symm.trans hth
    cases hk.symm.trans hk''
    rw [h, C.writes_delete, Writes.set_of_ne _ hne]

theorem exec_updateRows_at {targets : List (ℕ × Expr)}
    (htargets : ∀ p ∈ targets, p.1 ≠ th.schema.primaryKey) {rows : List Row}
    (hrows : ∀ row ∈ rows, row[th.schema.primaryKey]? = some pk) :
    WritesAt C k t
      ((updateRows table th.schema targets rows : RowM (ExecError E) _).exec s t).2 := by
  induction rows generalizing t with
  | nil => exact .refl C k t
  | cons row rows ih =>
    obtain ⟨hrow, hrows⟩ := List.forall_mem_cons.mp hrows
    rw [updateRows, RowM.exec_bind, RowM.exec_ofExcept]
    cases hnew : (assignRow th.schema row targets row : Except (ExecError E) _) with
    | error e => exact .refl C k t
    | ok new =>
      dsimp only [Except.mapError_ok]
      rw [RowM.exec_bind, RowM.exec_adapt]
      have hone := exec_write_at (E := E) (t := t) hlookup hk
        ((assignRow_primaryKey htargets hnew).trans hrow)
      generalize (RelTransaction.write table new : RowM (DbError E) _).exec s t = r at hone
      obtain ⟨_ | _, t₁⟩ := r
      · exact hone
      · exact hone.trans (ih hrows)

theorem exec_deleteRows_at {rows : List Row}
    (hrows : ∀ row ∈ rows, row[th.schema.primaryKey]? = some pk) :
    WritesAt C k t ((deleteRows table th.schema rows : RowM (ExecError E) _).exec s t).2 := by
  induction rows generalizing t with
  | nil => exact .refl C k t
  | cons row rows ih =>
    obtain ⟨hrow, hrows⟩ := List.forall_mem_cons.mp hrows
    rw [deleteRows, hrow]
    dsimp only
    rw [RowM.exec_bind, RowM.exec_adapt]
    have hone := exec_delete_at (E := E) (t := t) hlookup hk
    generalize (RelTransaction.delete table pk : RowM (DbError E) _).exec s t = r at hone
    obtain ⟨_ | _, t₁⟩ := r
    · exact hone
    · exact hone.trans (ih hrows)

omit hk in
theorem exec_schemaOf_of :
    (schemaOf table : RowM (ExecError E) _).exec s t = (.ok th.schema, t) := by
  have hget : (tableAt (H.get s) table : Except (DbError E) _) = .ok th := by
    rw [tableAt_congr fun k _ => C.get_committed s k]
    exact tableAt_eq_ok.mpr hlookup
  rw [exec_schemaOf, hget]
  rfl

/-- **A statement pinned to a key writes under that key only.** -/
theorem exec_point_writes {stmt : Statement} (htable : stmt.table? = some table)
    (hpin : stmt.pinned th.schema = some pk) :
    WritesAt C k t ((run u stmt : RowM (ExecError E) _).exec s t).2 := by
  obtain ⟨f, hfilter, hf⟩ : ∃ f, stmt.filter? = some (some f) ∧ findKey th.schema f = some pk := by
    rw [Statement.pinned] at hpin
    obtain ⟨f, hf, hpk⟩ := Option.bind_eq_some_iff.mp hpin
    exact ⟨f, Option.join_eq_some_iff.mp hf, hpk⟩
  have hfind := exec_matchingRows_pinned (E := E) (s := s) (t := t) table hf
  cases stmt with
  | insert | createTable | begin | commit | rollback => cases hfilter
  | select projection name filter orderBy limit =>
    cases htable
    cases hfilter
    change WritesAt C k t ((select _ _ _ _ _ : RowM (ExecError E) _).exec s t).2
    unfold select
    rw [RowM.exec_bind, exec_schemaOf_of hlookup]
    dsimp only
    rw [RowM.exec_bind, RowM.exec_ofExcept]
    cases (pickColumns th.schema projection : Except (ExecError E) _) with
    | error e => exact .refl C k t
    | ok picked =>
    dsimp only [Except.mapError_ok]
    rw [RowM.exec_bind, RowM.exec_ofExcept]
    cases (orderColumn th.schema orderBy : Except (ExecError E) _) with
    | error e => exact .refl C k t
    | ok order =>
    dsimp only [Except.mapError_ok]
    rw [RowM.exec_bind]
    generalize (matchingRows table th.schema (some f) : RowM (ExecError E) _).exec s t = r at hfind
    obtain ⟨_ | rows, t₁⟩ := r
    · exact hfind.1 ▸ .refl C k _
    · exact hfind.1 ▸ .refl C k _
  | update name assignments filter =>
    cases htable
    cases hfilter
    change WritesAt C k t ((update u _ _ _ : RowM (ExecError E) _).exec s t).2
    unfold update
    rw [RowM.exec_bind, exec_schemaOf_of hlookup]
    dsimp only
    rw [RowM.exec_bind, RowM.exec_ofExcept]
    cases htargets : (updateTargets u th.schema assignments [] : Except (ExecError E) _) with
    | error e => exact .refl C k t
    | ok targets =>
    dsimp only [Except.mapError_ok]
    rw [RowM.exec_bind]
    generalize (matchingRows table th.schema (some f) : RowM (ExecError E) _).exec s t = r at hfind
    obtain ⟨_ | rows, t₁⟩ := r
    · exact hfind.1 ▸ .refl C k _
    · obtain ⟨rfl, hrows⟩ := hfind
      have hall := exec_updateRows_at (E := E) (t := t₁) hlookup hk
        (updateTargets_ne (by simp) htargets) (hrows rows rfl)
      dsimp only
      rw [RowM.exec_bind]
      generalize (updateRows table th.schema targets rows : RowM (ExecError E) _).exec s t₁ = r
        at hall
      obtain ⟨_ | _, t₂⟩ := r <;> exact hall
  | delete name filter =>
    cases htable
    cases hfilter
    change WritesAt C k t ((delete _ _ : RowM (ExecError E) _).exec s t).2
    unfold delete
    rw [RowM.exec_bind, exec_schemaOf_of hlookup]
    dsimp only
    rw [RowM.exec_bind]
    generalize (matchingRows table th.schema (some f) : RowM (ExecError E) _).exec s t = r at hfind
    obtain ⟨_ | rows, t₁⟩ := r
    · exact hfind.1 ▸ .refl C k _
    · obtain ⟨rfl, hrows⟩ := hfind
      have hall := exec_deleteRows_at (E := E) (t := t₁) hlookup hk (hrows rows rfl)
      dsimp only
      rw [RowM.exec_bind]
      generalize (deleteRows table th.schema rows : RowM (ExecError E) _).exec s t₁ = r at hall
      obtain ⟨_ | _, t₂⟩ := r <;> exact hall

end Exec

/-! ## A statement alone -/

/-- What a statement on rows in autocommit mode replies and commits when it runs alone where `c` is
committed: a failing one commits nothing. -/
def Autocommits (C : H.Contract) (u : Unicode) (stmt : Statement) (c : Contents Bytes Bytes)
    (r : Session.Reply H) (c' : Contents Bytes Bytes) : Prop :=
  ∃ m, Effect C u stmt c r m ∧ c' = if Session.isError r then c else m

/-- Alone it replies and commits one thing only. -/
theorem Autocommits.unique {stmt : Statement} {table : String} (htable : stmt.table? = some table)
    {c c' c'' : Contents Bytes Bytes} {r r' : Session.Reply H} (h : Autocommits C u stmt c r c')
    (h' : Autocommits C u stmt c r' c'') : r = r' ∧ c' = c'' := by
  obtain ⟨m, hm, rfl⟩ := h
  obtain ⟨m', hm', rfl⟩ := h'
  obtain ⟨rfl, rfl⟩ := hm.unique htable hm'
  exact ⟨rfl, rfl⟩

/-- A successful statement that picks its rows by primary key has written all that it looked up, or
nothing. -/
theorem exec_point_cases {s base : H.Store} {t : H.Txn} {stmt : Statement} {table : String}
    {th : TableHandle} {q : QueryResult} (htable : stmt.table? = some table)
    (hlookup : lookupTable (C.committed s) table = .ok (some th)) (hpoint : stmt.IsPoint th.schema)
    (hexec : (run u stmt : RowM (ExecError H.StoreError) _).exec s (H.begin base).1 = (.ok q, t)) :
    (∀ pk k, stmt.LooksUp H.StoreError th.schema pk →
      rowKey th.tableId pk th.schema.primaryKeyType = .ok k → C.writes t k ≠ none) ∨
    C.writes t = Writes.empty := by
  cases hpin : stmt.pinned th.schema with
  | none =>
    refine .inl ?_
    rintro pk k (h | ⟨name, columns, rows, rfl, exprs, hexprs, hkey⟩) hk
    · rw [hpin] at h
      cases h
    · cases htable
      obtain ⟨th', hlookup', hinserted⟩ := exec_insert C hexec
      cases hlookup.symm.trans hlookup'
      obtain ⟨pk', k', hkey', hk', -, hput⟩ := hinserted exprs hexprs
      cases hkey.symm.trans hkey'
      cases hk.symm.trans hk'
      exact hput
  | some pk =>
    obtain ⟨f, -, hf⟩ := Option.bind_eq_some_iff.mp hpin
    obtain ⟨k, hk⟩ := rowKey_of_lookupType th.tableId (findKey_type hf)
    have hat := exec_point_writes (u := u) (E := H.StoreError) (t := (H.begin base).1) hlookup hk
      htable hpin
    rw [hexec] at hat
    by_cases hwritten : C.writes t k = none
    · refine .inr (funext fun k' => ?_)
      by_cases hne : k' = k
      · rw [hne, hwritten]
        rfl
      · rw [hat k' hne, C.writes_begin]
    · refine .inl fun pk' k' hlooks hk' => ?_
      rcases hlooks with h | ⟨name, columns, rows, rfl, -⟩
      · rw [hpin] at h
        cases h
        cases hk.symm.trans hk'
        exact hwritten
      · cases hpin

/-! ## Every interleaving -/

section Log

variable {ι : Type} [DecidableEq ι] {allow : Call → Local H → Prop} {s₀ : H.Store}
  {l₀ : ι → Local H} {g : (system H u).Config ι}

/-- The access `e` of the log is one that client `i` made in its call `d`, behind the calls `past`;
`pre` is what it had accessed in that call before. -/
structure Makes (log : List ((system H u).Entry ι)) (i : ι) (past : List (system H u).Done)
    (d : (system H u).Done) (pre : List (system H u).Access)
    (earlier : List ((system H u).Entry ι)) (e : (system H u).Entry ι)
    (later : List ((system H u).Entry ι)) : Prop where
  log : log = earlier ++ e :: later
  who : e.who = i
  own : accessesOf earlier i = accesses past ++ pre
  seen : ∃ post, d.seen = pre ++ e.access :: post

theorem exists_makes (hlog : Logged allow s₀ l₀ g) {i : ι} {past rest : List (system H u).Done}
    {d : (system H u).Done} (hpast : (g.client i).past = past ++ d :: rest)
    {pre post : List (system H u).Access} {a : (system H u).Access}
    (hseen : d.seen = pre ++ a :: post) :
    ∃ earlier e later, Makes g.log i past d pre earlier e later ∧ e.access = a := by
  obtain ⟨more, hmore⟩ := accessesOf_past hlog i
  rw [hpast, accesses_append, accesses_cons, hseen] at hmore
  obtain ⟨earlier, e, later, hsplit, hwho, haccess, hown, -⟩ := exists_entry_of_accessesOf
    (show accessesOf g.log i = (accesses past ++ pre) ++ a :: (post ++ accesses rest ++ more) by
      simpa using hmore)
  exact ⟨earlier, e, later, ⟨hsplit, hwho, hown, post, by rw [haccess, hseen]⟩, haccess⟩

/-- A client's access is at one place of the log. -/
theorem Makes.unique {log : List ((system H u).Entry ι)} {i : ι} {past : List (system H u).Done}
    {d : (system H u).Done} {pre : List (system H u).Access}
    {earlier later earlier' later' : List ((system H u).Entry ι)} {e e' : (system H u).Entry ι}
    (h : Makes log i past d pre earlier e later) (h' : Makes log i past d pre earlier' e' later') :
    earlier = earlier' := by
  have hshort : ∀ {before after mid : List ((system H u).Entry ι)} {x : (system H u).Entry ι},
      x.who = i → before = after ++ x :: mid →
      accessesOf before i = accessesOf after i → False := by
    rintro before after mid x hx rfl heq
    have hsub := (accessesOf_upTo after mid x).length_le
    rw [hx, heq] at hsub
    simp at hsub
  have hown := h.own.trans h'.own.symm
  rcases List.append_eq_append_iff.mp (h.log.symm.trans h'.log) with
    ⟨as, has, hrest⟩ | ⟨bs, hbs, hrest⟩
  · cases as with
    | nil => simpa using has.symm
    | cons x mid =>
      obtain ⟨rfl, -⟩ := List.cons.inj hrest
      exact (hshort h.who has hown.symm).elim
  · cases bs with
    | nil => simpa using hbs
    | cons x mid =>
      obtain ⟨rfl, -⟩ := List.cons.inj hrest
      exact (hshort h'.who hbs hown).elim

/-- What is committed changes only where a transaction commits. -/
theorem committed_of_entry (hlog : Logged allow s₀ l₀ g) (hgood : (protocol C P u).Good s₀ g)
    {earlier later : List ((system H u).Entry ι)} {e : (system H u).Entry ι}
    (he : g.log = earlier ++ e :: later) :
    (committedTxn e.access = none →
      C.committed (replayLog s₀ (earlier ++ [e])) = C.committed (replayLog s₀ earlier)) ∧
    ∀ t, committedTxn e.access = some t → C.committed (replayLog s₀ (earlier ++ [e])) =
      (C.writes t).apply (C.committed (replayLog s₀ earlier)) := by
  have hone : g.log = (earlier ++ [e]) ++ later := by simpa using he
  rw [committed_replayLog hlog hgood hone, committed_replayLog hlog hgood he]
  constructor
  · intro h
    simp [commits, h]
  · intro t h
    simp [commits, h, applyAll]

/-- The committed contents are the same before and after the access. -/
def Unchanged (C : H.Contract) (s₀ : H.Store) (earlier : List ((system H u).Entry ι))
    (e : (system H u).Entry ι) : Prop :=
  C.committed (replayLog s₀ (earlier ++ [e])) = C.committed (replayLog s₀ earlier)

/-- The statement of the call `d` took effect at its access behind `pre`, and nowhere else. -/
structure TakesEffect (C : H.Contract) (s₀ : H.Store) (g : (system H u).Config ι) (i : ι)
    (past : List (system H u).Done) (d : (system H u).Done) (stmt : Statement)
    (r : Session.Reply H) (pre : List (system H u).Access) : Prop where
  at_once : ∃ earlier e later, Makes g.log i past d pre earlier e later ∧
    Autocommits C u stmt (C.committed (replayLog s₀ earlier)) r
      (C.committed (replayLog s₀ (earlier ++ [e])))
  once : ∀ pre' earlier e later, Makes g.log i past d pre' earlier e later → pre' ≠ pre →
    Unchanged C s₀ earlier e

/-- Such programs commit nothing. -/
theorem committedTxn_of_quiet {α : Type} {p : StoreM H α} {a : α}
    {seen : List (system H u).Access} (hp : IsQuiet p)
    (h : Leads (O := system H u) p seen (.done a)) : ∀ a ∈ seen, committedTxn a = none := by
  intro a ha
  cases hc : committedTxn a with
  | none => rfl
  | some t₁ =>
    obtain ⟨s, rfl⟩ := committedTxn_eq_some.mp hc
    obtain ⟨before, after, rfl⟩ := List.append_of_mem ha
    obtain ⟨next, hbefore, -⟩ := h.split
    exact absurd hbefore hp.not_commit

/-- A statement in autocommit mode commits behind the accesses of its run, if at all. -/
theorem commit_place {base : H.Store} {t : H.Txn} {rc : Except (DbError H.StoreError) Unit}
    {seen rest pre post : List (system H u).Access} {a : (system H u).Access}
    (hquiet : ∀ a ∈ seen, committedTxn a = none)
    (hcommit : Leads (O := system H u) (RelTransaction.commit t) rest (.done rc))
    (h : ⟨base, .begin, (H.begin base).1⟩ :: (seen ++ rest) = pre ++ a :: post)
    (ha : committedTxn a ≠ none) : pre = ⟨base, .begin, (H.begin base).1⟩ :: seen ∧
      rest = a :: post := by
  cases pre with
  | nil =>
    obtain ⟨rfl, -⟩ := List.cons.inj h
    exact absurd rfl ha
  | cons x pre =>
    obtain ⟨rfl, htail⟩ := List.cons.inj h
    rcases List.append_eq_append_iff.mp htail with ⟨as, rfl, hrest⟩ | ⟨bs, rfl, hrest⟩
    · obtain ⟨t₁, ht₁⟩ := Option.ne_none_iff_exists'.mp ha
      obtain ⟨s, rfl⟩ := committedTxn_eq_some.mp ht₁
      subst hrest
      obtain ⟨next, hbefore, -⟩ := hcommit.split
      obtain ⟨-, rfl, -⟩ := relCommit_of_leads hbefore
      simp
    · cases bs with
      | nil => exact ⟨by simp, hrest.symm⟩
      | cons y bs =>
        obtain ⟨rfl, -⟩ := List.cons.inj hrest
        exact absurd (hquiet a (by simp)) ha

/-- A call that fails has changed nothing. -/
theorem unchanged_of_isError (hlog : Logged allow s₀ l₀ g) (hgood : (protocol C P u).Good s₀ g)
    {i : ι} {past : List (system H u).Done} {d : (system H u).Done}
    (hreturned : Returned (O := system H u) allow d) (herr : d.reply.isError = true)
    {pre : List (system H u).Access} {earlier later : List ((system H u).Entry ι)}
    {e : (system H u).Entry ι} (hmakes : Makes g.log i past d pre earlier e later) :
    Unchanged C s₀ earlier e := by
  obtain ⟨post, hpost⟩ := hmakes.seen
  refine (committed_of_entry hlog hgood hmakes.log).1 ?_
  exact not_committed_of_isError C hreturned herr _ (by simp [hpost])

/-- A statement that changes nothing takes effect at its beginning. -/
theorem takes_effect_at_begin (hlog : Logged allow s₀ l₀ g) {i : ι}
    {past rest : List (system H u).Done} {d : (system H u).Done}
    (hpast : (g.client i).past = past ++ d :: rest) {base : H.Store}
    {seen : List (system H u).Access} (hseen : d.seen = ⟨base, .begin, (H.begin base).1⟩ :: seen)
    {stmt : Statement} {r : Session.Reply H}
    (halone : Autocommits C u stmt (C.committed base) r (C.committed base))
    (hstays : ∀ pre earlier e later, Makes g.log i past d pre earlier e later →
      Unchanged C s₀ earlier e) : TakesEffect C s₀ g i past d stmt r [] := by
  obtain ⟨earlier, e, later, hmakes, haccess⟩ := exists_makes hlog hpast <|
    hseen.trans (List.nil_append _).symm
  have hbase : base = replayLog s₀ earlier := by
    have := (hlog.entry _ _ _ hmakes.log).before
    rwa [haccess] at this
  refine ⟨⟨earlier, e, later, hmakes, ?_⟩, fun pre earlier' e' later' hmakes' _ =>
    hstays pre earlier' e' later' hmakes'⟩
  rwa [hstays [] earlier e later hmakes, ← hbase]

theorem Follow.metFirst {base : H.Store} {seen : List (system H u).Access}
    (h : Follow C base seen) :
    EntriesPersist (C.committed base) (C.committed (RowM.metFirst base seen)) := by
  cases seen with
  | nil => exact .refl _
  | cons a seen => exact h.base a (by simp)

/-- A statement that has written what it looked up takes effect at its commit: it does what it would
have done right before. -/
theorem takes_effect_at_commit (hlog : Logged allow s₀ l₀ g) (hgood : (protocol C P u).Good s₀ g)
    {earlier later : List ((system H u).Entry ι)} {e : (system H u).Entry ι}
    (he : g.log = earlier ++ e :: later) {base s : H.Store} {t : H.Txn} {q : QueryResult}
    {seen past : List (system H u).Access} {stmt : Statement} {table : String} {th : TableHandle}
    (htable : stmt.table? = some table) (hpoint : stmt.IsPoint th.schema)
    (hlookup : lookupTable (C.committed base) table = .ok (some th))
    (hrun : Leads (O := system H u) ((run u stmt : RowM (ExecError H.StoreError) _).onStore
      (H.begin base).1) seen (.done (.ok q, t)))
    (hfollow : Follow C base (seen ++ [e.access]))
    (hown : accessesOf earlier e.who = past ++ ⟨base, .begin, (H.begin base).1⟩ :: seen)
    (haccess : e.access = ⟨s, .commit t, .ok ()⟩)
    (hwritten : ∀ pk k, stmt.LooksUp H.StoreError th.schema pk →
      rowKey th.tableId pk th.schema.primaryKeyType = .ok k → C.writes t k ≠ none) :
    Effect C u stmt (C.committed s) (.ok q) ((C.writes t).apply (C.committed s)) := by
  have ht : committedTxn e.access = some t := by rw [haccess]; rfl
  have hbegun : BegunOn C base t := (BegunOn.begin base).onStore (RowM.looksUp_run htable) hrun
  obtain ⟨before, since, hbegan⟩ := exists_began hlog he hown
  have hsame : ∀ k, C.writes t k ≠ none → C.committed base k = C.committed s k := fun k hk => by
    have := (hbegan.unwritten hlog hgood he ht hbegun.snapshot hk).2
    rw [haccess] at this
    exact this.symm
  have hlater : EntriesPersist (C.committed base) (C.committed s) := by
    have := hfollow.base e.access (by simp)
    rwa [haccess] at this
  obtain ⟨hfollow, -⟩ := hfollow.append
  have hmet := hfollow.metFirst
  have hexec := RowM.atomic (C := C) (RowM.startsOn_run htable) (RowM.looksUp_run htable) hrun
    base hfollow.pairwise
  have hcat : ∀ k, catalogTableKey table = some k →
      C.committed (RowM.metFirst base seen) k = C.committed s k := fun k hk =>
    (hmet.entry_eq hlookup hk).trans (hlater.entry_eq hlookup hk).symm
  have hview : ∀ k, C.writes t k ≠ none → C.view (H.begin base).1 k = C.view (H.begin s).1 k :=
    fun k hk => by rw [C.view_begin, C.view_begin, hsame k hk]
  obtain ⟨hreply, -, hwrites⟩ := (points_run (u := u) htable hpoint hwritten).exec_congr
    (hmet.lookup hlookup) hcat hview (by simp)
  rw [hexec] at hreply hwrites
  have hend : BegunOn C s
      ((run u stmt : RowM (ExecError H.StoreError) _).exec s (H.begin s).1).2 := by
    obtain ⟨hsnap, hcatalog⟩ := (RowM.looksUp_run (u := u) (E := H.StoreError) htable).exec_writes C
      s (H.begin s).1
    exact ⟨hsnap.trans (by simp), fun k hk => (hcatalog k hk).trans (by simp)⟩
  refine ⟨s, (H.begin s).1, ((run u stmt).exec s (H.begin s).1).2, fun _ _ => rfl, C.view_begin s,
    Prod.ext hreply.symm rfl, ?_⟩
  rw [hend.view_eq, ← hwrites]

/-- **Statements in autocommit mode that pick their rows by primary key are linearizable**, in every
interleaving with any other clients: such a statement replies and commits what it would alone, from
what is committed at one of its own accesses, and changes nothing anywhere else; or its commit
fails, and it changes nothing at all. -/
theorem autocommit_linearizable (hs₀ : Grown C u s₀) (hl₀ : ∀ i, (l₀ i).Idle)
    (hg : Reachable allow (start s₀ l₀) g) {i : ι} {past rest : List (system H u).Done}
    {d : (system H u).Done} (hpast : (g.client i).past = past ++ d :: rest)
    (hstart : d.start = .session ⟨none, false⟩) {stmt : Statement} {table : String}
    {th : TableHandle} (hstmt : d.call.statement u = some stmt) (htable : stmt.table? = some table)
    (hlookup : ∀ a ∈ d.seen.head?, lookupTable (C.committed a.before) table = .ok (some th))
    (hpoint : stmt.IsPoint th.schema) : ∃ r, d.reply = .result r ∧
      ((∃ pre, TakesEffect C s₀ g i past d stmt r pre) ∨
        (∃ e, r = .error (.db e)) ∧ (∃ s t e, ⟨s, .commit t, .error e⟩ ∈ d.seen) ∧
          ∀ pre earlier e later, Makes g.log i past d pre earlier e later →
            Unchanged C s₀ earlier e) := by
  have hlog := hg.logged
  have hgood : (protocol C unpromised u).Good s₀ g :=
    good_of_reachable (fun c _ _ => within_unpromised c) hs₀.sound hl₀ hg
  obtain ⟨l, hrem⟩ := Remembers.of_client hlog i
  have hreturned := hrem.returned d (by simp [hpast])
  obtain ⟨base, seen, tail, r, t, hseen, hrun, hend⟩ :=
    returned_autocommit hreturned hstart hstmt htable
  have hlookup : lookupTable (C.committed base) table = .ok (some th) :=
    hlookup _ (by rw [hseen]; exact rfl)
  have hpair := (ordered_client hgood hlog i).1
  rw [hpast, accesses_append, accesses_cons, hseen, List.cons_append, List.append_assoc] at hpair
  have hfollow := follow_of_pairwise hpair
  have heffect : Effect C u stmt (C.committed base) r (C.view t) := by
    obtain ⟨k, bytes, hk, hbytes, -⟩ := lookupTable_eq_some.mp hlookup
    rw [← C.view_begin base]
    exact effect_of_leads (.begin base) htable ⟨k, hk, by simp [hbytes]⟩ hrun hfollow.append.1
  cases r with
  | error e =>
    exact ⟨.error e, hend, .inl ⟨[], takes_effect_at_begin hlog hpast hseen ⟨_, heffect, rfl⟩
      fun _ _ _ _ => unchanged_of_isError hlog hgood hreturned (by rw [hend]; rfl)⟩⟩
  | ok q =>
    obtain ⟨rc, hcommit, hreply⟩ := hend
    have hquiet := committedTxn_of_quiet (quiet_onStore (run u stmt) _) hrun
    obtain ⟨s, tail', htail, hres⟩ := leads_commit hcommit
    have helse : ∀ pre' earlier e' later, Makes g.log i past d pre' earlier e' later →
        committedTxn e'.access ≠ none → pre' = ⟨base, .begin, (H.begin base).1⟩ :: seen ∧
          e'.access = ⟨s, .commit t, (H.commit t s).1⟩ := by
      intro pre' earlier e' later hmakes hsome
      obtain ⟨post, hpost⟩ := hmakes.seen
      obtain ⟨hpre, hrest⟩ := commit_place hquiet hcommit (hseen.symm.trans hpost) hsome
      exact ⟨hpre, (List.cons.inj (htail.symm.trans hrest)).1.symm⟩
    cases hc : (H.commit t s).1 with
    | error e' =>
      have hfailed : ∃ e, rc = .error e := by
        rw [hc] at hres
        cases e' with
        | conflict k =>
          obtain ⟨e, he, -⟩ := hres
          exact ⟨e, he⟩
        | store e => exact ⟨_, hres⟩
      obtain ⟨e, rfl⟩ := hfailed
      exact ⟨_, hreply, .inr ⟨⟨e, rfl⟩, ⟨s, t, e', by rw [hseen, htail, hc]; simp⟩,
        fun _ _ _ _ => unchanged_of_isError hlog hgood hreturned (by rw [hreply]; rfl)⟩⟩
    | ok _ =>
      rw [hc] at hres
      obtain rfl : rc = .ok () := hres
      refine ⟨.ok q, hreply, .inl ?_⟩
      have hexec := RowM.atomic (C := C) (RowM.startsOn_run htable) (RowM.looksUp_run htable) hrun
        base hfollow.append.1.pairwise
      rcases exec_point_cases htable (hfollow.append.1.metFirst.lookup hlookup) hpoint hexec with
        hwritten | hnothing
      · rw [htail] at hseen
        rw [← List.cons_append] at hseen
        obtain ⟨earlier, e, later, hmakes, haccess⟩ := exists_makes hlog hpast hseen
        have hs : s = replayLog s₀ earlier := by
          have := (hlog.entry _ _ _ hmakes.log).before
          rwa [haccess] at this
        rw [hc] at haccess
        refine ⟨_,
          ⟨earlier, e, later, hmakes, C.committed (replayLog s₀ (earlier ++ [e])), ?_, rfl⟩,
          fun pre' earlier' e' later' hmakes' hne => ?_⟩
        · rw [(committed_of_entry hlog hgood hmakes.log).2 t (by rw [haccess]; rfl), ← hs]
          have hown := hmakes.own
          rw [← hmakes.who] at hown
          refine takes_effect_at_commit hlog hgood hmakes.log htable hpoint hlookup hrun ?_ hown
            haccess hwritten
          rw [haccess, ← hc]
          rw [htail, List.cons_append, ← List.singleton_append, ← List.append_assoc] at hfollow
          exact hfollow.append.1
        · by_contra hchanged
          refine hne (helse pre' earlier' e' later' hmakes' fun hnone => hchanged ?_).1
          exact (committed_of_entry hlog hgood hmakes'.log).1 hnone
      · have hbegun : BegunOn C base t :=
          (BegunOn.begin base).onStore (RowM.looksUp_run htable) hrun
        have hview : C.view t = C.committed base := by
          rw [hbegun.view_eq, hnothing, Writes.apply_empty]
        refine ⟨[], takes_effect_at_begin hlog hpast hseen ⟨_, heffect, hview.symm⟩ ?_⟩
        intro pre' earlier' e' later' hmakes'
        cases hsome : committedTxn e'.access with
        | none => exact (committed_of_entry hlog hgood hmakes'.log).1 hsome
        | some t' =>
          obtain ⟨-, haccess⟩ := helse pre' earlier' e' later' hmakes' (by simp [hsome])
          obtain rfl : t = t' := by
            rw [haccess, hc] at hsome
            exact Option.some.inj hsome
          have := (committed_of_entry hlog hgood hmakes'.log).2 t hsome
          rwa [hnothing, Writes.apply_empty] at this

/-- **The list of tables is linearizable**, though it is read key by key and outside of any
transaction: on a new database, with any number of clients that create tables meanwhile, a call that
lists the tables gives all of those that had been created at its first access, in the order of their
creation, and each of its accesses leaves the store as it is. -/
theorem listTables_linearizable (hallow : ∀ c l, allow c l → c.FitsNames u) (C : H.Contract)
    (hs₀ : C.history s₀ = []) (hl₀ : ∀ i, (l₀ i).Idle) (hg : Reachable allow (start s₀ l₀) g)
    (hfew : FewTables (C.committed g.shared)) {i : ι} {d : (system H u).Done}
    (hd : d ∈ (g.client i).past) (hcall : d.call = .listTables) :
    ∃ a rest, ∃ tables : List TableHandle, d.seen = a :: rest ∧ d.reply = .tables (.ok tables) ∧
      (∃ earlier e later, g.log = earlier ++ e :: later ∧ e.who = i ∧ e.access = a ∧
        List.Forall₂ (fun e th => e.call.AsksFor u th.schema) (creations earlier) tables) ∧
      (alone Catalog.listTables a.before).1 = (.ok tables : Except (CatalogError H.StoreError) _) ∧
      ∀ a' ∈ d.seen, (a'.op.perform a'.before).2 = a'.before := by
  have hwithin : ∀ c l, allow c l → c.Within ⟨False, True⟩ u :=
    fun c l hc => ⟨False.elim, fun _ => hallow c l hc⟩
  have hempty : Sound C ⟨False, True⟩ s₀ := .of_nil C _ hs₀
  have hlog := hg.logged
  have hgood := good_of_reachable hwithin hempty hl₀ hg
  obtain ⟨l, hrem⟩ := Remembers.of_client hlog i
  have hleads := (hrem.returned d hd).leads
  -- The stores that its accesses met follow each other.
  obtain ⟨before, after, hpast⟩ := List.append_of_mem hd
  have hsub : d.seen.Sublist (accesses (g.client i).past) := by
    rw [hpast, accesses_append, accesses_cons]
    exact (List.sublist_append_left _ _).trans (List.sublist_append_right _ _)
  obtain ⟨hpair, hmet⟩ := ordered_client hgood hlog i
  have hpersist := (hpair.sublist hsub).imp Rely.entries
  obtain ⟨call, start, seen, reply, finish⟩ := d
  cases hcall
  change Leads (O := system H u) ((Except.mapError DbError.catalog <$>
    ExceptT.run (Catalog.listTables (m := StoreM H))) >>= _) seen _ at hleads
  rw [map_eq_pure_bind, bind_assoc] at hleads
  obtain ⟨seen₁, seen₂, r, rfl, h₁, h₂⟩ := Leads.of_bind_done hleads
  obtain ⟨rfl, hr⟩ := h₂.of_done
  rw [List.append_nil] at hpast hpersist hsub ⊢
  cases seen₁ with
  | nil => cases h₁.of_nil
  | cons a rest =>
    obtain ⟨-, hto⟩ := hmet a (hsub.subset List.mem_cons_self)
    obtain ⟨earlier, e, later, hmakes, haccess⟩ :=
      exists_makes hlog hpast (List.nil_append (a :: rest)).symm
    have hbefore : a.before = replayLog s₀ earlier := by
      rw [← haccess]
      exact (hlog.entry _ _ _ hmakes.log).before
    obtain ⟨tables, htables⟩ := catalogued_replayLog hlog hgood
      (writesRows_of_reachable hwithin hempty hl₀ hg).2 hs₀ hmakes.log
    rw [← hbefore] at htables
    have hcat := htables.catalog
    have hlen : tables.length < 2 ^ 32 := by
      have hlen := hcat.length_lt (hfew.of_persist hto.entries)
      rwa [List.length_map] at hlen
    have hfits : ∀ th ∈ tables, th.schema.FitsEntry := fun th hth => by
      obtain ⟨c, l, hc, hasks⟩ := exists_asked hlog hmakes.log htables.asked hth
      exact hasks.fitsEntry (hallow c l hc)
    obtain rfl := @listTables_of_leads _ C _ _ tables _ _ h₁
      (fun a' ha' => by
        cases ha'
        exact ⟨hcat.indexed hfits hlen, hcat.lookup_all htables.ids hfits⟩) hpersist
    cases hr
    refine ⟨a, rest, tables, rfl, rfl,
      ⟨earlier, e, later, hmakes.log, hmakes.who, haccess, htables.asked⟩,
      by rw [hcat.listed_all htables.ids hfits hlen], fun a' ha' => ?_⟩
    obtain ⟨before, after, hsplit⟩ := List.append_of_mem ha'
    dsimp only at hsplit
    rw [hsplit] at h₁
    obtain ⟨next, hbefore, -⟩ := h₁.split
    have hquiet : IsQuiet (.call a'.op next) :=
      hbefore.ensured (fun _ _ => trivial) quiet_listTables
    exact StoreOp.perform_of_quiet _ _ hquiet.1

end Log

/-- The creation of a table whose key is an integer. -/
def creatingCall (name : String) : Call := .createTable name [⟨"k", .integer, false⟩] 0

/-- A list of the tables, between whose accesses another client creates a table. -/
def listingRun : (system (Reference.host true) .ascii).Config ℕ :=
  moves (solos (moves (sampleRun [(0, creatingCall "a")]) (.replicate 2 (1, .listTables)))
    [(0, creatingCall "b")]) (.replicate 2 (1, .listTables))

theorem reachable_listingRun : Reachable (fun (c : Call) _ => c.FitsNames .ascii)
    (start ([] : List Reference.WriteList) newSessions) listingRun := by
  have hcolumns : ∀ n ∈ [(⟨"k", .integer, false⟩ : ColumnDef)].map (·.name), FitsName n :=
    List.forall_mem_singleton.mpr (by decide)
  have hlists : ∀ c ∈ List.replicate 2 ((1, .listTables) : ℕ × Call),
      ∀ _ : Local (Reference.host true), c.2.FitsNames .ascii := fun c hc _ => by
    rw [List.eq_of_mem_replicate hc]
    exact fun stmt hstmt => by cases hstmt
  have hfirst : (creatingCall "a").FitsNames .ascii := ⟨by decide, hcolumns, by decide⟩
  have hsecond : (creatingCall "b").FitsNames .ascii := ⟨by decide, hcolumns, by decide⟩
  have hcreated : Reachable (fun (c : Call) _ => c.FitsNames .ascii)
      (start ([] : List Reference.WriteList) newSessions) (sampleRun [(0, creatingCall "a")]) :=
    reachable_sampleRun (List.forall_mem_singleton.mpr fun _ => hfirst)
  exact ((hcreated.moves hlists).solos
    (List.forall_mem_singleton.mpr fun _ => hsecond)).moves hlists

def Call.lists : Call → Bool
  | listTables => true
  | _ => false

theorem Call.lists_iff {c : Call} : c.lists = true ↔ c = .listTables := by
  cases c <;> simp [lists]

theorem listTables_linearizable_sample : ∃ d a rest, ∃ tables : List TableHandle,
    (listingRun.client 1).past = [d] ∧ d.seen = a :: rest ∧
      d.reply = .tables (.ok tables) ∧
      (∃ earlier e later, listingRun.log = earlier ++ e :: later ∧ e.who = 1 ∧ e.access = a ∧
        List.Forall₂ (fun e th => e.call.AsksFor .ascii th.schema) (creations earlier) tables) ∧
      (alone (H := Reference.host true) Catalog.listTables a.before).1 =
        (.ok tables : Except (CatalogError Empty) _) := by
  obtain ⟨d, hd⟩ := List.length_eq_one_iff.mp
    (by decide +kernel : (listingRun.client 1).past.length = 1)
  have hcall : ((listingRun.client 1).past.all fun d => d.call.lists) = true := by decide +kernel
  rw [hd, List.all_cons, List.all_nil, Bool.and_true, Call.lists_iff] at hcall
  obtain ⟨a, rest, tables, hseen, hreply, hcreated, htables, -⟩ := listTables_linearizable
    (fun _ _ h => h) (Reference.contract true) rfl idle_newSessions reachable_listingRun
    (Reference.fewTables (by decide +kernel)) (i := 1) (hd ▸ List.mem_cons_self) hcall
  exact ⟨d, a, rest, tables, hd, hseen, hreply, hcreated, htables⟩

/-- An INSERT, behind whose beginning another session inserts and commits a row. -/
def insertingRun : (system (Reference.host true) .ascii).Config ℕ :=
  moves (solos (moves (sampleRun [(0, .executeStatement createSample)])
    (.replicate 2 (1, .executeStatement (insertSample 7))))
      [(0, .executeStatement (insertSample 8))])
    (.replicate 7 (1, .executeStatement (insertSample 7)))

theorem reachable_insertingRun : Reachable (fun _ _ => True)
    (start ([] : List Reference.WriteList) newSessions) insertingRun :=
  (((reachable_sampleRun fun _ _ _ => trivial).moves fun _ _ _ => trivial).solos
    fun _ _ _ => trivial).moves fun _ _ _ => trivial

theorem autocommit_linearizable_sample : ∃ d r pre,
    (insertingRun.client 1).past = [d] ∧ d.reply = .result r ∧
      TakesEffect (Reference.contract true) [] insertingRun 1 [] d (insertSample 7) r pre := by
  have hg := reachable_insertingRun
  obtain ⟨d, hd⟩ := List.length_eq_one_iff.mp
    (by decide +kernel : (insertingRun.client 1).past.length = 1)
  have hfacts : ((insertingRun.client 1).past.all fun d =>
      d.call.statement .ascii = some (insertSample 7) && !d.reply.failed &&
      d.seen.head?.all fun a => decide (lookupTable ((Reference.contract true).committed a.before)
        "a" = .ok (some sampleTable))) = true := by decide +kernel
  rw [hd] at hfacts
  simp only [List.all_cons, List.all_nil, Bool.and_true, Bool.and_eq_true, decide_eq_true_eq,
    Bool.not_eq_true'] at hfacts
  obtain ⟨⟨hstmt, hok⟩, hlookup⟩ := hfacts
  obtain ⟨l, hrem⟩ := Remembers.of_client hg.logged 1
  rw [hd] at hrem
  have hfound : ∀ a ∈ d.seen.head?, lookupTable ((Reference.contract true).committed a.before) "a" =
      .ok (some sampleTable) := fun a ha => by simpa [Option.mem_def.mp ha] using hlookup
  have hpoint : (insertSample 7).IsPoint sampleTable.schema := fun h => by cases h
  obtain ⟨r, hreply, h⟩ := autocommit_linearizable (C := Reference.contract true) (.of_nil rfl)
    idle_newSessions hg (show _ = [] ++ d :: [] from hd) hrem.linked.1 hstmt rfl hfound hpoint
  rcases h with ⟨pre, hpre⟩ | ⟨⟨e, rfl⟩, -⟩
  · exact ⟨d, r, pre, hd, hreply, hpre⟩
  · rw [hreply] at hok
    cases hok

end Choam

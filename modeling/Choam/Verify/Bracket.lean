import Choam.Verify.Memory

/-!
# BEGIN and COMMIT around statements

For a client that has the store to itself, INSERT, SELECT, UPDATE and DELETE between BEGIN and
COMMIT do what they do in autocommit mode, if they all succeed; if one fails, they do nothing. Both
are read off the database in memory (`run_commit`, `run_commit_failed`) and carried to the code by
`Holds.run`.
-/

namespace Choam

open Interleave

variable {m : Memory} {c db : List Table} {stmt : Statement} {stmts : List Statement}

namespace Tables

theorem length_replace (db : List Table) (name : String) (rows : List Row) :
    (replace db name rows).length = db.length := List.length_map ..

theorem length_execute {db' : List Table} {q : QueryResult}
    (h : execute db stmt = some (q, db')) : db'.length = db.length := by
  obtain ⟨name, hname, h⟩ := Option.bind_eq_some_iff.mp h
  obtain ⟨t, ht, h⟩ := Option.bind_eq_some_iff.mp h
  by_cases hvalid : Relational.Valid t.schema stmt
  · rw [if_pos hvalid, Option.map_eq_some_iff] at h
    obtain ⟨r, -, heq⟩ := h
    cases heq
    exact length_replace ..
  · rw [if_neg hvalid] at h
    cases h

end Tables

namespace Memory

/-! ## Statements in memory -/

theorem step_row (h : stmt.table?.isSome) (m : Memory) : m.step (some stmt) = m.execute stmt := by
  cases stmt with
  | insert | select | update | delete => rfl
  | createTable | begin | commit | rollback => cases h

/-- A statement that succeeds, in a transaction and outside. -/
theorem step_some (h : stmt.table?.isSome) {q : QueryResult} {db' : List Table}
    (hexec : Tables.execute db stmt = some (q, db')) :
    (⟨c, some db, false⟩ : Memory).step (some stmt) = (some q, ⟨c, some db', false⟩) ∧
      (⟨db, none, false⟩ : Memory).step (some stmt) = (some q, ⟨db', none, false⟩) := by
  rw [step_row h, step_row h]
  simp only [execute, seen, Option.getD_some, Option.getD_none, hexec]
  exact ⟨rfl, rfl⟩

/-- A statement that fails, in a transaction and outside. -/
theorem step_none (h : stmt.table?.isSome) (hexec : Tables.execute db stmt = none) :
    (⟨c, some db, false⟩ : Memory).step (some stmt) = (none, ⟨c, some db, true⟩) ∧
      (⟨db, none, false⟩ : Memory).step (some stmt) = (none, ⟨db, none, false⟩) := by
  rw [step_row h, step_row h]
  simp only [execute, seen, Option.getD_some, Option.getD_none, hexec]
  exact ⟨rfl, rfl⟩

/-- A failed transaction refuses everything, and its COMMIT. -/
theorem run_failed (hrow : ∀ stmt ∈ stmts, stmt.table?.isSome) :
    (⟨c, some db, true⟩ : Memory).run (stmts.map some ++ [some .commit]) =
      (List.replicate (stmts.length + 1) none, ⟨c, none, false⟩) := by
  induction stmts with
  | nil => rfl
  | cons stmt stmts ih =>
    have hstep : (⟨c, some db, true⟩ : Memory).step (some stmt) = (none, ⟨c, some db, true⟩) :=
      step_row (hrow stmt List.mem_cons_self) _
    rw [List.map_cons, List.cons_append, run, hstep,
      ih fun stmt hstmt => hrow stmt (List.mem_cons_of_mem _ hstmt)]
    rfl

/-- In a transaction with a COMMIT behind it, statements that all succeed do what they do in
autocommit mode to the tables that the transaction sees. -/
theorem run_commit (hrow : ∀ stmt ∈ stmts, stmt.table?.isSome)
    (hok : none ∉ ((⟨db, none, false⟩ : Memory).run (stmts.map some)).1) :
    (⟨c, some db, false⟩ : Memory).run (stmts.map some ++ [some .commit]) =
      (((⟨db, none, false⟩ : Memory).run (stmts.map some)).1 ++ [some .default],
        ((⟨db, none, false⟩ : Memory).run (stmts.map some)).2) := by
  induction stmts generalizing db with
  | nil => rfl
  | cons stmt stmts ih =>
    have hsome := hrow stmt List.mem_cons_self
    rw [List.map_cons, run] at hok
    rw [List.map_cons, List.cons_append, run, run]
    cases hexec : Tables.execute db stmt with
    | none =>
      rw [(step_none (c := c) hsome hexec).2] at hok
      exact absurd List.mem_cons_self hok
    | some r =>
      obtain ⟨hin, hout⟩ := step_some (c := c) hsome hexec
      rw [hout] at hok
      rw [hin, hout, ih (fun stmt hstmt => hrow stmt (List.mem_cons_of_mem _ hstmt))
        fun h => hok (List.mem_cons_of_mem _ h)]
      rfl

/-- If one of them fails, it answers up to there what it does in autocommit mode, and the COMMIT
fails and leaves what was committed. -/
theorem run_commit_failed (hrow : ∀ stmt ∈ stmts, stmt.table?.isSome)
    (hfail : none ∈ ((⟨db, none, false⟩ : Memory).run (stmts.map some)).1) :
    let whole := (⟨c, some db, false⟩ : Memory).run (stmts.map some ++ [some .commit])
    whole.1.takeWhile Option.isSome =
        ((⟨db, none, false⟩ : Memory).run (stmts.map some)).1.takeWhile Option.isSome ∧
      whole.1.getLast? = some none ∧ whole.2 = ⟨c, none, false⟩ := by
  induction stmts generalizing db with
  | nil => cases hfail
  | cons stmt stmts ih =>
    have hsome := hrow stmt List.mem_cons_self
    have hrest := fun stmt hstmt => hrow stmt (List.mem_cons_of_mem _ hstmt)
    rw [List.map_cons, run] at hfail
    rw [List.map_cons, List.cons_append, run, run]
    cases hexec : Tables.execute db stmt with
    | none =>
      obtain ⟨hin, hout⟩ := step_none (c := c) hsome hexec
      rw [hin, hout, run_failed hrest]
      refine ⟨rfl, ?_, rfl⟩
      simp [List.replicate_succ', List.getLast?_cons]
    | some r =>
      obtain ⟨hin, hout⟩ := step_some (c := c) hsome hexec
      rw [hout] at hfail
      obtain ⟨htake, hlast, hend⟩ := ih hrest ((List.mem_cons.mp hfail).resolve_left (by simp))
      rw [hin, hout]
      refine ⟨congrArg (List.cons _) htake, ?_, hend⟩
      rw [List.getLast?_cons, hlast]
      rfl

theorem admits_commit (hroom : m.committed.length + 1 < 2 ^ 32) : m.Admits .commit :=
  ⟨trivial, trivial, hroom, fun _ name t hname => by cases hname⟩

/-- What is admitted in autocommit mode is admitted in a failed transaction, whatever this sees. -/
theorem admitsAll_failed (hrow : ∀ stmt ∈ stmts, stmt.table?.isSome)
    (hroom : c.length + 1 < 2 ^ 32) (h : m.AdmitsAll (stmts.map some)) :
    (⟨c, some db, true⟩ : Memory).AdmitsAll (stmts.map some ++ [some .commit]) := by
  induction stmts generalizing m with
  | nil =>
    refine ⟨fun st hst => ?_, trivial⟩
    cases hst
    exact admits_commit hroom
  | cons stmt stmts ih =>
    obtain ⟨hfirst, hrest⟩ := h
    refine ⟨fun st hst => ?_, ?_⟩
    · cases hst
      have hadm := hfirst _ rfl
      exact ⟨hadm.values, hadm.names, hroom, fun h => by cases h⟩
    · rw [step_row (hrow stmt List.mem_cons_self)]
      exact ih (fun stmt hstmt => hrow stmt (List.mem_cons_of_mem _ hstmt)) hrest

/-- It is admitted in a transaction that sees the same tables. -/
theorem admitsAll_commit (hrow : ∀ stmt ∈ stmts, stmt.table?.isSome)
    (hroom : c.length + 1 < 2 ^ 32) (h : (⟨db, none, false⟩ : Memory).AdmitsAll (stmts.map some)) :
    (⟨c, some db, false⟩ : Memory).AdmitsAll (stmts.map some ++ [some .commit]) := by
  induction stmts generalizing db with
  | nil =>
    refine ⟨fun st hst => ?_, trivial⟩
    cases hst
    exact admits_commit hroom
  | cons stmt stmts ih =>
    have hsome := hrow stmt List.mem_cons_self
    have hall := fun stmt hstmt => hrow stmt (List.mem_cons_of_mem _ hstmt)
    obtain ⟨hfirst, hrest⟩ := h
    refine ⟨fun st hst => ?_, ?_⟩
    · cases hst
      have hadm := hfirst _ rfl
      exact ⟨hadm.values, hadm.names, hroom, fun _ => hadm.total rfl⟩
    · cases hexec : Tables.execute db stmt with
      | none =>
        rw [(step_none hsome hexec).1]
        exact admitsAll_failed hall hroom hrest
      | some r =>
        obtain ⟨hin, hout⟩ := step_some (c := c) hsome hexec
        rw [hin]
        rw [hout] at hrest
        exact ih hall hrest

end Memory

/-! ## Statements in the code -/

variable {H : Host} {C : H.Contract} {u : Unicode} {s : H.Store}

/-- The statements between BEGIN and COMMIT. -/
def bracketed (stmts : List Statement) : List Statement := .begin :: stmts ++ [.commit]

/-- **BEGIN and COMMIT are transparent** to INSERT, SELECT, UPDATE and DELETE that all succeed in
autocommit mode: they answer the same, and leave the same tables. If one of them fails, those before
it answer the same, and the COMMIT fails and leaves the tables as they were. (CREATE TABLE is
refused between BEGIN and COMMIT, and does not make the COMMIT fail.) -/
theorem transaction_transparent (haccepts : H.Accepts) (h : Holds C Session.new s m)
    (hrow : ∀ stmt ∈ stmts, stmt.table?.isSome) (hroom : m.committed.length + 1 < 2 ^ 32)
    (hadm : m.AdmitsAll (stmts.map some)) :
    let single := answers u Session.new s (stmts.map .executeStatement)
    let calls := (bracketed stmts).map Call.executeStatement
    (none ∉ single → answers u Session.new s calls = some .default :: single ++ [some .default] ∧
        ∃ m', Leaves C u Session.new s (stmts.map .executeStatement) m' ∧
          Leaves C u Session.new s calls m') ∧
      (none ∈ single →
        (answers u Session.new s calls).takeWhile Option.isSome =
            some .default :: single.takeWhile Option.isSome ∧
          (answers u Session.new s calls).getLast? = some none ∧
          Leaves C u Session.new s calls m) := by
  obtain ⟨c, rfl⟩ : ∃ c, m = ⟨c, none, false⟩ := by
    cases h
    exact ⟨_, rfl⟩
  have hstmts : (stmts.map Call.executeStatement).map (·.statement u) = stmts.map some := by
    rw [List.map_map]
    rfl
  have hcalls : ((bracketed stmts).map Call.executeStatement).map (·.statement u) =
      some .begin :: (stmts.map some ++ [some .commit]) := by
    rw [List.map_map, bracketed, List.cons_append, List.map_cons, List.map_append]
    rfl
  have hsql : ∀ {l : List Statement}, ∀ c ∈ l.map Call.executeStatement, c.IsSql := by
    simp [Call.IsSql]
  obtain ⟨hsingle, hends⟩ := h.run (u := u) haccepts hsql (hstmts ▸ hadm)
  have hadm' : (⟨c, none, false⟩ : Memory).AdmitsAll
      (some .begin :: (stmts.map some ++ [some .commit])) := by
    refine ⟨fun st hst => ?_, Memory.admitsAll_commit hrow hroom hadm⟩
    cases hst
    exact ⟨trivial, trivial, hroom, fun _ name t hname => by cases hname⟩
  obtain ⟨hwhole, hends'⟩ := h.run (u := u) haccepts hsql (hcalls ▸ hadm')
  rw [hstmts] at hsingle hends
  rw [hcalls] at hwhole hends'
  have hbegin : (⟨c, none, false⟩ : Memory).run
      (some .begin :: (stmts.map some ++ [some .commit])) =
      (some .default ::
        ((⟨c, some c, false⟩ : Memory).run (stmts.map some ++ [some .commit])).1,
        ((⟨c, some c, false⟩ : Memory).run (stmts.map some ++ [some .commit])).2) := rfl
  rw [hbegin] at hwhole hends'
  dsimp only
  refine ⟨fun hok => ?_, fun hfail => ?_⟩
  · rw [hsingle] at hok
    have hrun := Memory.run_commit (c := c) hrow hok
    rw [hrun] at hwhole hends'
    exact ⟨by rw [hwhole, ← hsingle]; rfl, _, hends, hends'⟩
  · rw [hsingle] at hfail
    obtain ⟨htake, hlast, hend⟩ := Memory.run_commit_failed (c := c) hrow hfail
    rw [hend] at hends'
    refine ⟨?_, ?_, hends'⟩
    · rw [hwhole, hsingle, ← htake]
      rfl
    · rw [hwhole, List.getLast?_cons, hlast]
      rfl

theorem admitsAll_insertSample (hroom : db.length + 1 < 2 ^ 32) (ks : List Int64) :
    (⟨db, none, false⟩ : Memory).AdmitsAll ((ks.map insertSample).map some) := by
  induction ks generalizing db with
  | nil => trivial
  | cons k ks ih =>
    refine ⟨fun st hst => ?_, ?_⟩
    · cases hst
      exact admits_insertSample hroom k
    · cases hexec : Tables.execute db (insertSample k) with
      | none =>
        rw [(Memory.step_none (c := []) rfl hexec).2]
        exact ih hroom
      | some r =>
        rw [(Memory.step_some (c := []) rfl hexec).2]
        exact ih (Tables.length_execute hexec ▸ hroom)

/-- The second row has the key of the first. -/
theorem transaction_transparent_sample :
    let calls := (bracketed [insertSample 7, insertSample 7]).map Call.executeStatement
    (answers (H := Reference.host true) .ascii Session.new createdStore calls).getLast? =
        some none ∧
      Leaves (Reference.contract true) .ascii Session.new createdStore calls
        ⟨[⟨sampleTable.schema, []⟩], none, false⟩ := by
  have hadm : (⟨[⟨sampleTable.schema, []⟩], none, false⟩ : Memory).AdmitsAll
      ([insertSample 7, insertSample 7].map some) := admitsAll_insertSample (by decide) [7, 7]
  have hfail : none ∈ answers (H := Reference.host true) .ascii Session.new createdStore
      ([insertSample 7, insertSample 7].map .executeStatement) := by decide +kernel
  exact ((transaction_transparent accepts_reference holds_created (by decide) (by decide)
    hadm).2 hfail).2

end Choam

import Choam.Verify.Bracket

/-!
# Statements on different tables

They commute: in either order they answer the same and leave the same tables. It is enough that
they do so in memory, where the one replaces a table that the other does not look at
(`Tables.execute_replace`).
-/

namespace Choam

open Interleave

variable {db : List Table} {stmt stmt' : Statement} {name name' : String} {rows rows' : List Row}
  {m : Memory}

namespace Tables

theorem replace_comm (h : name ≠ name') (db : List Table) :
    replace (replace db name rows) name' rows' = replace (replace db name' rows') name rows := by
  simp only [replace, List.map_map]
  refine List.map_congr_left fun t _ => ?_
  simp only [Function.comp_apply]
  by_cases hname : t.schema.tableName = name
  · simp [hname, h]
  · by_cases hname' : t.schema.tableName = name'
    · simp [hname', h.symm]
    · simp [hname, hname']

theorem find_replace (h : name ≠ name') (db : List Table) :
    find (replace db name rows) name' = find db name' := by
  induction db with
  | nil => rfl
  | cons t db ih =>
    have hcons : replace (t :: db) name rows =
        (if t.schema.tableName = name then { t with rows } else t) :: replace db name rows := rfl
    rw [hcons, find, find, List.find?_cons, List.find?_cons]
    by_cases hname : t.schema.tableName = name
    · have hne : (t.schema.tableName == name') = false :=
        beq_eq_false_iff_ne.mpr fun h' => h (hname.symm.trans h')
      rw [if_pos hname, hne]
      exact ih
    · rw [if_neg hname]
      cases t.schema.tableName == name'
      · exact ih
      · rfl

/-- A statement replaces its table. -/
theorem execute_cases (hname : stmt.table? = some name) (db : List Table) :
    execute db stmt = none ∨ ∃ q rows, execute db stmt = some (q, replace db name rows) := by
  cases h : execute db stmt with
  | none => exact .inl rfl
  | some r =>
    obtain ⟨n, hn, hbind⟩ := Option.bind_eq_some_iff.mp h
    cases hname.symm.trans hn
    obtain ⟨t, ht, hif⟩ := Option.bind_eq_some_iff.mp hbind
    by_cases hvalid : Relational.Valid t.schema stmt
    · rw [if_pos hvalid, Option.map_eq_some_iff] at hif
      obtain ⟨r', -, rfl⟩ := hif
      exact .inr ⟨_, _, rfl⟩
    · rw [if_neg hvalid] at hif
      cases hif

/-- A statement does the same whatever happened to another table. -/
theorem execute_replace (rows : List Row) (h : name ≠ name') (hname : stmt.table? = some name')
    (db : List Table) :
    execute (replace db name rows) stmt =
      (execute db stmt).map fun r => (r.1, replace r.2 name rows) := by
  rw [execute, execute, hname, Option.bind_some, Option.bind_some, find_replace h]
  cases find db name' with
  | none => rfl
  | some t =>
    rw [Option.bind_some, Option.bind_some]
    split
    · rw [Option.map_map]
      refine congrArg (fun f => Option.map f _) (funext fun r => ?_)
      exact congrArg (Prod.mk r.1) (replace_comm h db)
    · rfl

theorem total_replace (h : name ≠ name') (hname : stmt.table? = some name')
    (htotal : Total db stmt) : Total (replace db name rows) stmt := fun n t hn hfind => by
  cases hname.symm.trans hn
  rw [find_replace h] at hfind
  exact htotal _ t hname hfind

end Tables

namespace Memory

theorem run_pair (m : Memory) (stmt stmt' : Statement) :
    m.run [some stmt, some stmt'] =
      ([(m.step (some stmt)).1, ((m.step (some stmt)).2.step (some stmt')).1],
        ((m.step (some stmt)).2.step (some stmt')).2) := rfl

theorem isSome_table (hname : stmt.table? = some name) : stmt.table?.isSome :=
  Option.isSome_iff_exists.mpr ⟨name, hname⟩

/-- In autocommit mode, and in a transaction that neither of them fails. -/
theorem run_comm (h : name ≠ name') (hname : stmt.table? = some name)
    (hname' : stmt'.table? = some name')
    (hok : m.working = none ∨ none ∉ (m.run [some stmt, some stmt']).1) :
    m.run [some stmt', some stmt] =
      ((m.run [some stmt, some stmt']).1.reverse, (m.run [some stmt, some stmt']).2) := by
  have hstmt := isSome_table hname
  have hstmt' := isSome_table hname'
  rw [run_pair] at hok
  rw [run_pair, run_pair]
  obtain ⟨c, working, failed⟩ := m
  cases failed with
  | true =>
    rw [step_row hstmt, step_row hstmt', step_row hstmt, step_row hstmt']
    rfl
  | false =>
  cases working with
  | none =>
    rcases Tables.execute_cases hname c with he | ⟨q, rows, he⟩ <;>
      rcases Tables.execute_cases hname' c with he' | ⟨q', rows', he'⟩
    · rw [(step_none (c := c) hstmt he).2, (step_none (c := c) hstmt' he').2,
        (step_none (c := c) hstmt he).2]
      rfl
    · have hafter := Tables.execute_replace rows' h.symm hname c
      rw [he] at hafter
      rw [(step_none (c := c) hstmt he).2, (step_some (c := c) hstmt' he').2,
        (step_none (c := c) hstmt hafter).2]
      rfl
    · have hafter := Tables.execute_replace rows h hname' c
      rw [he'] at hafter
      rw [(step_some (c := c) hstmt he).2, (step_none (c := c) hstmt' he').2,
        (step_none (c := c) hstmt' hafter).2, (step_some (c := c) hstmt he).2]
      rfl
    · have hafter := Tables.execute_replace rows h hname' c
      have hafter' := Tables.execute_replace rows' h.symm hname c
      rw [he'] at hafter
      rw [he] at hafter'
      rw [(step_some (c := c) hstmt he).2, (step_some (c := c) hstmt' he').2,
        (step_some (c := c) hstmt' hafter).2, (step_some (c := c) hstmt hafter').2,
        Tables.replace_comm h]
      rfl
  | some db =>
    obtain hok := hok.resolve_left (by simp)
    rcases Tables.execute_cases hname db with he | ⟨q, rows, he⟩
    · rw [(step_none (c := c) hstmt he).1] at hok
      exact absurd List.mem_cons_self hok
    have hafter := Tables.execute_replace rows h hname' db
    rcases Tables.execute_cases hname' db with he' | ⟨q', rows', he'⟩
    · rw [he'] at hafter
      rw [(step_some (c := c) hstmt he).1, (step_none (c := c) hstmt' hafter).1] at hok
      exact absurd (List.mem_cons_of_mem _ List.mem_cons_self) hok
    · have hafter' := Tables.execute_replace rows' h.symm hname db
      rw [he'] at hafter
      rw [he] at hafter'
      rw [(step_some (c := c) hstmt he).1, (step_some (c := c) hstmt' he').1,
        (step_some (c := c) hstmt' hafter).1, (step_some (c := c) hstmt hafter').1,
        Tables.replace_comm h]
      rfl

/-- What a statement on another table leaves admits what was admitted. -/
theorem admits_step (h : name ≠ name') (hname : stmt.table? = some name)
    (hname' : stmt'.table? = some name') (hadm : m.Admits stmt') :
    (m.step (some stmt)).2.Admits stmt' := by
  have hstmt := isSome_table hname
  obtain ⟨c, working, failed⟩ := m
  cases failed with
  | true =>
    rw [step_row hstmt]
    exact hadm
  | false =>
  obtain ⟨hvalues, hnames, hroom, htotal⟩ := hadm
  cases working with
  | none =>
    rcases Tables.execute_cases hname c with he | ⟨q, rows, he⟩
    · rw [(step_none (c := c) hstmt he).2]
      exact ⟨hvalues, hnames, hroom, htotal⟩
    · rw [(step_some (c := c) hstmt he).2]
      exact ⟨hvalues, hnames, (Tables.length_replace c name rows).symm ▸ hroom,
        fun hf => Tables.total_replace h hname' (htotal hf)⟩
  | some db =>
    rcases Tables.execute_cases hname db with he | ⟨q, rows, he⟩
    · rw [(step_none (c := c) hstmt he).1]
      exact ⟨hvalues, hnames, hroom, fun hf => by cases hf⟩
    · rw [(step_some (c := c) hstmt he).1]
      exact ⟨hvalues, hnames, hroom, fun hf => Tables.total_replace h hname' (htotal hf)⟩

theorem admitsAll_pair (h : name ≠ name') (hname : stmt.table? = some name)
    (hname' : stmt'.table? = some name') (hadm : m.Admits stmt) (hadm' : m.Admits stmt') :
    m.AdmitsAll [some stmt, some stmt'] := by
  refine ⟨fun st hst => ?_, fun st hst => ?_, trivial⟩
  · cases hst
    exact hadm
  · cases hst
    exact admits_step h hname hname' hadm'

end Memory

/-! ## In a session -/

variable {H : Host} {C : H.Contract} {u : Unicode} {s : H.Store} {self : Session H}

/-- **Statements on different tables commute**: two of INSERT, SELECT, UPDATE and DELETE, in
autocommit mode whether they succeed or not, and in a transaction if they do. In either order each
answers the same, and they leave the same tables. -/
theorem statements_commute (haccepts : H.Accepts) (h : Holds C self s m)
    (hname : stmt.table? = some name) (hname' : stmt'.table? = some name') (hne : name ≠ name')
    (hadm : m.Admits stmt) (hadm' : m.Admits stmt')
    (hok : self.inTransaction = false ∨
      none ∉ answers u self s [.executeStatement stmt, .executeStatement stmt']) :
    answers u self s [.executeStatement stmt', .executeStatement stmt] =
        (answers u self s [.executeStatement stmt, .executeStatement stmt']).reverse ∧
      ∃ m', Leaves C u self s [.executeStatement stmt, .executeStatement stmt'] m' ∧
        Leaves C u self s [.executeStatement stmt', .executeStatement stmt] m' := by
  have hsql : ∀ {a b : Statement}, ∀ c ∈ [Call.executeStatement a, .executeStatement b],
      c.IsSql := by simp [Call.IsSql]
  obtain ⟨hans, hends⟩ := h.run (u := u) haccepts hsql
    (Memory.admitsAll_pair hne hname hname' hadm hadm')
  obtain ⟨hans', hends'⟩ := h.run (u := u) haccepts hsql
    (Memory.admitsAll_pair hne.symm hname' hname hadm' hadm)
  change _ = (m.run [some stmt, some stmt']).1 at hans
  change Leaves C u self s _ (m.run [some stmt, some stmt']).2 at hends
  change _ = (m.run [some stmt', some stmt]).1 at hans'
  change Leaves C u self s _ (m.run [some stmt', some stmt]).2 at hends'
  have hokm : m.working = none ∨ none ∉ (m.run [some stmt, some stmt']).1 := by
    rw [← hans]
    refine hok.imp_left fun hout => ?_
    cases h with
    | outside => rfl
    | inside => cases hout
  rw [Memory.run_comm hne hname hname' hokm] at hans' hends'
  exact ⟨hans'.trans (congrArg List.reverse hans.symm), _, hends, hends'⟩

/-- There is no table b. -/
theorem statements_commute_sample :
    answers (H := Reference.host true) .ascii Session.new createdStore
        [.executeStatement (.delete "b" none), .executeStatement (insertSample 7)] =
      (answers (H := Reference.host true) .ascii Session.new createdStore
        [.executeStatement (insertSample 7), .executeStatement (.delete "b" none)]).reverse := by
  have hdelete : (⟨[⟨sampleTable.schema, []⟩], none, false⟩ : Memory).Admits
      (.delete "b" none) := by
    refine ⟨trivial, trivial, by decide, fun _ name t _ _ e he => ?_⟩
    cases he
  exact (statements_commute accepts_reference holds_created rfl rfl (by decide)
    (admits_insertSample (by decide) 7) hdelete (.inl rfl)).1

end Choam

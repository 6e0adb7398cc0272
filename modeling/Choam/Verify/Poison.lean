import Choam.Verify.Past

/-!
# A failed statement poisons its transaction

An INSERT, SELECT, UPDATE or DELETE that fails inside BEGIN and COMMIT sets the session's flag, and
the flag stays until the transaction ends. Text that does not parse, a BEGIN and a CREATE TABLE
fail there too, but leave the flag alone (`not_poisoned_by_nested_begin`); a transaction without
such calls is poisoned by every failure (`poisoned_of_failed`).
-/

namespace Choam

open ByteString Overlay Interleave

variable {H : Host} {u : Unicode}

/-- The call executes an INSERT, SELECT, UPDATE or DELETE. -/
def Call.OnRows (u : Unicode) (c : Call) : Prop := ((c.statement u).bind Statement.table?).isSome

theorem Call.onRows_iff {c : Call} : c.OnRows u ↔
    ∃ stmt table, c.statement u = some stmt ∧ stmt.table? = some table := by
  simp only [OnRows, Option.isSome_iff_exists, Option.bind_eq_some_iff]
  exact exists_comm.trans (by simp only [exists_and_left])

/-- Until the transaction has failed, all the SQL in it is INSERT, SELECT, UPDATE and DELETE. -/
def OnlyRows (u : Unicode) (ops : List (system H u).Done) : Prop :=
  ∀ d ∈ ops, ∀ t, d.start = .session ⟨some t, false⟩ → d.call.IsSql → d.call.OnRows u

theorem isSql_of_failed {allow : Call → Local H → Prop} {d : (system H u).Done}
    (hd : Returned (O := system H u) allow d) (hfailed : d.reply.failed = true) : d.call.IsSql := by
  have hnot : ¬ d.call.IsSql → (d.call.body u d.start).Ensures (fun _ _ => True) (fun _ => True)
      fun r => r.1.failed = false := by
    cases d.call with
    | execute | executeStatement => exact fun hsql => absurd trivial hsql
    | createTable | getTable | listTables => exact fun _ => Prog.ensures_bind_of fun r => rfl
    | begin =>
      intro _
      match d.start with
      | .session _ | .handle (some _) => rfl
      | .handle none => exact Prog.ensures_bind_of fun r => rfl
    | read | scan | write | delete | commit | abort =>
      intro _
      match d.start with
      | .session _ | .handle none => rfl
      | .handle (some _) => exact Prog.ensures_bind_of fun r => rfl
  by_contra hsql
  have := hd.leads.ensures (hnot hsql)
  simp [hfailed] at this

/-- Once a call has failed, the flag is set. -/
theorem Transacted.failed {allow : Call → Local H → Prop} {base : H.Store}
    {ops : List (system H u).Done} {self : Session H} (h : Transacted u base ops self)
    (hret : ∀ d ∈ ops, Returned (O := system H u) allow d) (honly : OnlyRows u ops)
    (hfailed : ∃ d ∈ ops, d.reply.failed = true) : self.failed = true := by
  induction h with
  | begin => simp at hfailed
  | @step ops t failed d self h hstart hfinish hd ih =>
    have hretd := hret d (by simp)
    have ih := ih (fun d' hd' => hret d' (by simp [hd'])) fun d' hd' => honly d' (by simp [hd'])
    obtain ⟨d', hd', hfailed⟩ := hfailed
    cases hd with
    | same hrow =>
      cases failed with
      | true => rfl
      | false =>
        rcases List.mem_append.mp hd' with hd' | hd'
        · exact ih ⟨d', hd', hfailed⟩
        · rw [List.mem_singleton] at hd'
          subst hd'
          obtain ⟨stmt, table, hstmt, htable⟩ :=
            Call.onRows_iff.mp (honly d' (by simp) t hstart (isSql_of_failed hretd hfailed))
          exact (hrow stmt table hstmt htable).1
    | @ran stmt table r t' hnot hstmt htable hreply hleads =>
      subst hnot
      rcases List.mem_append.mp hd' with hd' | hd'
      · exact absurd (ih ⟨d', hd', hfailed⟩) (by simp)
      · rw [List.mem_singleton] at hd'
        subst hd'
        rw [hreply] at hfailed
        cases r with
        | ok _ => cases hfailed
        | error e => rfl

section Reachable

variable {ι : Type} [DecidableEq ι] {s₀ : H.Store} {l₀ : ι → Local H} {g : (system H u).Config ι}

/-- **A failed transaction stays failed until it ends**: after a failure, its statements on rows
are refused, and its COMMIT is refused and commits nothing. -/
theorem poisoned_of_failed (hl₀ : ∀ i, (l₀ i).Idle)
    (hg : Reachable (fun _ _ => True) (start s₀ l₀) g) {i : ι}
    {past ops rest : List (system H u).Done} {d : (system H u).Done}
    (hpast : (g.client i).past = past ++ d :: rest) (hops : sinceBegin u past = some ops)
    (honly : OnlyRows u ops) (hfailed : ∃ o ∈ ops, o.reply.failed = true) :
    (d.call.OnRows u → d.reply = .result (.error .transactionAborted)) ∧
      (d.call.statement u = some .commit → d.reply = .result (.error .transactionAborted) ∧
        ∀ a ∈ d.seen, ∀ t, a.op ≠ .commit t) := by
  obtain ⟨l, hrem⟩ := Remembers.of_client hg.logged i
  rw [hpast] at hrem
  obtain ⟨m, hbefore, hafter⟩ := hrem.split
  obtain ⟨before, b, base, self, rfl, -, rfl, htrans⟩ := hbefore.transacted (hl₀ i).sane hops
  have hset := htrans.failed (fun o ho => hbefore.returned o (by simp [ho])) honly hfailed
  obtain ⟨t, failed, rfl⟩ := htrans.exists_txn
  obtain rfl : failed = true := hset
  have hd := hafter.returned d (by simp)
  obtain ⟨hstart, -⟩ := hafter.linked
  refine ⟨fun hrow => ?_, fun hcommit => ?_⟩
  · obtain ⟨stmt, table, hstmt, htable⟩ := Call.onRows_iff.mp hrow
    have hstays : Stays u d := by
      constructor <;> intro h <;> rw [hstmt] at h <;> cases h <;> cases htable
    obtain ⟨self', -, hinside⟩ := returned_inside hd hstart hstays
    cases hinside with
    | same h => exact (h stmt table hstmt htable).2.2
    | ran hnot => cases hnot
  · obtain ⟨-, s, hseen, hreply⟩ := returned_commit hd hstart hcommit
    refine ⟨hreply, fun a ha t' => ?_⟩
    rw [hseen, List.mem_singleton] at ha
    subst ha
    exact nofun

end Reachable

/-! ## Two runs -/

/-- BEGIN; INSERT (1, 'x'); INSERT (1, 'x'); COMMIT: the second INSERT fails. -/
def failingCalls : List (ℕ × Call) :=
  [(0, .executeStatement createSample), (1, .executeStatement .begin),
    (1, .executeStatement (insertSample 1)), (1, .executeStatement (insertSample 1)),
    (1, .executeStatement .commit)]

theorem poisoned_of_failed_sample : ∃ d : (system (Reference.host true) .ascii).Done,
    ((sampleRun failingCalls).client 1).past[3]? = some d ∧
      (d.call.OnRows .ascii → d.reply = .result (.error .transactionAborted)) ∧
      (d.call.statement .ascii = some .commit →
        d.reply = .result (.error .transactionAborted) ∧ ∀ a ∈ d.seen, ∀ t, a.op ≠ .commit t) := by
  obtain ⟨ops, d, hpast, hd, hops, hcheck⟩ := exists_sinceBegin
    ((sampleRun failingCalls).client 1).past 3 (fun ops =>
      ops.all (fun o => ((o.call.statement .ascii).bind Statement.table?).isSome) &&
        ops.any (·.reply.failed)) (by decide +kernel) (by decide +kernel)
  obtain ⟨hrows, hfailed⟩ := Bool.and_eq_true_iff.mp hcheck
  exact ⟨d, hd, poisoned_of_failed idle_newSessions (reachable_sampleRun fun _ _ _ => trivial) hpast
    hops (fun o ho _ _ _ => List.all_eq_true.mp hrows o ho) (by simpa using hfailed)⟩

/-- BEGIN; x; BEGIN; CREATE TABLE; INSERT (1, 'x'); COMMIT. -/
def nestedCalls : List (ℕ × Call) :=
  [(0, .executeStatement createSample), (1, .executeStatement .begin), (1, .execute "x"),
    (1, .executeStatement .begin), (1, .executeStatement createSample),
    (1, .executeStatement (insertSample 1)), (1, .executeStatement .commit)]

/-- Text that does not parse, a BEGIN and a CREATE TABLE do not poison. -/
theorem not_poisoned_by_nested_begin : ¬ ∀ (g : (system (Reference.host true) .ascii).Config ℕ),
    Reachable (fun _ _ => True) (start ([] : List Reference.WriteList) newSessions) g →
    ∀ i past ops rest d, (g.client i).past = past ++ d :: rest → sinceBegin .ascii past = some ops →
      (∃ o ∈ ops, o.reply.failed = true) →
      (d.call.OnRows .ascii → d.reply = .result (.error .transactionAborted)) ∧
      (d.call.statement .ascii = some .commit → d.reply = .result (.error .transactionAborted) ∧
        ∀ a ∈ d.seen, ∀ t, a.op ≠ .commit t) := by
  intro hall
  obtain ⟨ops, d, hpast, hd, hops, hcheck⟩ := exists_sinceBegin
    ((sampleRun nestedCalls).client 1).past 5 (fun ops => ops.any (·.reply.failed))
    (by decide +kernel) (by decide +kernel)
  have hlast := hall _ (reachable_sampleRun fun _ _ _ => trivial) 1 _ ops _ d hpast hops
    (by simpa using hcheck)
  have hok : (((sampleRun nestedCalls).client 1).past[5]?.map fun d =>
      (d.call.statement .ascii, d.reply.failed)) = some (some .commit, false) := by decide +kernel
  rw [hd] at hok
  simp only [Option.map_some, Option.some.injEq, Prod.mk.injEq] at hok
  rw [(hlast.2 hok.1).1] at hok
  cases hok.2

end Choam

import Choam.Verify.Commits
import Choam.Verify.Effect

/-!
# Snapshot isolation of statements

A statement looks its table up in the newest catalog, and reads rows from the snapshot that its
transaction took at its beginning. Since the entry of a table never changes, a statement on a
table that existed at the beginning does to its transaction what it would have done right then,
whatever others have committed in between (`effect_of_leads`).
-/

namespace Choam

open ByteString Overlay Interleave

variable {H : Host} {C : H.Contract} {P : Promises} {u : Unicode}

/-- The table exists. -/
def TableIn (c : Contents Bytes Bytes) (table : String) : Prop :=
  ∃ k, catalogTableKey table = some k ∧ c k ≠ none

/-- The entry of a table that exists stays. -/
theorem TableIn.entry_eq {c c' : Contents Bytes Bytes} {table : String} (h : TableIn c table)
    (hp : EntriesPersist c c') {k : Bytes} (hk : catalogTableKey table = some k) : c' k = c k := by
  obtain ⟨k', hk', hlive⟩ := h
  rw [hk] at hk'
  cases hk'
  obtain ⟨bytes, hbytes⟩ := Option.ne_none_iff_exists'.mp hlive
  rw [hbytes, hp table k bytes hk hbytes]

/-- A transaction on rows, begun on the store `base`. -/
structure BegunOn (C : H.Contract) (base : H.Store) (t : H.Txn) : Prop where
  snapshot : C.snapshot t = C.history base
  rowKeys : ∀ k, ¬ IsRowKey k → C.writes t k = none

namespace BegunOn

variable {base : H.Store} {t t' : H.Txn}

theorem begin (base : H.Store) : BegunOn C base (H.begin base).1 := ⟨by simp, by simp⟩

theorem view_eq (h : BegunOn C base t) : C.view t = (C.writes t).apply (C.committed base) := by
  rw [Host.Contract.view, h.snapshot]
  rfl

/-- Such a transaction sees the catalog of its beginning. -/
theorem view_of_not_isRowKey (h : BegunOn C base t) {k : Bytes} (hk : ¬ IsRowKey k) :
    C.view t k = C.committed base k := by
  rw [h.view_eq, Writes.apply_of_none (h.rowKeys k hk)]

theorem onStore (h : BegunOn C base t) {ε α : Type} {table : String} {m : RowM ε α}
    (hm : RowM.LooksUp table m) {seen : List (system H u).Access} {r : Except ε α}
    (hleads : Leads (O := system H u) (m.onStore t) seen (.done (r, t'))) : BegunOn C base t' := by
  obtain ⟨hsnap, hrow⟩ := hm.leads_writes C hleads
  exact ⟨hsnap.trans h.snapshot, fun k hk => (hrow k hk).trans (h.rowKeys k hk)⟩

end BegunOn

/-- The stores that some accesses met still have the tables of `base`, and of each other. -/
structure Follow (C : H.Contract) (base : H.Store) (seen : List (system H u).Access) : Prop where
  base : ∀ a ∈ seen, EntriesPersist (C.committed base) (C.committed a.before)
  pairwise : seen.Pairwise fun a a' => EntriesPersist (C.committed a.before) (C.committed a'.before)

theorem Follow.append {base : H.Store} {seen seen' : List (system H u).Access}
    (h : Follow C base (seen ++ seen')) : Follow C base seen ∧ Follow C base seen' := by
  obtain ⟨h₁, h₂, -⟩ := List.pairwise_append.mp h.pairwise
  exact ⟨⟨fun a ha => h.base a (by simp [ha]), h₁⟩, fun a ha => h.base a (by simp [ha]), h₂⟩

/-- **A statement sees its snapshot**: where it first meets the entry of its table as it was at the
beginning of its transaction, it has the effect that it would have had then. -/
theorem effect_of_entry {base : H.Store} {t t' : H.Txn} (ht : BegunOn C base t) {stmt : Statement}
    {table : String} (htable : stmt.table? = some table)
    {seen : List (system H u).Access} {r : Session.Reply H}
    (hentry : ∀ k, catalogTableKey table = some k → ∀ a ∈ seen.head?,
      C.committed a.before k = C.committed base k)
    (hleads : Leads (O := system H u) ((run u stmt).onStore t) seen (.done (r, t')))
    (hseen : Follow C base seen) : Effect C u stmt (C.view t) r (C.view t') := by
  have hexec := RowM.atomic (C := C) (RowM.startsOn_run htable) (RowM.looksUp_run htable) hleads
    base hseen.pairwise
  refine .of_exec base htable (fun k hk => ?_) (fun k hk => (ht.view_of_not_isRowKey hk).symm) hexec
  cases seen with
  | nil => rfl
  | cons a seen => exact hentry k hk a rfl

/-- So it has on a table that existed then. -/
theorem effect_of_leads {base : H.Store} {t t' : H.Txn} (ht : BegunOn C base t) {stmt : Statement}
    {table : String} (htable : stmt.table? = some table) (hin : TableIn (C.committed base) table)
    {seen : List (system H u).Access} {r : Session.Reply H}
    (hleads : Leads (O := system H u) ((run u stmt).onStore t) seen (.done (r, t')))
    (hseen : Follow C base seen) : Effect C u stmt (C.view t) r (C.view t') := by
  refine effect_of_entry ht htable (fun k hk a ha => ?_) hleads hseen
  exact hin.entry_eq (hseen.base a (List.mem_of_mem_head? ha)) hk

theorem Transacted.begunOn {base : H.Store} {ops : List (system H u).Done} {self : Session H}
    (h : Transacted u base ops self) : ∀ t, self.txn = some t → BegunOn C base t := by
  induction h with
  | begin =>
    intro t ht
    cases ht
    exact .begin base
  | step h hstart hfinish hd ih =>
    intro t ht
    cases hd with
    | same hrow => exact ih t ht
    | ran hfailed hstmt htable hreply hleads =>
      cases ht
      exact (ih _ rfl).onStore (RowM.looksUp_run htable) hleads

/-- The call first met the entries of the tables it names as they were at BEGIN. -/
def MeetsEntries (C : H.Contract) (base : H.Store) (o : (system H u).Done) : Prop :=
  ∀ stmt table k, o.call.statement u = some stmt → stmt.table? = some table →
    catalogTableKey table = some k → ∀ a ∈ o.seen.head?, C.committed a.before k = C.committed base k

/-- **A transaction sees its own writes**: while no statement on rows has failed, and all of them
met their tables as they were at BEGIN, it sees what they have made, one after another, of what was
committed then. -/
theorem Transacted.effects {base : H.Store} {ops : List (system H u).Done} {self : Session H}
    (h : Transacted u base ops self) (hfollow : Follow C base (accesses ops))
    (hin : ∀ o ∈ ops, MeetsEntries C base o) :
    ∀ t, self = ⟨some t, false⟩ →
      Effects C u (C.committed base) (rowReplies u (ops.map fun o => (o.call, o.reply))) (C.view t) := by
  induction h with
  | begin =>
    intro t ht
    cases ht
    exact C.view_begin base
  | @step ops t₀ failed d self h hstart hfinish hd ih =>
    intro t ht
    rw [accesses_append, accesses_cons, accesses_nil, List.append_nil] at hfollow
    obtain ⟨hfollow, hown⟩ := hfollow.append
    have ih := ih hfollow fun o ho => hin o (by simp [ho])
    rw [List.map_append, List.map_singleton, rowReplies_concat]
    cases hd with
    | same hrow =>
      cases ht
      have hnone : rowReply u d.call d.reply = none := by
        by_contra hsome
        obtain ⟨x, hx⟩ := Option.ne_none_iff_exists'.mp hsome
        obtain ⟨stmt, table, hstmt, htable, -⟩ := rowReply_eq_some.mp hx
        cases (hrow stmt table hstmt htable).1
      rw [hnone]
      simpa using ih t₀ rfl
    | @ran stmt table r t' hfailed hstmt htable hreply hleads =>
      subst hfailed
      injection ht with ht
      cases ht
      have hsome : rowReply u d.call d.reply = some (stmt, r) :=
        rowReply_eq_some.mpr ⟨stmt, table, hstmt, htable, rfl, hreply⟩
      rw [hsome]
      exact (ih t₀ rfl).concat (effect_of_entry (h.begunOn t₀ rfl) htable
        (fun k hk => hin d (by simp) stmt table k hstmt htable hk) hleads hown)

/-! ## Every interleaving -/

section Reachable

variable {ι : Type} [DecidableEq ι] {allow : Call → Local H → Prop} {s₀ : H.Store}
  {l₀ : ι → Local H} {g : (system H u).Config ι}

/-- What a client met after one of its accesses follows that. -/
theorem follow_of_pairwise {before after : List (system H u).Access} {a : (system H u).Access}
    (hpair : (before ++ a :: after).Pairwise fun a a' => Rely C P a.before a'.before) :
    Follow C a.before after := by
  obtain ⟨hhead, htail⟩ := List.pairwise_cons.mp (List.pairwise_append.mp hpair).2.1
  exact ⟨fun a' ha => (hhead a' ha).entries, htail.imp fun h => h.entries⟩

end Reachable

end Choam

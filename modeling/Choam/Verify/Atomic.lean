import Choam.Verify.Creation
import Choam.System

/-!
# Statements happen in one moment

Between two accesses of a statement other clients may commit. A statement, like every operation
of a relational transaction, looks up one table, at once (`RowM.StartsOn`), and again and again
later; rows it only reads from its snapshot. Since table entries are written once, all lookups
agree with the first, or the statement has stopped there: what it does is what it would do alone,
in the store that its first access met (`RowM.atomic`).
-/

namespace Choam

open ByteString Overlay Interleave

variable {H : Host} {u : Unicode} {ε ε' α β : Type}

namespace RowM

/-! ## One table, looked up at once -/

/-- The program begins by looking up the table, and fails if there is none. -/
def StartsOn (table : String) (m : RowM ε α) : Prop :=
  match catalogTableKey table with
  | none => ∃ e, ExceptT.run m = .done (.error e)
  | some k => ∃ next, ExceptT.run m = .call (.get k) next ∧ ∃ e, next none = .done (.error e)

theorem StartsOn.bind {table : String} {m : RowM ε α} (h : StartsOn table m)
    (f : α → RowM ε β) : StartsOn table (m >>= f) := by
  unfold StartsOn at h ⊢
  rw [ExceptT.run_bind]
  split at h
  · obtain ⟨e, h⟩ := h
    exact ⟨e, by rw [h]; rfl⟩
  · obtain ⟨next, h, e, hnone⟩ := h
    exact ⟨_, by rw [h]; rfl, e, by rw [hnone]; rfl⟩

variable {E : Type}

theorem startsOn_tableHandle (table : String) :
    StartsOn table (Database.tableHandle table : RowM (DbError E) TableHandle) := by
  unfold StartsOn Database.tableHandle Database.getTable Catalog.getTable
  cases catalogTableKey table with
  | none => exact ⟨_, rfl⟩
  | some k => exact ⟨_, rfl, _, rfl⟩

theorem startsOn_schemaOf (table : String) :
    StartsOn table (schemaOf table : RowM (ExecError E) Schema) := by
  unfold StartsOn schemaOf Database.getTable Catalog.getTable
  cases catalogTableKey table with
  | none => exact ⟨_, rfl⟩
  | some k => exact ⟨_, rfl, _, rfl⟩

theorem startsOn_run {stmt : Statement} {table : String} (h : stmt.table? = some table) :
    StartsOn table (run u stmt : RowM (ExecError E) QueryResult) := by
  cases stmt <;> cases h <;> exact (startsOn_schemaOf table).bind _

/-! ## Other clients in between -/

/-- An operation that looks up this table only, and writes rows only. -/
def Touches (table : String) : RowOp → Prop
  | .get k => catalogTableKey table = some k
  | .put k _ | .delete k => IsRowKey k
  | .read _ | .scan _ => True

/-- The program looks up this table only, and writes rows only. -/
def LooksUp (table : String) (m : RowM ε α) : Prop :=
  m.Guarantees (fun _ _ => True) (Touches table) (fun _ => True) fun _ => True

/-- The store that the first of these accesses met. -/
def metFirst (s : H.Store) (seen : List (system H u).Access) : H.Store :=
  (seen.head?.map (·.before)).getD s

end RowM

/-- The operation in the transaction `t`, as a call on the shared store. -/
def RowOp.storeOp : RowOp → H.Txn → StoreOp H
  | .get k, _ => .get k
  | .read k, t => .read t k
  | .scan p, t => .scan t p
  | .put k v, t => .put t k v
  | .delete k, t => .delete t k

namespace RowM

/-- The program, in the transaction `t`, made the accesses `seen` and ended with `a`, in the
transaction `t'`. -/
inductive Steps (u : Unicode) : Prog RowOp RowOp.Res α → H.Txn → List (system H u).Access → α →
    H.Txn → Prop
  | done {a : α} {t : H.Txn} : Steps u (.done a) t [] a t
  | call {o : RowOp} {next : o.Res → Prog RowOp RowOp.Res α} {t t' : H.Txn} {s : H.Store}
      {seen : List (system H u).Access} {a : α}
      (h : Steps u (next (o.step s t).1) (o.step s t).2 seen a t') :
      Steps u (.call o next) t (⟨s, o.storeOp t, ((o.storeOp t).perform s).1⟩ :: seen) a t'

theorem steps_of_leads {p : Prog RowOp RowOp.Res α} {t t' : H.Txn} {a : α}
    {seen : List (system H u).Access}
    (h : Leads (O := system H u) (p.interp RowOp.toStore t) seen (.done (a, t'))) :
    Steps u p t seen a t' := by
  induction p generalizing t seen with
  | done a' =>
    obtain ⟨rfl, hq⟩ := h.of_done
    cases hq
    exact .done
  | call o next ih =>
    cases o with
    | get k | read k | scan p | put k v | delete k =>
      obtain ⟨s, rest, rfl, hrest⟩ := h.of_call_done
      exact .call (s := s) (ih _ hrest)

namespace Steps

variable {p : Prog RowOp RowOp.Res α} {t t' : H.Txn} {a : α} {seen : List (system H u).Access}

/-- What each operation keeps that the program may ask for. -/
theorem inv {A : RowOp → Prop} {Q : α → Prop} {I : H.Txn → Prop} (h : Steps u p t seen a t')
    (hp : p.Ensures (fun _ _ => True) A Q)
    (hstep : ∀ o s t, A o → I t → I (o.step s t).2) (ht : I t) : I t' := by
  induction h with
  | done => exact ht
  | call h ih => exact ih (hp.2 _ trivial) (hstep _ _ _ hp.1 ht)

/-- Every access is one that the program may make. -/
theorem asked {A : RowOp → Prop} {Q : α → Prop} (h : Steps u p t seen a t')
    (hp : p.Ensures (fun _ _ => True) A Q) : ∀ acc ∈ seen, ∃ o t, acc.op = o.storeOp t ∧ A o := by
  induction h with
  | done => simp
  | call h ih =>
    intro acc hacc
    rcases List.mem_cons.mp hacc with rfl | hacc
    · exact ⟨_, _, rfl, hp.1⟩
    · exact ih (hp.2 _ trivial) acc hacc

/-- **Simulation**: a handler that, from related states, answers the operations as they were
answered and keeps the states related, gives the same result. -/
theorem sim {X : Type} {f : (o : RowOp) → X → o.Res × X} {R : H.Txn → X → Prop}
    (h : Steps u p t seen a t')
    (hsim : ∀ o s t x, ⟨s, o.storeOp t, ((o.storeOp t).perform s).1⟩ ∈ seen → R t x →
      (o.step s t).1 = (f o x).1 ∧ R (o.step s t).2 (f o x).2)
    {x : X} (hx : R t x) : (p.run f x).1 = a ∧ R t' (p.run f x).2 := by
  induction h generalizing x with
  | done => exact ⟨rfl, hx⟩
  | call h ih =>
    obtain ⟨hans, hrel⟩ := hsim _ _ _ x List.mem_cons_self hx
    rw [Prog.run_call, ← hans]
    exact ih (fun o s t x hmem => hsim o s t x (List.mem_cons_of_mem _ hmem)) hrel

/-- A program whose lookups are answered as in `s` does what it does alone in `s`. -/
theorem run {s : H.Store} (h : Steps u p t seen a t')
    (hget : ∀ acc ∈ seen, ∀ k, acc.op = .get k → H.get acc.before k = H.get s k) :
    p.run (RowOp.step s) t = (a, t') := by
  have hsim := h.sim (f := RowOp.step s) (R := Eq) (fun o s' t' x hmem heq => by
    subst heq
    cases o with
    | get k => exact ⟨hget _ hmem k rfl, rfl⟩
    | read k | scan p | put k v | delete k => exact ⟨rfl, rfl⟩) rfl
  exact Prod.ext hsim.1 hsim.2.symm

end Steps

variable {C : H.Contract}

/-- **Atomicity**: a program on one table does what it would do alone in the store that its first
access met. -/
theorem atomic {table : String} {m : RowM ε α} (hstart : StartsOn table m) (honly : LooksUp table m)
    {t t' : H.Txn} {r : Except ε α} {seen : List (system H u).Access}
    (h : Leads (O := system H u) (m.onStore t) seen (.done (r, t'))) (s : H.Store)
    (hpersist : seen.Pairwise fun a a' => EntriesPersist (C.committed a.before) (C.committed a'.before)) :
    m.exec (metFirst s seen) t = (r, t') := by
  have hsteps := steps_of_leads h
  refine hsteps.run fun acc hacc k hk => ?_
  have hkey : catalogTableKey table = some k := by
    obtain ⟨o, t, hop, ho⟩ := hsteps.asked honly acc hacc
    cases o <;> cases hop.symm.trans hk
    exact ho
  rw [StartsOn, hkey] at hstart
  obtain ⟨next, hrun, e, hnone⟩ := hstart
  unfold onStore at h
  rw [hrun] at h
  obtain ⟨s', rest, rfl, hrest⟩ := Leads.of_call_done h
  have hrest : Leads (O := system H u) (Prog.interp RowOp.toStore (next (H.get s' k)) t) rest
    (.done (r, t')) := hrest
  show H.get acc.before k = H.get s' k
  rcases List.mem_cons.mp hacc with rfl | hacc
  · rfl
  obtain ⟨hhead, -⟩ := List.pairwise_cons.mp hpersist
  cases hs' : H.get s' k with
  | none =>
    -- Nothing was found, so that this was the only access.
    rw [hs', hnone] at hrest
    obtain ⟨rfl, -⟩ := Leads.of_done hrest
    cases hacc
  | some bytes =>
    rw [C.get_committed] at hs' ⊢
    exact hhead acc hacc table k bytes hkey hs'

theorem touchesAllowed (table : String) (fits : Prop) : Allows table (fun _ _ => True)
    (Touches table) (fun _ => True) fits True where
  get _ hk := hk
  found _ _ _ _ _ _ _ := trivial
  read _ := trivial
  readBad _ _ _ _ _ _ _ _ _ := trivial
  scan _ := trivial
  scanBad _ _ _ _ _ _ := trivial
  put _ _ _ _ _ _ _ hk _ _ := isRowKey_of_rowKey hk
  delete _ _ _ _ hk := isRowKey_of_rowKey hk

/-- A program on one table: it looks the table up at once, asks only for what `Allows` lists, and
fails to decode, in the sense of `D`, only what it was answered. -/
structure OnTable (fits : Prop) (table : String) (m : RowM ε α) (D : ε → Prop) : Prop where
  starts : StartsOn table m
  asks : ∀ {ans P Found Bad}, Allows table ans P Found fits Bad →
    m.Guarantees ans P (fun _ => True) fun e => D e → Bad

theorem OnTable.looksUp {fits : Prop} {table : String} {m : RowM ε α} {D : ε → Prop}
    (h : OnTable fits table m D) : LooksUp table m :=
  Guarantees.mono (h.asks (touchesAllowed table fits)) (fun _ _ => trivial) fun _ _ => trivial

section Programs

variable {fits : Prop} {table : String}

theorem onTable_run {stmt : Statement} (h : stmt.table? = some table) (hfits : fits → stmt.Fits) :
    OnTable fits table (run u stmt : RowM (ExecError E) QueryResult) ExecError.IsDecode :=
  ⟨startsOn_run h, fun ok => guarantees_run ok h hfits⟩

theorem onTable_read (pk : Value) :
    OnTable fits table (RelTransaction.read table pk : RowM (DbError E) _) DbError.IsDecode :=
  ⟨(startsOn_tableHandle table).bind _, fun ok =>
    Guarantees.mono (guarantees_relRead ok pk) (fun _ _ => trivial) fun _ h => h⟩

theorem onTable_scan :
    OnTable fits table (RelTransaction.scan table : RowM (DbError E) _) DbError.IsDecode :=
  ⟨(startsOn_tableHandle table).bind _, fun ok =>
    Guarantees.mono (guarantees_relScan ok) (fun _ _ => trivial) fun _ h => h⟩

theorem onTable_write {values : Row} (hfits : fits → Row.Fits values) :
    OnTable fits table (RelTransaction.write table values : RowM (DbError E) _) DbError.IsDecode :=
  ⟨(startsOn_tableHandle table).bind _, fun ok => guarantees_relWrite ok hfits⟩

theorem onTable_delete (pk : Value) :
    OnTable fits table (RelTransaction.delete table pk : RowM (DbError E) _) DbError.IsDecode :=
  ⟨(startsOn_tableHandle table).bind _, fun ok => guarantees_relDelete ok pk⟩

end Programs

/-! ## Running alone -/

section Exec

variable {table : String} {m : RowM ε α} {s s' : H.Store} {t t' : H.Txn}

theorem LooksUp.along (h : LooksUp table m) (s : H.Store) (t : H.Txn) :
    (ExceptT.run m).Along (RowOp.step s) (fun o _ => Touches table o) t :=
  (Prog.Ensures.run (I := fun _ => True) (fun _ _ _ _ => ⟨trivial, trivial⟩) h trivial).2.2

/-- Such an operation leaves the beginning of its transaction alone, and writes rows only. -/
theorem Touches.step {o : RowOp} (ho : Touches table o) (C : H.Contract) (s : H.Store) (t : H.Txn) :
    C.snapshot (o.step s t).2 = C.snapshot t ∧
      ∀ k, ¬ IsRowKey k → C.writes (o.step s t).2 k = C.writes t k := by
  cases o with
  | get k | read k | scan p => exact ⟨rfl, fun _ _ => rfl⟩
  | put k v =>
    refine ⟨C.snapshot_put t k v, fun k' hk' => ?_⟩
    have hne : k' ≠ k := fun heq => hk' (heq ▸ ho)
    show C.writes (H.put t k v) k' = _
    rw [C.writes_put, Writes.set_of_ne _ hne]
  | delete k =>
    refine ⟨C.snapshot_delete t k, fun k' hk' => ?_⟩
    have hne : k' ≠ k := fun heq => hk' (heq ▸ ho)
    show C.writes (H.delete t k) k' = _
    rw [C.writes_delete, Writes.set_of_ne _ hne]

/-- So does a program of such operations, alone or not. -/
theorem LooksUp.exec_writes (h : LooksUp table m) (C : H.Contract) (s : H.Store) (t : H.Txn) :
    C.snapshot (m.exec s t).2 = C.snapshot t ∧
      ∀ k, ¬ IsRowKey k → C.writes (m.exec s t).2 k = C.writes t k :=
  Prog.run_inv (I := fun t' => C.snapshot t' = C.snapshot t ∧
    ∀ k, ¬ IsRowKey k → C.writes t' k = C.writes t k) (fun _ t' ho ht' =>
      ⟨(ho.step C s t').1.trans ht'.1, fun k hk => ((ho.step C s t').2 k hk).trans (ht'.2 k hk)⟩)
    (h.along s t) ⟨rfl, fun _ _ => rfl⟩

theorem LooksUp.leads_writes (h : LooksUp table m) (C : H.Contract) {r : Except ε α}
    {seen : List (system H u).Access}
    (hleads : Leads (O := system H u) (m.onStore t) seen (.done (r, t'))) :
    C.snapshot t' = C.snapshot t ∧ ∀ k, ¬ IsRowKey k → C.writes t' k = C.writes t k :=
  (steps_of_leads hleads).inv (I := fun t' => C.snapshot t' = C.snapshot t ∧
    ∀ k, ¬ IsRowKey k → C.writes t' k = C.writes t k) h (fun _ s t' ho ht' =>
      ⟨(ho.step C s t').1.trans ht'.1, fun k hk => ((ho.step C s t').2 k hk).trans (ht'.2 k hk)⟩)
    ⟨rfl, fun _ _ => rfl⟩

/-- **What a program on rows does is determined by the catalog and by what its transaction sees.** -/
theorem LooksUp.exec_congr (h : LooksUp table m) {C : H.Contract}
    (hcat : ∀ k, catalogTableKey table = some k → C.committed s k = C.committed s' k)
    (hview : C.view t = C.view t') :
    (m.exec s t).1 = (m.exec s' t').1 ∧ C.view (m.exec s t).2 = C.view (m.exec s' t').2 := by
  refine Prog.run_sim (R := fun t t' => C.view t = C.view t') (fun o t t' ho hR => ?_)
    (h.along s t) hview
  cases o with
  | get k => exact ⟨(C.get_committed s k).trans ((hcat k ho).trans (C.get_committed s' k).symm), hR⟩
  | read k => exact ⟨by simp only [RowOp.step, C.read_view, hR], hR⟩
  | scan p => exact ⟨C.scan_eq_of_view fun k _ => congrFun hR k, hR⟩
  | put k v => exact ⟨rfl, by simp only [RowOp.step, C.view_put, hR]⟩
  | delete k => exact ⟨rfl, by simp only [RowOp.step, C.view_delete, hR]⟩

end Exec

end RowM

/-! ## What a program does to its transaction -/

section TxnOk

variable (C : H.Contract) (P : Promises) (s : H.Store)

/-- How a store answers a transaction on rows. -/
def Answered : Answers
  | .get k, r => r = C.committed s k
  | .read k, r => P.values → ∀ v, r = some v → IsRowKey k → RowOk (C.committed s) k v
  | .scan p, es => P.values → ∀ e ∈ es, p <+: e.1 ∧ (IsRowKey e.1 → RowOk (C.committed s) e.1 e.2)
  | .put _ _, _ => True
  | .delete _, _ => True

/-- What such a transaction may ask for. -/
def Asks : RowOp → Prop
  | .put k v => IsRowKey k ∧ (P.values → RowOk (C.committed s) k v)
  | .delete k => IsRowKey k
  | _ => True

variable {C P s} {E : Type} {table : String}

theorem rowsAllowed (hs : Sound C P s) (table : String) :
    Allows table (Answered C P s) (Asks C P s)
      (fun h => lookupTable (C.committed s) table = .ok (some h)) P.values
      ¬ (P.values ∧ FewTables (C.committed s)) where
  get _ _ := trivial
  found k bytes id schema hk hans hd := lookupTable_eq_some.mpr ⟨k, bytes, hk, hans.symm, hd⟩
  read _ := trivial
  readBad h pk k bytes e hl hk hans hd := fun ⟨hf, hfew⟩ => by
    obtain ⟨ts, hts, -⟩ := hs.catalog
    obtain ⟨comp, -, rfl⟩ := rowKey_ok hk
    have hrow := hans hf bytes rfl (isRowKey_rowKeyPrefix _ _)
    obtain ⟨-, row, -, hdec, -⟩ := hrow.decode hts (hts.length_lt hfew).le hl (List.prefix_append _ _)
    rw [hd] at hdec
    cases hdec
  scan _ := trivial
  scanBad h es e hl hans hd := fun ⟨hf, hfew⟩ => by
    obtain ⟨ts, hts, -⟩ := hs.catalog
    have hall : ∀ e ∈ es, ∃ row, decodeRow h.schema e.2 = .ok row := fun e he => by
      obtain ⟨hpre, hrow⟩ := hans hf e he
      have hkey : IsRowKey e.1 := by
        obtain ⟨rest, hrest⟩ := hpre
        exact hrest ▸ isRowKey_rowKeyPrefix _ _
      obtain ⟨-, row, -, hdec, -⟩ := (hrow hkey).decode hts (hts.length_lt hfew).le hl hpre
      exact ⟨row, hdec⟩
    obtain ⟨rows, hrows⟩ := decodeRows_isOk hall
    rw [hd] at hrows
    cases hrows
  put h pk values k bs hl hpk hk hbs hfit :=
    ⟨isRowKey_of_rowKey hk, fun hf => rowOk_of_encode hl hpk hk hbs (hfit hf)⟩
  delete _ _ _ _ hk := isRowKey_of_rowKey hk

theorem TxnOk.step {t : H.Txn} (ht : TxnOk C P t s) {o : RowOp} (ho : Asks C P s o) :
    Answered C P s o (o.step s t).1 ∧ TxnOk C P (o.step s t).2 s := by
  cases o with
  | get k => exact ⟨C.get_committed s k, ht⟩
  | read k =>
    refine ⟨fun hf v hv hk => ht.rows hf k v hk ?_, ht⟩
    rw [← hv]
    exact (C.read_view t k).symm
  | scan p =>
    refine ⟨fun hf e he => ?_, ht⟩
    obtain ⟨hp, hv⟩ := C.mem_scan_view.mp he
    exact ⟨hp, fun hk => ht.rows hf e.1 e.2 hk hv⟩
  | put k v => exact ⟨trivial, ht.put ho.1 ho.2⟩
  | delete k => exact ⟨trivial, ht.delete ho⟩

/-- A program that keeps to what `Allows` lists keeps the transaction's invariant, and fails as
guaranteed. -/
theorem TxnOk.exec {α ε : Type} {Q : α → Prop} {Qe : ε → Prop} {t : H.Txn} (ht : TxnOk C P t s)
    {m : RowM ε α} (h : m.Guarantees (Answered C P s) (Asks C P s) Q Qe) :
    TxnOk C P (m.exec s t).2 s ∧ ∀ e, (m.exec s t).1 = .error e → Qe e := by
  have hstep : ∀ o t, Asks C P s o → TxnOk C P t s →
      Answered C P s o (o.step s t).1 ∧ TxnOk C P (o.step s t).2 s :=
    fun o t ho ht => ht.step ho
  obtain ⟨hres, hend, -⟩ := Prog.Ensures.run hstep h ht
  refine ⟨hend, fun e he => ?_⟩
  unfold RowM.exec at he
  rw [he] at hres
  exact hres

end TxnOk

end Choam

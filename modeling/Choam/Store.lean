import Choam.Lib.Overlay
import Choam.Lib.ByteString
import Choam.Lib.Prog

/-!
# The transactional store

What the program runs on. `Host` is the interface of the store that the program calls, with
everything it may return; the store itself is not part of this development. `Host.Contract` is
what the program relies on: the store is a history of committed write sets, a transaction reads
the state at its beginning with its own writes laid over it, commit is all-or-nothing, and it
fails with a conflict exactly on a key of its write set that was committed since its beginning
(first committer wins). The ghost fields of the contract say which history a store stands for and
which write set a transaction carries; no program can see them.
-/

namespace Choam

open ByteString Overlay

/-- Why a commit failed. -/
inductive TxnError (E : Type) where
  | conflict (key : Bytes)
  | store (e : E)

/-- The store's interface, and whether arithmetic overflow is checked in this build. -/
structure Host where
  Store : Type
  Txn : Type
  StoreError : Type
  /-- Reads the committed state. -/
  get : Store → Bytes → Option Bytes
  begin : Store → Txn × Store
  /-- Reads inside a transaction. -/
  read : Txn → Bytes → Option Bytes
  /-- The entries under a prefix, inside a transaction. -/
  scan : Txn → Bytes → List (Bytes × Bytes)
  put : Txn → Bytes → Bytes → Txn
  delete : Txn → Bytes → Txn
  commit : Txn → Store → Except (TxnError StoreError) Unit × Store
  /-- Discards a transaction, as dropping it does. -/
  abort : Txn → Store → Store
  overflowChecks : Bool

/-- A set of pending changes to the store. -/
abbrev WriteSet := Writes Bytes Bytes

/-- What the program relies on. -/
structure Host.Contract (H : Host) where
  /-- The committed write sets, oldest first. -/
  history : H.Store → List WriteSet
  /-- The history at the beginning of a transaction. -/
  snapshot : H.Txn → List WriteSet
  /-- What a transaction has written so far. -/
  writes : H.Txn → WriteSet
  get_eq : ∀ s k, H.get s k = replay (history s) k
  snapshot_begin : ∀ s, snapshot (H.begin s).1 = history s
  writes_begin : ∀ s, writes (H.begin s).1 = Writes.empty
  history_begin : ∀ s, history (H.begin s).2 = history s
  read_eq : ∀ t k, H.read t k = (writes t).apply (replay (snapshot t)) k
  mem_scan : ∀ t p k v, (k, v) ∈ H.scan t p ↔
    p <+: k ∧ (writes t).apply (replay (snapshot t)) k = some v
  scan_sorted : ∀ t p, (H.scan t p).Pairwise fun a b => a.1 < b.1
  snapshot_put : ∀ t k v, snapshot (H.put t k v) = snapshot t
  writes_put : ∀ t k v, writes (H.put t k v) = (writes t).set k (some v)
  snapshot_delete : ∀ t k, snapshot (H.delete t k) = snapshot t
  writes_delete : ∀ t k, writes (H.delete t k) = (writes t).set k none
  commit_ok : ∀ t s, snapshot t <+: history s → (H.commit t s).1 = .ok () →
    (∀ k, writes t k ≠ none → ¬ WrittenSince (snapshot t) (history s) k) ∧
      Appends (writes t) (history s) (history (H.commit t s).2)
  commit_conflict : ∀ t s k, snapshot t <+: history s →
    (H.commit t s).1 = .error (.conflict k) →
      writes t k ≠ none ∧ WrittenSince (snapshot t) (history s) k ∧
        history (H.commit t s).2 = history s
  commit_store : ∀ t s e, snapshot t <+: history s →
    (H.commit t s).1 = .error (.store e) → history (H.commit t s).2 = history s
  history_abort : ∀ t s, history (H.abort t s) = history s

namespace Host.Contract

attribute [simp] snapshot_begin writes_begin history_begin snapshot_put writes_put snapshot_delete
  writes_delete history_abort

variable {H : Host} (C : H.Contract)

/-- The committed contents. -/
def committed (s : H.Store) : Contents Bytes Bytes := replay (C.history s)

/-- What a transaction sees: the contents at its beginning with its own writes laid over them. -/
def view (t : H.Txn) : Contents Bytes Bytes := (C.writes t).apply (replay (C.snapshot t))

theorem get_committed (s : H.Store) (k : Bytes) : H.get s k = C.committed s k := C.get_eq s k

theorem read_view (t : H.Txn) (k : Bytes) : H.read t k = C.view t k := C.read_eq t k

theorem mem_scan_view {t : H.Txn} {p k v : Bytes} :
    (k, v) ∈ H.scan t p ↔ p <+: k ∧ C.view t k = some v := C.mem_scan t p k v

@[simp] theorem view_begin (s : H.Store) : C.view (H.begin s).1 = C.committed s := by
  simp [view, committed]

@[simp] theorem view_put (t : H.Txn) (k v : Bytes) :
    C.view (H.put t k v) = Function.update (C.view t) k (some v) := by
  simp [view, Writes.set_apply]

@[simp] theorem view_delete (t : H.Txn) (k : Bytes) :
    C.view (H.delete t k) = Function.update (C.view t) k none := by
  simp [view, Writes.set_apply]

/-- A prefix scan is determined by the view. -/
theorem scan_eq_of_view {t t' : H.Txn} {p : Bytes}
    (h : ∀ k, p <+: k → C.view t k = C.view t' k) : H.scan t p = H.scan t' p := by
  have hperm : (H.scan t p).Perm (H.scan t' p) := by
    have hnodup : ∀ t, (H.scan t p).Nodup := fun t =>
      (C.scan_sorted t p).imp fun {a b} hab heq => by
        rw [heq] at hab
        exact List.lt_irrefl _ hab
    refine (List.perm_ext_iff_of_nodup (hnodup t) (hnodup t')).mpr fun e => ?_
    obtain ⟨k, v⟩ := e
    rw [C.mem_scan_view, C.mem_scan_view]
    exact and_congr_right fun hk => by rw [h k hk]
  exact hperm.eq_of_pairwise (fun a b _ _ hab hba => absurd hba (List.lt_asymm hab))
    (C.scan_sorted t p) (C.scan_sorted t' p)

/-- How a commit can end. -/
inductive CommitCase (t : H.Txn) (s : H.Store) : Prop
  | ok (hres : (H.commit t s).1 = .ok ())
      (hfree : ∀ k, C.writes t k ≠ none → ¬ WrittenSince (C.snapshot t) (C.history s) k)
      (happ : Appends (C.writes t) (C.history s) (C.history (H.commit t s).2))
  | conflict (k : Bytes) (hres : (H.commit t s).1 = .error (.conflict k))
      (hk : C.writes t k ≠ none) (hsince : WrittenSince (C.snapshot t) (C.history s) k)
      (hsame : C.history (H.commit t s).2 = C.history s)
  | store (e : H.StoreError) (hres : (H.commit t s).1 = .error (.store e))
      (hsame : C.history (H.commit t s).2 = C.history s)

theorem commit_cases {t : H.Txn} {s : H.Store} (h : C.snapshot t <+: C.history s) :
    C.CommitCase t s := by
  rcases hc : (H.commit t s).1 with (k | e) | ⟨⟩
  · obtain ⟨hk, hsince, hsame⟩ := C.commit_conflict t s k h hc
    exact .conflict k hc hk hsince hsame
  · exact .store e hc (C.commit_store t s e h hc)
  · obtain ⟨hfree, happ⟩ := C.commit_ok t s h hc
    exact .ok hc hfree happ

end Host.Contract

/-! ## Operations on the shared store -/

variable (H : Host)

/-- The calls that programs make on the store, each of them one atomic step. -/
inductive StoreOp where
  | get (k : Bytes)
  | begin
  | read (t : H.Txn) (k : Bytes)
  | scan (t : H.Txn) (p : Bytes)
  | put (t : H.Txn) (k v : Bytes)
  | delete (t : H.Txn) (k : Bytes)
  | commit (t : H.Txn)
  | abort (t : H.Txn)

variable {H}

namespace StoreOp

@[reducible] def Res : StoreOp H → Type
  | get _ => Option Bytes
  | begin => H.Txn
  | read _ _ => Option Bytes
  | scan _ _ => List (Bytes × Bytes)
  | put _ _ _ => H.Txn
  | delete _ _ => H.Txn
  | commit _ => Except (TxnError H.StoreError) Unit
  | abort _ => Unit

def perform : (o : StoreOp H) → H.Store → o.Res × H.Store
  | get k, s => (H.get s k, s)
  | begin, s => H.begin s
  | read t k, s => (H.read t k, s)
  | scan t p, s => (H.scan t p, s)
  | put t k v, s => (H.put t k v, s)
  | delete t k, s => (H.delete t k, s)
  | commit t, s => H.commit t s
  | abort t, s => ((), H.abort t s)

end StoreOp

/-- Programs over the shared store. -/
abbrev StoreM (H : Host) := Prog (StoreOp H) StoreOp.Res

namespace StoreM

variable {α : Type}

def get (k : Bytes) : StoreM H (Option Bytes) := Prog.perform (StoreOp.get k)

def begin : StoreM H H.Txn := Prog.perform (StoreOp.begin (H := H))

def read (t : H.Txn) (k : Bytes) : StoreM H (Option Bytes) := Prog.perform (StoreOp.read t k)

def put (t : H.Txn) (k v : Bytes) : StoreM H H.Txn := Prog.perform (StoreOp.put t k v)

def commit (t : H.Txn) : StoreM H (Except (TxnError H.StoreError) Unit) :=
  Prog.perform (StoreOp.commit t)

def abort (t : H.Txn) : StoreM H Unit := Prog.perform (StoreOp.abort t)

variable {t : H.Txn} {k v : Bytes}

@[simp] theorem get_bind (f : Option Bytes → StoreM H α) : get k >>= f = .call (.get k) f := rfl

@[simp] theorem begin_bind (f : H.Txn → StoreM H α) : begin >>= f = .call .begin f := rfl

@[simp] theorem read_bind (f : Option Bytes → StoreM H α) :
    read t k >>= f = .call (.read t k) f := rfl

@[simp] theorem put_bind (f : H.Txn → StoreM H α) : put t k v >>= f = .call (.put t k v) f := rfl

@[simp] theorem commit_bind (f : Except (TxnError H.StoreError) Unit → StoreM H α) :
    commit t >>= f = .call (.commit t) f := rfl

@[simp] theorem abort_bind (f : Unit → StoreM H α) : abort t >>= f = .call (.abort t) f := rfl

end StoreM

/-! ## Operations of one transaction -/

/-- What a program does inside the current transaction; `get` alone reads the committed state. -/
inductive RowOp where
  | get (k : Bytes)
  | read (k : Bytes)
  | scan (p : Bytes)
  | put (k v : Bytes)
  | delete (k : Bytes)

namespace RowOp

@[reducible] def Res : RowOp → Type
  | get _ => Option Bytes
  | read _ => Option Bytes
  | scan _ => List (Bytes × Bytes)
  | put _ _ => Unit
  | delete _ => Unit

/-- The operation in the transaction `t`, as calls on the shared store. -/
def toStore : (o : RowOp) → H.Txn → StoreM H (o.Res × H.Txn)
  | get k, t => .call (.get k) fun v => .done (v, t)
  | read k, t => .call (.read t k) fun v => .done (v, t)
  | scan p, t => .call (.scan t p) fun es => .done (es, t)
  | put k v, t => .call (.put t k v) fun t' => .done ((), t')
  | delete k, t => .call (.delete t k) fun t' => .done ((), t')

/-- The operation in the transaction `t` while the store stays as `s`. -/
def step (s : H.Store) : (o : RowOp) → H.Txn → o.Res × H.Txn
  | get k, t => (H.get s k, t)
  | read k, t => (H.read t k, t)
  | scan p, t => (H.scan t p, t)
  | put k v, t => ((), H.put t k v)
  | delete k, t => ((), H.delete t k)

theorem run_toStore (s : H.Store) (o : RowOp) (t : H.Txn) :
    (o.toStore t).run StoreOp.perform s = (o.step s t, s) := by
  cases o <;> rfl

end RowOp

/-- Programs inside one transaction that may fail with `ε`. What a failing program has written
stays written. -/
abbrev RowM (ε : Type) := ExceptT ε (Prog RowOp RowOp.Res)

namespace RowM

variable {ε ε' α β : Type}

/-- The program as calls on the shared store, in the transaction `t`. -/
def onStore (m : RowM ε α) (t : H.Txn) : StoreM H (Except ε α × H.Txn) :=
  Prog.interp RowOp.toStore (ExceptT.run m) t

/-- The program executed while the store stays as `s`. -/
def exec (s : H.Store) (m : RowM ε α) (t : H.Txn) : Except ε α × H.Txn :=
  (ExceptT.run m).run (RowOp.step s) t

theorem run_onStore (s : H.Store) (m : RowM ε α) (t : H.Txn) :
    (m.onStore t).run StoreOp.perform s = (m.exec s t, s) :=
  Prog.run_interp (RowOp.run_toStore s) _ _

def ofExcept (f : ε' → ε) : Except ε' α → RowM ε α
  | .ok a => pure a
  | .error e => throw (f e)

def read (k : Bytes) : RowM ε (Option Bytes) := ExceptT.lift (Prog.perform (RowOp.read k))

def scan (p : Bytes) : RowM ε (List (Bytes × Bytes)) := ExceptT.lift (Prog.perform (RowOp.scan p))

def put (k v : Bytes) : RowM ε Unit := ExceptT.lift (Prog.perform (RowOp.put k v))

def delete (k : Bytes) : RowM ε Unit := ExceptT.lift (Prog.perform (RowOp.delete k))

variable (s : H.Store) (t : H.Txn)

@[simp] theorem exec_pure (a : α) : (pure a : RowM ε α).exec s t = (.ok a, t) := rfl

@[simp] theorem exec_throw (e : ε) : (throw e : RowM ε α).exec s t = (.error e, t) := rfl

/-- A sequence stops at the first failure. -/
theorem exec_bind (m : RowM ε α) (f : α → RowM ε β) : (m >>= f).exec s t =
    match m.exec s t with
    | (.ok a, t') => (f a).exec s t'
    | (.error e, t') => (.error e, t') := by
  unfold exec
  rw [ExceptT.run_bind, Prog.run_bind]
  rcases (ExceptT.run m).run (RowOp.step s) t with ⟨_ | a, t'⟩ <;> rfl

/-- A sequence fails in its first part, or after it. -/
theorem exec_bind_error {m : RowM ε α} {f : α → RowM ε β} {e : ε}
    (h : ((m >>= f).exec s t).1 = .error e) : (m.exec s t).1 = .error e ∨
      ∃ a, (m.exec s t).1 = .ok a ∧ ((f a).exec s (m.exec s t).2).1 = .error e := by
  rw [exec_bind] at h
  split at h
  next a t' hm => exact .inr ⟨a, by rw [hm], by rw [hm]; exact h⟩
  next e' t' hm =>
    cases h
    exact .inl (by rw [hm])

@[simp] theorem exec_ofExcept (f : ε' → ε) (r : Except ε' α) :
    (ofExcept f r : RowM ε α).exec s t = (r.mapError f, t) := by
  cases r <;> rfl

@[simp] theorem exec_read (k : Bytes) : (read k : RowM ε _).exec s t = (.ok (H.read t k), t) := rfl

@[simp] theorem exec_scan (p : Bytes) : (scan p : RowM ε _).exec s t = (.ok (H.scan t p), t) := rfl

@[simp] theorem exec_put (k v : Bytes) :
    (put k v : RowM ε _).exec s t = (.ok (), H.put t k v) := rfl

@[simp] theorem exec_delete (k : Bytes) :
    (delete k : RowM ε _).exec s t = (.ok (), H.delete t k) := rfl

@[simp] theorem exec_adapt (f : ε → ε') (m : RowM ε α) :
    RowM.exec s (ExceptT.adapt f m) t = ((m.exec s t).1.mapError f, (m.exec s t).2) := by
  unfold exec
  rw [ExceptT.run_adapt]
  exact Prog.run_map _ _ _

end RowM

/-- Programs that can read the committed state. -/
class StoreGet (m : Type → Type) where
  get : Bytes → m (Option Bytes)

instance : StoreGet (StoreM H) := ⟨StoreM.get⟩

instance : StoreGet (Prog RowOp RowOp.Res) := ⟨fun k => Prog.perform (RowOp.get k)⟩

end Choam

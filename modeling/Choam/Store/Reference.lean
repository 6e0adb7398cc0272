import Choam.Store

/-!
# A reference store

An executable store that keeps every committed write list. It shows that the contract can be met
(`Reference.contract`), and concrete runs are executed on it.
-/

namespace Choam.Reference

open ByteString Overlay

/-- Writes, newest first. -/
abbrev WriteList := List (Bytes × Option Bytes)

structure Txn where
  snapshot : List WriteList
  writes : WriteList

/-- What the write lists, oldest first, leave at a key. -/
def value (h : List WriteList) (k : Bytes) : Option Bytes :=
  h.foldl (fun v w => (w.lookup k).getD v) none

def Txn.read (t : Txn) (k : Bytes) : Option Bytes := (t.writes.lookup k).getD (value t.snapshot k)

/-- Inserts a key into a sorted list that lacks it. -/
def insertKey (k : Bytes) : List Bytes → List Bytes
  | [] => [k]
  | k' :: ks => if k < k' then k :: k' :: ks else if k = k' then k' :: ks else k' :: insertKey k ks

/-- The keys of a write list, sorted. -/
def keysOf (w : WriteList) : List Bytes := w.foldr (fun e ks => insertKey e.1 ks) []

def Txn.scan (t : Txn) (p : Bytes) : List (Bytes × Bytes) :=
  ((keysOf (t.snapshot.flatten ++ t.writes)).filter p.isPrefixOf).filterMap fun k =>
    (t.read k).map fun v => (k, v)

/-- A key of the transaction's writes that was committed since its beginning. -/
def conflict (t : Txn) (s : List WriteList) : Option Bytes :=
  (t.writes.find? fun e => (s.drop t.snapshot.length).any fun w => (w.lookup e.1).isSome).map (·.1)

/-- The host built on it; `checks` says whether overflow is checked. -/
abbrev host (checks : Bool) : Host where
  Store := List WriteList
  Txn := Txn
  StoreError := Empty
  get := value
  begin s := (⟨s, []⟩, s)
  read := Txn.read
  scan := Txn.scan
  put t k v := { t with writes := (k, some v) :: t.writes }
  delete t k := { t with writes := (k, none) :: t.writes }
  commit t s :=
    match conflict t s with
    | some k => (.error (.conflict k), s)
    | none => (.ok (), s ++ [t.writes])
  abort _ s := s
  overflowChecks := checks

/-! ## It meets the contract -/

def asWrites (w : WriteList) : WriteSet := fun k => w.lookup k

theorem asWrites_cons (k : Bytes) (v : Option Bytes) (w : WriteList) :
    asWrites ((k, v) :: w) = (asWrites w).set k v := by
  funext k'
  by_cases h : k' = k
  · subst h
    simp [asWrites]
  · have hne : (k' == k) = false := by simpa using h
    simp [asWrites, List.lookup_cons, hne, Writes.set_of_ne _ h]

theorem value_eq_replay (h : List WriteList) (k : Bytes) : value h k = replay (h.map asWrites) k := by
  induction h using List.reverseRecOn with
  | nil => rfl
  | append_singleton h w ih =>
    rw [List.map_append, List.map_singleton, replay_concat, Writes.apply, ← ih]
    simp [value, asWrites]

theorem lookup_isSome {w : WriteList} {k : Bytes} : (w.lookup k).isSome ↔ ∃ e ∈ w, e.1 = k := by
  induction w with
  | nil => simp
  | cons e w ih =>
    by_cases h : k = e.1
    · subst h
      simp
    · have hne : (k == e.1) = false := by simpa using h
      have hne' : e.1 ≠ k := fun h' => h h'.symm
      rw [List.lookup_cons, hne, ih]
      simp only [List.mem_cons, exists_eq_or_imp, hne', false_or]

theorem mem_insertKey {k k' : Bytes} {ks : List Bytes} :
    k' ∈ insertKey k ks ↔ k' = k ∨ k' ∈ ks := by
  induction ks with
  | nil => simp [insertKey]
  | cons x ks ih =>
    unfold insertKey
    split
    · simp
    split
    next h => simp [h]
    · simp only [List.mem_cons, ih]
      tauto

theorem insertKey_sorted {k : Bytes} {ks : List Bytes} (h : ks.Pairwise (· < ·)) :
    (insertKey k ks).Pairwise (· < ·) := by
  induction ks with
  | nil => simp [insertKey]
  | cons x ks ih =>
    rw [List.pairwise_cons] at h
    unfold insertKey
    split
    next hlt =>
      refine List.pairwise_cons.mpr ⟨fun y hy => ?_, List.pairwise_cons.mpr h⟩
      rcases List.mem_cons.mp hy with rfl | hy
      · exact hlt
      · exact List.lt_trans hlt (h.1 y hy)
    split
    · exact List.pairwise_cons.mpr h
    next hlt hne =>
      refine List.pairwise_cons.mpr ⟨fun y hy => ?_, ih h.2⟩
      rcases mem_insertKey.mp hy with rfl | hy
      · rcases lt_or_eq_or_gt y x with h' | h' | h'
        · exact absurd h' hlt
        · exact absurd h' hne
        · exact h'
      · exact h.1 y hy

theorem mem_keysOf {w : WriteList} {k : Bytes} : k ∈ keysOf w ↔ ∃ e ∈ w, e.1 = k := by
  induction w with
  | nil => simp [keysOf]
  | cons e w ih =>
    have hcons : keysOf (e :: w) = insertKey e.1 (keysOf w) := rfl
    rw [hcons, mem_insertKey, ih]
    simp [eq_comm]

theorem keysOf_sorted (w : WriteList) : (keysOf w).Pairwise (· < ·) := by
  induction w with
  | nil => simp [keysOf]
  | cons e w ih => exact insertKey_sorted ih

/-- A key that reads as something was written. -/
theorem exists_of_read {t : Txn} {k v : Bytes} (h : t.read k = some v) :
    ∃ e ∈ t.snapshot.flatten ++ t.writes, e.1 = k := by
  unfold Txn.read at h
  cases hw : t.writes.lookup k with
  | some o =>
    obtain ⟨e, he, hk⟩ := lookup_isSome.mp (by rw [hw]; rfl)
    exact ⟨e, List.mem_append.mpr (.inr he), hk⟩
  | none =>
    rw [hw, Option.getD_none, value_eq_replay] at h
    obtain ⟨w, hw, hne⟩ := exists_write_of_replay h
    obtain ⟨l, hl, rfl⟩ := List.mem_map.mp hw
    obtain ⟨e, he, hk⟩ := lookup_isSome.mp (Option.isSome_iff_ne_none.mpr hne)
    exact ⟨e, List.mem_append.mpr (.inl (List.mem_flatten.mpr ⟨l, hl, he⟩)), hk⟩

theorem mem_scan {t : Txn} {p k v : Bytes} : (k, v) ∈ t.scan p ↔ p <+: k ∧ t.read k = some v := by
  simp only [Txn.scan, List.mem_filterMap, List.mem_filter, List.isPrefixOf_iff_prefix,
    Option.map_eq_some_iff, Prod.mk.injEq]
  constructor
  · rintro ⟨k', ⟨-, hp⟩, v', hv, rfl, rfl⟩
    exact ⟨hp, hv⟩
  · rintro ⟨hp, hv⟩
    exact ⟨k, ⟨mem_keysOf.mpr (exists_of_read hv), hp⟩, v, hv, rfl, rfl⟩

theorem scan_sorted (t : Txn) (p : Bytes) : (t.scan p).Pairwise fun a b => a.1 < b.1 := by
  refine List.Pairwise.filterMap _ (fun k k' hlt b hb b' hb' => ?_)
    ((keysOf_sorted _).filter _)
  obtain ⟨v, -, rfl⟩ := Option.map_eq_some_iff.mp hb
  obtain ⟨v', -, rfl⟩ := Option.map_eq_some_iff.mp hb'
  exact hlt

theorem writtenSince_iff {t : Txn} {s : List WriteList} {k : Bytes} :
    WrittenSince (t.snapshot.map asWrites) (s.map asWrites) k ↔
      (s.drop t.snapshot.length).any (fun w => (w.lookup k).isSome) = true := by
  simp only [WrittenSince, List.length_map, ← List.map_drop, List.mem_map, List.any_eq_true]
  constructor
  · rintro ⟨_, ⟨w, hw, rfl⟩, hne⟩
    exact ⟨w, hw, Option.isSome_iff_ne_none.mpr hne⟩
  · rintro ⟨w, hw, hsome⟩
    exact ⟨_, ⟨w, hw, rfl⟩, Option.isSome_iff_ne_none.mp hsome⟩

theorem read_eq (t : Txn) (k : Bytes) :
    t.read k = (asWrites t.writes).apply (replay (t.snapshot.map asWrites)) k := by
  rw [Txn.read, value_eq_replay]
  rfl

theorem conflict_eq_none {t : Txn} {s : List WriteList} (h : conflict t s = none) (k : Bytes)
    (hk : asWrites t.writes k ≠ none) :
    ¬ WrittenSince (t.snapshot.map asWrites) (s.map asWrites) k := by
  rw [writtenSince_iff]
  obtain ⟨e, he, rfl⟩ := lookup_isSome.mp (Option.isSome_iff_ne_none.mpr hk)
  simp only [conflict, Option.map_eq_none_iff, List.find?_eq_none] at h
  exact h e he

theorem conflict_eq_some {t : Txn} {s : List WriteList} {k : Bytes} (h : conflict t s = some k) :
    asWrites t.writes k ≠ none ∧
      WrittenSince (t.snapshot.map asWrites) (s.map asWrites) k := by
  obtain ⟨e, he, rfl⟩ := Option.map_eq_some_iff.mp h
  have hany := List.find?_some he
  exact ⟨Option.isSome_iff_ne_none.mp (lookup_isSome.mpr ⟨e, List.mem_of_find?_eq_some he, rfl⟩),
    writtenSince_iff.mpr hany⟩

/-- The reference store does what the program relies on. -/
def contract (checks : Bool) : (host checks).Contract where
  history s := s.map asWrites
  snapshot t := t.snapshot.map asWrites
  writes t := asWrites t.writes
  get_eq := value_eq_replay
  snapshot_begin _ := rfl
  writes_begin _ := rfl
  history_begin _ := rfl
  read_eq := read_eq
  mem_scan t p k v := by rw [← read_eq, ← mem_scan]
  scan_sorted := scan_sorted
  snapshot_put _ _ _ := rfl
  writes_put _ _ _ := asWrites_cons _ _ _
  snapshot_delete _ _ := rfl
  writes_delete _ _ := asWrites_cons _ _ _
  commit_ok t s _ h := by
    simp only at h ⊢
    split at h
    · cases h
    next hc => exact ⟨conflict_eq_none hc, .inl (by simp)⟩
  commit_conflict t s k _ h := by
    simp only at h ⊢
    split at h
    next hc =>
      cases h
      exact ⟨(conflict_eq_some hc).1, (conflict_eq_some hc).2, rfl⟩
    · cases h
  commit_store _ _ e := e.elim
  history_abort _ _ := rfl

end Choam.Reference

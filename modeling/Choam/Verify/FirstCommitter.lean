import Choam.Verify.Commits

/-!
# First committer wins

`Began` finds the beginning of a transaction in the log. When the transaction commits, no commit
since then has written a key that it writes (`Began.unwritten`), so that it commits on the values
that it began with.
-/

namespace Choam

open ByteString Overlay Interleave

variable {H : Host} {C : H.Contract} {P : Promises} {u : Unicode}

/-! ## The beginning of a transaction -/

section Log

variable {ι : Type} [DecidableEq ι] {allow : Call → Local H → Prop} {s₀ : H.Store}
  {l₀ : ι → Local H} {g : (system H u).Config ι}

/-- In the log `earlier`, client `i` began a transaction on the store `base`, after the entries
`before`; `since` is what has happened from then on, and `own` its own part of that. -/
structure Began (u : Unicode) (s₀ : H.Store) (earlier : List ((system H u).Entry ι)) (i : ι)
    (base : H.Store) (own : List (system H u).Access)
    (before since : List ((system H u).Entry ι)) : Prop where
  log : ∃ b, earlier = before ++ b :: since ∧ b.who = i ∧
    b.access = ⟨base, .begin, (H.begin base).1⟩
  base : base = replayLog s₀ before
  own : accessesOf since i = own

theorem exists_began (hlog : Logged allow s₀ l₀ g) {earlier later : List ((system H u).Entry ι)}
    (h : g.log = earlier ++ later) {i : ι} {base : H.Store}
    {past own : List (system H u).Access}
    (hacc : accessesOf earlier i = past ++ ⟨base, .begin, (H.begin base).1⟩ :: own) :
    ∃ before since, Began u s₀ earlier i base own before since := by
  obtain ⟨before, b, since, rfl, hwho, hb, -, hown⟩ := exists_entry_of_accessesOf hacc
  have hbase := (hlog.entry before b (since ++ later) (by simpa using h)).before
  rw [hb] at hbase
  exact ⟨before, since, ⟨b, rfl, hwho, hb⟩, hbase, hown⟩

/-- **First committer wins**: what a transaction that commits has written, no commit since its
beginning has written, and so it is still what it was then. -/
theorem Began.unwritten (hlog : Logged allow s₀ l₀ g) (hgood : (protocol C P u).Good s₀ g)
    {earlier later : List ((system H u).Entry ι)} {e : (system H u).Entry ι}
    (he : g.log = earlier ++ e :: later) {t : H.Txn} (ht : committedTxn e.access = some t)
    {i : ι} {base : H.Store} {own : List (system H u).Access}
    {before since : List ((system H u).Entry ι)} (hb : Began u s₀ earlier i base own before since)
    (hsnap : C.snapshot t = C.history base) {k : Bytes} (hk : C.writes t k ≠ none) :
    (∀ t' ∈ commits since, C.writes t' k = none) ∧
      C.committed e.access.before k = C.committed base k := by
  obtain ⟨b, rfl, -, hbegin⟩ := hb.log
  have hbase := hb.base
  have hsplit : g.log = before ++ b :: since ++ e :: later := by simpa using he
  obtain ⟨hpre, hwritten⟩ := writtenSince_replayLog hlog hgood hsplit
  have hcommits : commits (b :: since) = commits since := by
    simp [commits, hbegin, committedTxn]
  rw [(hlog.entry _ e later he).before]
  rcases entry_cases hlog hgood he with ⟨t', ht', hfree, -⟩ | ⟨hnone, -⟩
  · rw [ht] at ht'
    cases ht'
    have hunwritten := hfree k hk
    rw [hsnap, hbase] at hunwritten
    refine ⟨?_, ?_⟩
    · intro t' ht'
      by_contra hne
      exact hunwritten ((hwritten k).mpr ⟨t', hcommits ▸ ht', hne⟩)
    · rw [hbase]
      exact replay_eq_of_not_writtenSince hpre hunwritten
  · rw [ht] at hnone
    cases hnone

end Log

end Choam

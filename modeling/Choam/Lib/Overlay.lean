import Mathlib.Logic.Function.Basic
import Mathlib.Data.List.Induction

/-!
# Partial maps with pending writes

A `Contents` is a partial map, a `Writes` is a set of pending changes to one: a key is left
alone, given a value, or deleted. `Writes.apply` lays the changes over the map, `replay` rebuilds
a map from the write sets of a history, oldest first. The lemmas say how `apply` and `replay`
read at one key: a key that no write set of a suffix touches reads as before the suffix.
`WrittenSince` is the question that first-committer-wins asks of two histories of which one
extends the other.
-/

namespace Overlay

variable {K V : Type}

/-- A partial map. -/
abbrev Contents (K V : Type) := K → Option V

/-- Pending changes: `none` leaves a key alone, `some none` deletes it, `some (some v)` stores
`v`. -/
abbrev Writes (K V : Type) := K → Option (Option V)

namespace Writes

/-- No change at all. -/
def empty : Writes K V := fun _ => none

/-- The map `m` with the changes `w` laid over it. -/
def apply (w : Writes K V) (m : Contents K V) : Contents K V := fun k => (w k).getD (m k)

/-- One more change, made after the others. -/
def set [DecidableEq K] (w : Writes K V) (k : K) (v : Option V) : Writes K V :=
  Function.update w k (some v)

@[simp] theorem empty_eq (k : K) : (empty : Writes K V) k = none := rfl

@[simp] theorem apply_empty (m : Contents K V) : (empty : Writes K V).apply m = m := rfl

theorem apply_of_none {w : Writes K V} {k : K} (h : w k = none) (m : Contents K V) :
    w.apply m k = m k := by
  simp [apply, h]

theorem apply_of_some {w : Writes K V} {k : K} {v : Option V} (h : w k = some v)
    (m : Contents K V) : w.apply m k = v := by
  simp [apply, h]

variable [DecidableEq K]

@[simp] theorem set_self (w : Writes K V) (k : K) (v : Option V) : w.set k v k = some v := by
  simp [set]

theorem set_of_ne (w : Writes K V) {k k' : K} (h : k' ≠ k) (v : Option V) :
    w.set k v k' = w k' := by
  simp [set, h]

theorem set_apply (w : Writes K V) (k : K) (v : Option V) (m : Contents K V) :
    (w.set k v).apply m = Function.update (w.apply m) k v := by
  funext k'
  by_cases h : k' = k
  · subst h
    simp [apply]
  · simp [apply, set_of_ne w h v, h]

end Writes

/-- The map that a history of write sets, oldest first, builds from nothing. -/
def replay (h : List (Writes K V)) : Contents K V :=
  h.foldl (fun m w => w.apply m) fun _ => none

@[simp] theorem replay_nil : replay ([] : List (Writes K V)) = fun _ => none := rfl

@[simp] theorem replay_concat (h : List (Writes K V)) (w : Writes K V) :
    replay (h ++ [w]) = w.apply (replay h) := by
  simp [replay]

/-- A key that the newer write sets leave alone reads as before them. -/
theorem replay_append_of_none {h ws : List (Writes K V)} {k : K} (hk : ∀ w ∈ ws, w k = none) :
    replay (h ++ ws) k = replay h k := by
  induction ws using List.reverseRecOn with
  | nil => simp
  | append_singleton ws w ih =>
    rw [← List.append_assoc, replay_concat, Writes.apply_of_none (hk w (by simp))]
    exact ih fun w' hw' => hk w' (by simp [hw'])

/-- A live key was written by some write set of the history. -/
theorem exists_write_of_replay {h : List (Writes K V)} {k : K} {v : V}
    (hv : replay h k = some v) : ∃ w ∈ h, w k ≠ none := by
  by_contra hall
  push Not at hall
  have := replay_append_of_none (h := []) hall
  simp [hv] at this

/-! ## What a history says after an earlier one -/

/-- Some write set that `new` has beyond `old` writes the key. -/
def WrittenSince (old new : List (Writes K V)) (k : K) : Prop :=
  ∃ w ∈ new.drop old.length, w k ≠ none

@[simp] theorem not_writtenSince_self (h : List (Writes K V)) (k : K) : ¬ WrittenSince h h k := by
  simp [WrittenSince]

/-- A key not written since an earlier history reads the same as there. -/
theorem replay_eq_of_not_writtenSince {old new : List (Writes K V)} (hp : old <+: new) {k : K}
    (hk : ¬ WrittenSince old new k) : replay new k = replay old k := by
  obtain ⟨ws, rfl⟩ := hp
  refine replay_append_of_none fun w hw => ?_
  by_contra hne
  exact hk ⟨w, by simpa using hw, hne⟩

theorem writtenSince_trans {old mid new : List (Writes K V)} (h₁ : old <+: mid) (h₂ : mid <+: new)
    {k : K} : WrittenSince old new k ↔ WrittenSince old mid k ∨ WrittenSince mid new k := by
  obtain ⟨us, rfl⟩ := h₁
  obtain ⟨vs, rfl⟩ := h₂
  have hall : (old ++ us ++ vs).drop old.length = us ++ vs := by
    rw [List.append_assoc, List.drop_left]
  simp only [WrittenSince, hall, List.drop_left, List.mem_append]
  constructor
  · rintro ⟨w, hw | hw, hk⟩
    · exact .inl ⟨w, hw, hk⟩
    · exact .inr ⟨w, hw, hk⟩
  · rintro (⟨w, hw, hk⟩ | ⟨w, hw, hk⟩)
    · exact ⟨w, .inl hw, hk⟩
    · exact ⟨w, .inr hw, hk⟩

/-- The history `new` is `old` with the write set `w` recorded; recording no change at all may
leave no trace. -/
def Appends (w : Writes K V) (old new : List (Writes K V)) : Prop :=
  new = old ++ [w] ∨ w = Writes.empty ∧ new = old

theorem Appends.extends {w : Writes K V} {old new : List (Writes K V)} (h : Appends w old new) :
    old <+: new := by
  rcases h with rfl | ⟨-, rfl⟩
  · exact List.prefix_append _ _
  · exact List.prefix_rfl

theorem Appends.replay {w : Writes K V} {old new : List (Writes K V)} (h : Appends w old new) :
    replay new = w.apply (replay old) := by
  rcases h with rfl | ⟨rfl, rfl⟩
  · exact replay_concat _ _
  · rfl

theorem Appends.writtenSince {w : Writes K V} {old new : List (Writes K V)}
    (h : Appends w old new) {k : K} : WrittenSince old new k ↔ w k ≠ none := by
  rcases h with rfl | ⟨rfl, rfl⟩ <;> simp [WrittenSince]

end Overlay

import Choam.Lib.ByteString
import Choam.Lib.Except

/-!
# Decoders and torn input

A reader decodes from the front of a byte string and returns what follows (`Extends`); a decoder
returns no rest, but its input has at least the size of what it found (`Whole`). Neither looks
behind what it decodes, so that neither accepts a strict prefix of what an encoder wrote
(`Extends.torn`, `Whole.torn`).
-/

namespace ByteString

variable {ε α : Type}

/-- Bytes added behind the input are added to the rest, and change nothing else. -/
def Extends (r : Bytes → Except ε (α × Bytes)) : Prop :=
  ∀ data x rest tail, r data = .ok (x, rest) → r (data ++ tail) = .ok (x, rest ++ tail)

/-- What is found in an input has at most its size, and bytes added behind change nothing. -/
structure Whole (d : Bytes → Except ε α) (size : α → ℕ) : Prop where
  size_le : ∀ data x, d data = .ok x → size x ≤ data.length
  append : ∀ data x tail, d data = .ok x → d (data ++ tail) = .ok x

theorem append_torn {p bs : Bytes} (hp : p <+: bs) (hne : p ≠ bs) :
    ∃ tail, tail ≠ [] ∧ bs = p ++ tail := by
  obtain ⟨tail, rfl⟩ := hp
  exact ⟨tail, fun h => hne (by simp [h]), rfl⟩

theorem Extends.torn {r : Bytes → Except ε (α × Bytes)} (h : Extends r) {bs p : Bytes} {x : α}
    (hr : r bs = .ok (x, [])) (hp : p <+: bs) (hne : p ≠ bs) : ∃ e, r p = .error e := by
  obtain ⟨tail, htail, rfl⟩ := append_torn hp hne
  cases hread : r p with
  | error e => exact ⟨e, rfl⟩
  | ok y =>
    have hmore := h p y.1 y.2 tail hread
    rw [hr] at hmore
    have hnil : y.2 ++ tail = [] := (congrArg Prod.snd (Except.ok.inj hmore)).symm
    exact absurd (List.append_eq_nil_iff.mp hnil).2 htail

theorem Whole.torn {d : Bytes → Except ε α} {size : α → ℕ} (h : Whole d size) {bs p : Bytes}
    {x : α} (hd : d bs = .ok x) (hsize : bs.length ≤ size x) (hp : p <+: bs) (hne : p ≠ bs) :
    ∃ e, d p = .error e := by
  obtain ⟨tail, htail, rfl⟩ := append_torn hp hne
  cases hread : d p with
  | error e => exact ⟨e, rfl⟩
  | ok y =>
    have hsame := (h.append p y tail hread).symm.trans hd
    have hle := h.size_le p y hread
    rw [Except.ok.inj hsame] at hle
    have hpos := List.length_pos_iff.mpr htail
    rw [List.length_append] at hsize
    omega

theorem take_append {n : ℕ} {data tail : Bytes} (h : ¬ data.length < n) :
    (data ++ tail).take n = data.take n := List.take_append_of_le_length (by omega)

theorem drop_append {n : ℕ} {data tail : Bytes} (h : ¬ data.length < n) :
    (data ++ tail).drop n = data.drop n ++ tail := List.drop_append_of_le_length (by omega)

end ByteString

import Mathlib.Data.List.Basic
import Mathlib.Tactic.Ring
import Mathlib.Algebra.Order.Ring.Nat

/-!
# Byte strings and fixed-width integers

Byte strings are lists of bytes, ordered lexicographically. `le n v` and `be n v` are the `n`
low-order bytes of `v`, least or most significant byte first; a value that does not fit loses its
high-order part, as a narrowing cast does. Reading back gives `v % 256 ^ n` (`ofLe_le`), every
string of `n` bytes is the encoding of the number it reads as (`le_ofLe`), and most significant
first is the encoding whose lexicographic order is the numeric order (`be_lt_be_iff`). A string
is read and written in UTF-8 (`fromUtf8_utf8`).
-/

namespace ByteString

/-- A byte string. -/
abbrev Bytes := List UInt8

/-- The `n` low-order bytes of `v`, least significant first. -/
def le : Nat → Nat → Bytes
  | 0, _ => []
  | n + 1, v => UInt8.ofNat v :: le n (v / 256)

/-- The `n` low-order bytes of `v`, most significant first. -/
def be (n v : Nat) : Bytes := (le n v).reverse

/-- The number a least-significant-first string stands for. -/
def ofLe : Bytes → Nat
  | [] => 0
  | b :: bs => b.toNat + 256 * ofLe bs

/-- The number a most-significant-first string stands for. -/
def ofBe (bs : Bytes) : Nat := ofLe bs.reverse

@[simp] theorem length_le (n v : Nat) : (le n v).length = n := by
  induction n generalizing v with
  | zero => rfl
  | succ n ih => simp [le, ih]

@[simp] theorem length_be (n v : Nat) : (be n v).length = n := by simp [be]

/-- Reading back keeps the low-order part. -/
theorem ofLe_le (n v : Nat) : ofLe (le n v) = v % 256 ^ n := by
  induction n generalizing v with
  | zero => simp [le, ofLe, Nat.mod_one]
  | succ n ih =>
    have hpow : 256 ^ (n + 1) = 256 * 256 ^ n := Nat.pow_succ'
    rw [le, ofLe, ih, UInt8.toNat_ofNat', hpow, Nat.mod_mul]

theorem ofLe_le_of_lt {n v : Nat} (h : v < 256 ^ n) : ofLe (le n v) = v := by
  rw [ofLe_le, Nat.mod_eq_of_lt h]

@[simp] theorem ofBe_be (n v : Nat) : ofBe (be n v) = v % 256 ^ n := by
  simp [ofBe, be, ofLe_le]

theorem ofLe_lt (bs : Bytes) : ofLe bs < 256 ^ bs.length := by
  induction bs with
  | nil => simp [ofLe]
  | cons b bs ih =>
    have hb : b.toNat < 256 := b.toNat_lt
    simp only [ofLe, List.length_cons, Nat.pow_succ']
    omega

/-- Every string of `n` bytes is the encoding of the number it reads as. -/
theorem le_ofLe (bs : Bytes) : le bs.length (ofLe bs) = bs := by
  induction bs with
  | nil => rfl
  | cons b bs ih =>
    have hb : b.toNat < 256 := b.toNat_lt
    have hhead : UInt8.ofNat (b.toNat + 256 * ofLe bs) = b := by
      apply UInt8.toNat_inj.mp
      rw [UInt8.toNat_ofNat']
      omega
    have htail : (b.toNat + 256 * ofLe bs) / 256 = ofLe bs := by omega
    simp only [List.length_cons, ofLe, le, hhead, htail, ih]

theorem be_ofBe (bs : Bytes) : be bs.length (ofBe bs) = bs := by
  have h := le_ofLe bs.reverse
  simp only [List.length_reverse] at h
  simp [be, ofBe, h]

theorem le_inj {n v w : Nat} (hv : v < 256 ^ n) (hw : w < 256 ^ n) : le n v = le n w ↔ v = w := by
  refine ⟨fun h => ?_, fun h => by rw [h]⟩
  rw [← ofLe_le_of_lt hv, ← ofLe_le_of_lt hw, h]

theorem be_inj {n v w : Nat} (hv : v < 256 ^ n) (hw : w < 256 ^ n) : be n v = be n w ↔ v = w := by
  rw [be, be, List.reverse_inj, le_inj hv hw]

theorem le_succ_last (n v : Nat) : le (n + 1) v = le n v ++ [UInt8.ofNat (v / 256 ^ n)] := by
  induction n generalizing v with
  | zero => simp [le]
  | succ n ih =>
    rw [le, ih, le, List.cons_append, Nat.div_div_eq_div_mul, ← Nat.pow_succ']

/-- The most significant byte comes first. -/
theorem be_succ (n v : Nat) : be (n + 1) v = UInt8.ofNat (v / 256 ^ n) :: be n v := by
  rw [be, le_succ_last, List.reverse_append, List.reverse_singleton]
  rfl

theorem le_mod (n v : Nat) : le n (v % 256 ^ n) = le n v := by
  induction n generalizing v with
  | zero => rfl
  | succ n ih =>
    have hhead : UInt8.ofNat (v % 256 ^ (n + 1)) = UInt8.ofNat v := by
      apply UInt8.toNat_inj.mp
      rw [UInt8.toNat_ofNat', UInt8.toNat_ofNat', Nat.pow_succ']
      exact Nat.mod_mul_right_mod v 256 (256 ^ n)
    have htail : v % 256 ^ (n + 1) / 256 = v / 256 % 256 ^ n := by
      rw [Nat.pow_succ', Nat.mod_mul_right_div_self]
    rw [le, le, hhead, htail, ih]

theorem be_mod (n v : Nat) : be n (v % 256 ^ n) = be n v := by
  rw [be, be, le_mod]

/-- Most significant byte first, the lexicographic order of the strings is the numeric order. -/
theorem be_lt_be_iff {n v w : Nat} (hv : v < 256 ^ n) (hw : w < 256 ^ n) :
    be n v < be n w ↔ v < w := by
  induction n generalizing v w with
  | zero =>
    have hv0 : v = 0 := by simpa using hv
    have hw0 : w = 0 := by simpa using hw
    subst hv0 hw0
    simp [be, le]
  | succ n ih =>
    have hpos : 0 < 256 ^ n := Nat.pow_pos (by decide)
    rw [Nat.pow_succ'] at hv hw
    have hvq : v / 256 ^ n < 256 := Nat.div_lt_of_lt_mul (by rw [Nat.mul_comm]; exact hv)
    have hwq : w / 256 ^ n < 256 := Nat.div_lt_of_lt_mul (by rw [Nat.mul_comm]; exact hw)
    have hlt : UInt8.ofNat (v / 256 ^ n) < UInt8.ofNat (w / 256 ^ n) ↔
        v / 256 ^ n < w / 256 ^ n := by
      rw [UInt8.lt_iff_toNat_lt, UInt8.toNat_ofNat', UInt8.toNat_ofNat']
      rw [Nat.mod_eq_of_lt hvq, Nat.mod_eq_of_lt hwq]
    have heq : UInt8.ofNat (v / 256 ^ n) = UInt8.ofNat (w / 256 ^ n) ↔
        v / 256 ^ n = w / 256 ^ n := by
      rw [← UInt8.toNat_inj, UInt8.toNat_ofNat', UInt8.toNat_ofNat']
      rw [Nat.mod_eq_of_lt hvq, Nat.mod_eq_of_lt hwq]
    have hrest : be n v < be n w ↔ v % 256 ^ n < w % 256 ^ n := by
      rw [← be_mod n v, ← be_mod n w]
      exact ih (Nat.mod_lt _ hpos) (Nat.mod_lt _ hpos)
    rw [be_succ, be_succ, List.cons_lt_cons_iff, hlt, heq, hrest]
    have dv := Nat.div_add_mod v (256 ^ n)
    have dw := Nat.div_add_mod w (256 ^ n)
    constructor
    · rintro (h | ⟨h1, h2⟩)
      · exact Nat.lt_of_div_lt_div h
      · rw [h1] at dv
        omega
    · intro h
      rcases Nat.lt_or_eq_of_le (Nat.div_le_div_right (c := 256 ^ n) h.le) with hq | hq
      · exact Or.inl hq
      · rw [hq] at dv
        exact Or.inr ⟨hq, by omega⟩

/-! ## The lexicographic order -/

/-- The three-way comparison of two byte strings. -/
def lexCmp (a b : Bytes) : Ordering := compareOfLessAndEq a b

theorem lexCmp_eq_eq {a b : Bytes} : lexCmp a b = .eq ↔ a = b := by
  unfold lexCmp compareOfLessAndEq
  by_cases h : a < b
  · have hne : a ≠ b := by
      rintro rfl
      exact List.lt_irrefl a h
    simp [h, hne]
  · by_cases h' : a = b <;> simp [h, h']

theorem lt_or_eq_or_gt (a b : Bytes) : a < b ∨ a = b ∨ b < a := Std.lt_trichotomy a b

/-- A common prefix does not matter to the order. -/
theorem append_lt_append_left {p a b : Bytes} : p ++ a < p ++ b ↔ a < b := by
  induction p with
  | nil => rfl
  | cons x p ih => simp [ih]

theorem lexCmp_append {p a b : Bytes} : lexCmp (p ++ a) (p ++ b) = lexCmp a b := by
  simp only [lexCmp, compareOfLessAndEq, append_lt_append_left, List.append_cancel_left_eq]

/-- What follows two different strings of one length does not matter to the order. -/
theorem append_lt_append_of_ne {a a' : Bytes} (hlen : a.length = a'.length) (hne : a ≠ a')
    (c c' : Bytes) : a ++ c < a' ++ c' ↔ a < a' := by
  induction a generalizing a' with
  | nil =>
    obtain rfl : a' = [] := List.length_eq_zero_iff.mp hlen.symm
    exact absurd rfl hne
  | cons x a ih =>
    match a', hlen with
    | y :: a', hlen =>
      rw [List.cons_append, List.cons_append, List.cons_lt_cons_iff, List.cons_lt_cons_iff]
      refine or_congr_right (and_congr_right fun hxy => ih (by simpa using hlen) ?_)
      rintro rfl
      exact hne (by rw [hxy])

/-! ## UTF-8 -/

/-- The UTF-8 bytes of a string. -/
def utf8 (s : String) : Bytes := s.toByteArray.data.toList

/-- The string that the bytes encode, when they are well formed. -/
def fromUtf8 (bs : Bytes) : Option String := String.fromUTF8? ⟨⟨bs⟩⟩

@[simp] theorem fromUtf8_utf8 (s : String) : fromUtf8 (utf8 s) = some s := by
  have hbytes : (⟨⟨s.toByteArray.data.toList⟩⟩ : ByteArray) = s.toByteArray := rfl
  rw [fromUtf8, utf8, hbytes, String.fromUTF8?, dif_pos]
  · rfl

theorem utf8_of_fromUtf8 {bs : Bytes} {s : String} (h : fromUtf8 bs = some s) : utf8 s = bs := by
  unfold fromUtf8 String.fromUTF8? at h
  split at h
  · cases h
    rfl
  · cases h

@[simp] theorem utf8_inj {s t : String} : utf8 s = utf8 t ↔ s = t := by
  refine ⟨fun h => ?_, fun h => by rw [h]⟩
  have hs := fromUtf8_utf8 s
  rw [h, fromUtf8_utf8] at hs
  exact (Option.some.inj hs).symm

@[simp] theorem utf8_eq_nil {s : String} : utf8 s = [] ↔ s = "" :=
  utf8_inj (t := "")

theorem length_utf8_ofList (cs : List Char) :
    (utf8 (String.ofList cs)).length = (cs.map Char.utf8Size).sum := by
  rw [utf8, String.toByteArray_ofList, List.utf8Encode]
  induction cs with
  | nil => rfl
  | cons c cs ih => simp_all

theorem length_utf8_replicate (n : Nat) :
    (utf8 (String.ofList (List.replicate n 'a'))).length = n := by
  have hchar : 'a'.utf8Size = 1 := by decide
  rw [length_utf8_ofList, List.map_replicate, hchar]
  simp

end ByteString

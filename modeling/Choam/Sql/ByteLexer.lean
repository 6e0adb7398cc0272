import Choam.Lib.ByteString
import Choam.Sql.Lexer

/-!
# The lexer on bytes

The lexer as it goes over the bytes of its input, by offsets. Where it takes characters out of the
input, it takes a slice of it, which panics when an end of the slice is not at a character boundary;
`none` stands for a panic. `lex` is the same lexer on characters.
-/

namespace Choam.ByteLexer

open ByteString Lexer

/-! ## Slices -/

/-- `input[i..]`. -/
def sliceFrom : List Char → Nat → Option (List Char)
  | cs, 0 => some cs
  | [], _ + 1 => none
  | c :: cs, i + 1 => if c.utf8Size ≤ i + 1 then sliceFrom cs (i + 1 - c.utf8Size) else none

/-- `input[..n]`. -/
def sliceTo : List Char → Nat → Option (List Char)
  | _, 0 => some []
  | [], _ + 1 => none
  | c :: cs, n + 1 =>
    if c.utf8Size ≤ n + 1 then (sliceTo cs (n + 1 - c.utf8Size)).map (c :: ·) else none

/-- `input[start..i]`. -/
def slice (input : List Char) (start i : Nat) : Option (List Char) :=
  if start ≤ i then (sliceFrom input start).bind (sliceTo · (i - start)) else none

def bytes (input : List Char) : Bytes := utf8 (String.ofList input)

/-- `input[i..].chars().next()`. -/
def charAt (input : List Char) (i : Nat) : Option (Option Char) :=
  (sliceFrom input i).map List.head?

theorem sliceFrom_eq_some {input rest : List Char} {i : Nat} (h : sliceFrom input i = some rest) :
    ∃ front, input = front ++ rest ∧ i = utf8Len front := by
  induction input, i using sliceFrom.induct with
  | case1 cs =>
    rw [sliceFrom] at h
    cases h
    exact ⟨[], rfl, rfl⟩
  | case2 i =>
    rw [sliceFrom] at h
    cases h
  | case3 c cs i hle ih =>
    rw [sliceFrom, if_pos hle] at h
    obtain ⟨front, rfl, hi⟩ := ih h
    refine ⟨c :: front, rfl, ?_⟩
    simp only [utf8Len, List.map_cons, List.sum_cons] at hi ⊢
    omega
  | case4 c cs i hle =>
    rw [sliceFrom, if_neg hle] at h
    cases h

theorem length_bytes (input : List Char) : (bytes input).length = utf8Len input :=
  length_utf8_ofList input

theorem charAt_lt {input : List Char} {i : Nat} {ch : Char} (h : charAt input i = some (some ch)) :
    i + ch.utf8Size ≤ (bytes input).length := by
  obtain ⟨rest, hrest, hhead⟩ := Option.map_eq_some_iff.mp h
  obtain ⟨front, rfl, rfl⟩ := sliceFrom_eq_some hrest
  obtain ⟨cs, rfl⟩ : ∃ cs, rest = ch :: cs := List.head?_eq_some_iff.mp hhead
  rw [length_bytes]
  simp only [utf8Len, List.map_append, List.map_cons, List.sum_append, List.sum_cons]
  omega

/-! ## The loops -/

/-- `is_ascii_digit`. -/
def isAsciiDigit (b : UInt8) : Bool := 48 ≤ b.toNat && b.toNat ≤ 57

/-- The end of the run of digits at `i`. -/
def skipDigits (bytes : Bytes) (i : Nat) : Nat :=
  if h : i < bytes.length then
    if isAsciiDigit bytes[i] then skipDigits bytes (i + 1) else i
  else i
termination_by bytes.length - i

/-- The end of the word that goes on at `i`. -/
def skipWord (u : Unicode) (input : List Char) (i : Nat) : Option Nat :=
  if i < (bytes input).length then
    match charAt input i with
    | some (some ch) => if isWordChar u ch then skipWord u input (i + ch.utf8Size) else some i
    | _ => none
  else some i
termination_by (bytes input).length - i
decreasing_by
  have := ch.utf8Size_pos
  omega

/-- The text of the string literal that goes on at `i`, behind `s`, and its end; there is none when
the input ends. -/
def skipString (input : List Char) (s : List Char) (i : Nat) : Option (Option (List Char × Nat)) :=
  match _hch : charAt input i with
  | none => none
  | some none => some none
  | some (some ch) =>
    let i := i + ch.utf8Size
    if ch = '\'' then
      if (bytes input)[i]? = some 39 then skipString input (s ++ ['\'']) (i + 1) else some (some (s, i))
    else skipString input (s ++ [ch]) i
termination_by (bytes input).length - i
decreasing_by
  all_goals
    have := charAt_lt _hch
    have := ch.utf8Size_pos
    omega

/-- The operator that starts with `c`, and its length, when it looks at the next byte. -/
def operator (c : Char) (next : Option UInt8) : Option (Token × Nat) :=
  match c, next with
  | '<', some 61 => some (.le, 2)
  | '<', some 62 => some (.ne, 2)
  | '<', _ => some (.lt, 1)
  | '>', some 61 => some (.ge, 2)
  | '>', _ => some (.gt, 1)
  | '!', some 61 => some (.ne, 2)
  | _, _ => none

/-- One more token in front. -/
def push (tok : Token × Nat) (r : Option (Except LexError (List (Token × Nat)))) :
    Option (Except LexError (List (Token × Nat))) :=
  r.map fun x => x.map (tok :: ·)

/-- The tokens from byte `i` on, as long as there are fewer than `fuel` rounds of the loop. -/
def lexAt (u : Unicode) (input : List Char) : Nat → Nat → Option (Except LexError (List (Token × Nat)))
  | 0, _ => none
  | fuel + 1, start =>
    if start < (bytes input).length then
      match charAt input start with
      | some (some c) =>
        if u.isWhitespace c then lexAt u input fuel (start + c.utf8Size)
        else
          match punctuation c with
          | some tok => push (tok, start) (lexAt u input fuel (start + 1))
          | none =>
            if c = '<' ∨ c = '>' ∨ c = '!' then
              match operator c (bytes input)[start + 1]? with
              | some (tok, len) => push (tok, start) (lexAt u input fuel (start + len))
              | none => some (.error (.unexpectedChar c start))
            else if c = '\'' then
              match skipString input [] (start + 1) with
              | none => none
              | some none => some (.error (.unterminatedString start))
              | some (some (s, i)) => push (.str (String.ofList s), start) (lexAt u input fuel i)
            else if c.isDigit then
              let i := skipDigits (bytes input) start
              match slice input start i with
              | none => none
              | some digits =>
                if digitsValue digits < 2 ^ 63 then
                  push (.integer (Int64.ofNat (digitsValue digits)), start) (lexAt u input fuel i)
                else some (.error (.integerOutOfRange start))
            else if u.isAlphabetic c || c == '_' then
              match skipWord u input start with
              | none => none
              | some i =>
                match slice input start i with
                | none => none
                | some word => push (.word (String.ofList word), start) (lexAt u input fuel i)
            else some (.error (.unexpectedChar c start))
      | _ => none
    else some (.ok [])

end Choam.ByteLexer

namespace Choam

/-- The source's `lex`. Every round of its loop goes on by a byte at least. -/
def lexBytes (u : Unicode) (input : String) : Option (Except LexError (List (Token × Nat))) :=
  ByteLexer.lexAt u input.toList ((ByteLexer.bytes input.toList).length + 1) 0

end Choam

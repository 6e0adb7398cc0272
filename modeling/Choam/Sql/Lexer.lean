import Mathlib.Data.List.Basic
import Choam.Sql.Ast

/-!
# The lexer

Splits SQL text into tokens, each with the byte offset it starts at.
-/

namespace Choam

/-- The tables of the Rust standard library that the lexer and the rendering of tokens read. -/
structure Unicode where
  isWhitespace : Char → Bool
  isAlphabetic : Char → Bool
  isNumeric : Char → Bool
  /-- A string between its quotes, as `Debug` shows it. -/
  escapeDebug : String → String

/-- An ASCII character of a string as `Debug` shows it: quotes, backslashes and control characters
are escaped. -/
def escapeAscii (c : Char) : List Char :=
  if c = '"' ∨ c = '\\' then ['\\', c]
  else if c = '\x00' then ['\\', '0']
  else if c = '\t' then ['\\', 't']
  else if c = '\n' then ['\\', 'n']
  else if c = '\r' then ['\\', 'r']
  else if c.toNat < 32 ∨ c.toNat = 127 then
    ['\\', 'u', '\x7b'] ++ Nat.toDigits 16 c.toNat ++ ['\x7d']
  else [c]

/-- What the tables say of ASCII text. -/
def Unicode.ascii : Unicode where
  isWhitespace c := c = ' ' ∨ 9 ≤ c.toNat ∧ c.toNat ≤ 13
  isAlphabetic := Char.isAlpha
  isNumeric := Char.isDigit
  escapeDebug s := String.ofList (s.toList.flatMap escapeAscii)

example : Unicode.ascii.escapeDebug "a\"\n\x7f" = "a\\\"\\n\\u\x7b7f\x7d" := by decide +kernel

inductive Token where
  | word (w : String)
  | integer (n : Int64)
  | str (s : String)
  | lParen | rParen | comma | semicolon
  | star | plus | minus | slash
  | eq | ne | lt | le | gt | ge
  deriving DecidableEq

inductive LexError where
  | unexpectedChar (ch : Char) (pos : Nat)
  | unterminatedString (pos : Nat)
  | integerOutOfRange (pos : Nat)
  deriving DecidableEq

/-- The token that a one-character operator or bracket stands for. -/
def punctuation : Char → Option Token
  | '(' => some .lParen
  | ')' => some .rParen
  | ',' => some .comma
  | ';' => some .semicolon
  | '*' => some .star
  | '+' => some .plus
  | '-' => some .minus
  | '/' => some .slash
  | '=' => some .eq
  | _ => none

/-- The operators that may take a second character: the token and the number of characters that
follow the first. -/
def comparison (c : Char) (next : Option Char) : Option (Option (Token × Nat)) :=
  match c, next with
  | '<', some '=' => some (some (.le, 1))
  | '<', some '>' => some (some (.ne, 1))
  | '<', _ => some (some (.lt, 0))
  | '>', some '=' => some (some (.ge, 1))
  | '>', _ => some (some (.gt, 0))
  | '!', some '=' => some (some (.ne, 1))
  | '!', _ => some none
  | _, _ => none

/-- The bytes that characters take in UTF-8. -/
def utf8Len (cs : List Char) : Nat := (cs.map Char.utf8Size).sum

/-- The text of a string literal up to its closing quote, and what follows the quote; a doubled
quote stands for one. -/
def lexString : List Char → Option (List Char × List Char)
  | [] => none
  | '\'' :: '\'' :: rest => (lexString rest).map fun r => ('\'' :: r.1, r.2)
  | '\'' :: rest => some ([], rest)
  | ch :: rest => (lexString rest).map fun r => (ch :: r.1, r.2)

theorem length_lexString {cs s rest : List Char} (h : lexString cs = some (s, rest)) :
    rest.length < cs.length := by
  induction cs using lexString.induct generalizing s with
  | case1 => cases h
  | case2 cs ih =>
    simp only [lexString, Option.map_eq_some_iff] at h
    obtain ⟨r, hr, heq⟩ := h
    cases heq
    have := ih hr
    simp only [List.length_cons]
    omega
  | case3 cs hq =>
    rw [lexString] at h
    · cases h
      simp
    · exact hq
  | case4 ch cs h₁ h₂ ih =>
    rw [lexString] at h
    · simp only [Option.map_eq_some_iff] at h
      obtain ⟨r, hr, heq⟩ := h
      cases heq
      have := ih hr
      simp only [List.length_cons]
      omega
    · exact h₁
    · exact h₂

/-- The number that a run of decimal digits denotes. -/
def digitsValue (ds : List Char) : Nat :=
  ds.foldl (fun n d => 10 * n + (d.toNat - '0'.toNat)) 0

namespace Lexer

variable (u : Unicode)

def isWordChar (c : Char) : Bool := u.isAlphabetic c || u.isNumeric c || c == '_'

/-- The tokens of the characters `cs`, the first of which is at byte `pos`. -/
def lexFrom (cs : List Char) (pos : Nat) : Except LexError (List (Token × Nat)) :=
  match cs with
  | [] => .ok []
  | c :: rest =>
    if u.isWhitespace c then
      lexFrom rest (pos + c.utf8Size)
    else
      match punctuation c with
      | some tok => (lexFrom rest (pos + 1)).map ((tok, pos) :: ·)
      | none =>
        match comparison c rest.head? with
        | some none => .error (.unexpectedChar c pos)
        | some (some (tok, more)) =>
          (lexFrom (rest.drop more) (pos + 1 + more)).map ((tok, pos) :: ·)
        | none =>
          if c == '\'' then
            match _hstr : lexString rest with
            | none => .error (.unterminatedString pos)
            | some (s, after) =>
              (lexFrom after (pos + (utf8Len (c :: rest) - utf8Len after))).map
                ((.str (String.ofList s), pos) :: ·)
          else if c.isDigit then
            let digits := c :: rest.takeWhile Char.isDigit
            if digitsValue digits < 2 ^ 63 then
              (lexFrom (rest.dropWhile Char.isDigit) (pos + digits.length)).map
                ((.integer (Int64.ofNat (digitsValue digits)), pos) :: ·)
            else
              .error (.integerOutOfRange pos)
          else if u.isAlphabetic c || c == '_' then
            let word := c :: rest.takeWhile (isWordChar u)
            (lexFrom (rest.dropWhile (isWordChar u)) (pos + utf8Len word)).map
              ((.word (String.ofList word), pos) :: ·)
          else
            .error (.unexpectedChar c pos)
termination_by cs.length
decreasing_by
  · simp
  · simp
  · simp only [List.length_drop, List.length_cons]
    omega
  · have := length_lexString _hstr
    simp only [List.length_cons]
    omega
  · have := (List.dropWhile_sublist Char.isDigit (l := rest)).length_le
    simp only [List.length_cons]
    omega
  · have := (List.dropWhile_sublist (isWordChar u) (l := rest)).length_le
    simp only [List.length_cons]
    omega

end Lexer

def lex (u : Unicode) (input : String) : Except LexError (List (Token × Nat)) :=
  Lexer.lexFrom u input.toList 0

end Choam

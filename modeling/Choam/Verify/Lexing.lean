import Choam.Sql.Display

/-!
# What the lexer makes of a text

`Scan` is what the lexer does at one token, `Lexes` what it does on a text (`lexFrom_ok_iff`), and
`Spells u cs w` says that the characters `cs` are read as the tokens `w` wherever a character that
ends every token follows.
-/

namespace Choam

open Lexer

/-- What the tables say of the characters that matter to the lexer. -/
structure Unicode.Lawful (u : Unicode) : Prop where
  space : u.isWhitespace ' ' = true
  graphic : ∀ c : Char, 33 ≤ c.toNat → c.toNat ≤ 126 → u.isWhitespace c = false
  alphabetic : ∀ c : Char, c.toNat ≤ 126 → u.isAlphabetic c = c.isAlpha
  numeric : ∀ c : Char, c.toNat ≤ 126 → u.isNumeric c = c.isDigit
  not_whitespace : ∀ c, u.isAlphabetic c = true → u.isWhitespace c = false

/-- What the lexer reads as one word. -/
def IsWord (u : Unicode) (w : String) : Prop :=
  ∃ c cs, w.toList = c :: cs ∧ (u.isAlphabetic c = true ∨ c = '_') ∧
    ∀ c' ∈ cs, Lexer.isWordChar u c' = true

theorem le_toNat_of_isAlpha {c : Char} (h : c.isAlpha = true) : 65 ≤ c.toNat := by
  rcases (Bool.or_eq_true _ _).mp h with h | h
  · exact UInt32.le_iff_toNat_le.mp (of_decide_eq_true h).1
  · have h : 97 ≤ c.toNat :=
      UInt32.le_iff_toNat_le.mp (of_decide_eq_true ((Bool.and_eq_true _ _).mp h).1)
    omega

theorem Unicode.lawful_ascii : Unicode.ascii.Lawful where
  space := rfl
  graphic c h _ := by
    refine Bool.eq_false_iff.mpr fun hc => ?_
    rcases of_decide_eq_true hc with rfl | hc
    · exact absurd h (by decide)
    · omega
  alphabetic _ _ := rfl
  numeric _ _ := rfl
  not_whitespace c h := by
    refine Bool.eq_false_iff.mpr fun hc => ?_
    have hrange := le_toNat_of_isAlpha h
    rcases of_decide_eq_true hc with rfl | hc
    · exact absurd hrange (by decide)
    · omega

/-- A character that belongs to no token that is longer than one. -/
def Apart (cs : List Char) : Prop := ∀ c ∈ cs.head?, c = ' ' ∨ c = ')' ∨ c = ','

def Spells (u : Unicode) (cs : List Char) (w : List Token) : Prop :=
  ∀ rest pos, Apart rest → ∃ ts pos', ts.map Prod.fst = w ∧
    lexFrom u (cs ++ rest) pos = (lexFrom u rest pos').map (ts ++ ·)

variable {u : Unicode}

theorem apart_append {cs rest : List Char} (h : Apart cs) (hrest : Apart rest) :
    Apart (cs ++ rest) := by
  cases cs with
  | nil => exact hrest
  | cons c cs => exact h

theorem map_map_except {ε α β γ : Type} (x : Except ε α) (f : α → β) (g : β → γ) :
    (x.map f).map g = x.map (g ∘ f) := by
  cases x <;> rfl

theorem Spells.append {cs cs' : List Char} {w w' : List Token} (h : Spells u cs w)
    (h' : Spells u cs' w') (hcs' : Apart cs') : Spells u (cs ++ cs') (w ++ w') := by
  intro rest pos hrest
  obtain ⟨ts, pos₁, rfl, hts⟩ := h (cs' ++ rest) pos (apart_append hcs' hrest)
  obtain ⟨ts', pos₂, rfl, hts'⟩ := h' rest pos₁ hrest
  refine ⟨ts ++ ts', pos₂, List.map_append, ?_⟩
  rw [List.append_assoc, hts, hts', map_map_except]
  congr 1
  funext r
  exact (List.append_assoc ts ts' r).symm

/-! ## Characters -/

theorem toNat_of_isAlpha {c : Char} (h : c.isAlpha = true) : 65 ≤ c.toNat ∧ c.toNat ≤ 122 := by
  replace h : (decide (c.val ≥ 'A'.val ∧ c.val ≤ 'Z'.val) ||
      decide (c.val ≥ 'a'.val) && decide (c.val ≤ 'z'.val)) = true := h
  simp only [Bool.and_eq_true, Bool.or_eq_true, decide_eq_true_eq, UInt32.le_iff_toNat_le,
    ge_iff_le] at h
  have hA : ('A' : Char).val.toNat = 65 := rfl
  have hZ : ('Z' : Char).val.toNat = 90 := rfl
  have ha : ('a' : Char).val.toNat = 97 := rfl
  have hz : ('z' : Char).val.toNat = 122 := rfl
  rw [← Char.toNat_val]
  omega

theorem isDigit_of_isAlpha {c : Char} (h : c.isAlpha = true) : c.isDigit = false := by
  refine Bool.eq_false_iff.mpr fun hd => ?_
  simp only [Char.isDigit, Bool.and_eq_true, decide_eq_true_eq, UInt32.le_iff_toNat_le] at hd
  have h9 : ('9' : Char).val.toNat = 57 := rfl
  have hle := (toNat_of_isAlpha h).1
  rw [← Char.toNat_val] at hle
  omega

theorem wordStart_ne (hu : u.Lawful) {c d : Char} (hc : u.isAlphabetic c = true ∨ c = '_')
    (hd : d.toNat ≤ 126) (halpha : d.isAlpha = false) (hunder : d ≠ '_') : c ≠ d := by
  rintro rfl
  rcases hc with hc | hc
  · rw [hu.alphabetic c hd, halpha] at hc
    cases hc
  · exact hunder hc

theorem wordStart_not_whitespace (hu : u.Lawful) {c : Char}
    (hc : u.isAlphabetic c = true ∨ c = '_') : u.isWhitespace c = false := by
  rcases hc with hc | rfl
  · exact hu.not_whitespace c hc
  · exact hu.graphic '_' (by decide) (by decide)

/-- The characters that start a token of their own kind, which no word starts with. -/
theorem wordStart_other (hu : u.Lawful) {c : Char} (hc : u.isAlphabetic c = true ∨ c = '_') :
    punctuation c = none ∧ (∀ next, comparison c next = none) ∧ (c == '\'') = false ∧
      c.isDigit = false := by
  have hne : ∀ d ∈ ['(', ')', ',', ';', '*', '+', '-', '/', '=', '<', '>', '!', '\''], c ≠ d := by
    intro d hd
    simp only [List.mem_cons, List.not_mem_nil, or_false] at hd
    refine wordStart_ne hu hc ?_ ?_ ?_ <;>
      rcases hd with rfl | rfl | rfl | rfl | rfl | rfl | rfl | rfl | rfl | rfl | rfl | rfl | rfl <;>
      decide
  refine ⟨?_, ?_, ?_, ?_⟩
  · unfold punctuation
    split <;> first | rfl | exact absurd rfl (hne _ (by decide))
  · intro next
    unfold comparison
    split <;> first | rfl | exact absurd rfl (hne _ (by decide))
  · exact beq_eq_false_iff_ne.mpr (hne _ (by decide))
  · refine Bool.eq_false_iff.mpr fun hd => ?_
    have hle : c.toNat ≤ 126 := by
      simp only [Char.isDigit, Bool.and_eq_true, decide_eq_true_eq, UInt32.le_iff_toNat_le] at hd
      exact hd.2.trans (by decide)
    refine wordStart_ne hu hc hle ?_ ?_ rfl
    · refine Bool.eq_false_iff.mpr fun ha => ?_
      rw [isDigit_of_isAlpha ha] at hd
      cases hd
    · rintro rfl
      cases hd

theorem apart_not_wordChar (hu : u.Lawful) {rest : List Char} (h : Apart rest) :
    ∀ c ∈ rest.head?, isWordChar u c = false := by
  intro c hc
  rcases h c hc with rfl | rfl | rfl <;>
    simp [isWordChar, hu.alphabetic, hu.numeric]

/-- The characters up to the first one that `p` does not know. -/
theorem takeWhile_append {p : Char → Bool} {cs rest : List Char} (hcs : ∀ c ∈ cs, p c = true)
    (hrest : ∀ c ∈ rest.head?, p c = false) :
    (cs ++ rest).takeWhile p = cs ∧ (cs ++ rest).dropWhile p = rest := by
  induction cs with
  | nil =>
    cases rest with
    | nil => exact ⟨rfl, rfl⟩
    | cons c rest => simp [hrest c rfl]
  | cons c cs ih =>
    have hc := hcs c List.mem_cons_self
    have htail := ih fun c' hc' => hcs c' (List.mem_cons_of_mem c hc')
    rw [List.cons_append, List.takeWhile_cons_of_pos hc, List.dropWhile_cons_of_pos hc]
    exact ⟨congrArg _ htail.1, htail.2⟩

theorem head?_dropWhile {p : Char → Bool} {l : List Char} :
    ∀ c ∈ (l.dropWhile p).head?, p c = false := by
  intro c hc
  have h := List.head?_dropWhile_not p l
  rw [hc] at h
  exact h

theorem digit_not_whitespace (hu : u.Lawful) {c : Char} (hc : c.isDigit = true) :
    u.isWhitespace c = false := by
  simp only [Char.isDigit, Bool.and_eq_true, decide_eq_true_eq, UInt32.le_iff_toNat_le] at hc
  refine hu.graphic c (Nat.le_trans ?_ hc.1) (hc.2.trans ?_) <;> decide

theorem digit_other {c : Char} (hc : c.isDigit = true) : punctuation c = none ∧
    (∀ next, comparison c next = none) ∧ (c == '\'') = false := by
  have hne : ∀ d : Char, d.isDigit = false → c ≠ d := by
    rintro d hd rfl
    rw [hc] at hd
    cases hd
  refine ⟨?_, ?_, beq_eq_false_iff_ne.mpr (hne _ rfl)⟩
  · unfold punctuation
    split <;> first | rfl | exact absurd rfl (hne _ rfl)
  · intro next
    unfold comparison
    split <;> first | rfl | exact absurd rfl (hne _ rfl)

theorem punctuation_not_whitespace (hu : u.Lawful) {c : Char} {tok : Token}
    (h : punctuation c = some tok) : u.isWhitespace c = false := by
  unfold punctuation at h
  split at h <;> first | exact hu.graphic _ (by decide) (by decide) | cases h

theorem comparison_other (hu : u.Lawful) {c : Char} {next : Option Char} {x : Token × Nat}
    (h : comparison c next = some (some x)) : u.isWhitespace c = false ∧ punctuation c = none := by
  unfold comparison at h
  split at h <;> first | exact ⟨hu.graphic _ (by decide) (by decide), rfl⟩ | cases h

theorem comparison_cases {c : Char} {next : Option Char} {tok : Token} {more : Nat}
    (h : comparison c next = some (some (tok, more))) : (c ≠ '\'' ∧ c ≠ ';') ∧
      (more = 0 ∧ comparison c none = some (some (tok, 0)) ∨
        ∃ d, more = 1 ∧ next = some d ∧ d ≠ '\'' ∧ d ≠ ';') := by
  unfold comparison at h
  split at h <;> cases h
  all_goals refine ⟨by decide, ?_⟩
  all_goals first | exact .inl ⟨rfl, rfl⟩ | exact .inr ⟨_, rfl, rfl, by decide, by decide⟩

theorem comparison_plain (c : Char) {d : Char} (heq : d ≠ '=') (hgt : d ≠ '>') :
    comparison c (some d) = comparison c none := by
  by_cases h₁ : c = '<'
  · subst h₁
    simp [comparison, heq, hgt]
  by_cases h₂ : c = '>'
  · subst h₂
    simp [comparison, heq]
  by_cases h₃ : c = '!'
  · subst h₃
    simp [comparison, heq]
  · simp [comparison, h₁, h₂, h₃]

/-! ## One token -/

/-- The characters start with a token, and those behind it are left. -/
inductive Scan (u : Unicode) : List Char → Token → List Char → Prop where
  | punctuation {c : Char} {tok : Token} {rest : List Char} (h : punctuation c = some tok) :
      Scan u (c :: rest) tok rest
  | comparison {c : Char} {tok : Token} {more : Nat} {rest : List Char}
      (h : comparison c rest.head? = some (some (tok, more))) :
      Scan u (c :: rest) tok (rest.drop more)
  | string {s rest after : List Char} (h : lexString rest = some (s, after)) :
      Scan u ('\'' :: rest) (.str (String.ofList s)) after
  | integer {c : Char} {rest : List Char} (hc : c.isDigit = true)
      (h : digitsValue (c :: rest.takeWhile Char.isDigit) < 2 ^ 63) :
      Scan u (c :: rest)
        (.integer (Int64.ofNat (digitsValue (c :: rest.takeWhile Char.isDigit))))
        (rest.dropWhile Char.isDigit)
  | word {c : Char} {rest : List Char} (hc : u.isAlphabetic c = true ∨ c = '_') :
      Scan u (c :: rest) (.word (String.ofList (c :: rest.takeWhile (isWordChar u))))
        (rest.dropWhile (isWordChar u))

theorem Scan.length_lt {cs after : List Char} {t : Token} (h : Scan u cs t after) :
    after.length < cs.length := by
  cases h with
  | punctuation => exact Nat.lt_succ_self _
  | comparison h =>
    rw [List.length_drop, List.length_cons]
    omega
  | string h => exact (length_lexString h).trans (Nat.lt_succ_self _)
  | integer => exact Nat.lt_succ_of_le (List.dropWhile_sublist Char.isDigit).length_le
  | word => exact Nat.lt_succ_of_le (List.dropWhile_sublist (isWordChar u)).length_le

theorem lexFrom_string (hu : u.Lawful) {cs s rest : List Char} {pos : Nat}
    (h : lexString cs = some (s, rest)) : lexFrom u ('\'' :: cs) pos =
      (lexFrom u rest (pos + (utf8Len ('\'' :: cs) - utf8Len rest))).map
        ((.str (String.ofList s), pos) :: ·) := by
  have hspace : u.isWhitespace '\'' = false := hu.graphic _ (by decide) (by decide)
  have hpunct : punctuation '\'' = none := rfl
  have hcmp : comparison '\'' cs.head? = none := rfl
  rw [lexFrom]
  simp only [hspace, hpunct, hcmp, Bool.false_eq_true, if_false, beq_self_eq_true, if_true]
  split
  · rename_i hnone
    rw [h] at hnone
    cases hnone
  · rename_i hsome
    rw [h] at hsome
    cases hsome
    rfl

theorem utf8Len_cons (c : Char) (cs : List Char) : utf8Len (c :: cs) = c.utf8Size + utf8Len cs := by
  rw [utf8Len, utf8Len, List.map_cons, List.sum_cons]

theorem utf8Len_append (cs cs' : List Char) : utf8Len (cs ++ cs') = utf8Len cs + utf8Len cs' := by
  rw [utf8Len, utf8Len, utf8Len, List.map_append, List.sum_append]

/-- The bytes between two places of a text are those of the piece between them. -/
theorem utf8Len_sub {cs piece after : List Char} (h : cs = piece ++ after) :
    utf8Len cs - utf8Len after = utf8Len piece := by
  rw [h, utf8Len_append, Nat.add_sub_cancel]

/-- A character and the run behind it. -/
theorem cons_takeWhile_append (p : Char → Bool) (c : Char) (rest : List Char) :
    c :: rest = (c :: rest.takeWhile p) ++ rest.dropWhile p :=
  congrArg (c :: ·) List.takeWhile_append_dropWhile.symm

theorem punctuation_utf8Size {c : Char} {tok : Token} (h : punctuation c = some tok) :
    c.utf8Size = 1 := by
  unfold punctuation at h
  split at h <;> first | rfl | cases h

theorem comparison_utf8Len {c : Char} {rest : List Char} {tok : Token} {more : Nat}
    (h : comparison c rest.head? = some (some (tok, more))) :
    utf8Len (c :: rest) = 1 + more + utf8Len (rest.drop more) := by
  cases rest with
  | nil =>
    rw [List.head?_nil] at h
    unfold comparison at h
    split at h <;> first | cases ‹none = some _› | (cases h; rfl) | cases h
  | cons d rest =>
    rw [List.head?_cons] at h
    unfold comparison at h
    rw [utf8Len_cons, utf8Len_cons]
    split at h <;> first
      | cases h
        cases ‹some d = some _›
        rw [List.drop_succ_cons, List.drop_zero, ← Nat.add_assoc]
        rfl
      | cases h
        rw [List.drop_zero, utf8Len_cons]
        rfl
      | cases h

theorem utf8Len_of_isDigit {ds : List Char} (h : ∀ c ∈ ds, c.isDigit = true) :
    utf8Len ds = ds.length := by
  induction ds with
  | nil => rfl
  | cons c ds ih =>
    have hc := h c List.mem_cons_self
    simp only [Char.isDigit, Bool.and_eq_true, decide_eq_true_eq] at hc
    have hsize : c.utf8Size = 1 :=
      Char.utf8Size_eq_one_iff.mpr (UInt32.le_trans hc.2 (by decide))
    rw [utf8Len_cons, hsize, ih fun c' hc' => h c' (List.mem_cons_of_mem c hc'), List.length_cons,
      Nat.add_comm]

/-- The lexer takes the token, and goes on behind it. -/
theorem lexFrom_scan (hu : u.Lawful) {cs after : List Char} {t : Token} (h : Scan u cs t after)
    (pos : Nat) : lexFrom u cs pos =
      (lexFrom u after (pos + (utf8Len cs - utf8Len after))).map ((t, pos) :: ·) := by
  cases h with
  | @punctuation c _ _ h =>
    have hlen : utf8Len (c :: after) - utf8Len after = 1 := by
      rw [utf8Len_cons, punctuation_utf8Size h, Nat.add_sub_cancel]
    rw [lexFrom, hlen]
    simp only [punctuation_not_whitespace hu h, h, Bool.false_eq_true, if_false]
  | @comparison c _ more rest h =>
    have hlen : pos + (utf8Len (c :: rest) - utf8Len (rest.drop more)) = pos + 1 + more := by
      rw [comparison_utf8Len h, Nat.add_sub_cancel, Nat.add_assoc]
    rw [lexFrom, hlen]
    simp only [comparison_other hu h, h, Bool.false_eq_true, if_false]
  | string h => exact lexFrom_string hu h
  | @integer c rest hc h =>
    obtain ⟨hpunct, hcmp, hquote⟩ := digit_other hc
    have hdigits : ∀ d ∈ c :: rest.takeWhile Char.isDigit, d.isDigit = true :=
      List.forall_mem_cons.mpr ⟨hc, List.all_eq_true.mp List.all_takeWhile⟩
    have hlen : utf8Len (c :: rest) - utf8Len (rest.dropWhile Char.isDigit) =
        (c :: rest.takeWhile Char.isDigit).length := by
      rw [utf8Len_sub (cons_takeWhile_append _ c rest), utf8Len_of_isDigit hdigits]
    rw [lexFrom, hlen]
    simp only [digit_not_whitespace hu hc, hpunct, hcmp, hquote, hc, h, Bool.false_eq_true,
      if_false, if_true]
  | @word c rest hc =>
    obtain ⟨hpunct, hcmp, hquote, hdigit⟩ := wordStart_other hu hc
    have hstart : (u.isAlphabetic c || c == '_') = true := by
      rcases hc with h | rfl
      · rw [h, Bool.true_or]
      · exact Bool.or_true _
    rw [lexFrom, utf8Len_sub (cons_takeWhile_append _ c rest)]
    simp only [wordStart_not_whitespace hu hc, hpunct, hcmp, hquote, hdigit, hstart,
      Bool.false_eq_true, if_false, if_true]

/-! ## Texts -/

/-- The characters are read as the tokens. -/
inductive Lexes (u : Unicode) : List Char → List Token → Prop where
  | nil : Lexes u [] []
  | space {c : Char} {rest : List Char} {w : List Token} (hc : u.isWhitespace c = true)
      (h : Lexes u rest w) : Lexes u (c :: rest) w
  | token {cs after : List Char} {t : Token} {w : List Token} (hs : Scan u cs t after)
      (h : Lexes u after w) : Lexes u cs (t :: w)

/-- One more token in front of those behind it. -/
theorem Lexes.of_map {x : Except LexError (List (Token × Nat))} {cs after : List Char} {t : Token}
    {pos : Nat} (hs : Scan u cs t after)
    (hx : ∀ ts, x = .ok ts → Lexes u after (ts.map Prod.fst)) :
    ∀ ts, x.map ((t, pos) :: ·) = .ok ts → Lexes u cs (ts.map Prod.fst) := by
  intro ts h
  cases x with
  | error e => cases h
  | ok ts' =>
    cases h
    exact .token hs (hx ts' rfl)

theorem lexes_of_ok (cs : List Char) (pos : Nat) :
    ∀ ts, lexFrom u cs pos = .ok ts → Lexes u cs (ts.map Prod.fst) := by
  induction cs, pos using lexFrom.induct u with
  | case1 pos =>
    intro ts h
    rw [lexFrom] at h
    cases h
    exact .nil
  | case2 pos c rest hc ih =>
    intro ts h
    rw [lexFrom] at h
    simp only [hc, if_true] at h
    exact .space hc (ih ts h)
  | case3 pos c rest hc tok hp ih =>
    rw [lexFrom]
    simp only [hc, hp, Bool.false_eq_true, if_false]
    exact Lexes.of_map (.punctuation hp) ih
  | case4 pos c rest hc hp hcmp =>
    intro ts h
    rw [lexFrom] at h
    simp only [hc, hp, hcmp, Bool.false_eq_true, if_false] at h
    cases h
  | case5 pos c rest hc hp tok more hcmp ih =>
    rw [lexFrom]
    simp only [hc, hp, hcmp, Bool.false_eq_true, if_false]
    exact Lexes.of_map (.comparison hcmp) ih
  | case6 pos c rest hc hp hcmp hq hs =>
    intro ts h
    rw [lexFrom] at h
    simp only [hc, hp, hcmp, hq, Bool.false_eq_true, if_false, if_true] at h
    split at h
    · cases h
    · rename_i hsome
      rw [hs] at hsome
      cases hsome
  | case7 pos c rest hc hp hcmp hq s after hs ih =>
    rw [lexFrom]
    simp only [hc, hp, hcmp, hq, Bool.false_eq_true, if_false, if_true]
    cases beq_iff_eq.mp hq
    split
    · rename_i hnone
      rw [hs] at hnone
      cases hnone
    · rename_i hsome
      rw [hs] at hsome
      cases hsome
      exact Lexes.of_map (.string hs) ih
  | case8 pos c rest hc hp hcmp hq hd digits hn ih =>
    rw [lexFrom]
    simp only [hc, hp, hcmp, hq, hd, Bool.false_eq_true, if_false, if_true]
    rw [if_pos hn]
    exact Lexes.of_map (.integer hd hn) ih
  | case9 pos c rest hc hp hcmp hq hd digits hn =>
    intro ts h
    rw [lexFrom] at h
    simp only [hc, hp, hcmp, hq, hd, Bool.false_eq_true, if_false, if_true] at h
    rw [if_neg hn] at h
    cases h
  | case10 pos c rest hc hp hcmp hq hd hw word ih =>
    rw [lexFrom]
    simp only [hc, hp, hcmp, hq, hd, hw, Bool.false_eq_true, if_false, if_true]
    refine Lexes.of_map (.word ?_) ih
    simpa using hw
  | case11 pos c rest hc hp hcmp hq hd hw =>
    intro ts h
    rw [lexFrom] at h
    simp only [hc, hp, hcmp, hq, hd, hw, Bool.false_eq_true, if_false] at h
    cases h

/-- **The lexer reads exactly these texts as these tokens.** -/
theorem lexFrom_ok_iff (hu : u.Lawful) {cs : List Char} {w : List Token} (pos : Nat) :
    (∃ ts, lexFrom u cs pos = .ok ts ∧ ts.map Prod.fst = w) ↔ Lexes u cs w := by
  constructor
  · rintro ⟨ts, h, rfl⟩
    exact lexes_of_ok cs pos ts h
  · intro h
    induction h generalizing pos with
    | nil => exact ⟨[], by rw [lexFrom], rfl⟩
    | space hc h ih =>
      obtain ⟨ts, hts, hw⟩ := ih (pos + _)
      refine ⟨ts, ?_, hw⟩
      rw [lexFrom]
      simp only [hc, if_true]
      exact hts
    | token hs h ih =>
      obtain ⟨ts, hts, hw⟩ := ih (pos + _)
      refine ⟨(_, pos) :: ts, ?_, congrArg _ hw⟩
      rw [lexFrom_scan hu hs pos, hts]
      rfl

/-! ## Texts that stand for themselves -/

/-- One token, and what follows it. -/
theorem spells_one (hu : u.Lawful) {cs : List Char} {t : Token}
    (h : ∀ rest, Apart rest → Scan u (cs ++ rest) t rest) : Spells u cs [t] := by
  intro rest pos hrest
  exact ⟨[(t, pos)], _, rfl, lexFrom_scan hu (h rest hrest) pos⟩

/-- **A word is read as one token.** -/
theorem spells_word (hu : u.Lawful) {w : String} (hw : IsWord u w) :
    Spells u w.toList [.word w] := by
  obtain ⟨c, cs, hlist, hc, hcs⟩ := hw
  refine spells_one hu fun rest hrest => ?_
  have hwords := takeWhile_append hcs (apart_not_wordChar hu hrest)
  have hscan := @Scan.word u c (cs ++ rest) hc
  rw [hwords.1, hwords.2, ← hlist, String.ofList_toList] at hscan
  rw [hlist]
  exact hscan

theorem digitsValue_toDigits (n : Nat) : digitsValue (Nat.toDigits 10 n) = n := by
  rw [digitsValue, ← Nat.ofDigitChars_eq_foldl]
  exact Nat.ofDigitChars_toDigits (by decide) (by decide)

theorem apart_not_digit {rest : List Char} (h : Apart rest) :
    ∀ c ∈ rest.head?, c.isDigit = false := by
  intro c hc
  rcases h c hc with rfl | rfl | rfl <;> rfl

/-- **A number that fits is read as it is written.** -/
theorem spells_integer (hu : u.Lawful) {n : Nat} (hn : n < 2 ^ 63) :
    Spells u (Nat.repr n).toList [.integer (Int64.ofNat n)] := by
  refine spells_one hu fun rest hrest => ?_
  rw [Nat.toList_repr]
  have hdigits : ∀ c ∈ Nat.toDigits 10 n, c.isDigit = true :=
    fun c hc => Nat.isDigit_of_mem_toDigits (by decide) (by decide) hc
  obtain ⟨c, cs, hlist⟩ := List.exists_cons_of_ne_nil (Nat.toDigits_ne_nil (n := n) (b := 10))
  have hvalue : digitsValue (c :: cs) = n := hlist ▸ digitsValue_toDigits n
  rw [hlist] at hdigits ⊢
  have hwords := takeWhile_append (fun c' hc' => hdigits c' (List.mem_cons_of_mem c hc'))
    (apart_not_digit hrest)
  have hscan := @Scan.integer u c (cs ++ rest) (hdigits c List.mem_cons_self)
  rw [hwords.1, hwords.2, hvalue] at hscan
  exact hscan hn

theorem lexString_escapeQuotes {rest : List Char} (h : ∀ c ∈ rest.head?, c ≠ '\'') :
    ∀ cs : List Char, lexString (escapeQuotes cs ++ '\'' :: rest) = some (cs, rest)
  | [] => by
    cases rest with
    | nil => rfl
    | cons c rest =>
      rw [escapeQuotes, List.flatMap_nil, List.nil_append, lexString]
      rintro rest' heq
      exact h c rfl (List.cons.inj heq).1
  | c :: cs => by
    have ih := lexString_escapeQuotes h cs
    rw [escapeQuotes, List.flatMap_cons]
    by_cases hc : c = '\''
    · subst hc
      rw [if_pos rfl, List.append_assoc, List.cons_append, List.cons_append, List.nil_append,
        lexString]
      rw [escapeQuotes] at ih
      rw [ih]
      rfl
    · rw [if_neg hc, List.append_assoc, List.cons_append, List.nil_append]
      rw [escapeQuotes] at ih
      rw [lexString, ih]
      · rfl
      · rintro rest' heq -
        exact hc heq
      · exact hc

/-- What is read between quotes is spelled so. -/
theorem lexString_eq_some {cs s rest : List Char} (h : lexString cs = some (s, rest)) :
    cs = escapeQuotes s ++ '\'' :: rest ∧ ∀ c ∈ rest.head?, c ≠ '\'' := by
  induction cs using lexString.induct generalizing s with
  | case1 => cases h
  | case2 cs ih =>
    simp only [lexString, Option.map_eq_some_iff] at h
    obtain ⟨r, hr, heq⟩ := h
    cases heq
    obtain ⟨rfl, hrest⟩ := ih hr
    exact ⟨rfl, hrest⟩
  | case3 cs hq =>
    rw [lexString] at h
    · cases h
      refine ⟨rfl, fun c hc heq => ?_⟩
      cases rest with
      | nil => cases hc
      | cons d rest =>
        cases hc
        exact hq rest (by rw [heq])
    · exact hq
  | case4 ch cs h₁ h₂ ih =>
    rw [lexString] at h
    · simp only [Option.map_eq_some_iff] at h
      obtain ⟨r, hr, heq⟩ := h
      cases heq
      obtain ⟨rfl, hrest⟩ := ih hr
      refine ⟨?_, hrest⟩
      have hesc : escapeQuotes (ch :: r.1) = ch :: escapeQuotes r.1 := by
        rw [escapeQuotes, List.flatMap_cons, if_neg h₂]
        rfl
      rw [hesc, List.cons_append]
    · exact h₁
    · exact h₂

theorem apart_not_quote {rest : List Char} (h : Apart rest) : ∀ c ∈ rest.head?, c ≠ '\'' := by
  intro c hc
  rcases h c hc with rfl | rfl | rfl <;> decide

/-- **A text is read back from between its quotes.** -/
theorem spells_text (hu : u.Lawful) (s : String) :
    Spells u ('\'' :: (escapeQuotes s.toList ++ ['\''])) [.str s] := by
  refine spells_one hu fun rest hrest => ?_
  have hscan := Scan.string (u := u) (lexString_escapeQuotes (apart_not_quote hrest) s.toList)
  rw [String.ofList_toList] at hscan
  rw [List.cons_append, List.append_assoc, List.singleton_append]
  exact hscan

/-- A bracket or another single character in front. -/
theorem Spells.cons (hu : u.Lawful) {c : Char} {tok : Token} {cs : List Char} {w : List Token}
    (hc : punctuation c = some tok) (h : Spells u cs w) : Spells u (c :: cs) (tok :: w) := by
  intro rest pos hrest
  obtain ⟨ts, pos', rfl, hts⟩ := h rest (pos + _) hrest
  refine ⟨(tok, pos) :: ts, pos', rfl, ?_⟩
  rw [List.cons_append, lexFrom_scan hu (@Scan.punctuation u c tok (cs ++ rest) hc) pos, hts,
    map_map_except]
  rfl

theorem Spells.space (hu : u.Lawful) {cs : List Char} {w : List Token} (h : Spells u cs w) :
    Spells u (' ' :: cs) w := by
  intro rest pos hrest
  obtain ⟨ts, pos', hw, hts⟩ := h rest (pos + Char.utf8Size ' ') hrest
  refine ⟨ts, pos', hw, ?_⟩
  rw [List.cons_append, lexFrom]
  simp only [hu.space, if_true]
  exact hts

theorem spells_nil : Spells u [] [] := by
  intro rest pos _
  refine ⟨[], pos, rfl, ?_⟩
  rw [List.nil_append]
  cases lexFrom u rest pos <;> rfl

/-- A comparison operator in front of a space. -/
theorem spells_comparison (hu : u.Lawful) {c : Char} {tok : Token} (cs : List Char)
    (h : ∀ rest, Apart rest → comparison c (cs ++ rest).head? = some (some (tok, cs.length))) :
    Spells u (c :: cs) [tok] := by
  refine spells_one hu fun rest hrest => ?_
  have hscan := Scan.comparison (u := u) (h rest hrest)
  rw [List.drop_left] at hscan
  exact hscan

/-- The token that an operator is written as. -/
def BinaryOp.token : BinaryOp → Token
  | add => .plus
  | sub => .minus
  | mul => .star
  | div => .slash
  | eq => .eq
  | ne => .ne
  | lt => .lt
  | le => .le
  | gt => .gt
  | ge => .ge
  | and => .word "AND"
  | or => .word "OR"

/-- The text has ASCII letters only. -/
def asciiAlpha (w : String) : Bool := w.toList.all fun c => c.toNat ≤ 126 && c.isAlpha

theorem isWord_of_alpha (hu : u.Lawful) {w : String} (hne : w.toList ≠ [])
    (h : asciiAlpha w = true) : IsWord u w := by
  obtain ⟨c, cs, hlist⟩ := List.exists_cons_of_ne_nil hne
  have halpha : ∀ c ∈ w.toList, u.isAlphabetic c = true := by
    intro c hc
    have hboth := List.all_eq_true.mp h c hc
    obtain ⟨hascii, hletter⟩ := Bool.and_eq_true_iff.mp hboth
    rw [hu.alphabetic c (of_decide_eq_true hascii), hletter]
  rw [hlist] at halpha
  refine ⟨c, cs, hlist, .inl (halpha c List.mem_cons_self), fun c' hc' => ?_⟩
  rw [isWordChar, halpha c' (List.mem_cons_of_mem c hc')]
  rfl

theorem apart_comparison {c : Char} {rest : List Char} {tok : Token} (h : Apart rest)
    (hnone : comparison c none = some (some (tok, 0)))
    (hspace : comparison c (some ' ') = some (some (tok, 0)))
    (hparen : comparison c (some ')') = some (some (tok, 0)))
    (hcomma : comparison c (some ',') = some (some (tok, 0))) :
    comparison c rest.head? = some (some (tok, 0)) := by
  cases rest with
  | nil => exact hnone
  | cons d rest => rcases h d rfl with rfl | rfl | rfl <;> assumption

theorem spells_operator (hu : u.Lawful) (op : BinaryOp) :
    Spells u op.display.toList [op.token] := by
  have hword : ∀ w : String, w.toList ≠ [] →
      asciiAlpha w = true → Spells u w.toList [.word w] :=
    fun w hne h => spells_word hu (isWord_of_alpha hu hne h)
  cases op with
  | add => exact spells_nil.cons hu rfl
  | sub => exact spells_nil.cons hu rfl
  | mul => exact spells_nil.cons hu rfl
  | div => exact spells_nil.cons hu rfl
  | eq => exact spells_nil.cons hu rfl
  | ne => exact spells_comparison hu ['>'] fun _ _ => rfl
  | lt =>
    exact spells_comparison hu [] fun _ h => apart_comparison h rfl rfl rfl rfl
  | le => exact spells_comparison hu ['='] fun _ _ => rfl
  | gt =>
    exact spells_comparison hu [] fun _ h => apart_comparison h rfl rfl rfl rfl
  | ge => exact spells_comparison hu ['='] fun _ _ => rfl
  | and => exact hword "AND" (by decide) (by decide)
  | or => exact hword "OR" (by decide) (by decide)

/-! ## What tokens there are -/

/-- The token is one that the lexer makes. -/
def Token.Lexed (u : Unicode) : Token → Prop
  | .word w => IsWord u w
  | .integer n => 0 ≤ n
  | _ => True

theorem Scan.lexed {cs after : List Char} {t : Token} (h : Scan u cs t after) : t.Lexed u := by
  cases h with
  | punctuation h =>
    unfold Choam.punctuation at h
    split at h <;> cases h <;> trivial
  | comparison h =>
    unfold Choam.comparison at h
    split at h <;> cases h <;> trivial
  | string h => trivial
  | integer hc h =>
    rw [Token.Lexed, Int64.le_iff_toInt_le, Int64.toInt_ofNat_of_lt h]
    exact Int.natCast_nonneg _
  | @word c rest hc =>
    refine ⟨c, rest.takeWhile (isWordChar u), String.toList_ofList, hc, ?_⟩
    exact List.all_eq_true.mp List.all_takeWhile

/-- **Every token of a text is one that can stand in it.** -/
theorem Lexes.lexed {cs : List Char} {w : List Token} (h : Lexes u cs w) :
    ∀ t ∈ w, t.Lexed u := by
  induction h with
  | nil => exact fun _ ht => nomatch ht
  | space _ _ ih => exact ih
  | token hs _ ih =>
    intro t ht
    rcases List.mem_cons.mp ht with rfl | ht
    · exact hs.lexed
    · exact ih t ht

end Choam

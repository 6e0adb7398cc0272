import Choam.Verify.Boundaries

/-!
# The lexer loses nothing

What a token may be written as is `Spelling`, and how far it goes is `Longest`; the lexer takes a
token exactly where these say so (`scan_spelling`, `scan_of_spelling`). `Tokenizes` says that a text
is space and tokens, each recorded with the byte it starts at, up to some byte, and `Refused` that
there no token can be taken.
Every text is of the one kind up to its end or of the other from some byte on, and the lexer says
which (`lex_ok_iff`, `lex_error_iff`).
-/

namespace Choam

open Lexer

variable {u : Unicode}

/-- The texts of the tokens that stand for themselves. -/
def Token.symbols : Token → List String
  | word _ | integer _ | str _ => []
  | lParen => ["("]
  | rParen => [")"]
  | comma => [","]
  | semicolon => [";"]
  | star => ["*"]
  | plus => ["+"]
  | minus => ["-"]
  | slash => ["/"]
  | eq => ["="]
  | ne => ["<>", "!="]
  | lt => ["<"]
  | le => ["<="]
  | gt => [">"]
  | ge => [">="]

/-- What a token may be written as. -/
inductive Spelling (u : Unicode) : List Char → Token → Prop where
  | word {w : String} (hw : IsWord u w) : Spelling u w.toList (.word w)
  | integer {ds : List Char} {n : Int64} (hne : ds ≠ []) (hds : ∀ c ∈ ds, c.isDigit = true)
      (hn : n.toInt = digitsValue ds) : Spelling u ds (.integer n)
  | str (s : String) : Spelling u ('\'' :: (escapeQuotes s.toList ++ ['\''])) (.str s)
  | symbol {t : Token} {w : String} (hw : w ∈ t.symbols) : Spelling u w.toList t

/-- The characters that would go on with a token. -/
def Token.goesOn (u : Unicode) : Token → Char → Bool
  | word _, c => isWordChar u c
  | integer _, c => c.isDigit
  | str _, c => c == '\''
  | lt, c => c == '=' || c == '>'
  | gt, c => c == '='
  | _, _ => false

/-- The token is as long as it can be in front of `rest`. -/
def Longest (u : Unicode) (t : Token) (rest : List Char) : Prop :=
  ∀ c ∈ rest.head?, t.goesOn u c = false

theorem spelling_punctuation {c : Char} {t : Token} (h : punctuation c = some t) :
    Spelling u [c] t ∧ ∀ c', t.goesOn u c' = false := by
  have hone : ∀ {w : String}, w ∈ t.symbols → w.toList = [c] → Spelling u [c] t :=
    fun hw heq => heq ▸ .symbol hw
  unfold punctuation at h
  split at h <;> cases h <;> exact ⟨hone List.mem_cons_self (by decide), fun _ => rfl⟩

theorem scan_spelling {cs after : List Char} {t : Token} (h : Scan u cs t after) :
    ∃ piece, cs = piece ++ after ∧ Spelling u piece t ∧ Longest u t after := by
  cases h with
  | @punctuation c _ _ h =>
    obtain ⟨hspell, hgo⟩ := spelling_punctuation (u := u) h
    exact ⟨[c], rfl, hspell, fun c' _ => hgo c'⟩
  | @comparison c _ more rest h =>
    have hspell : ∀ {w : String} {l : List Char}, w ∈ t.symbols → w.toList = l → Spelling u l t :=
      fun hw heq => heq ▸ .symbol hw
    cases rest with
    | nil =>
      rw [List.head?_nil] at h
      unfold Choam.comparison at h
      split at h <;> first | cases ‹none = some _› | cases h
      · exact ⟨['<'], rfl, hspell List.mem_cons_self (by decide), nofun⟩
      · exact ⟨['>'], rfl, hspell List.mem_cons_self (by decide), nofun⟩
    | cons d rest =>
      rw [List.head?_cons] at h
      unfold Choam.comparison at h
      split at h <;> cases h <;> try cases ‹some d = some _›
      · exact ⟨['<', '='], rfl, hspell List.mem_cons_self (by decide), fun _ _ => rfl⟩
      · exact ⟨['<', '>'], rfl, hspell List.mem_cons_self (by decide), fun _ _ => rfl⟩
      · next h₁ h₂ =>
        refine ⟨['<'], rfl, hspell List.mem_cons_self (by decide), ?_⟩
        rintro c' ⟨⟩
        exact Bool.or_eq_false_iff.mpr ⟨beq_eq_false_iff_ne.mpr fun heq => h₁ (congrArg some heq),
          beq_eq_false_iff_ne.mpr fun heq => h₂ (congrArg some heq)⟩
      · exact ⟨['>', '='], rfl, hspell List.mem_cons_self (by decide), fun _ _ => rfl⟩
      · next h₁ =>
        refine ⟨['>'], rfl, hspell List.mem_cons_self (by decide), ?_⟩
        rintro c' ⟨⟩
        exact beq_eq_false_iff_ne.mpr fun heq => h₁ (congrArg some heq)
      · exact ⟨['!', '='], rfl, hspell (List.mem_cons_of_mem _ List.mem_cons_self) (by decide),
          fun _ _ => rfl⟩
  | @string s rest _ h =>
    obtain ⟨rfl, hquote⟩ := lexString_eq_some h
    refine ⟨'\'' :: (escapeQuotes s ++ ['\'']), by simp, ?_, fun c hc => ?_⟩
    · have hspell := Spelling.str (u := u) (String.ofList s)
      rwa [String.toList_ofList] at hspell
    · exact beq_eq_false_iff_ne.mpr (hquote c hc)
  | @integer c rest hc h =>
    refine ⟨c :: rest.takeWhile Char.isDigit, cons_takeWhile_append _ c rest,
      .integer (List.cons_ne_nil _ _) ?_ ?_, head?_dropWhile⟩
    · exact List.forall_mem_cons.mpr ⟨hc, List.all_eq_true.mp List.all_takeWhile⟩
    · exact Int64.toInt_ofNat_of_lt h
  | @word c rest hc =>
    have hword : IsWord u (String.ofList (c :: rest.takeWhile (isWordChar u))) :=
      ⟨c, _, String.toList_ofList, hc, List.all_eq_true.mp List.all_takeWhile⟩
    have hspell := Spelling.word hword
    rw [String.toList_ofList] at hspell
    exact ⟨_, cons_takeWhile_append _ c rest, hspell, head?_dropWhile⟩

/-- A symbol in front of what does not go on with it. -/
theorem scan_symbol {t : Token} {w : String} {rest : List Char} (hw : w ∈ t.symbols)
    (hlong : Longest u t rest) : Scan u (w.toList ++ rest) t rest := by
  have hone : ∀ {c : Char} {t : Token}, punctuation c = some t → [c] = w.toList →
      Scan u (w.toList ++ rest) t rest := fun h heq => heq ▸ .punctuation h
  have htwo : ∀ {c d : Char} {t : Token}, comparison c (some d) = some (some (t, 1)) →
      [c, d] = w.toList → Scan u (w.toList ++ rest) t rest :=
    fun {c d t} h heq => heq ▸ @Scan.comparison u c t 1 (d :: rest) h
  -- `<` and `>` look at the next character.
  have hshort : ∀ {c : Char} {t : Token}, comparison c rest.head? = some (some (t, 0)) →
      [c] = w.toList → Scan u (w.toList ++ rest) t rest :=
    fun {c t} h heq => heq ▸ @Scan.comparison u c t 0 rest h
  cases t with
  | word | integer | str => cases hw
  | lt =>
    cases List.mem_singleton.mp hw
    refine hshort (c := '<') ?_ (by decide)
    cases rest with
    | nil => rfl
    | cons d rest =>
      obtain ⟨heq, hgt⟩ := Bool.or_eq_false_iff.mp (hlong d rfl)
      exact comparison_plain '<' (beq_eq_false_iff_ne.mp heq) (beq_eq_false_iff_ne.mp hgt)
  | gt =>
    cases List.mem_singleton.mp hw
    refine hshort (c := '>') ?_ (by decide)
    cases rest with
    | nil => rfl
    | cons d rest =>
      have heq : d ≠ '=' := beq_eq_false_iff_ne.mp (hlong d rfl)
      rw [List.head?_cons]
      simp [comparison, heq]
  | le =>
    cases List.mem_singleton.mp hw
    exact htwo (c := '<') (d := '=') rfl (by decide)
  | ge =>
    cases List.mem_singleton.mp hw
    exact htwo (c := '>') (d := '=') rfl (by decide)
  | ne =>
    rcases List.mem_cons.mp hw with rfl | hw
    · exact htwo (c := '<') (d := '>') rfl (by decide)
    · cases List.mem_singleton.mp hw
      exact htwo (c := '!') (d := '=') rfl (by decide)
  | lParen =>
    cases List.mem_singleton.mp hw
    exact hone (c := '(') rfl (by decide)
  | rParen =>
    cases List.mem_singleton.mp hw
    exact hone (c := ')') rfl (by decide)
  | comma =>
    cases List.mem_singleton.mp hw
    exact hone (c := ',') rfl (by decide)
  | semicolon =>
    cases List.mem_singleton.mp hw
    exact hone (c := ';') rfl (by decide)
  | star =>
    cases List.mem_singleton.mp hw
    exact hone (c := '*') rfl (by decide)
  | plus =>
    cases List.mem_singleton.mp hw
    exact hone (c := '+') rfl (by decide)
  | minus =>
    cases List.mem_singleton.mp hw
    exact hone (c := '-') rfl (by decide)
  | slash =>
    cases List.mem_singleton.mp hw
    exact hone (c := '/') rfl (by decide)
  | eq =>
    cases List.mem_singleton.mp hw
    exact hone (c := '=') rfl (by decide)

theorem scan_of_spelling {piece rest : List Char} {t : Token} (h : Spelling u piece t)
    (hlong : Longest u t rest) : Scan u (piece ++ rest) t rest := by
  cases h with
  | word hw =>
    obtain ⟨c, cs, hlist, hc, hcs⟩ := hw
    obtain ⟨htake, hdrop⟩ := takeWhile_append hcs hlong
    have hscan := @Scan.word u c (cs ++ rest) hc
    rw [htake, hdrop, ← hlist, String.ofList_toList] at hscan
    rw [hlist]
    exact hscan
  | @integer ds n hne hds hn =>
    obtain ⟨c, cs, rfl⟩ := List.exists_cons_of_ne_nil hne
    obtain ⟨htake, hdrop⟩ := takeWhile_append
      (fun d hd => hds d (List.mem_cons_of_mem c hd)) hlong
    have hlt : digitsValue (c :: cs) < 2 ^ 63 := by
      have := n.toInt_lt
      omega
    have hvalue : Int64.ofNat (digitsValue (c :: cs)) = n :=
      Int64.toInt_inj.mp ((Int64.toInt_ofNat_of_lt hlt).trans hn.symm)
    have hscan := @Scan.integer u c (cs ++ rest) (hds c List.mem_cons_self)
    rw [htake, hdrop, hvalue] at hscan
    exact hscan hlt
  | str s =>
    have hscan := Scan.string (u := u) (lexString_escapeQuotes
      (fun c hc => beq_eq_false_iff_ne.mp (hlong c hc)) s.toList)
    rw [String.ofList_toList] at hscan
    rw [List.cons_append, List.append_assoc, List.singleton_append]
    exact hscan
  | symbol hw => exact scan_symbol hw hlong

/-! ## Texts and where they stop -/

/-- The characters `cs`, the first of which is at byte `pos`, are space and the tokens `ts`, each at
the byte it is recorded with and as long as it can be, up to the characters `rest` at byte `pos'`. -/
inductive Tokenizes (u : Unicode) : Nat → List Char → List (Token × Nat) → Nat → List Char → Prop where
  | stop (pos : Nat) (cs : List Char) : Tokenizes u pos cs [] pos cs
  | space {pos pos' : Nat} {c : Char} {cs rest : List Char} {ts : List (Token × Nat)}
      (hc : u.isWhitespace c = true) (h : Tokenizes u (pos + c.utf8Size) cs ts pos' rest) :
      Tokenizes u pos (c :: cs) ts pos' rest
  | token {pos pos' : Nat} {piece cs rest : List Char} {t : Token} {ts : List (Token × Nat)}
      (hspell : Spelling u piece t) (hlong : Longest u t cs)
      (h : Tokenizes u (pos + utf8Len piece) cs ts pos' rest) :
      Tokenizes u pos (piece ++ cs) ((t, pos) :: ts) pos' rest

/-- Neither space nor a token starts here, and what the lexer says of it. -/
inductive Refused (u : Unicode) (pos : Nat) : List Char → LexError → Prop where
  | unexpectedChar {c : Char} {rest : List Char} (hspace : u.isWhitespace c = false)
      (hquote : c ≠ '\'') (hdigit : c.isDigit = false)
      (hnone : ∀ piece rest' t, c :: rest = piece ++ rest' → ¬ Spelling u piece t) :
      Refused u pos (c :: rest) (.unexpectedChar c pos)
  | unterminatedString {rest : List Char} (hnone : ∀ piece rest' t, '\'' :: rest = piece ++ rest' →
      Spelling u piece t → ¬ Longest u t rest') :
      Refused u pos ('\'' :: rest) (.unterminatedString pos)
  | integerOutOfRange {ds rest : List Char} (hne : ds ≠ []) (hds : ∀ c ∈ ds, c.isDigit = true)
      (hlong : ∀ c ∈ rest.head?, c.isDigit = false) (hn : 2 ^ 63 ≤ digitsValue ds) :
      Refused u pos (ds ++ rest) (.integerOutOfRange pos)

theorem not_scan_of_refused {c : Char} {rest : List Char}
    (hnone : ∀ piece rest' t, c :: rest = piece ++ rest' → Spelling u piece t → ¬ Longest u t rest')
    (t : Token) (after : List Char) : ¬ Scan u (c :: rest) t after := by
  intro h
  obtain ⟨piece, heq, hspell, hlong⟩ := scan_spelling h
  exact hnone piece after t heq hspell hlong

/-- The lexer reads up to there. -/
theorem Tokenizes.lexFrom (hu : u.Lawful) {pos pos' : Nat} {cs rest : List Char}
    {ts : List (Token × Nat)} (h : Tokenizes u pos cs ts pos' rest) :
    lexFrom u cs pos = (lexFrom u rest pos').map (ts ++ ·) := by
  induction h with
  | stop pos cs => cases Lexer.lexFrom u cs pos <;> rfl
  | space hc h ih =>
    rw [Lexer.lexFrom]
    simp only [hc, if_true]
    exact ih
  | @token pos _ piece cs rest t ts hspell hlong h ih =>
    rw [lexFrom_scan hu (scan_of_spelling hspell hlong), utf8Len_sub rfl, ih, map_map_except]
    rfl

/-- And there it stops. -/
theorem Refused.lexFrom (hu : u.Lawful) {pos : Nat} {cs : List Char} {e : LexError}
    (h : Refused u pos cs e) : lexFrom u cs pos = .error e := by
  cases h with
  | @unexpectedChar c rest hspace hquote hdigit hnone =>
    have hnone := not_scan_of_refused fun piece rest' t heq hspell _ =>
      hnone piece rest' t heq hspell
    have hpunct : punctuation c = none :=
      Option.eq_none_iff_forall_ne_some.mpr fun t ht => hnone t rest (.punctuation ht)
    have hcmp : ∀ t more, comparison c rest.head? ≠ some (some (t, more)) :=
      fun t more ht => hnone t _ (.comparison ht)
    have hstart : (u.isAlphabetic c || c == '_') = false := by
      rw [Bool.or_eq_false_iff]
      refine ⟨Bool.eq_false_iff.mpr fun hc => hnone _ _ (.word (.inl hc)),
        beq_eq_false_iff_ne.mpr fun hc => hnone _ _ (.word (.inr hc))⟩
    rw [Lexer.lexFrom]
    simp only [hspace, hpunct, beq_eq_false_iff_ne.mpr hquote, hdigit, hstart, Bool.false_eq_true,
      if_false]
    rcases hcase : comparison c rest.head? with _ | _ | ⟨t, more⟩
    · rfl
    · rfl
    · exact absurd hcase (hcmp t more)
  | @unterminatedString rest hnone =>
    have hnone := not_scan_of_refused hnone
    have hstr : lexString rest = none :=
      Option.eq_none_iff_forall_ne_some.mpr fun r hr => hnone _ r.2 (.string hr)
    have hspace : u.isWhitespace '\'' = false := hu.graphic _ (by decide) (by decide)
    have hpunct : punctuation '\'' = none := rfl
    have hcmp : comparison '\'' rest.head? = none := rfl
    rw [Lexer.lexFrom]
    simp only [hspace, hpunct, hcmp, Bool.false_eq_true, if_false, beq_self_eq_true, if_true]
    split
    · rfl
    · rename_i hsome
      rw [hstr] at hsome
      cases hsome
  | @integerOutOfRange ds rest hne hds hlong hn =>
    obtain ⟨c, cs, rfl⟩ := List.exists_cons_of_ne_nil hne
    have hc := hds c List.mem_cons_self
    obtain ⟨hpunct, hcmp, hquote⟩ := digit_other hc
    obtain ⟨htake, -⟩ := takeWhile_append
      (fun d hd => hds d (List.mem_cons_of_mem c hd)) hlong
    rw [List.cons_append, Lexer.lexFrom]
    simp only [digit_not_whitespace hu hc, hpunct, hcmp, hquote, hc, htake, Bool.false_eq_true,
      if_false, if_true]
    rw [if_neg (by omega)]

/-- What a token starts with. -/
theorem Spelling.start {piece rest rest' : List Char} {c : Char} {t : Token}
    (h : Spelling u piece t) (heq : c :: rest = piece ++ rest') :
    (u.isAlphabetic c = true ∨ c = '_') ∨ c = '\'' ∨ c.isDigit = true ∨
      (punctuation c).isSome = true ∨ ∃ x, comparison c rest.head? = some (some x) := by
  cases h with
  | word hw =>
    obtain ⟨c', cs, hlist, hc, -⟩ := hw
    rw [hlist] at heq
    cases heq
    exact .inl hc
  | integer hne hds =>
    obtain ⟨c', cs, rfl⟩ := List.exists_cons_of_ne_nil hne
    cases heq
    exact .inr (.inr (.inl (hds c List.mem_cons_self)))
  | str s =>
    cases heq
    exact .inr (.inl rfl)
  | symbol hw =>
    refine .inr (.inr (.inr ?_))
    have hone : ∀ {d : Char}, (punctuation d).isSome = true → c :: rest = d :: rest' →
        (punctuation c).isSome = true ∨ ∃ x, comparison c rest.head? = some (some x) := by
      rintro d hd ⟨⟩
      exact .inl hd
    have hcmp : ∀ {d : Char} {l : List Char}, (∃ x, comparison d l.head? = some (some x)) →
        c :: rest = d :: l →
        (punctuation c).isSome = true ∨ ∃ x, comparison c rest.head? = some (some x) := by
      rintro d l hd ⟨⟩
      exact .inr hd
    have hless : ∀ o, ∃ x, comparison '<' o = some (some x) := by
      intro o
      unfold comparison
      split <;> first | exact ⟨_, rfl⟩ | simp_all
    have hgreater : ∀ o, ∃ x, comparison '>' o = some (some x) := by
      intro o
      unfold comparison
      split <;> first | exact ⟨_, rfl⟩ | simp_all
    cases t with
    | word | integer | str => cases hw
    | lt | le =>
      cases List.mem_singleton.mp hw
      exact hcmp (d := '<') (hless _) heq
    | gt | ge =>
      cases List.mem_singleton.mp hw
      exact hcmp (d := '>') (hgreater _) heq
    | ne =>
      rcases List.mem_cons.mp hw with rfl | hw
      · exact hcmp (d := '<') (hless _) heq
      · cases List.mem_singleton.mp hw
        exact hcmp (d := '!') (l := '=' :: rest') ⟨_, rfl⟩ heq
    | lParen | rParen | comma | semicolon | star | plus | minus | slash | eq =>
      cases List.mem_singleton.mp hw
      exact hone rfl heq

/-- Where there is no space, a token can be taken or there is a reason to stop. -/
theorem scan_or_refused (pos : Nat) {c : Char} {rest : List Char}
    (hspace : u.isWhitespace c = false) :
    (∃ t after, Scan u (c :: rest) t after) ∨ ∃ e, Refused u pos (c :: rest) e := by
  by_cases hstart : u.isAlphabetic c = true ∨ c = '_'
  · exact .inl ⟨_, _, .word hstart⟩
  cases hpunct : punctuation c with
  | some t => exact .inl ⟨t, _, .punctuation hpunct⟩
  | none =>
  by_cases hcmp : ∃ x, comparison c rest.head? = some (some x)
  · obtain ⟨⟨t, more⟩, hcmp⟩ := hcmp
    exact .inl ⟨t, _, .comparison hcmp⟩
  by_cases hquote : c = '\''
  · subst hquote
    cases hstr : lexString rest with
    | some r => exact .inl ⟨_, r.2, .string hstr⟩
    | none =>
      refine .inr ⟨_, .unterminatedString fun piece rest' t heq hspell hlong => ?_⟩
      have hscan := heq ▸ scan_of_spelling hspell hlong
      generalize hcs : '\'' :: rest = cs at hscan
      cases hscan with
      | punctuation h => cases hcs; cases h
      | comparison h => cases hcs; cases h
      | string h =>
        cases hcs
        rw [hstr] at h
        cases h
      | integer h => cases hcs; cases h
      | word h => cases hcs; exact hstart h
  by_cases hdigit : c.isDigit = true
  · by_cases hn : digitsValue (c :: rest.takeWhile Char.isDigit) < 2 ^ 63
    · exact .inl ⟨_, _, .integer hdigit hn⟩
    · have hds : ∀ d ∈ c :: rest.takeWhile Char.isDigit, d.isDigit = true :=
        List.forall_mem_cons.mpr ⟨hdigit, List.all_eq_true.mp List.all_takeWhile⟩
      have hrefused : Refused u pos _ (.integerOutOfRange pos) := .integerOutOfRange
        (List.cons_ne_nil _ _) hds (head?_dropWhile (l := rest)) (Nat.le_of_not_lt hn)
      rw [← cons_takeWhile_append] at hrefused
      exact .inr ⟨_, hrefused⟩
  · refine .inr ⟨_, .unexpectedChar hspace hquote (by simpa using hdigit) ?_⟩
    intro piece rest' t heq hspell
    rcases hspell.start heq with h | h | h | h | h
    · exact hstart h
    · exact hquote h
    · exact hdigit h
    · rw [hpunct] at h
      cases h
    · exact hcmp h

/-- Every text is space and tokens, up to its end or up to a place where the lexer stops. -/
theorem tokenizes_or_refused (cs : List Char) (pos : Nat) :
    (∃ ts, Tokenizes u pos cs ts (pos + utf8Len cs) []) ∨
      ∃ ts pos' rest e, Tokenizes u pos cs ts pos' rest ∧ Refused u pos' rest e := by
  induction hlen : cs.length using Nat.strong_induction_on generalizing cs pos with
  | _ n ih =>
  cases cs with
  | nil => exact .inl ⟨[], .stop pos []⟩
  | cons c cs =>
  cases hspace : u.isWhitespace c with
  | true =>
    rcases ih cs.length (by rw [← hlen]; exact Nat.lt_succ_self _) cs (pos + c.utf8Size) rfl with
      ⟨ts, h⟩ | ⟨ts, pos', rest, e, h, he⟩
    · rw [Nat.add_assoc, ← utf8Len_cons] at h
      exact .inl ⟨ts, .space hspace h⟩
    · exact .inr ⟨ts, pos', rest, e, .space hspace h, he⟩
  | false =>
    rcases @scan_or_refused u pos c cs hspace with ⟨t, after, hscan⟩ | ⟨e, he⟩
    · have hless := hscan.length_lt
      obtain ⟨piece, heq, hspell, hlong⟩ := scan_spelling hscan
      rw [heq] at hlen hless ⊢
      rcases ih after.length (by rw [← hlen]; exact hless) after (pos + utf8Len piece) rfl with
        ⟨ts, h⟩ | ⟨ts, pos', rest, e, h, he⟩
      · rw [Nat.add_assoc, ← utf8Len_append] at h
        exact .inl ⟨_, .token hspell hlong h⟩
      · exact .inr ⟨_, pos', rest, e, .token hspell hlong h, he⟩
    · exact .inr ⟨[], pos, c :: cs, e, .stop pos _, he⟩

theorem lexFrom_nil (pos : Nat) : lexFrom u [] pos = .ok [] := by rw [lexFrom]

/-- **What the lexer accepts**, and where it finds the tokens. -/
theorem lexFrom_eq_ok_iff (hu : u.Lawful) {cs : List Char} {pos : Nat} {ts : List (Token × Nat)} :
    lexFrom u cs pos = .ok ts ↔ Tokenizes u pos cs ts (pos + utf8Len cs) [] := by
  have hread : ∀ {ts pos'}, Tokenizes u pos cs ts pos' [] → lexFrom u cs pos = .ok ts := by
    intro ts pos' h
    rw [h.lexFrom hu, lexFrom_nil]
    exact congrArg Except.ok (List.append_nil ts)
  refine ⟨fun h => ?_, hread⟩
  rcases tokenizes_or_refused cs pos with ⟨ts', h'⟩ | ⟨ts', pos', rest, e, h', he⟩
  · rw [hread h'] at h
    cases h
    exact h'
  · rw [h'.lexFrom hu, he.lexFrom hu] at h
    cases h

/-- **What the lexer refuses**, and where. -/
theorem lexFrom_eq_error_iff (hu : u.Lawful) {cs : List Char} {pos : Nat} {e : LexError} :
    lexFrom u cs pos = .error e ↔
      ∃ ts pos' rest, Tokenizes u pos cs ts pos' rest ∧ Refused u pos' rest e := by
  constructor
  · intro h
    rcases tokenizes_or_refused cs pos with ⟨ts', h'⟩ | ⟨ts', pos', rest, e', h', he⟩
    · rw [(lexFrom_eq_ok_iff hu).mpr h'] at h
      cases h
    · rw [h'.lexFrom hu, he.lexFrom hu] at h
      cases h
      exact ⟨ts', pos', rest, h', he⟩
  · rintro ⟨ts, pos', rest, h, he⟩
    rw [h.lexFrom hu, he.lexFrom hu]
    rfl

/-! ## Positions -/

theorem Spelling.utf8Len_pos {piece : List Char} {t : Token} (h : Spelling u piece t) :
    0 < utf8Len piece := by
  have hne : piece ≠ [] := by
    cases h with
    | word hw =>
      obtain ⟨c, cs, hlist, -⟩ := hw
      rw [hlist]
      exact List.cons_ne_nil c cs
    | integer hne => exact hne
    | str s => exact List.cons_ne_nil _ _
    | symbol hw =>
      have hall : ∀ w ∈ t.symbols, w.toList ≠ [] := by
        cases t with
        | word | integer | str => exact List.forall_mem_nil _
        | _ => decide
      exact hall _ hw
  obtain ⟨c, cs, rfl⟩ := List.exists_cons_of_ne_nil hne
  have hsize := c.utf8Size_pos
  rw [utf8Len_cons]
  omega

theorem Tokenizes.positions {pos pos' : Nat} {cs rest : List Char} {ts : List (Token × Nat)}
    (h : Tokenizes u pos cs ts pos' rest) : pos ≤ pos' ∧
      (∀ p ∈ ts.map Prod.snd, pos ≤ p ∧ p < pos') ∧ (ts.map Prod.snd).Pairwise (· < ·) := by
  induction h with
  | stop pos cs => exact ⟨le_rfl, nofun, .nil⟩
  | space hc h ih =>
    obtain ⟨hle, hwithin, hpairs⟩ := ih
    refine ⟨(Nat.le_add_right _ _).trans hle, fun p hp => ?_, hpairs⟩
    exact ⟨(Nat.le_add_right _ _).trans (hwithin p hp).1, (hwithin p hp).2⟩
  | @token pos pos' piece cs rest t ts hspell hlong h ih =>
    obtain ⟨hle, hwithin, hpairs⟩ := ih
    have hlen := hspell.utf8Len_pos
    refine ⟨by omega, ?_, List.pairwise_cons.mpr ⟨fun p hp => ?_, hpairs⟩⟩
    · rw [List.map_cons, List.forall_mem_cons]
      refine ⟨⟨le_rfl, by omega⟩, fun p hp => ?_⟩
      have := hwithin p hp
      omega
    · have := (hwithin p hp).1
      omega

/-- **The lexer is lossless and maximal.** It takes slices at character boundaries only. It accepts
exactly the texts that are space and tokens up to the end, each token as long as it can be, and it
records what these are and the bytes they start at, which increase. It refuses exactly the texts
where some byte behind space and tokens starts neither, and reports that byte and what is wrong. -/
theorem lex_lossless (hu : u.Lawful) (input : String) :
    lexBytes u input = some (lex u input) ∧
      (∀ ts, lex u input = .ok ts ↔
        Tokenizes u 0 input.toList ts (utf8Len input.toList) []) ∧
      (∀ ts, lex u input = .ok ts → (ts.map Prod.snd).Pairwise (· < ·) ∧
        ∀ p ∈ ts.map Prod.snd, p < utf8Len input.toList) ∧
      ∀ e, lex u input = .error e ↔
        ∃ ts pos rest, Tokenizes u 0 input.toList ts pos rest ∧ Refused u pos rest e := by
  have hok : ∀ ts, lex u input = .ok ts ↔
      Tokenizes u 0 input.toList ts (utf8Len input.toList) [] := by
    intro ts
    have h := @lexFrom_eq_ok_iff u hu input.toList 0 ts
    rwa [Nat.zero_add] at h
  refine ⟨lexBytes_eq input, hok, fun ts h => ?_, fun e => lexFrom_eq_error_iff hu⟩
  obtain ⟨-, hwithin, hpairs⟩ := ((hok ts).mp h).positions
  exact ⟨hpairs, fun p hp => (hwithin p hp).2⟩

/-- A word, an operator of two characters and a string with a quote and a character of two bytes. -/
theorem lex_lossless_sample : Tokenizes Unicode.ascii 0 "a<='é''s'".toList
    [(.word "a", 0), (.le, 1), (.str "é's", 3)] 10 [] := by
  have hlex : lex Unicode.ascii "a<='é''s'" =
      .ok [(.word "a", 0), (.le, 1), (.str "é's", 3)] := by decide +kernel
  have hlen : utf8Len "a<='é''s'".toList = 10 := by decide +kernel
  have htexts := ((lex_lossless Unicode.lawful_ascii "a<='é''s'").2.1 _).mp hlex
  rwa [hlen] at htexts

end Choam

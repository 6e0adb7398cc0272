import Mathlib
import Choam.Verify.Lexing
import Choam.Verify.Recognise

/-!
# Keyword case and spacing

`Respelled u cs cs'` says that `cs'` differs from the text `cs` in the case of keywords and in the
space between tokens only. Its tokens are then alike (`Respelled.lexes`): the same, but for the case
of keywords. No phrase of the grammar tells such tokens apart (`respects_script`), so both texts are
read as the same statements.
-/

namespace Choam

open Choam.Parser Choam.Grammar

/-! ## Tokens -/

/-- The same token, or the same keyword in another case. -/
inductive Token.Alike : Token → Token → Prop where
  | refl (t : Token) : Alike t t
  | keyword {w w' : String} (hw : isKeyword w = true) (h : eqIgnoreAsciiCase w w' = true) :
      Alike (.word w) (.word w')

theorem eqIgnoreAsciiCase_congr {w w' : String} (h : eqIgnoreAsciiCase w w' = true) (kw : String) :
    eqIgnoreAsciiCase w' kw = eqIgnoreAsciiCase w kw ∧
      eqIgnoreAsciiCase kw w' = eqIgnoreAsciiCase kw w := by
  have hlower := beq_iff_eq.mp h
  rw [eqIgnoreAsciiCase, eqIgnoreAsciiCase, eqIgnoreAsciiCase, eqIgnoreAsciiCase, hlower]
  exact ⟨rfl, rfl⟩

theorem isKeyword_congr {w w' : String} (h : eqIgnoreAsciiCase w w' = true) :
    isKeyword w' = isKeyword w := by
  rw [isKeyword, isKeyword]
  congr 1
  funext kw
  exact (eqIgnoreAsciiCase_congr h kw).2

namespace Token.Alike

variable {t t' : Token}

theorem word? (h : t.Alike t') (kw : String) : Grammar.word? kw t' = Grammar.word? kw t := by
  cases h with
  | refl => rfl
  | keyword hw h => rw [Grammar.word?, Grammar.word?, (eqIgnoreAsciiCase_congr h kw).1]

theorem ident? (h : t.Alike t') : Grammar.ident? t' = Grammar.ident? t := by
  cases h with
  | refl => rfl
  | keyword hw h => rw [Grammar.ident?, Grammar.ident?, isKeyword_congr h, hw]; rfl

theorem literal? (h : t.Alike t') : Grammar.literal? t' = Grammar.literal? t := by
  cases h with
  | refl => rfl
  | keyword hw h =>
    simp only [Grammar.literal?, (eqIgnoreAsciiCase_congr h _).1]

/-- What looks at no words. -/
theorem of_no_word {α : Type} {p : Token → Option α} (hp : ∀ w, p (.word w) = none)
    (h : t.Alike t') : p t' = p t := by
  cases h with
  | refl => rfl
  | keyword hw h => rw [hp, hp]

end Token.Alike

/-! ## Phrases -/

theorem respects_keyword (kw : String) : (keyword kw).Respects Token.Alike :=
  Phrase.respects_token fun _ _ h => h.word? kw

theorem respects_symbol (want : Token) (h : ∀ w, want ≠ .word w) :
    (symbol want).Respects Token.Alike :=
  Phrase.respects_token fun _ _ ht =>
    Token.Alike.of_no_word (p := only? want) (fun w => if_neg fun heq => h w heq.symm) ht

theorem respects_ident : ident.Respects Token.Alike := Phrase.respects_token fun _ _ h => h.ident?

theorem respects_cmpOp : (Phrase.token cmpOp).Respects Token.Alike :=
  Phrase.respects_token fun _ _ h => Token.Alike.of_no_word (fun _ => rfl) h

theorem respects_addOp : (Phrase.token addOp).Respects Token.Alike :=
  Phrase.respects_token fun _ _ h => Token.Alike.of_no_word (fun _ => rfl) h

theorem respects_mulOp : (Phrase.token mulOp).Respects Token.Alike :=
  Phrase.respects_token fun _ _ h => Token.Alike.of_no_word (fun _ => rfl) h

theorem respects_literal : (Phrase.token literal?).Respects Token.Alike :=
  Phrase.respects_token fun _ _ h => h.literal?

theorem respects_columnType : (Phrase.token columnType?).Respects Token.Alike :=
  Phrase.respects_token fun _ _ h => by simp only [columnType?, h.word?]

theorem respects_direction : (Phrase.token direction?).Respects Token.Alike :=
  Phrase.respects_token fun _ _ h => by simp only [direction?, h.word?]

theorem respects_verb : (Phrase.token verb?).Respects Token.Alike :=
  Phrase.respects_token fun _ _ h => by simp only [verb?, h.word?]

/-- A phrase of one token, at the front of a list. -/
theorem alike_token_cons {α : Type} {p : Token → Option α}
    (hp : (Phrase.token p).Respects Token.Alike) {d : (Phrase.token p).Tree} {l w : List Token}
    (h : List.Forall₂ Token.Alike (d.val :: l) w) : ∃ (d' : (Phrase.token p).Tree) (l' : List Token),
      w = d'.val :: l' ∧ (Phrase.token p).value d' = (Phrase.token p).value d ∧
        List.Forall₂ Token.Alike l l' := by
  rcases h with _ | ⟨ht, hl⟩
  obtain ⟨d', hd, hv⟩ := hp d _ (.cons ht .nil)
  cases hd
  exact ⟨d', _, rfl, hv, hl⟩

/-- **Expressions are read alike**, at every level. -/
theorem respects_exprAt (l : Level) : (exprAt l).Respects Token.Alike := by
  intro d
  induction d with
  | ofAnd e ih =>
    intro w h
    obtain ⟨e', he, hv⟩ := ih w h
    exact ⟨.ofAnd e', he, hv⟩
  | ofNot e ih =>
    intro w h
    obtain ⟨e', he, hv⟩ := ih w h
    exact ⟨.ofNot e', he, hv⟩
  | ofCmp e ih =>
    intro w h
    obtain ⟨e', he, hv⟩ := ih w h
    exact ⟨.ofCmp e', he, hv⟩
  | ofAdd e ih =>
    intro w h
    obtain ⟨e', he, hv⟩ := ih w h
    exact ⟨.ofAdd e', he, hv⟩
  | ofMul e ih =>
    intro w h
    obtain ⟨e', he, hv⟩ := ih w h
    exact ⟨.ofMul e', he, hv⟩
  | ofUnary e ih =>
    intro w h
    obtain ⟨e', he, hv⟩ := ih w h
    exact ⟨.ofUnary e', he, hv⟩
  | ofPrimary e ih =>
    intro w h
    obtain ⟨e', he, hv⟩ := ih w h
    exact ⟨.ofPrimary e', he, hv⟩
  | literal d =>
    intro w h
    obtain ⟨d', hd, hv⟩ := respects_literal d w h
    exact ⟨.literal d', hd, congrArg Expr.literal hv⟩
  | column d =>
    intro w h
    obtain ⟨d', hd, hv⟩ := respects_ident d w h
    exact ⟨.column d', hd, congrArg Expr.column hv⟩
  | not kw e ih =>
    intro w h
    obtain ⟨kw', w', rfl, -, hw⟩ := alike_token_cons (respects_keyword "NOT") h
    obtain ⟨e', rfl, hv⟩ := ih w' hw
    exact ⟨.not kw' e', rfl, congrArg (Expr.unary .not) hv⟩
  | neg minus e ih =>
    intro w h
    obtain ⟨minus', w', rfl, -, hw⟩ := alike_token_cons (respects_symbol .minus nofun) h
    obtain ⟨e', rfl, hv⟩ := ih w' hw
    exact ⟨.neg minus' e', rfl, congrArg (Expr.unary .neg) hv⟩
  | paren left e right ih =>
    intro w h
    obtain ⟨left', w', rfl, -, hw⟩ := alike_token_cons (respects_symbol .lParen nofun) h
    obtain ⟨we, wr, rfl, he, hr⟩ := Phrase.forall₂_append_cases hw
    obtain ⟨e', rfl, hv⟩ := ih we he
    obtain ⟨right', wn, rfl, -, hn⟩ := alike_token_cons (respects_symbol .rParen nofun) hr
    cases hn
    exact ⟨.paren left' e' right', rfl, hv⟩
  | or l kw r ihl ihr =>
    intro w h
    obtain ⟨wl, wr, rfl, hl, hr⟩ := Phrase.forall₂_append_cases h
    obtain ⟨l', rfl, hvl⟩ := ihl wl hl
    obtain ⟨kw', wr', rfl, -, hr⟩ := alike_token_cons (respects_keyword "OR") hr
    obtain ⟨r', rfl, hvr⟩ := ihr wr' hr
    exact ⟨.or l' kw' r', rfl, congrArg₂ (Expr.binary · .or ·) hvl hvr⟩
  | and l kw r ihl ihr =>
    intro w h
    obtain ⟨wl, wr, rfl, hl, hr⟩ := Phrase.forall₂_append_cases h
    obtain ⟨l', rfl, hvl⟩ := ihl wl hl
    obtain ⟨kw', wr', rfl, -, hr⟩ := alike_token_cons (respects_keyword "AND") hr
    obtain ⟨r', rfl, hvr⟩ := ihr wr' hr
    exact ⟨.and l' kw' r', rfl, congrArg₂ (Expr.binary · .and ·) hvl hvr⟩
  | cmp l op r ihl ihr =>
    intro w h
    obtain ⟨wl, wr, rfl, hl, hr⟩ := Phrase.forall₂_append_cases h
    obtain ⟨l', rfl, hvl⟩ := ihl wl hl
    obtain ⟨op', wr', rfl, hop, hr⟩ := alike_token_cons respects_cmpOp hr
    obtain ⟨r', rfl, hvr⟩ := ihr wr' hr
    refine ⟨.cmp l' op' r', rfl, ?_⟩
    change Expr.binary l'.value ((Phrase.token cmpOp).value op') r'.value = _
    rw [hop, show l'.value = l.value from hvl, show r'.value = r.value from hvr]
    rfl
  | add l op r ihl ihr =>
    intro w h
    obtain ⟨wl, wr, rfl, hl, hr⟩ := Phrase.forall₂_append_cases h
    obtain ⟨l', rfl, hvl⟩ := ihl wl hl
    obtain ⟨op', wr', rfl, hop, hr⟩ := alike_token_cons respects_addOp hr
    obtain ⟨r', rfl, hvr⟩ := ihr wr' hr
    refine ⟨.add l' op' r', rfl, ?_⟩
    change Expr.binary l'.value ((Phrase.token addOp).value op') r'.value = _
    rw [hop, show l'.value = l.value from hvl, show r'.value = r.value from hvr]
    rfl
  | mul l op r ihl ihr =>
    intro w h
    obtain ⟨wl, wr, rfl, hl, hr⟩ := Phrase.forall₂_append_cases h
    obtain ⟨l', rfl, hvl⟩ := ihl wl hl
    obtain ⟨op', wr', rfl, hop, hr⟩ := alike_token_cons respects_mulOp hr
    obtain ⟨r', rfl, hvr⟩ := ihr wr' hr
    refine ⟨.mul l' op' r', rfl, ?_⟩
    change Expr.binary l'.value ((Phrase.token mulOp).value op') r'.value = _
    rw [hop, show l'.value = l.value from hvl, show r'.value = r.value from hvr]
    rfl
  | isNull l is negated null ih =>
    intro w h
    obtain ⟨wl, wr, rfl, hl, hr⟩ := Phrase.forall₂_append_cases h
    obtain ⟨l', rfl, hvl⟩ := ih wl hl
    obtain ⟨is', wr', rfl, -, hr⟩ := alike_token_cons (respects_keyword "IS") hr
    obtain ⟨wn, we, rfl, hn, he⟩ := Phrase.forall₂_append_cases hr
    obtain ⟨negated', rfl, hnegated⟩ := (respects_keyword "NOT").opt negated wn hn
    obtain ⟨null', wend, rfl, -, hend⟩ := alike_token_cons (respects_keyword "NULL") he
    cases hend
    refine ⟨.isNull l' is' negated' null', rfl, ?_⟩
    have hsome : negated'.isSome = negated.isSome := by
      have := congrArg Option.isSome hnegated
      simpa using this
    change Expr.isNull l'.value negated'.isSome = Expr.isNull l.value negated.isSome
    rw [hsome, show l'.value = l.value from hvl]

theorem respects_items {α : Type} {A : Phrase Token α} (hA : A.Respects Token.Alike) :
    (items A).Respects Token.Alike :=
  hA.bind fun _ => ((respects_symbol .comma nofun).bind fun _ => hA).many.reword _

theorem respects_where : optWhere.Respects Token.Alike :=
  ((respects_keyword "WHERE").bind fun _ => respects_exprAt .or).opt

theorem respects_modifier : modifier.Respects Token.Alike :=
  ((respects_keyword "PRIMARY").bind fun _ => (respects_keyword "KEY").bind fun _ =>
    Phrase.respects_pure _).either
  ((respects_keyword "NOT").bind fun _ => (respects_keyword "NULL").bind fun _ =>
    Phrase.respects_pure _)

theorem respects_columnSpec : columnSpec.Respects Token.Alike :=
  respects_ident.bind fun _ => respects_columnType.bind fun _ =>
    (respects_modifier.many.reword _).bind fun _ => Phrase.respects_pure _

theorem respects_createTable : createTable.Respects Token.Alike :=
  (respects_keyword "TABLE").bind fun _ => respects_ident.bind fun _ =>
    (respects_symbol .lParen nofun).bind fun _ => (respects_items respects_columnSpec).bind fun _ =>
    (respects_symbol .rParen nofun).bind fun _ => Phrase.respects_pure _

theorem respects_row : valuesRow.Respects Token.Alike :=
  (respects_symbol .lParen nofun).bind fun _ => (respects_items (respects_exprAt .or)).bind fun _ =>
    (respects_symbol .rParen nofun).bind fun _ => Phrase.respects_pure _

theorem respects_insert : Grammar.insert.Respects Token.Alike :=
  (respects_keyword "INTO").bind fun _ => respects_ident.bind fun _ =>
    ((respects_symbol .lParen nofun).bind fun _ => (respects_items respects_ident).bind fun _ =>
      (respects_symbol .rParen nofun).bind fun _ => Phrase.respects_pure _).opt.bind fun _ =>
    (respects_keyword "VALUES").bind fun _ => (respects_items respects_row).bind fun _ =>
    Phrase.respects_pure _

theorem respects_orderBy : orderBy.Respects Token.Alike :=
  (respects_keyword "ORDER").bind fun _ => (respects_keyword "BY").bind fun _ =>
    respects_ident.bind fun _ => respects_direction.opt.bind fun _ => Phrase.respects_pure _

theorem respects_limit : Grammar.limit.Respects Token.Alike :=
  (respects_keyword "LIMIT").bind fun _ => Phrase.respects_token fun _ _ h =>
    Token.Alike.of_no_word (fun _ => rfl) h

theorem respects_projection : Grammar.projection.Respects Token.Alike :=
  ((respects_symbol .star nofun).bind fun _ => Phrase.respects_pure _).either
    ((respects_items respects_ident).reword _)

theorem respects_select : Grammar.select.Respects Token.Alike :=
  respects_projection.bind fun _ => (respects_keyword "FROM").bind fun _ =>
    respects_ident.bind fun _ => respects_where.bind fun _ => respects_orderBy.opt.bind fun _ =>
    respects_limit.opt.bind fun _ => Phrase.respects_pure _

theorem respects_assignment : assignment.Respects Token.Alike :=
  respects_ident.bind fun _ => (respects_symbol .eq nofun).bind fun _ =>
    (respects_exprAt .or).bind fun _ => Phrase.respects_pure _

theorem respects_update : Grammar.update.Respects Token.Alike :=
  respects_ident.bind fun _ => (respects_keyword "SET").bind fun _ =>
    (respects_items respects_assignment).bind fun _ => respects_where.bind fun _ =>
    Phrase.respects_pure _

theorem respects_delete : Grammar.delete.Respects Token.Alike :=
  (respects_keyword "FROM").bind fun _ => respects_ident.bind fun _ =>
    respects_where.bind fun _ => Phrase.respects_pure _

theorem respects_statement : statement.Respects Token.Alike := by
  refine respects_verb.bind fun verb => ?_
  cases verb with
  | create => exact respects_createTable
  | insert => exact respects_insert
  | select => exact respects_select
  | update => exact respects_update
  | delete => exact respects_delete
  | begin | commit | rollback => exact Phrase.respects_pure _

/-- **Scripts of tokens that are alike are read as the same statements.** -/
theorem respects_script : script.Respects Token.Alike := by
  intro d
  induction d with
  | done =>
    rintro w (_ | _)
    exact ⟨.done, rfl, rfl⟩
  | semicolon rest ih =>
    rintro w (_ | ⟨_ | _, hw⟩)
    obtain ⟨rest', rfl, hv⟩ := ih _ hw
    exact ⟨.semicolon rest', rfl, hv⟩
  | last s =>
    intro w h
    obtain ⟨s', hs, hv⟩ := respects_statement s w h
    exact ⟨.last s', hs, congrArg (fun s => [s]) hv⟩
  | next s rest ih =>
    intro w h
    obtain ⟨ws, wr, rfl, hs, hr⟩ := Phrase.forall₂_append_cases h
    obtain ⟨s', rfl, hv⟩ := respects_statement s ws hs
    rcases hr with _ | ⟨_ | _, hr⟩
    obtain ⟨rest', rfl, hvr⟩ := ih _ hr
    exact ⟨.next s' rest', rfl, congrArg₂ List.cons hv hvr⟩

/-! ## Texts -/

variable {u : Unicode}

/-- Characters of space only. -/
def Blank (u : Unicode) (cs : List Char) : Prop := ∀ c ∈ cs, u.isWhitespace c = true

/-- Two spellings of a token: the same characters, or those of a keyword in two cases. -/
def SameSpelling (piece piece' : List Char) : Prop :=
  piece' = piece ∨ isKeyword (String.ofList piece) = true ∧
    eqIgnoreAsciiCase (String.ofList piece) (String.ofList piece') = true

/-- The texts differ in the case of keywords, and in how much space there is before, between and
behind the tokens; where tokens of the first text are separated by space, those of the second one
are too. -/
inductive Respelled (u : Unicode) : List Char → List Char → Prop where
  | blank {ws ws' : List Char} (hws : Blank u ws) (hws' : Blank u ws') : Respelled u ws ws'
  | token {ws ws' piece piece' rest rest' : List Char} {t : Token} (hws : Blank u ws)
      (hws' : Blank u ws') (hscan : Scan u (piece ++ rest) t rest)
      (hpiece : SameSpelling piece piece')
      (hgap : (∃ c ∈ rest.head?, u.isWhitespace c = true) →
        ∀ c' ∈ rest'.head?, u.isWhitespace c' = true)
      (hrest : Respelled u rest rest') : Respelled u (ws ++ piece ++ rest) (ws' ++ piece' ++ rest')

/-- A keyword is made of letters. -/
theorem isAlpha_of_isKeyword {cs : List Char} (h : isKeyword (String.ofList cs) = true) :
    cs ≠ [] ∧ ∀ c ∈ cs, c.isAlpha = true := by
  obtain ⟨kw, hkw, heq⟩ := List.any_eq_true.mp h
  have hlower := beq_iff_eq.mp heq
  rw [String.toList_ofList] at hlower
  have hall : keywords.all (fun kw => !kw.toList.isEmpty && kw.toList.all Char.isAlpha) = true := by
    decide
  obtain ⟨hempty, halpha⟩ := Bool.and_eq_true_iff.mp (List.all_eq_true.mp hall kw hkw)
  have hne : kw.toList ≠ [] := by simpa using hempty
  refine ⟨?_, fun c hc => ?_⟩
  · rintro rfl
    exact hne (List.map_eq_nil_iff.mp hlower)
  · obtain ⟨k, hk, hkc⟩ := List.mem_map.mp (hlower ▸ List.mem_map_of_mem hc)
    rw [← Char.isAlpha_toLower_eq_isAlpha, ← hkc, Char.isAlpha_toLower_eq_isAlpha]
    exact List.all_eq_true.mp halpha k hk

/-! ## One token -/

/-- What follows a token may be replaced by a space, or a letter by a letter. -/
def Follows (u : Unicode) (rest rest' : List Char) : Prop :=
  ∀ c' ∈ rest'.head?, u.isWhitespace c' = true ∨
    ∃ c ∈ rest.head?, c' = c ∨ c.isAlpha = true ∧ c'.isAlpha = true

theorem Follows.not_mem {rest rest' : List Char} (h : Follows u rest rest') {p : Char → Bool}
    (hspace : ∀ c, u.isWhitespace c = true → p c = false)
    (halpha : ∀ c c', c.isAlpha = true → c'.isAlpha = true → p c = false → p c' = false)
    (hrest : ∀ c ∈ rest.head?, p c = false) : ∀ c' ∈ rest'.head?, p c' = false := by
  intro c' hc'
  rcases h c' hc' with hws | ⟨c, hc, rfl | ⟨hcalpha, hcalpha'⟩⟩
  · exact hspace c' hws
  · exact hrest _ hc
  · exact halpha c c' hcalpha hcalpha' (hrest c hc)

theorem alpha_ne {c d : Char} (hc : c.isAlpha = true) (hd : d.isAlpha = false) : c ≠ d := by
  rintro rfl
  rw [hc] at hd
  cases hd

theorem space_ne (hu : u.Lawful) {c d : Char} (hc : u.isWhitespace c = true) (hlow : 33 ≤ d.toNat)
    (hhigh : d.toNat ≤ 126) : c ≠ d := by
  rintro rfl
  rw [hu.graphic c hlow hhigh] at hc
  cases hc

theorem alphabetic_of_isAlpha (hu : u.Lawful) {c : Char} (h : c.isAlpha = true) :
    u.isAlphabetic c = true := by
  rw [hu.alphabetic c ((toNat_of_isAlpha h).2.trans (by decide)), h]

/-- No character of a word or a number is a space. -/
theorem wordChar_not_whitespace (hu : u.Lawful)
    (hnumeric : ∀ c, u.isNumeric c = true → u.isWhitespace c = false) {c : Char}
    (h : Lexer.isWordChar u c = true) : u.isWhitespace c = false := by
  rw [Lexer.isWordChar, Bool.or_eq_true, Bool.or_eq_true, beq_iff_eq] at h
  rcases h with (h | h) | h
  · exact wordStart_not_whitespace hu (.inl h)
  · exact hnumeric c h
  · exact wordStart_not_whitespace hu (.inr h)

theorem space_not_wordChar (hu : u.Lawful)
    (hnumeric : ∀ c, u.isNumeric c = true → u.isWhitespace c = false) {c : Char}
    (h : u.isWhitespace c = true) : Lexer.isWordChar u c = false := by
  by_contra hw
  have hw : Lexer.isWordChar u c = true := by simpa using hw
  rw [wordChar_not_whitespace hu hnumeric hw] at h
  cases h

theorem isWordChar_of_isAlpha (hu : u.Lawful) {c : Char} (h : c.isAlpha = true) :
    Lexer.isWordChar u c = true := by
  rw [Lexer.isWordChar, alphabetic_of_isAlpha hu h]
  rfl

/-- **A token is read again before what may follow it.** -/
theorem scan_follows (hu : u.Lawful)
    (hnumeric : ∀ c, u.isNumeric c = true → u.isWhitespace c = false) {cs rest rest' : List Char}
    {t : Token} (hs : Scan u cs t rest) (hf : Follows u rest rest') :
    ∃ piece, piece ≠ [] ∧ cs = piece ++ rest ∧ Scan u (piece ++ rest') t rest' := by
  cases hs with
  | @punctuation c tok rest h =>
    exact ⟨[c], List.cons_ne_nil c [], rfl, .punctuation h⟩
  | @comparison c tok more r h =>
    obtain ⟨-, ⟨rfl, hnone⟩ | ⟨d, rfl, hd, -⟩⟩ := comparison_cases h
    · refine ⟨[c], List.cons_ne_nil c [], rfl, ?_⟩
      have hplain : ∀ d, d ≠ '=' → d ≠ '>' →
          (decide (Choam.comparison c (some d) ≠ Choam.comparison c none)) = false :=
        fun d heq hgt => decide_eq_false fun hne => hne (comparison_plain c heq hgt)
      have hsame := hf.not_mem
        (fun d hd => hplain d (space_ne hu hd (by decide) (by decide))
          (space_ne hu hd (by decide) (by decide)))
        (fun _ d _ hd _ => hplain d (alpha_ne hd rfl) (alpha_ne hd rfl)) (fun d hd => ?_)
      · refine @Scan.comparison u c t 0 rest' ?_
        cases rest' with
        | nil => exact hnone
        | cons d rest' =>
          have := of_decide_eq_false (hsame d rfl)
          exact (not_not.mp this).trans hnone
      · refine decide_eq_false fun hne => hne ?_
        rw [List.drop_zero] at hd
        rw [← Option.mem_def.mp hd, h, hnone]
    · obtain ⟨r', rfl⟩ : ∃ r', r = d :: r' := by
        cases r with
        | nil => cases hd
        | cons e r' =>
          cases hd
          exact ⟨r', rfl⟩
      exact ⟨[c, d], List.cons_ne_nil c [d], rfl, @Scan.comparison u c t 1 (d :: rest') h⟩
  | @string s r after h =>
    obtain ⟨rfl, hquote⟩ := lexString_eq_some h
    have hquote' := hf.not_mem (p := (· == '\''))
      (fun c hc => beq_eq_false_iff_ne.mpr (space_ne hu hc (by decide) (by decide)))
      (fun _ c _ hc _ => beq_eq_false_iff_ne.mpr (alpha_ne hc rfl))
      fun c hc => beq_eq_false_iff_ne.mpr (hquote c hc)
    refine ⟨'\'' :: (escapeQuotes s ++ ['\'']), List.cons_ne_nil _ _, by simp, ?_⟩
    rw [List.cons_append, List.append_assoc, List.singleton_append]
    exact .string (lexString_escapeQuotes (fun c hc => beq_eq_false_iff_ne.mp (hquote' c hc)) s)
  | @integer c r hc h =>
    have hdigit' := hf.not_mem (p := Char.isDigit)
      (fun d hd => by
        by_contra hdigit
        rw [digit_not_whitespace hu (by simpa using hdigit)] at hd
        cases hd)
      (fun _ d _ hd _ => isDigit_of_isAlpha hd) head?_dropWhile
    obtain ⟨htake, hdrop⟩ := takeWhile_append
      (fun d hd => List.all_eq_true.mp List.all_takeWhile d hd) hdigit'
    have hscan := @Scan.integer u c (r.takeWhile Char.isDigit ++ rest') hc
    rw [htake, hdrop] at hscan
    exact ⟨c :: r.takeWhile Char.isDigit, List.cons_ne_nil _ _,
      cons_takeWhile_append _ c r, hscan h⟩
  | @word c r hc =>
    have hword' := hf.not_mem (p := Lexer.isWordChar u)
      (fun d hd => space_not_wordChar hu hnumeric hd)
      (fun d _ hd _ hnot => absurd hnot (by simp [isWordChar_of_isAlpha hu hd]))
      head?_dropWhile
    obtain ⟨htake, hdrop⟩ := takeWhile_append
      (fun d hd => List.all_eq_true.mp List.all_takeWhile d hd) hword'
    have hscan := @Scan.word u c (r.takeWhile (Lexer.isWordChar u) ++ rest') hc
    rw [htake, hdrop] at hscan
    exact ⟨c :: r.takeWhile (Lexer.isWordChar u), List.cons_ne_nil _ _,
      cons_takeWhile_append _ c r, hscan⟩

/-- What is read in front of letters that are a keyword is that word. -/
theorem scan_keyword (hu : u.Lawful) {piece rest : List Char} {t : Token}
    (h : Scan u (piece ++ rest) t rest) (hkey : isKeyword (String.ofList piece) = true) :
    t = .word (String.ofList piece) ∧ ∀ c ∈ rest.head?, Lexer.isWordChar u c = false := by
  obtain ⟨hne, halpha⟩ := isAlpha_of_isKeyword hkey
  obtain ⟨c, cs, rfl⟩ := List.exists_cons_of_ne_nil hne
  have hc : u.isAlphabetic c = true := alphabetic_of_isAlpha hu (halpha c List.mem_cons_self)
  obtain ⟨hpunct, hcmp, hquote, hdigit⟩ := wordStart_other hu (.inl hc)
  generalize hall : (c :: cs) ++ rest = l at h
  cases h with
  | punctuation h =>
    obtain ⟨rfl, -⟩ := List.cons.inj hall
    rw [hpunct] at h
    cases h
  | @comparison _ _ _ r h =>
    obtain ⟨rfl, -⟩ := List.cons.inj hall
    rw [hcmp] at h
    cases h
  | string h =>
    obtain ⟨rfl, -⟩ := List.cons.inj hall
    cases hquote
  | integer hd h =>
    obtain ⟨rfl, -⟩ := List.cons.inj hall
    rw [hdigit] at hd
    cases hd
  | @word d r hd =>
    obtain ⟨rfl, hr⟩ := List.cons.inj hall
    have hcs : cs = r.takeWhile (Lexer.isWordChar u) := by
      refine List.append_cancel_right (hr.trans ?_)
      exact List.takeWhile_append_dropWhile.symm
    exact ⟨by rw [hcs], head?_dropWhile⟩

/-- **The token in another spelling**, before what may follow it. -/
theorem scan_respelled (hu : u.Lawful)
    (hnumeric : ∀ c, u.isNumeric c = true → u.isWhitespace c = false)
    {piece piece' rest rest' : List Char} {t : Token} (hs : Scan u (piece ++ rest) t rest)
    (hpiece : SameSpelling piece piece') (hf : Follows u rest rest') :
    ∃ t', t.Alike t' ∧ Scan u (piece' ++ rest') t' rest' := by
  rcases hpiece with rfl | ⟨hkey, hcase⟩
  · obtain ⟨p, -, hp, hscan⟩ := scan_follows hu hnumeric hs hf
    obtain rfl := List.append_cancel_right hp
    exact ⟨t, .refl t, hscan⟩
  · obtain ⟨rfl, hrest⟩ := scan_keyword hu hs hkey
    refine ⟨.word (String.ofList piece'), .keyword hkey hcase, ?_⟩
    have hkey' : isKeyword (String.ofList piece') = true := (isKeyword_congr hcase).trans hkey
    obtain ⟨hne, halpha⟩ := isAlpha_of_isKeyword hkey'
    obtain ⟨c, cs, rfl⟩ := List.exists_cons_of_ne_nil hne
    have hrest' := hf.not_mem (p := Lexer.isWordChar u)
      (fun d hd => space_not_wordChar hu hnumeric hd)
      (fun d _ hd _ hnot => absurd hnot (by simp [isWordChar_of_isAlpha hu hd])) hrest
    obtain ⟨htake, hdrop⟩ := takeWhile_append
      (fun d hd => isWordChar_of_isAlpha hu (halpha d (List.mem_cons_of_mem c hd))) hrest'
    have hscan := @Scan.word u c (cs ++ rest')
      (.inl (alphabetic_of_isAlpha hu (halpha c List.mem_cons_self)))
    rw [htake, hdrop] at hscan
    exact hscan

/-! ## Whole texts -/

theorem Blank.lexes {ws cs : List Char} {w : List Token} (hws : Blank u ws) (h : Lexes u cs w) :
    Lexes u (ws ++ cs) w := by
  induction ws with
  | nil => exact h
  | cons c ws ih =>
    exact .space (hws c List.mem_cons_self) (ih fun c' hc' => hws c' (List.mem_cons_of_mem c hc'))

theorem SameSpelling.head {piece piece' : List Char} (h : SameSpelling piece piece')
    (hne : piece ≠ []) : ∃ c cs c' cs', piece = c :: cs ∧ piece' = c' :: cs' ∧
      (c' = c ∨ c.isAlpha = true ∧ c'.isAlpha = true) := by
  obtain ⟨c, cs, rfl⟩ := List.exists_cons_of_ne_nil hne
  rcases h with rfl | ⟨hkey, hcase⟩
  · exact ⟨c, cs, c, cs, rfl, rfl, .inl rfl⟩
  · obtain ⟨hne', halpha'⟩ := isAlpha_of_isKeyword ((isKeyword_congr hcase).trans hkey)
    obtain ⟨c', cs', rfl⟩ := List.exists_cons_of_ne_nil hne'
    exact ⟨c, cs, c', cs', rfl, rfl, .inr ⟨(isAlpha_of_isKeyword hkey).2 c List.mem_cons_self,
      halpha' c' List.mem_cons_self⟩⟩

theorem scan_ne_nil {piece rest : List Char} {t : Token} (h : Scan u (piece ++ rest) t rest) :
    piece ≠ [] := by
  rintro rfl
  exact absurd h.length_lt (Nat.lt_irrefl _)

/-- What follows a token in a respelled text may follow it. -/
theorem Respelled.follows {rest rest' : List Char} (h : Respelled u rest rest')
    (hgap : (∃ c ∈ rest.head?, u.isWhitespace c = true) →
      ∀ c' ∈ rest'.head?, u.isWhitespace c' = true) : Follows u rest rest' := by
  intro c' hc'
  by_cases hspace : ∃ c ∈ rest.head?, u.isWhitespace c = true
  · exact .inl (hgap hspace c' hc')
  cases h with
  | blank hws hws' =>
    exact .inl (hws' c' (List.mem_of_mem_head? hc'))
  | @token ws ws' piece piece' rest rest' t hws hws' hscan hpiece =>
    cases ws' with
    | cons c cs =>
      cases hc'
      exact .inl (hws' c' List.mem_cons_self)
    | nil =>
      cases ws with
      | cons d ds => exact absurd ⟨d, rfl, hws d List.mem_cons_self⟩ hspace
      | nil =>
        obtain ⟨c, cs, d, ds, rfl, rfl, hcd⟩ := hpiece.head (scan_ne_nil hscan)
        cases hc'
        exact .inr ⟨c, rfl, hcd⟩

/-- **Respelled texts have tokens that are alike.** -/
theorem Respelled.lexes (hu : u.Lawful)
    (hnumeric : ∀ c, u.isNumeric c = true → u.isWhitespace c = false) {cs cs' : List Char}
    (h : Respelled u cs cs') :
    ∃ w w', Lexes u cs w ∧ Lexes u cs' w' ∧ List.Forall₂ Token.Alike w w' := by
  induction h with
  | blank hws hws' =>
    exact ⟨[], [], by simpa using hws.lexes .nil, by simpa using hws'.lexes .nil, .nil⟩
  | @token ws ws' piece piece' rest rest' t hws hws' hscan hpiece hgap hrest ih =>
    obtain ⟨w, w', hw, hw', halike⟩ := ih
    obtain ⟨t', ht, hscan'⟩ := scan_respelled hu hnumeric hscan hpiece (hrest.follows hgap)
    refine ⟨t :: w, t' :: w', ?_, ?_, .cons ht halike⟩
    · rw [List.append_assoc]
      exact hws.lexes (.token hscan hw)
    · rw [List.append_assoc]
      exact hws'.lexes (.token hscan' hw')

/-- **Keyword case and spacing are irrelevant.** A text that is read as some statements is read as the
same statements when keywords are written in another case, and the space around the tokens is
another, as long as tokens that were separated stay separated. -/
theorem parseScript_respelled (hu : u.Lawful)
    (hnumeric : ∀ c, u.isNumeric c = true → u.isWhitespace c = false) {t t' : String}
    {stmts : List Statement} (h : parseScript u t = .ok stmts)
    (ht : Respelled u t.toList t'.toList) : parseScript u t' = .ok stmts := by
  obtain ⟨ts, hlex, hs⟩ := parseScript_eq_ok.mp h
  obtain ⟨d, hyield, rfl⟩ := statements_eq_ok.mp hs
  obtain ⟨w, w', hw, hw', halike⟩ := ht.lexes hu hnumeric
  -- the tokens of the first text are those that were read
  obtain ⟨ts₁, hts₁, rfl⟩ := (lexFrom_ok_iff hu 0).mpr hw
  obtain rfl : ts₁ = ts := Except.ok.inj (hts₁.symm.trans hlex)
  obtain ⟨ts', hts', rfl⟩ := (lexFrom_ok_iff hu 0).mpr hw'
  rw [← hyield] at halike
  obtain ⟨d', hyield', hvalue⟩ := respects_script d _ halike
  exact parseScript_eq_ok.mpr ⟨ts', hts', statements_eq_ok.mpr ⟨d', hyield', hvalue⟩⟩

/-- DELETE in capitals, with more space around the words. -/
theorem parseScript_respelled_sample :
    parseScript Unicode.ascii "\nDELETE  from\tt " = .ok [.delete "t" none] := by
  have hblank : ∀ ws : List Char, ws.all Unicode.ascii.isWhitespace = true →
      Blank Unicode.ascii ws := fun ws h => List.all_eq_true.mp h
  have hname : Respelled Unicode.ascii ([' '] ++ ['t'] ++ []) (['\t'] ++ ['t'] ++ [' ']) :=
    .token (hblank _ rfl) (hblank _ rfl) (@Scan.word _ 't' [] (.inl rfl)) (.inl rfl)
      (fun ⟨_, h, _⟩ => nomatch h) (.blank (hblank _ rfl) (hblank _ rfl))
  have hfrom : Respelled Unicode.ascii ([' '] ++ ['f', 'r', 'o', 'm'] ++ [' ', 't'])
      ([' ', ' '] ++ ['f', 'r', 'o', 'm'] ++ ['\t', 't', ' ']) :=
    .token (hblank _ rfl) (hblank _ rfl) (@Scan.word _ 'f' ['r', 'o', 'm', ' ', 't'] (.inl rfl))
      (.inl rfl) (fun _ c hc => by cases hc; rfl) hname
  have hdelete : Respelled Unicode.ascii "delete from t".toList "\nDELETE  from\tt ".toList :=
    @Respelled.token _ [] ['\n'] "delete".toList "DELETE".toList _ _ _ (hblank _ rfl) (hblank _ rfl)
      (@Scan.word _ 'd' "elete from t".toList (.inl rfl)) (.inr ⟨by decide, by decide⟩)
      (fun _ c hc => by cases hc; rfl) hfrom
  exact parseScript_respelled Unicode.lawful_ascii
    (fun _ hc => digit_not_whitespace Unicode.lawful_ascii hc) (by decide +kernel) hdelete

end Choam

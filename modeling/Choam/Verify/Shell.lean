import Choam.Cli.Shell
import Choam.Verify.Recognise
import Choam.Verify.Lexing

/-!
# The shell runs what the parser reads

The shell splits its input at semicolons before it parses anything, and sees the input line by line.
`Lexes.split` says that it splits where the tokens do, `Hands` which statements a program of the
shell's hands over, whatever it is answered; `shell_agrees` puts the two together.
-/

namespace Choam

open Choam.Parser Choam.Grammar

variable {u : Unicode}

/-! ## Where a text is split -/

theorem splitFrom_append {inStr : Bool} {buf stmt rest : List Char}
    (h : splitFrom inStr buf = some (stmt, rest)) (more : List Char) :
    splitFrom inStr (buf ++ more) = some (stmt, rest ++ more) := by
  induction buf generalizing inStr stmt with
  | nil => cases h
  | cons ch buf ih =>
    rw [splitFrom] at h
    rw [List.cons_append, splitFrom]
    split at h
    · obtain ⟨r, hr, heq⟩ := Option.map_eq_some_iff.mp h
      cases heq
      rw [if_pos (by assumption), ih hr]
      rfl
    · rw [if_neg (by assumption)]
      split at h
      · cases h
        rw [if_pos (by assumption)]
      · obtain ⟨r, hr, heq⟩ := Option.map_eq_some_iff.mp h
        cases heq
        rw [if_neg (by assumption), ih hr]
        rfl

/-- No split falls into `front`, which leads from inside or outside of a string to inside or outside
of one. -/
def Passes (inStr inStr' : Bool) (front : List Char) : Prop :=
  ∀ tail, splitFrom inStr (front ++ tail) =
    (splitFrom inStr' tail).map fun r => (front ++ r.1, r.2)

theorem passes_nil (b : Bool) : Passes b b [] := by
  intro tail
  cases h : splitFrom b tail <;> simp [h]

theorem Passes.append {a b c : Bool} {front front' : List Char} (h : Passes a b front)
    (h' : Passes b c front') : Passes a c (front ++ front') := by
  intro tail
  rw [List.append_assoc, h, h']
  cases splitFrom c tail <;> simp

theorem passes_quote (b : Bool) : Passes b (!b) ['\''] := by
  intro tail
  rw [List.singleton_append, splitFrom, if_pos rfl]
  rfl

theorem passes_one (b : Bool) {c : Char} (hquote : c ≠ '\'') (hsemi : c = ';' → b = true) :
    Passes b b [c] := by
  intro tail
  rw [List.singleton_append, splitFrom, if_neg hquote, if_neg]
  · rfl
  · rintro ⟨hc, hb⟩
    rw [hsemi hc] at hb
    cases hb

theorem passes_plain {front : List Char} (h : ∀ c ∈ front, c ≠ '\'' ∧ c ≠ ';') :
    Passes false false front := by
  induction front with
  | nil => exact passes_nil _
  | cons c front ih =>
    have hc := h c List.mem_cons_self
    exact (passes_one false hc.1 fun h => absurd h hc.2).append
      (ih fun c' hc' => h c' (List.mem_cons_of_mem c hc'))

/-- The literal that `lexString` reads is passed, and is read in front of anything but a quote. -/
theorem lexString_passes {rest s after : List Char} (h : lexString rest = some (s, after)) :
    (∀ c ∈ after.head?, c ≠ '\'') ∧ ∃ front, rest = front ++ after ∧ Passes true false front ∧
      ∀ after', (∀ c ∈ after'.head?, c ≠ '\'') → lexString (front ++ after') = some (s, after') := by
  induction rest using lexString.induct generalizing s with
  | case1 => cases h
  | case2 rest ih =>
    rw [lexString] at h
    obtain ⟨r, hr, heq⟩ := Option.map_eq_some_iff.mp h
    cases heq
    obtain ⟨hafter, front, rfl, hpass, hlex⟩ := ih hr
    refine ⟨hafter, '\'' :: '\'' :: front, rfl, ?_, ?_⟩
    · exact (passes_quote true).append ((passes_quote false).append hpass)
    · intro after' h'
      rw [List.cons_append, List.cons_append, lexString, hlex after' h']
      rfl
  | case3 rest hq =>
    rw [lexString] at h
    · cases h
      have hafter : ∀ c ∈ after.head?, c ≠ '\'' := by
        rintro c hc rfl
        cases after with
        | nil => cases hc
        | cons d rest =>
          cases hc
          exact hq rest rfl
      refine ⟨hafter, ['\''], rfl, passes_quote true, fun after' h' => ?_⟩
      have hstr := lexString_escapeQuotes h' []
      exact hstr
    · exact hq
  | case4 ch rest hnot hne ih =>
    rw [lexString] at h
    · obtain ⟨r, hr, heq⟩ := Option.map_eq_some_iff.mp h
      cases heq
      obtain ⟨hafter, front, rfl, hpass, hlex⟩ := ih hr
      have hquote : ch ≠ '\'' := hne
      refine ⟨hafter, ch :: front, rfl, ?_, ?_⟩
      · exact (passes_one true hquote fun _ => rfl).append hpass
      · intro after' h'
        rw [List.cons_append, lexString, hlex after' h']
        · rfl
        · rintro rest' heq -
          exact hquote heq
        · exact hquote
    · exact hnot
    · exact hne

/-! ## Tokens of a text cut short -/

theorem wordChar_plain (hu : u.Lawful) {c : Char} (h : Lexer.isWordChar u c = true) :
    c ≠ '\'' ∧ c ≠ ';' := by
  constructor <;> rintro rfl <;> simp [Lexer.isWordChar, hu.alphabetic, hu.numeric] at h

/-- A run of characters that `p` knows, with a first one, in front of another text that does not
go on with it. -/
theorem span_local {p : Char → Bool} {c : Char} {rest : List Char} (hc : c ≠ '\'' ∧ c ≠ ';')
    (hp : ∀ d, p d = true → d ≠ '\'' ∧ d ≠ ';') :
    c :: rest = c :: rest.takeWhile p ++ rest.dropWhile p ∧
      Passes false false (c :: rest.takeWhile p) ∧
      ∀ after, (after.head? = (rest.dropWhile p).head? ∨ after = []) →
        (rest.takeWhile p ++ after).takeWhile p = rest.takeWhile p ∧
          (rest.takeWhile p ++ after).dropWhile p = after := by
  have hall : ∀ d ∈ rest.takeWhile p, p d = true := List.all_eq_true.mp List.all_takeWhile
  refine ⟨?_, ?_, ?_⟩
  · rw [List.cons_append, List.takeWhile_append_dropWhile]
  · exact passes_plain (List.forall_mem_cons.mpr ⟨hc, fun d hd => hp d (hall d hd)⟩)
  · intro after hafter
    refine takeWhile_append hall ?_
    rcases hafter with hafter | rfl
    · rw [hafter]
      exact head?_dropWhile
    · exact fun _ hd => nomatch hd

/-- **A token but a semicolon is passed**, and stays the same where the text is cut off behind it,
or anywhere after that. -/
theorem Scan.passes (hu : u.Lawful) {cs after : List Char} {t : Token} (h : Scan u cs t after)
    (ht : t ≠ .semicolon) : ∃ front, cs = front ++ after ∧ Passes false false front ∧
      ∀ after', (after'.head? = after.head? ∨ after' = []) → Scan u (front ++ after') t after' := by
  cases h with
  | @punctuation c _ _ hp =>
    refine ⟨[c], rfl, passes_plain ?_, fun after' _ => .punctuation hp⟩
    refine List.forall_mem_singleton.mpr ⟨?_, ?_⟩
    · rintro rfl
      cases hp
    · rintro rfl
      cases hp
      exact ht rfl
  | @comparison c _ more rest hcmp =>
    obtain ⟨hc, ⟨rfl, hnone⟩ | ⟨d, rfl, hd, hplain⟩⟩ := comparison_cases hcmp
    · refine ⟨[c], rfl, passes_plain (List.forall_mem_singleton.mpr hc), ?_⟩
      rintro after' (h' | rfl)
      · refine @Scan.comparison u c _ 0 after' ?_
        rw [h']
        exact hcmp
      · exact @Scan.comparison u c _ 0 [] hnone
    · cases rest with
      | nil => cases hd
      | cons e rest =>
        cases hd
        refine ⟨[c, d], rfl, passes_plain ?_, fun after' _ => ?_⟩
        · exact List.forall_mem_cons.mpr ⟨hc, List.forall_mem_singleton.mpr hplain⟩
        · exact @Scan.comparison u c _ 1 (d :: after') hcmp
  | @string s rest _ hs =>
    obtain ⟨hhead, front, rfl, hpass, hlex⟩ := lexString_passes hs
    refine ⟨'\'' :: front, rfl, (passes_quote false).append hpass, fun after' h' => ?_⟩
    refine .string (hlex after' ?_)
    rcases h' with h' | rfl
    · rw [h']
      exact hhead
    · exact fun _ hc => nomatch hc
  | @integer c rest hc hn =>
    obtain ⟨hsplit, hpass, hlocal⟩ := @span_local Char.isDigit c rest
      (by constructor <;> rintro rfl <;> cases hc) (by rintro d hd; constructor <;> rintro rfl <;> cases hd)
    refine ⟨_, hsplit, hpass, fun after' h' => ?_⟩
    have hscan := @Scan.integer u c (rest.takeWhile Char.isDigit ++ after') hc
    rw [(hlocal after' h').1, (hlocal after' h').2] at hscan
    exact hscan hn
  | @word c rest hc =>
    have hstart : Lexer.isWordChar u c = true := by
      rcases hc with h | rfl
      · rw [Lexer.isWordChar, h]
        rfl
      · simp [Lexer.isWordChar]
    obtain ⟨hsplit, hpass, hlocal⟩ := @span_local _ c rest (wordChar_plain hu hstart)
      (fun d hd => wordChar_plain hu hd)
    refine ⟨_, hsplit, hpass, fun after' h' => ?_⟩
    have hscan := @Scan.word u c (rest.takeWhile (Lexer.isWordChar u) ++ after') hc
    rw [(hlocal after' h').1, (hlocal after' h').2] at hscan
    exact hscan

theorem whitespace_plain (hu : u.Lawful) {c : Char} (h : u.isWhitespace c = true) :
    c ≠ '\'' ∧ c ≠ ';' := by
  constructor <;>
  · rintro rfl
    rw [hu.graphic _ (by decide) (by decide)] at h
    cases h

theorem scan_semicolon {cs after : List Char} (h : Scan u cs .semicolon after) :
    cs = ';' :: after := by
  generalize ht : Token.semicolon = t at h
  cases h with
  | @punctuation c _ _ hp =>
    subst ht
    unfold Choam.punctuation at hp
    split at hp <;> cases hp
    rfl
  | comparison hcmp =>
    subst ht
    unfold Choam.comparison at hcmp
    split at hcmp <;> cases hcmp
  | string | integer | word => cases ht

/-- **A text is split where its tokens are**: at the first semicolon among them. -/
theorem Lexes.split (hu : u.Lawful) {cs : List Char} {w : List Token} (h : Lexes u cs w) :
    splitStatement cs = none ∧ Token.semicolon ∉ w ∨
      ∃ a b w₁ w₂, splitStatement cs = some (a, b) ∧ cs = a ++ ';' :: b ∧
        w = w₁ ++ .semicolon :: w₂ ∧ Token.semicolon ∉ w₁ ∧ Lexes u a w₁ ∧ Lexes u b w₂ := by
  -- What is passed, in front of a text that is split there.
  have hpass : ∀ {front cs w v}, Passes false false front →
      (∀ a, (a.head? = cs.head? ∨ a = []) → ∀ w₁, Lexes u a w₁ → Lexes u (front ++ a) (v ++ w₁)) →
      Token.semicolon ∉ v →
      (splitStatement cs = none ∧ Token.semicolon ∉ w ∨
        ∃ a b w₁ w₂, splitStatement cs = some (a, b) ∧ cs = a ++ ';' :: b ∧
          w = w₁ ++ .semicolon :: w₂ ∧ Token.semicolon ∉ w₁ ∧ Lexes u a w₁ ∧ Lexes u b w₂) →
      (splitStatement (front ++ cs) = none ∧ Token.semicolon ∉ v ++ w ∨
        ∃ a b w₁ w₂, splitStatement (front ++ cs) = some (a, b) ∧ front ++ cs = a ++ ';' :: b ∧
          v ++ w = w₁ ++ .semicolon :: w₂ ∧ Token.semicolon ∉ w₁ ∧ Lexes u a w₁ ∧
          Lexes u b w₂) := by
    intro front cs w v hfront hlex hv h
    have hsplit : splitStatement (front ++ cs) = _ := hfront cs
    rcases h with ⟨hnone, hw⟩ | ⟨a, b, w₁, w₂, hsome, rfl, rfl, hw₁, ha, hb⟩
    · refine .inl ⟨?_, fun hmem => ?_⟩
      · rw [hsplit, ← splitStatement, hnone]
        rfl
      · exact (List.mem_append.mp hmem).elim hv hw
    · refine .inr ⟨front ++ a, b, v ++ w₁, w₂, ?_, ?_, ?_, ?_, ?_, hb⟩
      · rw [hsplit, ← splitStatement, hsome]
        rfl
      · rw [List.append_assoc]
      · rw [List.append_assoc]
      · exact fun hmem => (List.mem_append.mp hmem).elim hv hw₁
      · refine hlex a ?_ w₁ ha
        cases a with
        | nil => exact .inr rfl
        | cons c a => exact .inl rfl
  induction h with
  | nil => exact .inl ⟨rfl, fun h => nomatch h⟩
  | @space c rest w hc h ih =>
    refine @hpass [c] _ _ [] (passes_plain ?_) ?_ (fun h => nomatch h) ih
    · exact List.forall_mem_singleton.mpr (whitespace_plain hu hc)
    · exact fun a _ w₁ ha => .space hc ha
  | @token cs after t w hs h ih =>
    by_cases ht : t = .semicolon
    · subst ht
      cases scan_semicolon hs
      exact .inr ⟨[], after, [], w, rfl, rfl, rfl, (fun h => nomatch h), .nil, h⟩
    · obtain ⟨front, rfl, hfront, hlocal⟩ := hs.passes hu ht
      refine hpass (v := [t]) hfront ?_ ?_ ih
      · exact fun a ha w₁ hw₁ => .token (hlocal a ha) hw₁
      · exact fun hmem => ht (List.mem_singleton.mp hmem).symm

/-! ## Blanks and dots -/

/-- No token starts with whitespace or a dot. -/
theorem Scan.head (hu : u.Lawful) {c : Char} {cs after : List Char} {t : Token}
    (h : Scan u (c :: cs) t after) : u.isWhitespace c = false ∧ c ≠ '.' := by
  cases h with
  | punctuation h =>
    refine ⟨punctuation_not_whitespace hu h, ?_⟩
    rintro rfl
    cases h
  | comparison h =>
    refine ⟨(comparison_other hu h).1, ?_⟩
    rintro rfl
    cases h
  | string => exact ⟨hu.graphic _ (by decide) (by decide), by decide⟩
  | integer hc =>
    refine ⟨digit_not_whitespace hu hc, ?_⟩
    rintro rfl
    cases hc
  | word hc => exact ⟨wordStart_not_whitespace hu hc, wordStart_ne hu hc (by decide) rfl (by decide)⟩

theorem Scan.nonempty {after : List Char} {t : Token} : ¬ Scan u [] t after := by
  intro h
  cases h

/-- The text is blank exactly when it has no tokens. -/
theorem Lexes.blank_iff (hu : u.Lawful) {cs : List Char} {w : List Token} (h : Lexes u cs w) :
    Shell.blank u cs = true ↔ w = [] := by
  induction h with
  | nil => exact ⟨fun _ => rfl, fun _ => rfl⟩
  | space hc h ih => rw [← ih, Shell.blank, Shell.blank, List.all_cons, hc, Bool.true_and]
  | @token cs after t w hs h ih =>
    refine ⟨fun hblank => ?_, fun hw => nomatch hw⟩
    cases cs with
    | nil => exact absurd hs Scan.nonempty
    | cons c cs =>
      rw [Shell.blank, List.all_cons, (hs.head hu).1] at hblank
      cases hblank

/-- No text starts with a dot. -/
theorem Lexes.not_dot (hu : u.Lawful) {cs : List Char} {w : List Token} (h : Lexes u cs w) :
    (Shell.trimStart u cs).head? ≠ some '.' := by
  induction h with
  | nil => exact fun h => nomatch h
  | space hc h ih =>
    rw [Shell.trimStart, List.dropWhile_cons_of_pos hc]
    exact ih
  | @token cs after t w hs h ih =>
    cases cs with
    | nil => exact absurd hs Scan.nonempty
    | cons c cs =>
      obtain ⟨hspace, hdot⟩ := hs.head hu
      rw [Shell.trimStart, List.dropWhile_cons_of_neg (by rw [hspace]; exact Bool.false_ne_true)]
      exact fun h => hdot (Option.some.inj h)

/-! ## Semicolons in a script -/

/-- No phrase inside a statement has a semicolon. -/
abbrev Plain {α : Type} (A : Phrase Token α) : Prop := A.All (· ≠ .semicolon)

theorem plain_token {α : Type} {p : Token → Option α} (h : p .semicolon = none) :
    Plain (Phrase.token p) := by
  refine Phrase.all_token fun t ht => ?_
  rintro rfl
  rw [h] at ht
  cases ht

theorem plain_expr : Plain Grammar.expr := by
  refine all_exprAt ?_ (fun h => nomatch h) ?_ ?_ .or
  · rintro t (h | ⟨h, -⟩ | ⟨h, -⟩) rfl
    · rcases h with h | h | h <;> cases h
    · cases h
    · cases h
  · rintro t h rfl
    cases h
  · rintro l t h rfl
    exact not_operator_semicolon l h

theorem plain_items {α : Type} {A : Phrase Token α} (hA : Plain A) : Plain (Grammar.items A) :=
  hA.bind fun _ => (Phrase.All.many ((plain_token rfl).bind fun _ => hA)).reword _

theorem plain_columnSpec : Plain Grammar.columnSpec := by
  refine (plain_token rfl).bind fun _ => (plain_token rfl).bind fun _ => ?_
  refine Phrase.All.bind ?_ fun _ => Phrase.all_pure _ _
  refine (Phrase.All.many (Phrase.All.either ?_ ?_)).reword _
  · exact (plain_token rfl).bind fun _ => (plain_token rfl).bind fun _ => Phrase.all_pure _ _
  · exact (plain_token rfl).bind fun _ => (plain_token rfl).bind fun _ => Phrase.all_pure _ _

theorem plain_where : Plain Grammar.optWhere :=
  Phrase.All.opt ((plain_token rfl).bind fun _ => plain_expr)

theorem plain_row : Plain Grammar.valuesRow :=
  (plain_token rfl).bind fun _ => (plain_items plain_expr).bind fun _ =>
    (plain_token rfl).bind fun _ => Phrase.all_pure _ _

theorem plain_orderBy : Plain Grammar.orderBy :=
  (plain_token rfl).bind fun _ => (plain_token rfl).bind fun _ => (plain_token rfl).bind fun _ =>
    (Phrase.All.opt (plain_token rfl)).bind fun _ => Phrase.all_pure _ _

theorem plain_projection : Plain Grammar.projection :=
  Phrase.All.either ((plain_token rfl).bind fun _ => Phrase.all_pure _ _)
    ((plain_items (plain_token rfl)).reword _)

theorem plain_assignment : Plain Grammar.assignment :=
  (plain_token rfl).bind fun _ => (plain_token rfl).bind fun _ => plain_expr.bind fun _ =>
    Phrase.all_pure _ _

theorem plain_statement : Plain Grammar.statement := by
  refine (plain_token rfl).bind fun verb => ?_
  cases verb with
  | create =>
    exact (plain_token rfl).bind fun _ => (plain_token rfl).bind fun _ =>
      (plain_token rfl).bind fun _ => (plain_items plain_columnSpec).bind fun _ =>
      (plain_token rfl).bind fun _ => Phrase.all_pure _ _
  | insert =>
    refine (plain_token rfl).bind fun _ => (plain_token rfl).bind fun _ => ?_
    refine Phrase.All.bind (Phrase.All.opt ?_) fun _ => (plain_token rfl).bind fun _ =>
      (plain_items plain_row).bind fun _ => Phrase.all_pure _ _
    exact (plain_token rfl).bind fun _ => (plain_items (plain_token rfl)).bind fun _ =>
      (plain_token rfl).bind fun _ => Phrase.all_pure _ _
  | select =>
    exact plain_projection.bind fun _ => (plain_token rfl).bind fun _ =>
      (plain_token rfl).bind fun _ => plain_where.bind fun _ => plain_orderBy.opt.bind fun _ =>
      (Phrase.All.opt ((plain_token rfl).bind fun _ => plain_token rfl)).bind fun _ =>
      Phrase.all_pure _ _
  | update =>
    exact (plain_token rfl).bind fun _ => (plain_token rfl).bind fun _ =>
      (plain_items plain_assignment).bind fun _ => plain_where.bind fun _ => Phrase.all_pure _ _
  | delete =>
    exact (plain_token rfl).bind fun _ => (plain_token rfl).bind fun _ =>
      plain_where.bind fun _ => Phrase.all_pure _ _
  | begin | commit | rollback => exact Phrase.all_pure _ _

theorem semicolon_notMem (s : statement.Tree) : Token.semicolon ∉ statement.yield s :=
  fun h => plain_statement s _ h rfl

theorem statement_yield_ne_nil (s : statement.Tree) : statement.yield s ≠ [] :=
  List.cons_ne_nil _ _

/-- What comes before the first `a` of a list. -/
theorem append_cons_inj_left {α : Type} {a : α} {x x' z z' : List α} (hx : a ∉ x) (hx' : a ∉ x')
    (h : x ++ a :: z = x' ++ a :: z') : x = x' ∧ z = z' := by
  induction x generalizing x' with
  | nil =>
    cases x' with
    | nil => exact ⟨rfl, (List.cons.inj h).2⟩
    | cons b x' => exact absurd (List.cons.inj h).1 fun hb => hx' (hb ▸ List.mem_cons_self)
  | cons b x ih =>
    cases x' with
    | nil => exact absurd (List.cons.inj h).1 fun hb => hx (hb ▸ List.mem_cons_self)
    | cons b' x' =>
      obtain ⟨rfl, htail⟩ := List.cons.inj h
      obtain ⟨rfl, rfl⟩ := ih (fun hm => hx (List.mem_cons_of_mem _ hm))
        (fun hm => hx' (List.mem_cons_of_mem _ hm)) htail
      exact ⟨rfl, rfl⟩

/-- A script up to its first semicolon: a statement or nothing. -/
theorem Grammar.ScriptTree.split {d : ScriptTree} {w₁ w₂ : List Token} (hw₁ : Token.semicolon ∉ w₁)
    (h : d.yield = w₁ ++ .semicolon :: w₂) : ∃ rest : ScriptTree, rest.yield = w₂ ∧
      (w₁ = [] ∧ d = .semicolon rest ∨ ∃ s, w₁ = statement.yield s ∧ d = .next s rest) := by
  cases d with
  | done => exact absurd h fun h => by cases w₁ <;> cases h
  | semicolon rest =>
    obtain ⟨rfl, rfl⟩ := append_cons_inj_left (x := []) (fun h => nomatch h) hw₁ h
    exact ⟨rest, rfl, .inl ⟨rfl, rfl⟩⟩
  | last s =>
    refine absurd ?_ (semicolon_notMem s)
    change Token.semicolon ∈ (ScriptTree.last s).yield
    rw [h]
    exact List.mem_append_right _ List.mem_cons_self
  | next s rest =>
    obtain ⟨rfl, rfl⟩ := append_cons_inj_left (semicolon_notMem s) hw₁ h
    exact ⟨rest, rfl, .inr ⟨s, rfl, rfl⟩⟩

/-- A script without semicolons: a statement or nothing. -/
theorem Grammar.ScriptTree.whole {d : ScriptTree} (h : Token.semicolon ∉ d.yield) :
    d = .done ∨ ∃ s, d = .last s := by
  cases d with
  | done => exact .inl rfl
  | semicolon rest => exact absurd List.mem_cons_self h
  | last s => exact .inr ⟨s, rfl⟩
  | next s rest => exact absurd (List.mem_append_right _ List.mem_cons_self) h

/-! ## What the shell hands over -/

/-- Whatever the program is answered, it hands over these statements and nothing else, reports
nothing, and ends with what satisfies `Q`. -/
inductive Hands {α : Type} (Q : α → Prop) : ShellM α → List Statement → Prop where
  | done {a : α} (h : Q a) : Hands Q (.done a) []
  | prompt {more : Bool} {next : Unit → ShellM α} {ss : List Statement}
      (h : Hands Q (next ()) ss) : Hands Q (.call (.prompt more) next) ss
  | executeStatement {s : Statement} {next : Bool → ShellM α} {ss : List Statement}
      (h : ∀ failed, Hands Q (next failed) ss) : Hands Q (.call (.executeStatement s) next) (s :: ss)

theorem Hands.bind {α β : Type} {Q : α → Prop} {R : β → Prop} {p : ShellM α}
    {f : α → ShellM β} {ss ss' : List Statement} (hp : Hands Q p ss)
    (hf : ∀ a, Q a → Hands R (f a) ss') : Hands R (p >>= f) (ss ++ ss') := by
  induction hp with
  | done h => exact hf _ h
  | prompt _ ih => exact .prompt ih
  | executeStatement _ ih => exact .executeStatement ih

theorem hands_showPrompt (prompt : Bool) (buf : List Char) :
    Hands (fun _ => True) (Shell.showPrompt u prompt buf) [] := by
  cases prompt with
  | true => exact .prompt (.done trivial)
  | false => exact .done trivial

/-- A blank is skipped. -/
theorem hands_blank (hu : u.Lawful) {text : List Char} (h : Lexes u text []) :
    Hands (fun _ => True) (Shell.statement u text) [] := by
  rw [Shell.statement, if_pos ((h.blank_iff hu).mpr rfl)]
  exact .done trivial

/-- The text of a statement is handed over as that statement. -/
theorem hands_statement (hu : u.Lawful) {text : List Char} {s : statement.Tree}
    (h : Lexes u text (statement.yield s)) :
    Hands (fun _ => True) (Shell.statement u text) [statement.value s] := by
  have hblank : ¬ Shell.blank u text = true :=
    fun hb => statement_yield_ne_nil s ((h.blank_iff hu).mp hb)
  obtain ⟨ts, hlex, hyield⟩ := (lexFrom_ok_iff hu 0).mpr h
  have hparse : parse u (String.ofList text) = .ok (statement.value s) := by
    refine parse_eq_ok.mpr (parseScript_eq_ok.mpr ⟨ts, ?_, statements_eq_ok.mpr
      ⟨.last s, hyield.symm, rfl⟩⟩)
    rw [lex, String.toList_ofList]
    exact hlex
  rw [Shell.statement, if_neg hblank, hparse]
  exact .executeStatement fun _ => .done trivial

theorem drain_none {buf : List Char} (h : splitStatement buf = none) (hadError : Bool) :
    Shell.drain u buf hadError = pure (buf, hadError) := by
  rw [Shell.drain]
  split
  · rfl
  · rename_i hsome
    rw [h] at hsome
    cases hsome

theorem drain_some {buf stmt rest : List Char} (h : splitStatement buf = some (stmt, rest))
    (hadError : Bool) : Shell.drain u buf hadError =
      Shell.statement u stmt >>= fun failed => Shell.drain u rest (hadError || failed) := by
  rw [Shell.drain]
  split
  · rename_i hnone
    rw [h] at hnone
    cases hnone
  · rename_i hsome
    rw [h] at hsome
    cases hsome
    rfl

/-- The statements that are complete in the buffer are handed over, and the rest of the script is
what is left. -/
theorem hands_drain (hu : u.Lawful) (buf more : List Char) (d : ScriptTree)
    (h : Lexes u (buf ++ more) d.yield) :
    ∃ (ss : List Statement) (left : List Char) (d' : ScriptTree),
      d.statements = ss ++ d'.statements ∧ splitStatement left = none ∧
      Lexes u (left ++ more) d'.yield ∧
      ∀ hadError, Hands (fun r => r.1 = left) (Shell.drain u buf hadError) ss := by
  match hsome : splitStatement buf with
  | none =>
    refine ⟨[], buf, d, rfl, hsome, h, fun hadError => ?_⟩
    rw [drain_none hsome]
    exact .done rfl
  | some (stmt, rest) =>
    have hwhole := splitFrom_append hsome more
    rcases h.split hu with ⟨hnone, -⟩ | ⟨a, b, w₁, w₂, hsplit, -, hw, hw₁, ha, hb⟩
    · rw [splitStatement, hwhole] at hnone
      cases hnone
    · rw [splitStatement, hwhole] at hsplit
      cases hsplit
      obtain ⟨rest', rfl, h⟩ := Grammar.ScriptTree.split hw₁ hw
      -- What the text in front of the semicolon stands for.
      have hfirst : ∃ ss₁, d.statements = ss₁ ++ rest'.statements ∧
          Hands (fun _ => True) (Shell.statement u stmt) ss₁ := by
        rcases h with ⟨rfl, rfl⟩ | ⟨s, rfl, rfl⟩
        · exact ⟨[], rfl, hands_blank hu ha⟩
        · exact ⟨[statement.value s], rfl, hands_statement hu ha⟩
      obtain ⟨ss₁, hss₁, hands₁⟩ := hfirst
      obtain ⟨ss, left, d', hss, hleft, hd', hands⟩ := hands_drain hu rest more rest' hb
      refine ⟨ss₁ ++ ss, left, d', by rw [hss₁, hss, List.append_assoc], hleft, hd', ?_⟩
      intro hadError
      rw [drain_some hsome]
      exact hands₁.bind fun failed _ => hands _
termination_by buf.length
decreasing_by exact length_splitFrom hsome

/-- A line that would run a command is not the next line of a script. -/
theorem not_dot_line (hu : u.Lawful) {buf line more : List Char} {w : List Token}
    (h : Lexes u (buf ++ (line ++ more)) w) :
    (Shell.blank u buf && (Shell.trimStart u line).head? == some '.') = false := by
  refine Bool.eq_false_iff.mpr fun hdot => ?_
  obtain ⟨hblank, hhead⟩ := Bool.and_eq_true_iff.mp hdot
  have hhead := beq_iff_eq.mp hhead
  refine h.not_dot hu ?_
  rw [Shell.trimStart, List.dropWhile_append_of_pos (List.all_eq_true.mp hblank),
    List.dropWhile_append]
  rw [Shell.trimStart] at hhead
  cases hline : line.dropWhile u.isWhitespace with
  | nil =>
    rw [hline] at hhead
    cases hhead
  | cons c rest =>
    rw [hline] at hhead
    exact hhead

/-- **The loop hands over the script** that is left of the input, from a buffer without a complete
statement. -/
theorem hands_runFrom (hu : u.Lawful) (prompt : Bool) (lines : List (List Char)) :
    ∀ (buf : List Char) (hadError : Bool) (d : ScriptTree), splitStatement buf = none →
      Lexes u (buf ++ lines.flatten) d.yield →
      Hands (fun _ => True) (Shell.runFrom u prompt buf hadError lines) d.statements := by
  induction lines with
  | nil =>
    intro buf hadError d hnone h
    rw [List.flatten_nil, List.append_nil] at h
    rw [Shell.runFrom]
    rw [← List.nil_append d.statements]
    refine (hands_showPrompt prompt buf).bind fun _ _ => ?_
    rcases h.split hu with ⟨-, hw⟩ | ⟨a, b, w₁, w₂, hsplit, -⟩
    · rcases Grammar.ScriptTree.whole hw with rfl | ⟨s, rfl⟩
      · rw [if_pos ((h.blank_iff hu).mpr rfl)]
        exact .done trivial
      · rw [if_neg fun hb => statement_yield_ne_nil s ((h.blank_iff hu).mp hb)]
        have hlast := hands_statement hu h
        rw [← List.append_nil (Grammar.ScriptTree.statements _)]
        exact hlast.bind fun _ _ => .done trivial
    · rw [hnone] at hsplit
      cases hsplit
  | cons line lines ih =>
    intro buf hadError d hnone h
    rw [List.flatten_cons] at h
    rw [Shell.runFrom]
    rw [← List.nil_append d.statements]
    refine (hands_showPrompt prompt buf).bind fun _ _ => ?_
    rw [not_dot_line hu h]
    rw [← List.append_assoc] at h
    obtain ⟨ss, left, d', hss, hleft, hd', hands⟩ := hands_drain hu _ _ d h
    rw [hss]
    refine (hands hadError).bind fun r hr => ?_
    obtain ⟨buf, hadError⟩ := r
    cases hr
    exact ih _ _ d' hleft hd'

theorem flatten_readLines (input : List Char) : (readLines input).flatten = input := by
  induction input with
  | nil => rfl
  | cons c rest ih =>
    rw [readLines]
    split
    · rw [List.flatten_cons, ih]
      rfl
    · cases hlines : readLines rest with
      | nil =>
        rw [hlines] at ih
        rw [← ih]
        rfl
      | cons line lines =>
        rw [hlines] at ih
        rw [← ih]
        rfl

variable {H : Host}

/-- What handing over the statements does to a session. -/
theorem Hands.interp {α : Type} {Q : α → Prop} {p : ShellM α} {ss : List Statement}
    (h : Hands Q p ss) (s : Session H) : Prod.snd <$> p.interp (Shell.carryOut u) s =
      ss.foldlM (fun (s : Session H) stmt => Prod.snd <$> s.executeStatement u stmt) s := by
  induction h generalizing s with
  | done h => rfl
  | prompt h ih => exact ih s
  | @executeStatement stmt next ss h ih =>
    rw [List.foldlM_cons, bind_map_left]
    change Prod.snd <$> (Shell.carryOut u (.executeStatement stmt) s >>= fun r =>
      (next r.1).interp (Shell.carryOut u) r.2) = _
    rw [Shell.carryOut, bind_assoc, map_bind]
    exact bind_congr fun r => ih _ _

/-- **The shell runs what the parser reads.** Whatever statements the parser reads from a text, the
shell hands over exactly these, in order and each once, and nothing else: it takes no line for a
command and reports nothing. It does so however the text is broken into lines, and whatever becomes
of the statements; so its session ends as if they were run in it one by one. -/
theorem shell_agrees (u : Unicode) (hu : u.Lawful) (t : String) (stmts : List Statement)
    (h : parseScript u t = .ok stmts) (prompt : Bool) :
    (∀ lines : List (List Char), lines.flatten = t.toList →
      Hands (fun _ => True) (Shell.runFrom u prompt [] false lines) stmts) ∧
    Hands (fun _ => True) (Shell.run u prompt t) stmts ∧
    ∀ (H : Host) (s : Session H), Prod.snd <$> (Shell.run u prompt t).interp (Shell.carryOut u) s =
      stmts.foldlM (fun (s : Session H) stmt => Prod.snd <$> s.executeStatement u stmt) s := by
  obtain ⟨ts, hlex, hs⟩ := parseScript_eq_ok.mp h
  obtain ⟨d, hyield, rfl⟩ := statements_eq_ok.mp hs
  have hlexes : Lexes u t.toList d.yield := (lexFrom_ok_iff hu 0).mp ⟨ts, hlex, hyield.symm⟩
  have hlines : ∀ lines : List (List Char), lines.flatten = t.toList →
      Hands (fun _ => True) (Shell.runFrom u prompt [] false lines) d.statements := by
    intro lines hlines
    refine hands_runFrom hu prompt lines [] false d rfl ?_
    rw [hlines]
    exact hlexes
  have hrun := hlines _ (flatten_readLines t.toList)
  exact ⟨hlines, hrun, fun H s => hrun.interp s⟩

/-- Two statements over three lines, with a semicolon and a line break between quotes. -/
theorem shell_agrees_sample : Hands (fun _ => True)
    (Shell.run Unicode.ascii true "BEGIN; DELETE FROM t\n WHERE a = ';\n.'';';;")
    [.begin, .delete "t" (some (.binary (.column "a") .eq (.literal (.text ";\n.';"))))] :=
  (shell_agrees Unicode.ascii Unicode.lawful_ascii _ _ (by decide +kernel) true).2.1

end Choam

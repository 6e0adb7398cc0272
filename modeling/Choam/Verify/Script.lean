import Choam.Verify.Shell
import Choam.Verify.RoundTrip

/-!
# Scripts put together

Behind a script and a semicolon, any text is read as it is read alone (`parseScript_append`), so
statements that are written one after the other are read back (`parseScript_scriptText`).
-/

namespace Choam

open Choam.Lexer Choam.Grammar

variable {u : Unicode}

/-! ## A semicolon behind a text -/

theorem takeWhile_then_semicolon {p : Char → Bool} (hp : p ';' = false) (rest b : List Char) :
    (rest ++ ';' :: b).takeWhile p = rest.takeWhile p ∧
      (rest ++ ';' :: b).dropWhile p = rest.dropWhile p ++ ';' :: b := by
  induction rest with
  | nil => simp [hp]
  | cons c rest ih =>
    rw [List.cons_append]
    by_cases hc : p c = true
    · simp [hc, ih]
    · simp [hc]

/-- A token stays what it is where a semicolon follows the text. -/
theorem Scan.then_semicolon (hu : u.Lawful) {cs after : List Char} {t : Token}
    (h : Scan u cs t after) (b : List Char) : Scan u (cs ++ ';' :: b) t (after ++ ';' :: b) := by
  cases h with
  | punctuation h => exact .punctuation h
  | @comparison c _ more rest h =>
    obtain ⟨-, ⟨rfl, hnone⟩ | ⟨d, rfl, hd, -⟩⟩ := comparison_cases h
    · refine @Scan.comparison u c t 0 (rest ++ ';' :: b) ?_
      cases rest with
      | cons d rest => exact h
      | nil =>
        unfold Choam.comparison at hnone ⊢
        split at hnone <;> cases hnone <;> rfl
    · cases rest with
      | nil => cases hd
      | cons e rest => exact @Scan.comparison u c t 1 (e :: (rest ++ ';' :: b)) h
  | string h =>
    obtain ⟨hhead, front, rfl, -, hlex⟩ := lexString_passes h
    rw [List.cons_append, List.append_assoc]
    refine .string (hlex _ fun c hc => ?_)
    cases after with
    | nil =>
      cases hc
      decide
    | cons d after => exact hhead c hc
  | @integer c rest hc hn =>
    obtain ⟨htake, hdrop⟩ := takeWhile_then_semicolon (p := Char.isDigit) rfl rest b
    have hscan := @Scan.integer u c (rest ++ ';' :: b) hc
    rw [htake, hdrop] at hscan
    exact hscan hn
  | @word c rest hc =>
    have hsemi : isWordChar u ';' = false :=
      Bool.eq_false_iff.mpr fun h => (wordChar_plain hu h).2 rfl
    obtain ⟨htake, hdrop⟩ := takeWhile_then_semicolon hsemi rest b
    have hscan := @Scan.word u c (rest ++ ';' :: b) hc
    rw [htake, hdrop] at hscan
    exact hscan

/-- The lexer goes on behind the semicolon as at the beginning of a text. -/
theorem Lexes.then_semicolon (hu : u.Lawful) {a : List Char} {w : List Token} (h : Lexes u a w)
    (b : List Char) (pos : Nat) : ∃ ts pos', ts.map Prod.fst = w ++ [.semicolon] ∧
      lexFrom u (a ++ ';' :: b) pos = (lexFrom u b pos').map (ts ++ ·) := by
  induction h generalizing pos with
  | nil =>
    exact ⟨[(.semicolon, pos)], _, rfl, lexFrom_scan hu (.punctuation rfl) pos⟩
  | @space c rest w hc h ih =>
    obtain ⟨ts, pos', hw, hlex⟩ := ih (pos + c.utf8Size)
    refine ⟨ts, pos', hw, ?_⟩
    rw [List.cons_append, lexFrom]
    simp only [hc, if_true]
    exact hlex
  | @token cs after t w hs h ih =>
    obtain ⟨ts, pos', hw, hlex⟩ := ih _
    refine ⟨(t, pos) :: ts, pos', congrArg (t :: ·) hw, ?_⟩
    rw [lexFrom_scan hu (hs.then_semicolon hu b) pos, hlex]
    cases lexFrom u b pos' with
    | error e => rfl
    | ok ts' => rfl

/-! ## Scripts -/

namespace Grammar.ScriptTree

/-- One script behind another. -/
def append : ScriptTree → ScriptTree → ScriptTree
  | done, d' => semicolon d'
  | semicolon rest, d' => semicolon (rest.append d')
  | last s, d' => next s d'
  | next s rest, d' => next s (rest.append d')

theorem yield_append (d d' : ScriptTree) :
    (d.append d').yield = d.yield ++ .semicolon :: d'.yield := by
  induction d with
  | done => rfl
  | semicolon rest ih => exact congrArg (Token.semicolon :: ·) ih
  | last s => rfl
  | next s rest ih =>
    rw [append, yield, yield, ih, List.append_assoc, List.cons_append]

theorem statements_append (d d' : ScriptTree) :
    (d.append d').statements = d.statements ++ d'.statements := by
  induction d with
  | done => rfl
  | semicolon rest ih => exact ih
  | last s => rfl
  | next s rest ih => exact congrArg (statement.value s :: ·) ih

/-- Behind a script and a semicolon comes a script. -/
theorem exists_rest (d : ScriptTree) {whole : ScriptTree} {w : List Token}
    (h : whole.yield = d.yield ++ .semicolon :: w) : ∃ d' : ScriptTree, d'.yield = w := by
  induction d generalizing whole with
  | done =>
    obtain ⟨rest, hrest, -⟩ := @split _ [] _ List.not_mem_nil h
    exact ⟨rest, hrest⟩
  | semicolon d ih =>
    obtain ⟨rest, hrest, -⟩ := @split _ [] _ List.not_mem_nil h
    exact ih hrest
  | last s =>
    obtain ⟨rest, hrest, -⟩ := split (semicolon_notMem s) h
    exact ⟨rest, hrest⟩
  | next s d ih =>
    rw [yield, List.append_assoc, List.cons_append] at h
    obtain ⟨rest, hrest, -⟩ := split (semicolon_notMem s) h
    exact ih hrest

end Grammar.ScriptTree

/-- Behind a text that parses and a semicolon, any text is parsed as it is alone. -/
theorem parseScript_semicolon (hu : u.Lawful) {a b : String} {ss : List Statement}
    (ha : parseScript u a = .ok ss) (ss' : List Statement) :
    parseScript u (a ++ ";" ++ b) = .ok ss' ↔
      ∃ rest, parseScript u b = .ok rest ∧ ss' = ss ++ rest := by
  obtain ⟨ts, hlex, hs⟩ := parseScript_eq_ok.mp ha
  obtain ⟨d, hyield, rfl⟩ := statements_eq_ok.mp hs
  have ha : Lexes u a.toList d.yield := (lexFrom_ok_iff hu 0).mp ⟨ts, hlex, hyield.symm⟩
  obtain ⟨front, pos, hfront, hwhole⟩ := ha.then_semicolon hu b.toList 0
  have hchars : (a ++ ";" ++ b).toList = a.toList ++ ';' :: b.toList := by simp
  rw [parseScript_eq_ok, lex, hchars, hwhole]
  constructor
  · rintro ⟨all, hall, hstatements⟩
    obtain ⟨tail, htail, rfl⟩ :
        ∃ tail, lexFrom u b.toList pos = .ok tail ∧ front ++ tail = all := by
      cases hx : lexFrom u b.toList pos with
      | error e =>
        rw [hx] at hall
        cases hall
      | ok tail =>
        rw [hx] at hall
        exact ⟨tail, rfl, Except.ok.inj hall⟩
    obtain ⟨whole, hw, rfl⟩ := statements_eq_ok.mp hstatements
    rw [List.map_append, hfront, List.append_assoc, List.singleton_append] at hw
    obtain ⟨d', hd'⟩ := d.exists_rest hw
    obtain rfl : whole = d.append d' :=
      ScriptTree.yield_inj _ _ (by rw [hw, ScriptTree.yield_append, hd'])
    -- the tokens of `b` are the same, wherever it begins
    obtain ⟨ts', hts', hmap⟩ := (lexFrom_ok_iff hu 0).mpr (lexes_of_ok _ _ tail htail)
    refine ⟨d'.statements, parseScript_eq_ok.mpr ⟨ts', hts', statements_eq_ok.mpr ⟨d', ?_, rfl⟩⟩,
      d.statements_append d'⟩
    rw [hmap, hd']
  · rintro ⟨rest, hb, rfl⟩
    obtain ⟨ts', hlex', hs'⟩ := parseScript_eq_ok.mp hb
    obtain ⟨d', hyield', rfl⟩ := statements_eq_ok.mp hs'
    obtain ⟨tail, htail, hmap⟩ := (lexFrom_ok_iff hu pos).mpr (lexes_of_ok _ _ ts' hlex')
    refine ⟨front ++ tail, by rw [htail]; rfl, statements_eq_ok.mpr
      ⟨d.append d', ?_, d.statements_append d'⟩⟩
    rw [ScriptTree.yield_append, List.map_append, hfront, hmap, hyield', List.append_assoc,
      List.singleton_append]

/-- **Scripts are put together by a semicolon**: behind a text that parses, any text is parsed as it
is alone, and the statements are those of the one and then those of the other. -/
theorem parseScript_append (hu : u.Lawful) {a b : String} {ss : List Statement}
    (ha : parseScript u a = .ok ss) (ss' : List Statement) :
    parseScript u (a ++ ";" ++ b) = .ok ss' ↔
      ∃ rest, parseScript u b = .ok rest ∧ ss' = ss ++ rest :=
  parseScript_semicolon hu ha ss'

/-- Two texts, the second of them with blank statements. -/
theorem parseScript_append_sample :
    parseScript .ascii ("BEGIN" ++ ";" ++ ";; commit ;") = .ok [.begin, .commit] ↔
      ∃ rest, parseScript .ascii ";; commit ;" = .ok rest ∧ [.begin, .commit] = [.begin] ++ rest :=
  parseScript_append Unicode.lawful_ascii (by decide +kernel) [.begin, .commit]

/-! ## Statements written one after the other -/

/-- Statements as a text, each with a semicolon behind it. -/
def scriptText (texts : List String) : String := texts.foldr (fun t rest => t ++ ";" ++ rest) ""

/-- **A script that is written out is read back.** -/
theorem parseScript_scriptText (hu : u.Lawful) {ss : List Statement}
    (h : ∀ s ∈ ss, s.WellFormed u) :
    parseScript u (scriptText (ss.map Statement.display)) = .ok ss := by
  induction ss with
  | nil =>
    have hlex : lex u "" = .ok [] := by
      rw [lex]
      change lexFrom u [] 0 = .ok []
      rw [lexFrom]
    exact parseScript_eq_ok.mpr ⟨[], hlex, statements_eq_ok.mpr ⟨.done, rfl, rfl⟩⟩
  | cons s ss ih =>
    obtain ⟨hs, hrest⟩ := List.forall_mem_cons.mp h
    have hone := parse_eq_ok.mp (parse_display hu hs)
    exact (parseScript_semicolon hu hone _).mpr ⟨ss, ih hrest, rfl⟩

end Choam

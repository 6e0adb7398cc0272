import Choam.Verify.Parsing

/-!
# What the parser accepts, and where it reports an error

The parser accepts exactly the scripts that the grammar derives (`parser_recognises_grammar`), and
reports an error at the first token with which the input stops being the beginning of a script
(`errors_located_iff`), but where a LIMIT ends the input.
-/

namespace Choam

open Choam.Parser Choam.Grammar
open Phrase (Reads)

variable {u : Unicode}

/-! ## What the parser accepts -/

/-- What is read of a text that the grammar can start with at all. -/
theorem statements_eq_ok {ts : Tokens} {ss : List Statement} :
    Parser.statements u ts = .ok ss ↔
      ∃ d : ScriptTree, d.yield = ts.map Prod.fst ∧ d.statements = ss := by
  have hreads := reads_statements (u := u) ts
  constructor
  · intro h
    rw [h] at hreads
    generalize hx : whole (.ok ss) = x at hreads
    cases hreads with
    | error => cases hx
    | ok d w r split yield stops =>
      cases hx
      refine ⟨d, ?_, rfl⟩
      rw [split, List.append_nil]
      exact yield.symm
  · rintro ⟨d, hyield, rfl⟩
    have hscript : ∀ n, script.Unambiguous n := by
      intro n d d' c c' hs hs' heq _
      rw [stops_false (fun _ _ => id) hs, stops_false (fun _ _ => id) hs', List.append_nil,
        List.append_nil] at heq
      exact ScriptTree.yield_inj d d' heq
    obtain ⟨hc, hx⟩ := hreads.complete hscript (d := d) (w := ts) (c := [])
      (List.append_nil ts).symm hyield.symm (Phrase.stops_nil _ _)
    cases h : Parser.statements u ts with
    | error e =>
      rw [h] at hx
      cases hx
    | ok ss =>
      rw [h] at hx
      cases hx
      rfl

theorem parseScript_eq_ok {sql : String} {ss : List Statement} :
    parseScript u sql = .ok ss ↔
      ∃ ts, lex u sql = .ok ts ∧ Parser.statements u ts = .ok ss := by
  rw [parseScript]
  cases lex u sql with
  | error e => exact ⟨(fun h => nomatch h), fun ⟨_, h, _⟩ => nomatch h⟩
  | ok ts => exact ⟨fun h => ⟨ts, rfl, h⟩, fun ⟨_, h, hs⟩ => by cases h; exact hs⟩

theorem parse_eq_ok {sql : String} {s : Statement} :
    parse u sql = .ok s ↔ parseScript u sql = .ok [s] := by
  rw [parse]
  cases h : parseScript u sql with
  | error e => exact ⟨(fun h => nomatch h), fun h => nomatch h⟩
  | ok ss =>
    match ss with
    | [] => exact ⟨(fun h => nomatch h), fun h => nomatch h⟩
    | [s'] =>
      refine ⟨fun h => ?_, fun h => ?_⟩ <;>
      · cases h
        rfl
    | _ :: _ :: _ => exact ⟨(fun h => nomatch h), fun h => nomatch h⟩

/-- **The parser recognises exactly the grammar.** It accepts a sequence of tokens exactly when some
derivation yields them, and returns the statements that this derivation stands for; no other
derivation yields the same tokens. Likewise an expression is read off the front of the tokens
exactly when it is what a derivation of them stands for that ends there, whatever the parentheses. -/
theorem parser_recognises_grammar (u : Unicode) :
    (∀ ts ss, Parser.statements u ts = .ok ss ↔
      ∃ d : ScriptTree, d.yield = ts.map Prod.fst ∧ d.statements = ss) ∧
    (∀ sql ss, parseScript u sql = .ok ss ↔ ∃ ts, lex u sql = .ok ts ∧
      ∃ d : ScriptTree, d.yield = ts.map Prod.fst ∧ d.statements = ss) ∧
    (∀ d d' : ScriptTree, d.yield = d'.yield → d = d') ∧
    (∀ ts e r, Parser.expr u ts = .ok (e, r) ↔ ∃ (d : ExprTree .or) (w : Tokens),
      ts = w ++ r.val ∧ d.yield = w.map Prod.fst ∧ d.value = e ∧
        ∀ t ∈ (r.val.map Prod.fst).head?, d.Stop t) ∧
    (∀ l, ∀ d d' : ExprTree l, d.yield = d'.yield → d = d') := by
  refine ⟨fun ts ss => statements_eq_ok, fun sql ss => ?_, ScriptTree.yield_inj, ?_, ?_⟩
  · rw [parseScript_eq_ok]
    exact exists_congr fun ts => and_congr_right fun _ => statements_eq_ok
  · intro ts e r
    have hreads := reads_expr (u := u) ts
    constructor
    · intro h
      rw [h] at hreads
      generalize hx : (Except.ok (e, r) : Except ParseError (Expr × Shorter ts)) = x at hreads
      cases hreads with
      | error => cases hx
      | ok d w r' split yield stops =>
        cases hx
        exact ⟨d, w, split, yield.symm, rfl, stops⟩
    · rintro ⟨d, w, hsplit, hyield, rfl, hstops⟩
      obtain ⟨_, hx⟩ := hreads.complete (lawful_expr u).unambiguous (d := d) hsplit hyield.symm
        hstops
      exact hx
  · intro l d d' h
    refine (lawful_exprAt u l).unambiguous _ d d' [] [] (Phrase.stops_nil _ _)
      (Phrase.stops_nil _ _) ?_ (Nat.lt_succ_self _)
    rw [List.append_nil, List.append_nil]
    exact h

/-! ## Where errors are reported -/

/-- Some script that the parser accepts starts with these tokens. -/
def ViablePrefix (u : Unicode) (w : List Token) : Prop :=
  ∃ q ts ss, ts.map Prod.fst = w ++ q ∧ Parser.statements u ts = .ok ss

theorem viablePrefix_iff {w : List Token} : ViablePrefix u w ↔ script.Viable w := by
  constructor
  · rintro ⟨q, ts, ss, hw, hss⟩
    obtain ⟨d, hyield, -⟩ := statements_eq_ok.mp hss
    exact ⟨d, q, hyield.trans hw⟩
  · rintro ⟨d, q, hyield⟩
    have hmap : ((w ++ q).map (·, 0)).map Prod.fst = w ++ q := by
      rw [List.map_map]
      exact List.map_id _
    exact ⟨q, (w ++ q).map (·, 0), d.statements, hmap,
      statements_eq_ok.mpr ⟨d, hyield.trans hmap.symm, rfl⟩⟩

/-- The error for the tokens `ts` stands at the first of them with which they stop being the
beginning of a script, or at the end of the input where there is none. -/
def Located (u : Unicode) (ts : Tokens) (e : ParseError) : Prop :=
  (ViablePrefix u (ts.map Prod.fst) ↔ ∃ expected, e = .unexpectedEnd expected) ∧
    (¬ ViablePrefix u (ts.map Prod.fst) → ∃ p t pos r expected, ts = p ++ (t, pos) :: r ∧
      ViablePrefix u (p.map Prod.fst) ∧ ¬ ViablePrefix u (p.map Prod.fst ++ [t]) ∧
        e = .unexpected (t.debug u) expected pos)

/-- The tokens are the beginning of a script, cut off behind a LIMIT. -/
def CutAtLimit (ts : Tokens) : Prop :=
  (∃ t ∈ ts.getLast?, isLimit t.1) ∧ script.Viable (ts.map Prod.fst)

/-- **Errors are reported at the first offending token**, but where the input ends behind a LIMIT:
then the LIMIT itself is reported, as if it were the token that does not belong there. -/
theorem errors_located_iff (u : Unicode) (sql : String) (ts : Tokens) (e : ParseError)
    (hlex : lex u sql = .ok ts) (he : parseScript u sql = .error e) :
    Located u ts e ↔ ¬ CutAtLimit ts := by
  have hstatements : Parser.statements u ts = .error e := by
    rw [parseScript, hlex] at he
    exact he
  have hreads := reads_statements (u := u) ts
  rw [hstatements] at hreads
  generalize hx : whole (.error e) = x at hreads
  cases hreads with
  | ok => cases hx
  | error p r e' split stands viable blocked =>
    cases hx
    rw [Located, viablePrefix_iff]
    cases stands with
    | limit p t ht expected =>
      -- All tokens were read, and yet the error stands at the last one.
      rw [List.append_nil] at split
      subst split
      have hcut : CutAtLimit (p ++ [t]) := ⟨⟨t, by simp, ht⟩, viable⟩
      refine iff_of_false (fun hloc => ?_) (not_not.mpr hcut)
      obtain ⟨_, hend⟩ := hloc.1.mp viable
      cases hend
    | here _ _ expected hlast =>
      cases r with
      | nil =>
        rw [List.append_nil] at split
        subst split
        refine iff_of_true ⟨iff_of_true viable ⟨expected, rfl⟩, fun h => absurd viable h⟩ ?_
        rintro ⟨⟨t, ht, hlimit⟩, -⟩
        exact hlast rfl t ht hlimit
      | cons t r =>
        have hdead : ∀ q, ¬ script.Viable (p.map Prod.fst ++ t.1 :: q) := by
          rintro q ⟨d, q', hyield⟩
          refine blocked d [] (t.1 :: q ++ q') (Phrase.stops_nil _ _) ?_ rfl
          rw [List.append_nil, hyield, List.append_assoc]
        have hts : ¬ script.Viable (ts.map Prod.fst) := by
          rw [split, List.map_append, List.map_cons]
          exact hdead _
        refine iff_of_true ⟨iff_of_false hts fun h => ?_, fun _ => ?_⟩ fun h => hts h.2
        · obtain ⟨_, h⟩ := h
          cases h
        · refine ⟨p, t.1, t.2, r, expected, split, viablePrefix_iff.mpr viable, ?_, rfl⟩
          rw [viablePrefix_iff]
          exact hdead []

theorem errors_located_iff_sample :
    Located .ascii [(.word "SELECT", 0), (.word "FROM", 7)]
      (.unexpected "Word(\"FROM\")" "column name or `*`" 7) ↔
        ¬ CutAtLimit [(.word "SELECT", 0), (.word "FROM", 7)] :=
  errors_located_iff .ascii "SELECT FROM" _ _ (by decide +kernel) (by decide +kernel)

/-- A SELECT cut off behind its LIMIT only stopped too early, but the LIMIT is reported. -/
theorem not_located_at_limit : ∃ sql ts e, lex .ascii sql = .ok ts ∧
    parseScript .ascii sql = .error e ∧ ¬ Located .ascii ts e := by
  refine ⟨"SELECT a FROM t LIMIT", [(.word "SELECT", 0), (.word "a", 7), (.word "FROM", 9),
    (.word "t", 14), (.word "LIMIT", 16)], .unexpected "Word(\"LIMIT\")" "an integer" 16,
    by decide +kernel, by decide +kernel, fun h => ?_⟩
  have hviable : ViablePrefix .ascii [.word "SELECT", .word "a", .word "FROM", .word "t",
      .word "LIMIT"] :=
    ⟨[.integer 5], [(.word "SELECT", 0), (.word "a", 7), (.word "FROM", 9), (.word "t", 14),
      (.word "LIMIT", 16), (.integer 5, 22)],
      [.select (.columns ["a"]) "t" none none (some 5)], by decide +kernel, by decide +kernel⟩
  obtain ⟨_, hend⟩ := h.1.mp hviable
  cases hend

end Choam

import Choam.Verify.Script
import Choam.Verify.Output

/-!
# The shell fails where the parser rejects

The shell parses the pieces between semicolons, one by one. A text of which every piece parses is a
script (`parseScript_semicolon`), so that in a text that is none the shell meets a piece that does
not parse, and says so (`shell_rejects`).
-/

namespace Choam

open Choam.Grammar

variable {u : Unicode} {α : Type}

/-- The text is a script. -/
def Accepted (u : Unicode) (text : List Char) : Prop :=
  ∃ ss, parseScript u (String.ofList text) = .ok ss

theorem accepted_of_blank (hu : u.Lawful) {text : List Char} (h : Shell.blank u text = true) :
    Accepted u text := by
  have hlexes : Lexes u text [] := by
    induction text with
    | nil => exact .nil
    | cons c text ih =>
      rw [Shell.blank, List.all_cons] at h
      obtain ⟨hc, htext⟩ := Bool.and_eq_true_iff.mp h
      exact .space hc (ih htext)
  obtain ⟨ts, hlex, hmap⟩ := (lexFrom_ok_iff hu 0).mpr hlexes
  refine ⟨[], parseScript_eq_ok.mpr ⟨ts, ?_, statements_eq_ok.mpr ⟨.done, hmap.symm, rfl⟩⟩⟩
  rw [lex, String.toList_ofList]
  exact hlex

/-- A script in front of a semicolon and another one. -/
theorem Accepted.semicolon (hu : u.Lawful) {text rest : List Char} (h : Accepted u text)
    (hrest : Accepted u rest) : Accepted u (text ++ ';' :: rest) := by
  obtain ⟨ss, hss⟩ := h
  obtain ⟨ss', hss'⟩ := hrest
  have htext : String.ofList (text ++ ';' :: rest) =
      String.ofList text ++ ";" ++ String.ofList rest := by
    apply String.toList_inj.mp
    simp
  refine ⟨ss ++ ss', ?_⟩
  rw [htext]
  exact (parseScript_semicolon hu hss _).mpr ⟨ss', hss', rfl⟩

theorem splitFrom_eq {inStr : Bool} {buf stmt rest : List Char}
    (h : splitFrom inStr buf = some (stmt, rest)) : buf = stmt ++ ';' :: rest := by
  induction buf generalizing inStr stmt with
  | nil => cases h
  | cons ch buf ih =>
    rw [splitFrom] at h
    split at h
    · obtain ⟨r, hr, heq⟩ := Option.map_eq_some_iff.mp h
      cases heq
      exact congrArg (ch :: ·) (ih hr)
    · split at h
      next hsemi =>
        cases h
        rw [hsemi.1]
        rfl
      next =>
        obtain ⟨r, hr, heq⟩ := Option.map_eq_some_iff.mp h
        cases heq
        exact congrArg (ch :: ·) (ih hr)

namespace Shell

/-- Whatever it is answered, what the program ends with satisfies `Q`. -/
abbrev Whatever (p : ShellM α) (Q : α → Prop) : Prop :=
  p.Ensures (fun _ _ => True) (fun _ => True) Q

theorem whatever_showPrompt (prompt : Bool) (buf : List Char) {p : ShellM α} {Q : α → Prop}
    (h : Whatever p Q) : Whatever (showPrompt u prompt buf >>= fun _ => p) Q :=
  Prog.ensures_bind_of fun _ => h

/-- A statement fails unless it parses. -/
theorem statement_rejects (hu : u.Lawful) (text : List Char) :
    Whatever (statement u text) fun failed => failed = true ∨ Accepted u text := by
  unfold statement
  split
  next hblank => exact .inr (accepted_of_blank hu hblank)
  next =>
    cases hparse : parse u (String.ofList text) with
    | ok stmt => exact ⟨trivial, fun _ _ => .inr ⟨[stmt], parse_eq_ok.mp hparse⟩⟩
    | error e => exact ⟨trivial, fun _ _ => .inl rfl⟩

/-- Unless one of the statements at the front of the buffer has failed, the text is a script if that
is one which is left. -/
theorem drain_rejects (hu : u.Lawful) (buf : List Char) (hadError : Bool) :
    Whatever (drain u buf hadError) fun r => r.2 = true ∨ hadError = false ∧
      ∀ more, Accepted u (r.1 ++ more) → Accepted u (buf ++ more) := by
  induction hn : buf.length using Nat.strongRecOn generalizing buf hadError with
  | ind n ih =>
    cases hsplit : splitStatement buf with
    | none =>
      rw [drain_none hsplit]
      cases hadError with
      | true => exact .inl rfl
      | false => exact .inr ⟨rfl, fun _ h => h⟩
    | some r =>
      obtain ⟨stmt, rest⟩ := r
      rw [drain_some hsplit]
      refine Prog.ensures_bind.mpr ((statement_rejects hu stmt).mono fun failed hfailed => ?_)
      refine (ih _ (hn ▸ length_splitFrom hsplit) rest (hadError || failed) rfl).mono fun r hr => ?_
      refine hr.imp_right fun hr => ?_
      obtain ⟨hnone, hmore⟩ := hr
      obtain ⟨rfl, rfl⟩ := Bool.or_eq_false_iff.mp hnone
      have hstmt := hfailed.resolve_left Bool.false_ne_true
      refine ⟨rfl, fun more h => ?_⟩
      rw [splitFrom_eq hsplit, List.append_assoc, List.cons_append]
      exact hstmt.semicolon hu (hmore more h)

/-- The loop fails, unless what it holds and the lines that are left make a script. -/
theorem runFrom_rejects (hu : u.Lawful) (prompt : Bool) (lines : List (List Char))
    (hlines : ∀ line ∈ lines, (trimStart u line).head? ≠ some '.') (buf : List Char)
    (hadError : Bool) : Whatever (runFrom u prompt buf hadError lines) fun failed =>
      failed = true ∨ hadError = false ∧ Accepted u (buf ++ lines.flatten) := by
  induction lines generalizing buf hadError with
  | nil =>
    rw [runFrom, List.flatten_nil, List.append_nil]
    refine whatever_showPrompt prompt buf ?_
    split
    next hblank =>
      cases hadError with
      | true => exact .inl rfl
      | false => exact .inr ⟨rfl, accepted_of_blank hu hblank⟩
    next =>
      refine Prog.ensures_bind.mpr ((statement_rejects hu buf).mono fun failed hfailed => ?_)
      cases hadError with
      | true => exact .inl rfl
      | false => exact hfailed.imp_right fun h => ⟨rfl, h⟩
  | cons line lines ih =>
    obtain ⟨hline, hlines⟩ := List.forall_mem_cons.mp hlines
    have hdot : (blank u buf && (trimStart u line).head? == some '.') = false := by
      rw [beq_eq_false_iff_ne.mpr hline, Bool.and_false]
    rw [runFrom, hdot, List.flatten_cons]
    refine whatever_showPrompt prompt buf ?_
    refine Prog.ensures_bind.mpr ((drain_rejects hu (buf ++ line) hadError).mono fun r hr => ?_)
    refine (ih hlines r.1 r.2).mono fun failed hfailed => hfailed.imp_right fun h => ?_
    obtain ⟨hadError', haccepted⟩ := h
    obtain ⟨hnone, hmore⟩ := hr.resolve_left (by rw [hadError']; exact Bool.false_ne_true)
    refine ⟨hnone, ?_⟩
    rw [← List.append_assoc]
    exact hmore _ haccepted

end Shell

variable {H : Host} {x : Texts H.StoreError}

/-- **What the parser rejects, the shell reports**: of a text that is no script, and none of whose
lines begins with a dot, the shell writes at least one error and says that something failed, however
it is broken into lines and whatever the store answers, unless it panics before. -/
theorem shell_rejects (hu : u.Lawful) {t : String} {e : ParseError}
    (h : parseScript u t = .error e)
    (hlines : ∀ line ∈ readLines t.toList, (Shell.trimStart u line).head? ≠ some '.')
    (prompt : Bool) (c : Console H) :
    Ends (Shell.runPrinted u x prompt t c) fun ended c' => ∀ failed, ended = some failed →
      failed = true ∧
        ∃ message errors, c'.err = c.err ++ ("error: " ++ message ++ "\n") :: errors := by
  have hrun : Shell.Whatever (Shell.run u prompt t) (· = true) := by
    refine (Shell.runFrom_rejects hu prompt _ hlines [] false).mono fun failed hfailed => ?_
    refine hfailed.resolve_right fun h' => ?_
    obtain ⟨-, ss, hss⟩ := h'
    rw [List.nil_append, flatten_readLines, String.ofList_toList, h] at hss
    cases hss
  have hfails : Ends (Shell.runPrinted u x prompt t c) fun ended _ => ∀ failed,
      ended = some failed → failed = true := hrun.interpUntil c
  refine (hfails.and (Shell.runPrinted_reports prompt t c)).mono fun r hr failed hended => ?_
  obtain ⟨hfailed, errors, herr, htexts, hiff⟩ := hr
  refine ⟨hfailed failed hended, ?_⟩
  cases errors with
  | nil => exact absurd rfl ((hiff failed hended).mp (hfailed failed hended))
  | cons error errors =>
    obtain ⟨message, rfl⟩ := htexts error List.mem_cons_self
    exact ⟨message, errors, herr⟩

/-- The second piece is no statement, in a fresh session with prompts. -/
theorem shell_rejects_sample : Ends (Shell.runPrinted (H := Reference.host true) .ascii .plain true
    "BEGIN; SELEKT\n * ;COMMIT" ⟨.new, [], []⟩) fun ended c' => ∀ failed, ended = some failed →
      failed = true ∧ ∃ message errors, c'.err = [] ++ ("error: " ++ message ++ "\n") :: errors := by
  have hrejected : parseScript .ascii "BEGIN; SELEKT\n * ;COMMIT" =
      .error (.unexpected "Word(\"SELEKT\")" "a statement" 7) := by decide +kernel
  exact shell_rejects Unicode.lawful_ascii hrejected (by decide +kernel) true ⟨.new, [], []⟩

end Choam

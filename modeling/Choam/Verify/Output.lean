import Choam.Verify.Transcript

/-!
# What the shell has written

Whatever the store answers, and so among any other clients: without the prompts the shell does and
writes the same (`prompts_invisible`); and a text that parses as a script is answered by the results
of its statements, in order, and nothing else (`script_output`), the results of `execute_script` as
far as the two do the same (`shell_begins_with_script`).
-/

namespace Choam

open Choam.Grammar

variable {H : Host} {u : Unicode} {x : Texts H.StoreError} {α β : Type}

/-! ## Prompts -/

namespace Console

@[simp] theorem withoutPrompts_print (c : Console H) (s : String) :
    (c.print s).withoutPrompts = c.withoutPrompts.print s := by
  simp [withoutPrompts, print, Shell.Printed.isText]

@[simp] theorem withoutPrompts_printAll (c : Console H) (texts : List String) :
    (c.printAll texts).withoutPrompts = c.withoutPrompts.printAll texts := by
  induction texts generalizing c with
  | nil => rfl
  | cons t texts ih =>
    have := ih (c.print t)
    rw [withoutPrompts_print] at this
    exact this

@[simp] theorem withoutPrompts_fail (c : Console H) (message : String) :
    (c.fail message).withoutPrompts = c.withoutPrompts.fail message := rfl

@[simp] theorem withoutPrompts_prompt (c : Console H) (more : Bool) :
    { c with out := c.out ++ [Shell.Printed.prompt more] }.withoutPrompts = c.withoutPrompts := by
  simp [withoutPrompts, Shell.Printed.isText]

@[simp] theorem withoutPrompts_withoutPrompts (c : Console H) :
    c.withoutPrompts.withoutPrompts = c.withoutPrompts := by
  simp [withoutPrompts]

end Console

namespace Shell

/-- A result without the prompts that were written on the way. -/
def unprompted (r : α × Console H) : α × Console H := (r.1, r.2.withoutPrompts)

theorem unprompted_dotPrinted (line : String) (c : Console H) :
    unprompted <$> dotPrinted u x line c = dotPrinted u x line c.withoutPrompts := by
  unfold dotPrinted
  split
  · rfl
  · rfl
  · rw [map_pure, unprompted, Console.withoutPrompts_print]
  · rw [map_bind]
    refine bind_congr fun r => ?_
    cases r with
    | ok ts =>
      dsimp only
      rw [map_pure, unprompted, Console.withoutPrompts_printAll]
    | error e => rfl
  · rw [map_bind]
    refine bind_congr fun r => ?_
    cases r with
    | error e => rfl
    | ok ts =>
      dsimp only
      split
      · rw [map_pure, unprompted, Console.withoutPrompts_printAll]
      · split
        · rfl
        · rw [map_pure, unprompted, Console.withoutPrompts_printAll]
  · rfl

theorem unprompted_executeStatement (stmt : Statement) (c : Console H) :
    unprompted <$> carryOutPrinted u x (.executeStatement stmt) c =
      carryOutPrinted u x (.executeStatement stmt) c.withoutPrompts := by
  change unprompted <$> (c.session.executeStatement u stmt >>= _) =
    c.session.executeStatement u stmt >>= _
  rw [map_bind]
  refine bind_congr fun r => ?_
  obtain ⟨e | r, s⟩ := r
  · dsimp only
    split <;> rfl
  · dsimp only
    split
    · rw [map_pure, unprompted, Console.withoutPrompts_print]
      rfl
    · rfl

/-- What is asked for is carried out alike, whatever prompts have been written. -/
theorem unprompted_carryOutPrinted (o : ShellOp) {c c' : Console H}
    (h : c.withoutPrompts = c'.withoutPrompts) :
    unprompted <$> carryOutPrinted u x o c = unprompted <$> carryOutPrinted u x o c' := by
  cases o with
  | prompt more =>
    refine congrArg Prog.done (congrArg (Prod.mk (some ())) ?_)
    rw [Console.withoutPrompts_prompt, Console.withoutPrompts_prompt, h]
  | dot line =>
    have heq (c : Console H) : unprompted <$> carryOutPrinted u x (.dot line) c =
        carryOutPrinted u x (.dot line) c.withoutPrompts := by
      change unprompted <$> (dotPrinted u x line c >>= _) =
        dotPrinted u x line c.withoutPrompts >>= _
      rw [← unprompted_dotPrinted, map_bind, bind_map_left]
      rfl
    rw [heq, heq, h]
  | executeStatement stmt => rw [unprompted_executeStatement, unprompted_executeStatement, h]
  | fail e =>
    refine congrArg Prog.done (congrArg (Prod.mk (some ())) ?_)
    rw [Console.withoutPrompts_fail, Console.withoutPrompts_fail, h]

/-- The two programs ask for the same, but for prompts. -/
inductive SamePrompted : ShellM α → ShellM α → Prop
  | done (a : α) : SamePrompted (.done a) (.done a)
  | left {more : Bool} {next : Unit → ShellM α} {p : ShellM α} (h : SamePrompted (next ()) p) :
      SamePrompted (.call (.prompt more) next) p
  | call {o : ShellOp} {next next' : o.Res → ShellM α} (h : ∀ r, SamePrompted (next r) (next' r)) :
      SamePrompted (.call o next) (.call o next')

namespace SamePrompted

variable {p p' : ShellM α}

theorem refl (p : ShellM α) : SamePrompted p p := by
  induction p with
  | done a => exact .done a
  | call o next ih => exact .call ih

theorem bind {f f' : α → ShellM β} (h : SamePrompted p p')
    (hf : ∀ a, SamePrompted (f a) (f' a)) : SamePrompted (p >>= f) (p' >>= f') := by
  induction h with
  | done a => exact hf a
  | left h ih => exact .left ih
  | call h ih => exact .call ih

theorem unprompted (h : SamePrompted p p') {c c' : Console H}
    (hc : c.withoutPrompts = c'.withoutPrompts) :
    Shell.unprompted <$> p.interpUntil (carryOutPrinted u x) c =
      Shell.unprompted <$> p'.interpUntil (carryOutPrinted u x) c' := by
  induction h generalizing c c' with
  | done a => exact congrArg Prog.done (congrArg (Prod.mk (some a)) hc)
  | left h ih => exact ih ((Console.withoutPrompts_prompt c _).trans hc)
  | @call o next next' h ih =>
    -- Nothing of the console but what is left of it without the prompts is used from here on.
    let rest (q : Option o.Res × Console H) : StoreM H (Option α × Console H) :=
      Shell.unprompted <$> q.1.elim (.done (none, q.2)) fun a =>
        (next' a).interpUntil (carryOutPrinted u x) q.2
    have hnext (r : Option o.Res × Console H) :
        Shell.unprompted <$> r.1.elim (.done (none, r.2)) (fun a =>
          (next a).interpUntil (carryOutPrinted u x) r.2) = rest (Shell.unprompted r) := by
      obtain ⟨_ | a, c₁⟩ := r
      · exact congrArg Prog.done (congrArg (Prod.mk none) c₁.withoutPrompts_withoutPrompts.symm)
      · exact ih a c₁.withoutPrompts_withoutPrompts.symm
    have hnext' (r : Option o.Res × Console H) : rest r = rest (Shell.unprompted r) := by
      obtain ⟨_ | a, c₁⟩ := r
      · exact congrArg Prog.done (congrArg (Prod.mk none) c₁.withoutPrompts_withoutPrompts.symm)
      · exact (ih a rfl).symm.trans (hnext (some a, c₁))
    rw [Prog.interpUntil, Prog.interpUntil, map_bind, map_bind, bind_congr hnext]
    change _ = carryOutPrinted u x o c' >>= rest
    rw [bind_congr hnext']
    have := congrArg (· >>= rest) (unprompted_carryOutPrinted (u := u) (x := x) o hc)
    simp only [bind_map_left] at this
    exact this

end SamePrompted

theorem runFrom_samePrompted (lines : List (List Char)) (buf : List Char) (hadError : Bool) :
    SamePrompted (runFrom u true buf hadError lines) (runFrom u false buf hadError lines) := by
  induction lines generalizing buf hadError with
  | nil =>
    rw [runFrom, runFrom]
    exact .left (.refl _)
  | cons line lines ih =>
    rw [runFrom, runFrom]
    refine .left ?_
    show SamePrompted (if _ then _ else _) (if _ then _ else _)
    split
    · refine (SamePrompted.refl _).bind fun r => ?_
      obtain ⟨goOn, failed⟩ := r
      cases goOn with
      | false => exact .refl _
      | true => exact ih [] _
    · exact (SamePrompted.refl _).bind fun r => ih r.1 r.2

end Shell

/-- **The prompts change nothing else**: with them and without them the shell asks the store for the
same, and writes the same. -/
theorem prompts_invisible (input : String) (c : Console H) :
    Shell.unprompted <$> Shell.runPrinted u x true input c =
      Shell.unprompted <$> Shell.runPrinted u x false input c :=
  (Shell.runFrom_samePrompted _ [] false).unprompted rfl

/-! ## Scripts -/

/-- The console `c'` has written the errors of `c`, and more of them exactly if something failed. -/
def Reports (c : Console H) (ended : Option Bool) (c' : Console H) : Prop :=
  ∃ errors, c'.err = c.err ++ errors ∧ (∀ e ∈ errors, ∃ message, e = "error: " ++ message ++ "\n") ∧
    ∀ failed, ended = some failed → (failed = true ↔ errors ≠ [])

namespace Reports

variable {c c' c'' : Console H} {failed : Bool} {ended : Option Bool}

theorem quiet (h : c'.err = c.err) : Reports c (some false) c' :=
  ⟨[], by simpa using h, by simp, by simp⟩

theorem panicked (h : c'.err = c.err) : Reports c none c' :=
  ⟨[], by simpa using h, by simp, by simp⟩

theorem fail (message : String) (h : c'.err = c.err) : Reports c (some true) (c'.fail message) :=
  ⟨["error: " ++ message ++ "\n"], by rw [Console.fail, h], by simp, by simp⟩

theorem trans (h : Reports c (some failed) c') (h' : Reports c' ended c'') :
    Reports c (ended.map (failed || ·)) c'' := by
  obtain ⟨errors, herr, htext, hiff⟩ := h
  obtain ⟨errors', herr', htext', hiff'⟩ := h'
  refine ⟨errors ++ errors', by rw [herr', herr, List.append_assoc], fun e he => ?_, ?_⟩
  · rcases List.mem_append.mp he with he | he
    · exact htext e he
    · exact htext' e he
  · intro b hb
    obtain ⟨failed', rfl, rfl⟩ := Option.map_eq_some_iff.mp hb
    rw [Bool.or_eq_true, hiff failed rfl, hiff' failed' rfl, Ne, Ne, Ne, List.append_eq_nil_iff,
      not_and_or]

end Reports

namespace Shell

theorem runPrinted_reports (prompt : Bool) (input : String) (c : Console H) :
    Ends (runPrinted u x prompt input c) fun ended c' => Reports c ended c' := by
  refine (runPrinted_transcript prompt input c).mono fun r hr => ?_
  obtain ⟨events, -, -, herr, hflag⟩ := hr
  refine ⟨errorLines u x events, herr, fun e he => ?_, fun failed hended => ?_⟩
  · obtain ⟨message, -, rfl⟩ := List.mem_map.mp he
    exact ⟨message, rfl⟩
  · rw [hflag failed hended, errorLines, Ne, List.map_eq_nil_iff, List.filterMap_eq_nil_iff,
      List.any_eq_true]
    simp [Option.ne_none_iff_isSome]

/-- The statements one after the other, whatever becomes of them; whether any of them failed, unless
there is a panic. -/
def runStatements (u : Unicode) (x : Texts H.StoreError) :
    List Statement → Console H → StoreM H (Option Bool × Console H)
  | [], c => pure (some false, c)
  | stmt :: stmts, c => do
    match ← carryOutPrinted u x (.executeStatement stmt) c with
    | (none, c) => pure (none, c)
    | (some failed, c) => do
      let (ended, c) ← runStatements u x stmts c
      pure (ended.map (failed || ·), c)

theorem executeStatement_reports (stmt : Statement) (c : Console H) :
    Ends (carryOutPrinted u x (.executeStatement stmt) c) (Reports c) := by
  refine ends_any_bind fun r => ?_
  obtain ⟨e | r, s⟩ := r
  · dsimp only
    split
    · exact .panicked rfl
    · exact .fail _ rfl
  · dsimp only
    split
    · exact .quiet rfl
    · exact .panicked rfl

theorem runStatements_reports (stmts : List Statement) (c : Console H) :
    Ends (runStatements u x stmts c) (Reports c) := by
  induction stmts generalizing c with
  | nil => exact .quiet rfl
  | cons stmt stmts ih =>
    refine Ends.bind (executeStatement_reports stmt c) fun ended c₁ h₁ => ?_
    cases ended with
    | none => exact h₁
    | some failed => exact Ends.bind (ih c₁) fun ended c₂ h₂ => h₁.trans h₂

end Shell

/-- What the statements that a program hands over make of the console, and whether there is a
panic. -/
theorem Hands.interp_printed {Q : α → Prop} {p : ShellM α} {stmts : List Statement}
    (h : Hands Q p stmts) (c : Console H) :
    (fun r => (r.1.isSome, r.2.withoutPrompts)) <$> p.interpUntil (Shell.carryOutPrinted u x) c =
      (fun r => (r.1.isSome, r.2)) <$> Shell.runStatements u x stmts c.withoutPrompts := by
  induction h generalizing c with
  | done h => rfl
  | @prompt more next stmts h ih =>
    have := ih { c with out := c.out ++ [.prompt more] }
    rw [Console.withoutPrompts_prompt] at this
    exact this
  | @executeStatement stmt next stmts h ih =>
    change _ <$> (Shell.carryOutPrinted u x (.executeStatement stmt) c >>= _) = _
    rw [Shell.runStatements, map_bind, map_bind, ← Shell.unprompted_executeStatement,
      bind_map_left]
    refine bind_congr fun r => ?_
    obtain ⟨_ | failed, c₁⟩ := r
    · rfl
    · refine (ih failed c₁).trans ?_
      dsimp only [Shell.unprompted]
      rw [map_bind, map_eq_pure_bind]
      refine bind_congr fun r => ?_
      obtain ⟨_ | failed', c₂⟩ := r <;> rfl

/-- A program that reports its failures is known by the console it leaves, and by whether there is a
panic. -/
theorem ends_reports_ext {p q : StoreM H (Option Bool × Console H)} {c : Console H}
    (hp : Ends p (Reports c)) (hq : Ends q (Reports c))
    (h : (fun r => (r.1.isSome, r.2)) <$> p = (fun r => (r.1.isSome, r.2)) <$> q) : p = q := by
  have key {p : StoreM H (Option Bool × Console H)} (hp : Ends p (Reports c)) :
      p = (fun r : Bool × Console H =>
        (if r.1 then some (decide (r.2.err ≠ c.err)) else none, r.2)) <$>
          (fun r => (r.1.isSome, r.2)) <$> p := by
    rw [Functor.map_map]
    refine (id_map p).symm.trans (hp.map_congr (fun _ _ => trivial) ?_)
    rintro ⟨ended, c'⟩ ⟨errors, herr, -, hiff⟩
    refine Prod.ext ?_ rfl
    cases ended with
    | none => rfl
    | some failed =>
      dsimp only [id, Option.isSome_some]
      rw [if_pos rfl, herr, Option.some_inj, Bool.eq_iff_iff, hiff failed rfl, decide_eq_true_iff,
        Ne, Ne, List.append_right_eq_self]
  rw [key hp, h, ← key hq]

theorem Shell.unprompted_runPrinted (hu : u.Lawful) {t : String} {stmts : List Statement}
    (h : parseScript u t = .ok stmts) (prompt : Bool) (c : Console H) :
    unprompted <$> runPrinted u x prompt t c = runStatements u x stmts c.withoutPrompts := by
  obtain ⟨ts, hlex, hs⟩ := parseScript_eq_ok.mp h
  obtain ⟨d, hyield, rfl⟩ := statements_eq_ok.mp hs
  have hlexes : Lexes u t.toList d.yield := (lexFrom_ok_iff hu 0).mp ⟨ts, hlex, hyield.symm⟩
  have hands : Hands (fun _ => True) (run u prompt t) d.statements := by
    refine hands_runFrom hu prompt _ [] false d rfl ?_
    rw [List.nil_append, flatten_readLines]
    exact hlexes
  refine ends_reports_ext (c := c) (Prog.ensures_map.mpr (runPrinted_reports prompt t c)) ?_ ?_
  · exact runStatements_reports _ _
  · rw [← hands.interp_printed, Functor.map_map]
    rfl

/-- **The shell writes what the statements give**: of a text that parses as a script, the shell's
output, but for the prompts, its errors, its session and what it ends with are those of the
statements, run one after the other whatever becomes of them, unless there is a panic. -/
theorem script_output (hu : u.Lawful) {t : String} {stmts : List Statement}
    (h : parseScript u t = .ok stmts) (prompt : Bool) (c : Console H) :
    Shell.unprompted <$> Shell.runPrinted u x prompt t c =
      Shell.runStatements u x stmts c.withoutPrompts :=
  Shell.unprompted_runPrinted hu h prompt c

/-- Two statements over three lines, with prompts, written by a fresh session. -/
theorem script_output_sample :
    Shell.unprompted <$> Shell.runPrinted (H := Reference.host true) .ascii .plain true
        "BEGIN; SELECT *\n FROM t\n" ⟨.new, [], []⟩ =
      Shell.runStatements .ascii .plain [.begin, .select .all "t" none none none] ⟨.new, [], []⟩ :=
  script_output Unicode.lawful_ascii (by decide +kernel) true ⟨.new, [], []⟩

/-! ## The shell and `execute_script` -/

/-- The texts of the results, one for each statement, unless one of them cannot be printed. -/
def Shell.resultTexts (u : Unicode) : List Statement → List QueryResult → Option (List String)
  | [], [] => some []
  | stmt :: stmts, r :: rs => do
    let text ← resultText u stmt r
    let texts ← resultTexts u stmts rs
    some (text :: texts)
  | _, _ => none

theorem Shell.resultTexts_nil : resultTexts u [] [] = some [] := rfl

/-- What `execute_script` and the shell on the console `c` have left to do where they part. -/
inductive Shell.Left (u : Unicode) (x : Texts H.StoreError) (stmts : List Statement)
    (c : Console H) : StoreM H (Except (ExecError H.StoreError) (List QueryResult) × Session H) →
      StoreM H (Option Bool × Console H) → Prop
  /-- All have succeeded, and their results are printed. -/
  | finished {rs : List QueryResult} {texts : List String} {s : Session H}
      (htexts : resultTexts u stmts rs = some texts) :
      Left u x stmts c (pure (.ok rs, s))
        (pure (some false, { c with session := s }.printAll texts))
  /-- One has failed: the shell reports its error, runs those behind it, and says that something
  failed. -/
  | failed {before after : List Statement} {stmt : Statement} {rs : List QueryResult}
      {texts : List String} {e : ExecError H.StoreError} {s : Session H}
      (hstmts : stmts = before ++ stmt :: after) (htexts : resultTexts u before rs = some texts)
      (hpanic : e.isPanic = false) :
      Left u x stmts c (pure (.error e, s)) ((fun r => (r.1.map fun _ => true, r.2)) <$>
        runStatements u x after (({ c with session := s }.printAll texts).fail (e.message u x)))
  /-- One has panicked. -/
  | panicked {before after : List Statement} {stmt : Statement} {rs : List QueryResult}
      {texts : List String} {e : ExecError H.StoreError} {s : Session H}
      (hstmts : stmts = before ++ stmt :: after) (htexts : resultTexts u before rs = some texts)
      (hpanic : e.isPanic = true) :
      Left u x stmts c (pure (.error e, s)) (pure (none, { c with session := s }.printAll texts))
  /-- The shell panics when it prints a result, and `execute_script` runs the others. -/
  | unprintable {before after : List Statement} {stmt : Statement} {rs : List QueryResult}
      {texts : List String} {r : QueryResult} {s : Session H}
      (hstmts : stmts = before ++ stmt :: after) (htexts : resultTexts u before rs = some texts)
      (hnone : resultText u stmt r = none) :
      Left u x stmts c
        ((fun q => ((fun rs' => rs ++ r :: rs') <$> q.1, q.2)) <$> s.executeStatements u after)
        (pure (none, { c with session := s }.printAll texts))

/-- Where they part after one more statement, whose result has been printed. -/
theorem Shell.Left.cons {stmts : List Statement} {c : Console H} {stmt : Statement}
    {r : QueryResult} {text : String} {s : Session H} (htext : resultText u stmt r = some text)
    {p : StoreM H (Except (ExecError H.StoreError) (List QueryResult) × Session H)}
    {q : StoreM H (Option Bool × Console H)}
    (h : Left u x stmts ({ c with session := s }.print text) p q) :
    Left u x (stmt :: stmts) c ((fun q => ((r :: ·) <$> q.1, q.2)) <$> p)
      ((fun r => (r.1.map (false || ·), r.2)) <$> q) := by
  have hcons {before : List Statement} {rs : List QueryResult} {texts : List String}
      (htexts : resultTexts u before rs = some texts) :
      resultTexts u (stmt :: before) (r :: rs) = some (text :: texts) := by
    rw [resultTexts, htext, htexts]
    rfl
  cases h with
  | finished htexts => exact .finished (hcons htexts)
  | @failed before after _ rs texts e s' hstmts htexts hpanic =>
    rw [Functor.map_map]
    have hrest : (fun r : Option Bool × Console H =>
        ((r.1.map fun _ => true).map (false || ·), r.2)) = fun r => (r.1.map fun _ => true, r.2) :=
      funext fun r => by rw [Option.map_map]; rfl
    rw [hrest]
    exact .failed (congrArg (stmt :: ·) hstmts) (hcons htexts) hpanic
  | panicked hstmts htexts hpanic =>
    exact .panicked (congrArg (stmt :: ·) hstmts) (hcons htexts) hpanic
  | @unprintable before after _ rs texts r' s' hstmts htexts hnone =>
    rw [Functor.map_map]
    have hrest : (fun q : Except (ExecError H.StoreError) (List QueryResult) × Session H =>
        ((r :: ·) <$> (fun rs' => rs ++ r' :: rs') <$> q.1, q.2)) =
          fun q => ((fun rs' => (r :: rs) ++ r' :: rs') <$> q.1, q.2) := by
      funext q
      obtain ⟨_ | _, _⟩ := q <;> rfl
    rw [hrest]
    exact .unprintable (congrArg (stmt :: ·) hstmts) (hcons htexts) hnone

theorem Shell.parts_runStatements (stmts : List Statement) (c : Console H) :
    Prog.Parts (Shell.Left u x stmts c) (c.session.executeStatements u stmts)
      (Shell.runStatements u x stmts c) := by
  induction stmts generalizing c with
  | nil => exact .now (.finished resultTexts_nil)
  | cons stmt stmts ih =>
    rw [Session.executeStatements, Shell.runStatements]
    change Prog.Parts _ _ ((c.session.executeStatement u stmt >>= _) >>= _)
    rw [bind_assoc]
    refine Prog.Parts.bind_same _ fun r => ?_
    obtain ⟨e | r, s⟩ := r
    · dsimp only
      split
      next hpanic =>
        exact .now (.panicked (List.nil_append _).symm resultTexts_nil hpanic)
      next hpanic =>
        -- the statements behind it, whose failures are none but further ones
        have hrest : (fun r : Option Bool × Console H => (r.1.map (true || ·), r.2)) =
            fun r => (r.1.map fun _ => true, r.2) := rfl
        have hfailed := Left.failed (u := u) (x := x) (c := c) (s := s)
          (List.nil_append (stmt :: stmts)).symm resultTexts_nil (Bool.eq_false_iff.mpr hpanic)
        rw [← hrest, map_eq_pure_bind] at hfailed
        exact .now hfailed
    · dsimp only
      split
      next text htext =>
        have hparts := (ih ({ c with session := s }.print text)).map (fun _ _ => Left.cons htext)
        rw [map_eq_pure_bind, map_eq_pure_bind] at hparts
        exact hparts
      next hnone =>
        have hleft := Left.unprintable (u := u) (x := x) (c := c) (s := s)
          (List.nil_append (stmt :: stmts)).symm resultTexts_nil hnone
        rw [map_eq_pure_bind] at hleft
        exact .now hleft

/-- **The shell begins with `execute_script`**, and whatever the store answers, the two part only
where that has come to its end, or where a result cannot be printed: where it returns results, the
shell has printed the text of each and is done; where it returns an error, the shell reports it,
runs the statements behind the one that has failed, and says that something failed. -/
theorem shell_begins_with_script (hu : u.Lawful) {t : String} {stmts : List Statement}
    (h : parseScript u t = .ok stmts) (prompt : Bool) (c : Console H) :
    Prog.Parts (Shell.Left u x stmts c.withoutPrompts) (c.session.executeScript u t)
      (Shell.unprompted <$> Shell.runPrinted u x prompt t c) := by
  rw [Shell.unprompted_runPrinted hu h, Session.executeScript, h]
  exact Shell.parts_runStatements stmts c.withoutPrompts

/-- A script whose second statement fails wherever there is no table. -/
theorem shell_begins_with_script_sample :
    Prog.Parts (Shell.Left (H := Reference.host true) .ascii .plain
        [.begin, .select .all "t" none none none] ⟨.new, [], []⟩)
      (Session.new.executeScript .ascii "BEGIN; SELECT *\n FROM t\n")
      (Shell.unprompted <$> Shell.runPrinted .ascii .plain true "BEGIN; SELECT *\n FROM t\n"
        ⟨.new, [], []⟩) :=
  shell_begins_with_script Unicode.lawful_ascii (by decide +kernel) true ⟨.new, [], []⟩

end Choam

import Choam.Cli.Output
import Choam.Verify.Shell
import Choam.Store.Reference

/-!
# What the shell meets

Whatever the store answers, a run of the shell is a sequence of events (`Transcript`): commands,
statements with the session's replies, and texts that are none. What it writes is what these print
and the errors of those that fail, one line for each, in order, and it says that something failed
exactly if one of them has (`run_reports`).
-/

namespace Choam

variable {H : Host} {u : Unicode} {x : Texts H.StoreError} {α β : Type}

/-- Whatever is answered, the result and the console satisfy `Q` in the end. -/
def Ends (p : StoreM H (α × Console H)) (Q : α → Console H → Prop) : Prop :=
  p.Ensures (fun _ _ => True) (fun _ => True) fun r => Q r.1 r.2

theorem Ends.bind {p : StoreM H (α × Console H)} {f : α × Console H → StoreM H (β × Console H)}
    {Q : α → Console H → Prop} {Q' : β → Console H → Prop} (h : Ends p Q)
    (hf : ∀ a c, Q a c → Ends (f (a, c)) Q') : Ends (p >>= f) Q' :=
  Prog.ensures_bind.mpr (h.mono fun r hr => hf r.1 r.2 hr)

theorem ends_any_bind {p : StoreM H α} {f : α → StoreM H (β × Console H)}
    {Q : β → Console H → Prop} (hf : ∀ a, Ends (f a) Q) : Ends (p >>= f) Q :=
  Prog.ensures_bind_of hf

namespace Console

theorem printAll_eq (c : Console H) (texts : List String) :
    c.printAll texts = { c with out := c.out ++ texts.map .text } := by
  induction texts generalizing c with
  | nil => rw [List.map_nil, List.append_nil]; rfl
  | cons t texts ih =>
    refine (ih (c.print t)).trans ?_
    rw [print, List.map_cons, List.append_assoc, List.singleton_append]

/-- The console with what has been written on another one behind, and its session. -/
def add (c c' : Console H) : Console H := ⟨c'.session, c.out ++ c'.out, c.err ++ c'.err⟩

theorem print_eq_add (c : Console H) (text : String) :
    c.print text = c.add (print ⟨c.session, [], []⟩ text) :=
  congrArg (Console.mk _ _) (List.append_nil c.err).symm

theorem printAll_eq_add (c : Console H) (texts : List String) :
    c.printAll texts = c.add (printAll ⟨c.session, [], []⟩ texts) := by
  rw [printAll_eq, printAll_eq, add, List.nil_append, List.append_nil]

theorem fail_eq_add (c : Console H) (message : String) :
    c.fail message = c.add (fail ⟨c.session, [], []⟩ message) :=
  congrArg (Console.mk _ · _) (List.append_nil c.out).symm

end Console

namespace Shell

/-! ## Events -/

inductive Event (H : Host) where
  | prompt (more : Bool)
  /-- A command, whether the shell goes on behind it, what it prints, and the error it reports. -/
  | command (line : String) (goOn : Bool) (printed : List Printed) (error : Option String)
  /-- A statement, and the session's reply. -/
  | statement (stmt : Statement) (reply : Session.Reply H)
  /-- A text that is no statement. -/
  | rejected (e : ParseError)

/-- What is reported of the event, where it is a failure. -/
def Event.error? (u : Unicode) (x : Texts H.StoreError) : Event H → Option String
  | prompt _ => none
  | command _ _ _ error => error
  | statement _ (.ok _) => none
  | statement _ (.error e) => some (e.message u x)
  | rejected e => some (e.message x)

/-- The line that reports a failure. -/
def errorLine (message : String) : String := "error: " ++ message ++ "\n"

/-- The lines that report the events which are failures. -/
def errorLines (u : Unicode) (x : Texts H.StoreError) (events : List (Event H)) : List String :=
  (events.filterMap (Event.error? u x)).map errorLine

/-- What is printed of the event. -/
def Event.printed (u : Unicode) : Event H → List Printed
  | prompt more => [.prompt more]
  | command _ _ printed _ => printed
  | statement stmt (.ok r) => (resultText u stmt r).toList.map .text
  | statement _ (.error _) => []
  | rejected _ => []

/-- Whether the session has panicked, or the shell does when it prints the reply. -/
def Panics (u : Unicode) (stmt : Statement) : Session.Reply H → Prop
  | .ok r => resultText u stmt r = none
  | .error e => e.isPanic = true

/-- A run of a program of the shell in a session: what it meets, what it ends with, unless there is
a panic, and the session that it leaves. Each command and each statement is carried out by the
session as the ones before have left it. -/
inductive Transcript (u : Unicode) (x : Texts H.StoreError) :
    ShellM α → Session H → List (Event H) → Option α → Session H → Prop
  | done (a : α) (s : Session H) : Transcript u x (.done a) s [] (some a) s
  | prompt {more : Bool} {next : Unit → ShellM α} {s s' : Session H} {events : List (Event H)}
      {ended : Option α} (h : Transcript u x (next ()) s events ended s') :
      Transcript u x (.call (.prompt more) next) s (.prompt more :: events) ended s'
  | command {line : String} {next : Bool × Bool → ShellM α} {goOn : Bool} {printed : List Printed}
      {error : Option String} {s s' : Session H} {events : List (Event H)} {ended : Option α}
      (hdot : (dotPrinted u x line ⟨s, [], []⟩).MayEnd
        ((goOn, error.isSome), ⟨s, printed, error.toList.map errorLine⟩))
      (h : Transcript u x (next (goOn, error.isSome)) s events ended s') :
      Transcript u x (.call (.dot line) next) s (.command line goOn printed error :: events) ended
        s'
  | statement {stmt : Statement} {next : Bool → ShellM α} {reply : Session.Reply H}
      {s s' s'' : Session H} {events : List (Event H)} {ended : Option α}
      (hexec : (s.executeStatement u stmt).MayEnd (reply, s')) (hpanic : ¬ Panics u stmt reply)
      (h : Transcript u x (next (Session.isError reply)) s' events ended s'') :
      Transcript u x (.call (.executeStatement stmt) next) s (.statement stmt reply :: events) ended
        s''
  | panicked {stmt : Statement} {next : Bool → ShellM α} {reply : Session.Reply H}
      {s s' : Session H} (hexec : (s.executeStatement u stmt).MayEnd (reply, s'))
      (hpanic : Panics u stmt reply) :
      Transcript u x (.call (.executeStatement stmt) next) s [] none s'
  | rejected {e : ParseError} {next : Unit → ShellM α} {s s' : Session H} {events : List (Event H)}
      {ended : Option α} (h : Transcript u x (next ()) s events ended s') :
      Transcript u x (.call (.fail e) next) s (.rejected e :: events) ended s'

/-- What a program meets that has not come to a panic, and what then follows. -/
theorem Transcript.of_bind {p : ShellM α} {f : α → ShellM β} {s s'' : Session H}
    {events : List (Event H)} {b : β} (h : Transcript u x (p >>= f) s events (some b) s'') :
    ∃ before after a s', events = before ++ after ∧ Transcript u x p s before (some a) s' ∧
      Transcript u x (f a) s' after (some b) s'' := by
  induction p generalizing s events with
  | done a => exact ⟨[], events, a, s, rfl, .done a s, h⟩
  | call o next ih =>
    rw [Prog.call_bind] at h
    cases h with
    | prompt h =>
      obtain ⟨before, after, a, s', rfl, hp, hf⟩ := ih _ h
      exact ⟨_ :: before, after, a, s', rfl, .prompt hp, hf⟩
    | command hdot h =>
      obtain ⟨before, after, a, s', rfl, hp, hf⟩ := ih _ h
      exact ⟨_ :: before, after, a, s', rfl, .command hdot hp, hf⟩
    | statement hexec hpanic h =>
      obtain ⟨before, after, a, s', rfl, hp, hf⟩ := ih _ h
      exact ⟨_ :: before, after, a, s', rfl, .statement hexec hpanic hp, hf⟩
    | rejected h =>
      obtain ⟨before, after, a, s', rfl, hp, hf⟩ := ih _ h
      exact ⟨_ :: before, after, a, s', rfl, .rejected hp, hf⟩

/-! ## What is written -/

/-- A command writes the same wherever it is carried out. -/
theorem dotPrinted_eq_add (line : String) (c : Console H) :
    dotPrinted u x line c =
      (fun r => (r.1, c.add r.2)) <$> dotPrinted u x line ⟨c.session, [], []⟩ := by
  have same {r : Bool × Bool} {c₁ c₂ : Console H} (h : c₁ = c.add c₂) :
      (pure (r, c₁) : StoreM H _) = (fun r => (r.1, c.add r.2)) <$> pure (r, c₂) :=
    congrArg (fun c₁ => pure (r, c₁)) h
  have quiet : c = c.add ⟨c.session, [], []⟩ := by
    rw [Console.add, List.append_nil, List.append_nil]
  unfold dotPrinted
  split
  · exact same quiet
  · exact same quiet
  · exact same (c.print_eq_add _)
  · rw [map_bind]
    refine bind_congr fun r => ?_
    cases r with
    | ok ts => exact same (c.printAll_eq_add _)
    | error e => exact same (c.fail_eq_add _)
  · rw [map_bind]
    refine bind_congr fun r => ?_
    cases r with
    | error e => exact same (c.fail_eq_add _)
    | ok ts =>
      dsimp only
      split
      · exact same (c.printAll_eq_add _)
      · split
        · exact same (c.fail_eq_add _)
        · exact same (c.printAll_eq_add _)
  · exact same (c.fail_eq_add _)

/-- A command reports an error exactly if it fails, and leaves the session alone. -/
theorem dotPrinted_spec (line : String) (s : Session H) :
    Ends (dotPrinted u x line ⟨s, [], []⟩) fun r c' => ∃ printed error, r.2 = Option.isSome error ∧
      c' = ⟨s, printed, error.toList.map errorLine⟩ := by
  have quiet (out : List Printed) : ∃ printed error, false = Option.isSome error ∧
      (⟨s, out, []⟩ : Console H) = ⟨s, printed, error.toList.map errorLine⟩ :=
    ⟨out, none, rfl, rfl⟩
  have prints (texts : List String) : ∃ printed error, false = Option.isSome error ∧
      Console.printAll ⟨s, [], []⟩ texts = ⟨s, printed, error.toList.map errorLine⟩ :=
    ⟨_, none, rfl, Console.printAll_eq _ texts⟩
  have fails (message : String) : ∃ printed error, true = Option.isSome error ∧
      Console.fail ⟨s, [], []⟩ message = ⟨s, printed, error.toList.map errorLine⟩ :=
    ⟨[], some message, rfl, rfl⟩
  unfold dotPrinted
  split
  · exact quiet []
  · exact quiet []
  · exact quiet _
  · refine ends_any_bind fun r => ?_
    cases r with
    | ok ts => exact prints _
    | error e => exact fails _
  · refine ends_any_bind fun r => ?_
    cases r with
    | error e => exact fails _
    | ok ts =>
      dsimp only
      split
      · exact prints _
      · split
        · exact fails _
        · exact prints _
  · exact fails _

/-- Whatever the store answers, what the program meets makes a transcript, and the console has what
that prints and its errors. -/
theorem ends_transcript (p : ShellM α) (c : Console H) :
    Ends (p.interpUntil (carryOutPrinted u x) c) fun ended c' => ∃ events : List (Event H),
      Transcript u x p c.session events ended c'.session ∧
      c'.out = c.out ++ events.flatMap (Event.printed u) ∧
      c'.err = c.err ++ errorLines u x events := by
  induction p generalizing c with
  | done a => exact ⟨[], .done a _, (List.append_nil _).symm, (List.append_nil _).symm⟩
  | call o next ih =>
    cases o with
    | prompt more =>
      refine (ih () { c with out := c.out ++ [.prompt more] }).mono fun r hr => ?_
      obtain ⟨events, h, hout, herr⟩ := hr
      exact ⟨.prompt more :: events, .prompt h, by rw [hout, List.append_assoc]; rfl, herr⟩
    | dot line =>
      change Ends ((dotPrinted u x line c >>= _) >>= _) _
      rw [bind_assoc, dotPrinted_eq_add, bind_map_left]
      refine Prog.ensures_bind.mpr
        (((Prog.ensures_mayEnd _).and (dotPrinted_spec line c.session)).mono ?_)
      rintro ⟨⟨goOn, failed⟩, c₁⟩ ⟨hmay, printed, error, rfl, rfl⟩
      refine (ih (goOn, error.isSome) (c.add _)).mono fun r hr => ?_
      obtain ⟨events, h, hout, herr⟩ := hr
      refine ⟨.command line goOn printed error :: events, .command hmay h, ?_, ?_⟩
      · rw [hout, Console.add, List.append_assoc]
        rfl
      · rw [herr, Console.add, List.append_assoc]
        cases error <;> rfl
    | executeStatement stmt =>
      change Ends ((c.session.executeStatement u stmt >>= _) >>= _) _
      rw [bind_assoc]
      refine Prog.ensures_bind.mpr ((Prog.ensures_mayEnd _).mono ?_)
      rintro ⟨reply, s⟩ hexec
      cases reply with
      | ok result =>
        dsimp only
        cases htext : resultText u stmt result with
        | none =>
          exact ⟨[], .panicked hexec htext, (List.append_nil _).symm, (List.append_nil _).symm⟩
        | some text =>
          refine (ih false ({ c with session := s }.print text)).mono fun r hr => ?_
          obtain ⟨events, h, hout, herr⟩ := hr
          refine ⟨.statement stmt (.ok result) :: events, .statement hexec ?_ h, ?_, herr⟩
          · rw [Panics, htext]
            exact Option.some_ne_none text
          · rw [hout, Console.print, List.append_assoc, List.flatMap_cons, Event.printed, htext]
            rfl
      | error e =>
        dsimp only
        split
        next hpanic =>
          exact ⟨[], .panicked hexec hpanic, (List.append_nil _).symm, (List.append_nil _).symm⟩
        next hpanic =>
          refine (ih true ({ c with session := s }.fail (e.message u x))).mono fun r hr => ?_
          obtain ⟨events, h, hout, herr⟩ := hr
          refine ⟨.statement stmt (.error e) :: events, .statement hexec hpanic h, hout, ?_⟩
          rw [herr, Console.fail, List.append_assoc]
          rfl
    | fail e =>
      refine (ih () (c.fail (e.message x))).mono fun r hr => ?_
      obtain ⟨events, h, hout, herr⟩ := hr
      refine ⟨.rejected e :: events, .rejected h, hout, ?_⟩
      rw [herr, Console.fail, List.append_assoc]
      rfl

/-! ## What the shell says in the end -/

/-- Where the program ends with `a`, `flag a` holds if something failed on the way, or `b` does. -/
def Counts (u : Unicode) (x : Texts H.StoreError) (b : Bool) (p : ShellM α) (flag : α → Bool) :
    Prop :=
  ∀ (s : Session H) events a s', Transcript u x p s events (some a) s' →
    flag a = (b || events.any fun e => (e.error? u x).isSome)

theorem Counts.bind {b : Bool} {p : ShellM α} {f : α → ShellM β} {flag : α → Bool}
    {flag' : β → Bool} (h : Counts u x b p flag) (hf : ∀ a, Counts u x (flag a) (f a) flag') :
    Counts u x b (p >>= f) flag' := by
  intro s events b' s'' htrans
  obtain ⟨before, after, a, s', rfl, hp, hrest⟩ := htrans.of_bind
  rw [hf a _ _ _ _ hrest, h _ _ _ _ hp, List.any_append, Bool.or_assoc]

theorem Counts.done {b : Bool} {a : α} {flag : α → Bool} (h : flag a = b) :
    Counts u x b (.done a) flag := by
  intro s events a' s' htrans
  cases htrans
  rw [h, List.any_nil, Bool.or_false]

theorem counts_executeStatement (b : Bool) (stmt : Statement) :
    Counts u x b (ShellM.executeStatement stmt) (b || ·) := by
  intro s events a s' htrans
  cases htrans with
  | @statement _ _ reply _ _ _ _ _ hexec hpanic h =>
    cases h
    cases reply with
    | ok r => rfl
    | error e => rfl

theorem counts_fail (b : Bool) (e : ParseError) :
    Counts u x b (ShellM.fail e) fun _ => true := by
  intro s events a s' htrans
  cases htrans with
  | rejected h =>
    cases h
    exact (Bool.or_true b).symm

theorem counts_statement (b : Bool) (text : List Char) :
    Counts u x b (statement u text) (b || ·) := by
  unfold statement
  split
  · exact .done (Bool.or_false b)
  · split
    · exact counts_executeStatement b _
    · exact (counts_fail b _).bind fun _ => .done (Bool.or_true b)

theorem counts_showPrompt (b prompt : Bool) (buf : List Char) :
    Counts u x b (showPrompt u prompt buf) fun _ => b := by
  intro s events a s' htrans
  cases prompt with
  | false =>
    cases htrans
    exact (Bool.or_false b).symm
  | true =>
    cases htrans with
    | prompt h =>
      cases h
      exact (Bool.or_false b).symm

theorem counts_dot (b : Bool) (line : String) :
    Counts u x b (ShellM.dot line) (b || ·.2) := by
  intro s events a s' htrans
  cases htrans with
  | command hdot h =>
    cases h
    rw [List.any_cons, List.any_nil, Bool.or_false]
    rfl

theorem counts_drain (buf : List Char) (hadError : Bool) :
    Counts u x hadError (drain u buf hadError) (·.2) := by
  induction hn : buf.length using Nat.strongRecOn generalizing buf hadError with
  | ind n ih =>
    cases hsplit : splitStatement buf with
    | none =>
      rw [drain_none hsplit]
      exact .done rfl
    | some r =>
      obtain ⟨stmt, rest⟩ := r
      rw [drain_some hsplit]
      exact (counts_statement hadError stmt).bind fun failed =>
        ih _ (hn ▸ length_splitFrom hsplit) rest (hadError || failed) rfl

theorem counts_runFrom (prompt : Bool) (lines : List (List Char)) (buf : List Char)
    (hadError : Bool) : Counts u x hadError (runFrom u prompt buf hadError lines) id := by
  induction lines generalizing buf hadError with
  | nil =>
    rw [runFrom]
    refine (counts_showPrompt hadError prompt buf).bind fun _ => ?_
    split
    · exact .done rfl
    · exact (counts_statement hadError buf).bind fun failed => .done rfl
  | cons line lines ih =>
    rw [runFrom]
    refine (counts_showPrompt hadError prompt buf).bind fun _ => ?_
    split
    · refine (counts_dot hadError _).bind fun r => ?_
      obtain ⟨goOn, failed⟩ := r
      cases goOn with
      | false => exact .done rfl
      | true => exact ih [] (hadError || failed)
    · exact (counts_drain (buf ++ line) hadError).bind fun r => ih r.1 r.2

theorem runPrinted_transcript (prompt : Bool) (input : String) (c : Console H) :
    Ends (runPrinted u x prompt input c) fun ended c' => ∃ events : List (Event H),
      Transcript u x (run u prompt input) c.session events ended c'.session ∧
      c'.out = c.out ++ events.flatMap (Event.printed u) ∧
      c'.err = c.err ++ errorLines u x events ∧
      ∀ failed, ended = some failed → failed = events.any fun e => (e.error? u x).isSome := by
  refine (ends_transcript (run u prompt input) c).mono fun r hr => ?_
  obtain ⟨events, h, hout, herr⟩ := hr
  refine ⟨events, h, hout, herr, fun failed hended => ?_⟩
  rw [hended] at h
  exact (counts_runFrom (x := x) prompt _ [] false _ _ _ _ h).trans (Bool.false_or _)

end Shell

end Choam

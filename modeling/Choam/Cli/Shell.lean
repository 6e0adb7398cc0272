import Choam.Engine.Session
import Choam.Sql.Display

/-!
# The shell

Reads statements that end with a semicolon, and commands that start with a dot, and runs them; one
of the commands describes tables.
What the shell asks of its surroundings are the operations of `ShellOp`; where they are carried out,
a statement goes to the session and its result is printed.
-/

namespace Choam

/-- A table as `.schema` prints it: what follows CREATE TABLE in a statement that creates it. -/
def describe (t : TableHandle) : String :=
  let cols := t.schema.columns.mapIdx fun i c =>
    c.name ++ " " ++ typeName c.ty ++
      (if i = t.schema.primaryKey then " PRIMARY KEY" else if !c.nullable then " NOT NULL" else "")
  t.schema.tableName ++ " (" ++ join cols ++ ")"

/-- Splits the first statement off `buf` at the semicolon behind it, from a place that is inside a
string literal or not. -/
def splitFrom (inStr : Bool) : List Char → Option (List Char × List Char)
  | [] => none
  | ch :: rest =>
    if ch = '\'' then (splitFrom (!inStr) rest).map fun r => (ch :: r.1, r.2)
    else if ch = ';' ∧ inStr = false then some ([], rest)
    else (splitFrom inStr rest).map fun r => (ch :: r.1, r.2)

/-- Splits the first complete statement off `buf`, ignoring semicolons inside string literals.
Returns the statement and the rest. -/
def splitStatement (buf : List Char) : Option (List Char × List Char) := splitFrom false buf

example : splitStatement "x = 'a;b'; c".toList = some ("x = 'a;b'".toList, " c".toList) := by
  decide

theorem length_splitFrom {inStr : Bool} {buf stmt rest : List Char}
    (h : splitFrom inStr buf = some (stmt, rest)) : rest.length < buf.length := by
  induction buf generalizing inStr stmt with
  | nil => cases h
  | cons ch buf ih =>
    rw [splitFrom] at h
    split at h
    · obtain ⟨r, hr, heq⟩ := Option.map_eq_some_iff.mp h
      cases heq
      exact Nat.lt_succ_of_lt (ih hr)
    · split at h
      · cases h
        exact Nat.lt_succ_self _
      · obtain ⟨r, hr, heq⟩ := Option.map_eq_some_iff.mp h
        cases heq
        exact Nat.lt_succ_of_lt (ih hr)

/-- The lines of the input, each with the line feed that ends it. -/
def readLines : List Char → List (List Char)
  | [] => []
  | c :: rest =>
    if c = '\n' then [c] :: readLines rest
    else
      match readLines rest with
      | [] => [[c]]
      | line :: lines => (c :: line) :: lines

/-- What the shell asks for. -/
inductive ShellOp where
  /-- Asks for the first or a further line of a statement. -/
  | prompt (more : Bool)
  /-- Runs a command that starts with a dot. -/
  | dot (line : String)
  /-- Runs a statement in the session, and prints its result or its error. -/
  | executeStatement (stmt : Statement)
  /-- Prints what is wrong with a text that is no statement. -/
  | fail (e : ParseError)

/-- What it learns: of a command whether to go on and whether it failed, of a statement whether it
failed. -/
def ShellOp.Res : ShellOp → Type
  | dot _ => Bool × Bool
  | executeStatement _ => Bool
  | prompt _ | fail _ => Unit

abbrev ShellM := Prog ShellOp ShellOp.Res

namespace ShellM

def prompt (more : Bool) : ShellM Unit := Prog.perform (ShellOp.prompt more)

def dot (line : String) : ShellM (Bool × Bool) := Prog.perform (ShellOp.dot line)

def executeStatement (stmt : Statement) : ShellM Bool :=
  Prog.perform (ShellOp.executeStatement stmt)

def fail (e : ParseError) : ShellM Unit := Prog.perform (ShellOp.fail e)

end ShellM

namespace Shell

variable (u : Unicode)

/-- Nothing but whitespace. -/
def blank (text : List Char) : Bool := text.all u.isWhitespace

def trimStart (line : List Char) : List Char := line.dropWhile u.isWhitespace

def trim (line : List Char) : List Char := ((trimStart u line).reverse.dropWhile u.isWhitespace).reverse

/-- Runs one text that ended with a semicolon, or with the input; whether it failed. -/
def statement (text : List Char) : ShellM Bool :=
  if blank u text then pure false
  else
    match parse u (String.ofList text) with
    | .ok stmt => ShellM.executeStatement stmt
    | .error e => do
      ShellM.fail e
      pure true

/-- Runs the complete statements at the front of the buffer, and returns what is left of it. -/
def drain (buf : List Char) (hadError : Bool) : ShellM (List Char × Bool) :=
  match _hsplit : splitStatement buf with
  | none => pure (buf, hadError)
  | some (stmt, rest) => do
    let failed ← statement u stmt
    drain rest (hadError || failed)
termination_by buf.length
decreasing_by exact length_splitFrom _hsplit

def showPrompt (prompt : Bool) (buf : List Char) : ShellM Unit :=
  if prompt then ShellM.prompt (!blank u buf) else pure ()

/-- The shell's loop over the lines that are left, with what it holds of an unfinished statement;
whether anything failed. -/
def runFrom (prompt : Bool) (buf : List Char) (hadError : Bool) : List (List Char) → ShellM Bool
  | [] => do
    showPrompt u prompt buf
    if blank u buf then pure hadError
    else
      let failed ← statement u buf
      pure (hadError || failed)
  | line :: lines => do
    showPrompt u prompt buf
    if blank u buf && (trimStart u line).head? == some '.' then
      let (goOn, failed) ← ShellM.dot (String.ofList (trim u line))
      if goOn then runFrom prompt [] (hadError || failed) lines else pure (hadError || failed)
    else
      let (buf, hadError) ← drain u (buf ++ line) hadError
      runFrom prompt buf hadError lines

/-- Runs everything readable from the input. Returns whether any statement or command failed. -/
def run (prompt : Bool) (input : String) : ShellM Bool :=
  runFrom u prompt [] false (readLines input.toList)

/-! ## In a session -/

def splitWhitespace (line : List Char) : List String :=
  ((line.splitOnP u.isWhitespace).filter (· ≠ [])).map String.ofList

variable {H : Host}

/-- A command that starts with a dot: whether to go on, and whether it failed. -/
def dot (line : String) : StoreM H (Bool × Bool) :=
  match splitWhitespace u line.toList with
  | ".quit" :: _ | ".exit" :: _ => pure (false, false)
  | ".help" :: _ => pure (true, false)
  | ".tables" :: _ => do
    match ← (Database.listTables (m := StoreM H) (E := H.StoreError)).run with
    | .ok _ => pure (true, false)
    | .error _ => pure (true, true)
  | ".schema" :: rest => do
    match ← (Database.listTables (m := StoreM H) (E := H.StoreError)).run with
    | .ok ts =>
      match rest.head? with
      | none => pure (true, false)
      | some want => pure (true, !ts.any (·.schema.tableName == want))
    | .error _ => pure (true, true)
  | _ => pure (true, true)

/-- What the shell asks for, carried out with a session. -/
def carryOut : (o : ShellOp) → Session H → StoreM H (o.Res × Session H)
  | .prompt _, s => pure ((), s)
  | .dot line, s => do
    let r ← dot u line
    pure (r, s)
  | .executeStatement stmt, s => do
    let (r, s) ← s.executeStatement u stmt
    pure (Session.isError r, s)
  | .fail _, s => pure ((), s)

end Shell

end Choam

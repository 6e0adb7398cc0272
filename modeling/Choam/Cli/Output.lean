import Choam.Cli.Shell
import Choam.Cli.Message
import Mathlib.Data.List.DropRight

/-!
# What the shell prints

Results and descriptions go to `out`, errors to `err`. Every write succeeds, and what has been
written is kept piece by piece, so that the prompts can be told from the rest. Where the source
panics, the shell comes to its end there, and nothing more is asked or written.
-/

namespace Choam

open ByteString

namespace Shell

variable (u : Unicode)

/-! ## Tables -/

def hexDigit (n : Nat) : Char := if n < 10 then Char.ofNat (48 + n) else Char.ofNat (87 + n)

def hexByte (b : UInt8) : List Char := [hexDigit (b.toNat / 16), hexDigit (b.toNat % 16)]

/-- A value in a table. -/
def cell : Value → String
  | .null => "NULL"
  | .integer n => toString n.toInt
  | .text s => s
  | .boolean b => if b then "TRUE" else "FALSE"
  | .bytes b => String.ofList ("x'".toList ++ b.flatMap hexByte ++ ['\''])

example : cell (.bytes [0, 171]) = "x'00ab'" := by decide

/-- The width of each column: of its name and of every cell in it. A row with too few cells makes
the index `row[i]` panic. -/
def widths (columns : List String) (body : List (List String)) : Option (List Nat) :=
  if body.all (columns.length ≤ ·.length) then
    some (columns.mapIdx fun i c =>
      (body.map fun row => ((row[i]?).getD "").length).foldr max c.length)
  else none

/-- The greatest width that `format!` takes. -/
def maxWidth : Nat := 2 ^ 16 - 1

/-- The cell, filled up with blanks to the width; `format!` panics at a width beyond `u16::MAX`. -/
def padded (c : String) (w : Nat) : Option (List Char) :=
  if w ≤ maxWidth then some (c.toList ++ List.replicate (w - c.length) ' ') else none

def trimEnd (line : List Char) : List Char := line.rdropWhile u.isWhitespace

def line (ws : List Nat) (cells : List String) : Option (List Char) := do
  let cells ← (cells.zip ws).mapM fun p => padded p.1 p.2
  some (trimEnd u (" | ".toList.intercalate cells))

def rule (ws : List Nat) : List Char :=
  "-+-".toList.intercalate (ws.map fun w => List.replicate w '-')

def rowCount (n : Nat) : String :=
  "(" ++ toString n ++ " row" ++ (if n = 1 then "" else "s") ++ ")"

/-- A SELECT's result as an aligned text table with a row count, unless the source panics. -/
def formatTable (r : QueryResult) : Option String := do
  let body := r.rows.map fun row => row.map cell
  let ws ← widths r.columns body
  let header ← line u ws r.columns
  let lines ← body.mapM (line u ws)
  some (String.ofList (header ++ '\n' :: (rule ws ++ '\n' ::
    lines.flatMap (· ++ ['\n']) ++ (rowCount body.length).toList ++ ['\n'])))

example : formatTable .ascii ⟨["id", "name"], [[.integer 1, .text "ann"], [.null, .text ""]], 0⟩ =
    some "id   | name\n-----+-----\n1    | ann\nNULL |\n(2 rows)\n" := by decide +kernel

/-- What is printed of a statement that has succeeded, unless the source panics. -/
def resultText (stmt : Statement) (r : QueryResult) : Option String :=
  match stmt with
  | .select _ _ _ _ _ => formatTable u r
  | .insert _ _ _ | .update _ _ _ | .delete _ _ =>
    some (toString r.rowsAffected ++ " row" ++ (if r.rowsAffected = 1 then "" else "s") ++
      " affected\n")
  | _ => some "OK\n"

end Shell

/-- Whether the call has panicked, and returned no error at all. -/
def ExecError.isPanic {E : Type} : ExecError E → Bool
  | .panic | .db (.catalog .counterOverflow) => true
  | _ => false

namespace Shell

/-! ## The console -/

inductive Printed where
  | prompt (more : Bool)
  | text (s : String)
  deriving DecidableEq

def Printed.display : Printed → String
  | prompt more => if more then "   ...> " else "choam> "
  | text s => s

def Printed.isText : Printed → Bool
  | prompt _ => false
  | text _ => true

end Shell

/-- A session, and what its shell has written so far. -/
structure Console (H : Host) where
  session : Session H
  out : List Shell.Printed
  err : List String

namespace Console

variable {H : Host}

def print (c : Console H) (s : String) : Console H := { c with out := c.out ++ [.text s] }

def printAll (c : Console H) (texts : List String) : Console H := texts.foldl print c

def fail (c : Console H) (message : String) : Console H :=
  { c with err := c.err ++ ["error: " ++ message ++ "\n"] }

/-- What has been written but for the prompts. -/
def withoutPrompts (c : Console H) : Console H :=
  { c with out := c.out.filter Shell.Printed.isText }

end Console

namespace Shell

variable (u : Unicode) {H : Host} (x : Texts H.StoreError)

def help : String :=
  "SQL statements end with `;`. Dot commands: .tables  .schema [table]  .help  .quit\n"

/-- A command that starts with a dot: whether to go on, and whether it failed. -/
def dotPrinted (line : String) (c : Console H) : StoreM H ((Bool × Bool) × Console H) :=
  match splitWhitespace u line.toList with
  | ".quit" :: _ | ".exit" :: _ => pure ((false, false), c)
  | ".help" :: _ => pure ((true, false), c.print help)
  | ".tables" :: _ => do
    match ← (Database.listTables (m := StoreM H) (E := H.StoreError)).run with
    | .ok ts => pure ((true, false), c.printAll (ts.map (·.schema.tableName ++ "\n")))
    | .error e => pure ((true, true), c.fail (e.message u x))
  | ".schema" :: rest => do
    match ← (Database.listTables (m := StoreM H) (E := H.StoreError)).run with
    | .ok ts =>
      match rest.head? with
      | none => pure ((true, false), c.printAll (ts.map (describe · ++ "\n")))
      | some want =>
        match ts.filter (·.schema.tableName == want) with
        | [] => pure ((true, true), c.fail ("no such table " ++ quoted u want))
        | found => pure ((true, false), c.printAll (found.map (describe · ++ "\n")))
    | .error e => pure ((true, true), c.fail (e.message u x))
  | _ => pure ((true, true), c.fail ("unknown command " ++ quoted u line ++ " (try .help)"))

/-- What the shell asks for, carried out on a console, unless that panics. -/
def carryOutPrinted : (o : ShellOp) → Console H → StoreM H (Option o.Res × Console H)
  | .prompt more, c => pure (some (), { c with out := c.out ++ [.prompt more] })
  | .dot line, c => do
    let r ← dotPrinted u x line c
    pure (some r.1, r.2)
  | .executeStatement stmt, c => do
    let (r, s) ← c.session.executeStatement u stmt
    match r with
    | .ok r =>
      match resultText u stmt r with
      | some text => pure (some false, { c with session := s }.print text)
      | none => pure (none, { c with session := s })
    | .error e =>
      if e.isPanic then pure (none, { c with session := s })
      else pure (some true, { c with session := s }.fail (e.message u x))
  | .fail e, c => pure (some (), c.fail (e.message x))

/-- The shell on a console: whether any statement or command failed, unless it panics, and what is
then written. -/
def runPrinted (prompt : Bool) (input : String) (c : Console H) :
    StoreM H (Option Bool × Console H) :=
  (run u prompt input).interpUntil (carryOutPrinted u x) c

end Shell

end Choam

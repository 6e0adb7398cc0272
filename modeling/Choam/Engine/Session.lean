import Choam.Engine.Run

/-!
# Sessions

A session runs statements in autocommit mode, each in its own transaction, or inside BEGIN and
COMMIT. A statement that fails inside BEGIN and COMMIT sets `failed`, which refuses the statements
behind it and makes COMMIT roll back.
-/

namespace Choam

structure Session (H : Host) where
  txn : Option H.Txn
  failed : Bool

namespace Session

variable {H : Host}

def new : Session H := ⟨none, false⟩

def inTransaction (self : Session H) : Bool := self.txn.isSome

/-- A statement's result. -/
abbrev Reply (H : Host) := Except (ExecError H.StoreError) QueryResult

/-- The columns of a CREATE TABLE; the primary key is never nullable. -/
def columnDefs (pk : Nat) (columns : List ColumnSpec) : List ColumnDef :=
  columns.mapIdx fun i c => ⟨c.name, c.ty, !c.notNull && i != pk⟩

/-- The positions of the columns declared PRIMARY KEY. -/
def primaryKeys (columns : List ColumnSpec) : List Nat :=
  (List.range columns.length).filter fun i => (columns[i]?.map (·.primaryKey)).getD false

def createTable (name : String) (columns : List ColumnSpec) : StoreM H (Reply H) :=
  match primaryKeys columns with
  | [pk] => do
    match ← Database.createTable name (columnDefs pk columns) pk with
    | .ok _ => pure (.ok .default)
    | .error e => pure (.error (.db e))
  | _ => pure (.error .primaryKeyCount)

def isError {ε α : Type} : Except ε α → Bool
  | .error _ => true
  | .ok _ => false

variable (u : Unicode)

def executeStatement (self : Session H) (stmt : Statement) : StoreM H (Reply H × Session H) :=
  match stmt with
  | .begin =>
    match self.txn with
    | some _ => pure (.error .alreadyInTransaction, self)
    | none => do
      let txn ← StoreM.begin
      pure (.ok .default, { self with txn := some txn })
  | .commit =>
    match self.txn with
    | none => pure (.error .noActiveTransaction, self)
    | some txn =>
      if self.failed then do
        StoreM.abort txn
        pure (.error .transactionAborted, new)
      else do
        match ← RelTransaction.commit txn with
        | .ok () => pure (.ok .default, new)
        | .error e => pure (.error (.db e), new)
  | .rollback =>
    match self.txn with
    | none => pure (.error .noActiveTransaction, self)
    | some txn => do
      StoreM.abort txn
      pure (.ok .default, new)
  | .createTable name columns =>
    match self.txn with
    | some _ => pure (.error .ddlInTransaction, self)
    | none => do
      let r ← createTable name columns
      pure (r, self)
  | stmt =>
    if self.failed then
      pure (.error .transactionAborted, self)
    else
      match self.txn with
      | some txn => do
        let (r, txn) ← (run u stmt).onStore txn
        pure (r, ⟨some txn, isError r⟩)
      | none => do
        let txn ← StoreM.begin
        let (r, txn) ← (run u stmt).onStore txn
        match r with
        | .error e =>
          StoreM.abort txn
          pure (.error e, self)
        | .ok r =>
          match ← RelTransaction.commit txn with
          | .ok () => pure (.ok r, self)
          | .error e => pure (.error (.db e), self)

/-- Parses and runs exactly one statement. -/
def execute (self : Session H) (sql : String) : StoreM H (Reply H × Session H) :=
  match parse u sql with
  | .error e => pure (.error (.parse e), self)
  | .ok stmt => executeStatement u self stmt

/-- Runs the statements up to the first that fails. -/
def executeStatements (self : Session H) :
    List Statement → StoreM H (Except (ExecError H.StoreError) (List QueryResult) × Session H)
  | [] => pure (.ok [], self)
  | stmt :: stmts => do
    let (r, self) ← executeStatement u self stmt
    match r with
    | .error e => pure (.error e, self)
    | .ok r => do
      let (rs, self) ← executeStatements self stmts
      pure ((r :: ·) <$> rs, self)

/-- Parses a script and runs its statements up to the first that fails; their results. -/
def executeScript (self : Session H) (sql : String) :
    StoreM H (Except (ExecError H.StoreError) (List QueryResult) × Session H) :=
  match parseScript u sql with
  | .error e => pure (.error (.parse e), self)
  | .ok stmts => executeStatements u self stmts

end Session

end Choam

import Choam.Engine.Session
import Choam.Lib.Interleave

/-!
# Any number of clients on one database

A client is an SQL session, or code that uses relational transactions directly. Their calls are
interleaved at every single call on the store: the begin, every read and write, every look at the
catalog and the commit of each transaction are steps of their own.
-/

namespace Choam

open Interleave

/-- What a client holds between two calls: a session, or a relational transaction if it has one. -/
inductive Local (H : Host) where
  | session (s : Session H)
  | handle (txn : Option H.Txn)

inductive Call where
  | execute (sql : String)
  | executeStatement (stmt : Statement)
  | createTable (name : String) (columns : List ColumnDef) (primaryKey : Nat)
  | getTable (name : String)
  | listTables
  | begin
  | read (table : String) (pk : Value)
  | scan (table : String)
  | write (table : String) (values : List Value)
  | delete (table : String) (pk : Value)
  | commit
  | abort

inductive Reply (H : Host) where
  | result (r : Except (ExecError H.StoreError) QueryResult)
  | created (r : Except (DbError H.StoreError) TableHandle)
  | table (r : Except (DbError H.StoreError) (Option TableHandle))
  | tables (r : Except (DbError H.StoreError) (List TableHandle))
  | row (r : Except (DbError H.StoreError) (Option Row))
  | rows (r : Except (DbError H.StoreError) (List Row))
  | done (r : Except (DbError H.StoreError) Unit)

namespace Call

variable {H : Host}

/-- Which calls a client can make: statements need a session, relational operations a transaction
of the client's own. -/
def Enabled : Call → Local H → Prop
  | execute _, .session _ | executeStatement _, .session _ => True
  | createTable _ _ _, _ | getTable _, _ | listTables, _ => True
  | begin, .handle none => True
  | read _ _, .handle (some _) | scan _, .handle (some _) => True
  | write _ _, .handle (some _) | delete _ _, .handle (some _) => True
  | commit, .handle (some _) | abort, .handle (some _) => True
  | _, _ => False

instance (c : Call) (l : Local H) : Decidable (c.Enabled l) := by
  unfold Enabled
  split <;> infer_instance

/-- One operation inside a relational transaction. -/
def within {α : Type} (m : RowM (DbError H.StoreError) α)
    (reply : Except (DbError H.StoreError) α → Reply H) (txn : H.Txn) :
    StoreM H (Reply H × Local H) := do
  let (r, txn) ← m.onStore txn
  pure (reply r, .handle (some txn))

/-- What a call does; a call that is not enabled does nothing. -/
def body (u : Unicode) : Call → Local H → StoreM H (Reply H × Local H)
  | execute sql, .session s => do
    let (r, s) ← s.execute u sql
    pure (.result r, .session s)
  | executeStatement stmt, .session s => do
    let (r, s) ← s.executeStatement u stmt
    pure (.result r, .session s)
  | createTable name columns pk, l => do
    let r ← Database.createTable name columns pk
    pure (.created r, l)
  | getTable name, l => do
    let r ← (Database.getTable (m := StoreM H) name).run
    pure (.table r, l)
  | listTables, l => do
    let r ← (Database.listTables (m := StoreM H)).run
    pure (.tables r, l)
  | begin, .handle none => do
    let txn ← StoreM.begin
    pure (.done (.ok ()), .handle (some txn))
  | read table pk, .handle (some txn) => within (RelTransaction.read table pk) .row txn
  | scan table, .handle (some txn) => within (RelTransaction.scan table) .rows txn
  | write table values, .handle (some txn) => within (RelTransaction.write table values) .done txn
  | delete table pk, .handle (some txn) => within (RelTransaction.delete table pk) .done txn
  | commit, .handle (some txn) => do
    let r ← RelTransaction.commit txn
    pure (.done r, .handle none)
  | abort, .handle (some txn) => do
    StoreM.abort txn
    pure (.done (.ok ()), .handle none)
  | _, l => pure (.done (.ok ()), l)

end Call

/-- The database with its clients. -/
abbrev system (H : Host) (u : Unicode) : Object where
  Shared := H.Store
  Op := StoreOp H
  Res := StoreOp.Res
  perform := StoreOp.perform
  Call := Call
  Reply := Reply H
  Local := Local H
  enabled := Call.Enabled
  body := Call.body u

end Choam

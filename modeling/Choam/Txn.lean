import Choam.Catalog.Catalog

/-!
# Relational transactions

A `RelTransaction` reads and writes whole rows of named tables in one transaction of the store.
Every call looks its table up in the committed catalog, while rows go through the transaction. A
conflict on commit, which the store reports as a byte key, is turned back into a table and a
primary key.
-/

namespace Choam

open ByteString

inductive DbError (E : Type) where
  | unknownTable (name : String)
  | value (e : ValueError)
  | row (e : RowError)
  | catalog (e : CatalogError E)
  | store (e : E)
  | conflict (table : String) (pk : Value)
  | unrecognizedConflict (key : Bytes)

namespace Database

variable {H : Host}

def createTable (name : String) (columns : List ColumnDef) (primaryKey : Nat) :
    StoreM H (Except (DbError H.StoreError) TableHandle) := do
  return (← Catalog.createTable name columns primaryKey).mapError .catalog

section Reads

variable {m : Type → Type} [Monad m] [StoreGet m] {E : Type}

def getTable (name : String) : ExceptT (DbError E) m (Option TableHandle) :=
  (Catalog.getTable name).adapt .catalog

def listTables : ExceptT (DbError E) m (List TableHandle) :=
  Catalog.listTables.adapt .catalog

def tableHandle (name : String) : ExceptT (DbError E) m TableHandle := do
  match ← getTable name with
  | none => throw (.unknownTable name)
  | some handle => pure handle

end Reads

/-- Names the table and row behind a conflicting key of the store. -/
def conflictError (key : Bytes) : StoreM H (DbError H.StoreError) :=
  match splitRowKey key with
  | none => pure (.unrecognizedConflict key)
  | some (tableId, pkBytes) => do
    match ← (listTables (m := StoreM H) (E := H.StoreError)).run with
    | .error _ => pure (.unrecognizedConflict key)
    | .ok tables =>
      match tables.find? (·.tableId == tableId) with
      | none => pure (.unrecognizedConflict key)
      | some handle =>
        match decodeKeyComponent pkBytes handle.schema.primaryKeyType with
        | .ok pk => pure (.conflict handle.schema.tableName pk)
        | .error _ => pure (.unrecognizedConflict key)

end Database

namespace RelTransaction

variable {E : Type}

def read (table : String) (pk : Value) : RowM (DbError E) (Option (List Value)) := do
  let handle ← Database.tableHandle table
  let key ← .ofExcept .value (rowKey handle.tableId pk handle.schema.primaryKeyType)
  match ← RowM.read key with
  | none => pure none
  | some bytes => return some (← .ofExcept .row (decodeRow handle.schema bytes))

/-- Decodes the rows of a scan, up to the first that cannot be decoded. -/
def decodeRows (schema : Schema) (entries : List (Bytes × Bytes)) :
    Except RowError (List (List Value)) :=
  entries.mapM fun e => decodeRow schema e.2

def scan (table : String) : RowM (DbError E) (List (List Value)) := do
  let handle ← Database.tableHandle table
  let entries ← RowM.scan (rowKeyPrefix handle.tableId)
  .ofExcept .row (decodeRows handle.schema entries)

def write (table : String) (values : List Value) : RowM (DbError E) Unit := do
  let handle ← Database.tableHandle table
  match values[handle.schema.primaryKey]? with
  | none => throw (.row (.columnCountMismatch handle.schema.columns.length values.length))
  | some pk =>
    let key ← .ofExcept .value (rowKey handle.tableId pk handle.schema.primaryKeyType)
    let encoded ← .ofExcept .row (encodeRow handle.schema values)
    RowM.put key encoded

def delete (table : String) (pk : Value) : RowM (DbError E) Unit := do
  let handle ← Database.tableHandle table
  let key ← .ofExcept .value (rowKey handle.tableId pk handle.schema.primaryKeyType)
  RowM.delete key

variable {H : Host}

def commit (txn : H.Txn) : StoreM H (Except (DbError H.StoreError) Unit) := do
  match ← StoreM.commit txn with
  | .ok () => pure (.ok ())
  | .error (.conflict key) => return .error (← Database.conflictError key)
  | .error (.store e) => pure (.error (.store e))

end RelTransaction

end Choam

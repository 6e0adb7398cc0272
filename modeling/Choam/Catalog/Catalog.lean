import Choam.Catalog.Codec
import Choam.Store

/-!
# The catalog

Table schemas live in the same store as the rows, one entry per table under its name, next to the
counter of table ids and the index of table names. `createTable` writes all three in one
transaction; `getTable` and `listTables` read the committed state, whatever transaction is open.
-/

namespace Choam

open ByteString

structure TableHandle where
  tableId : UInt32
  schema : Schema
  deriving DecidableEq

inductive CatalogError (E : Type) where
  | emptyTableName
  | tableAlreadyExists (name : String)
  | concurrentCreateTable
  | schema (e : SchemaError)
  | codec (e : CatalogCodecError)
  | store (e : E)
  /-- Not an error of the source: the call panicked, because `table_id + 1` left the range of
  `u32` in a build that checks for it. -/
  | counterOverflow

namespace Catalog

section Reads

variable {m : Type → Type} [Monad m] [StoreGet m] {E : Type}

def getTable (name : String) : ExceptT (CatalogError E) m (Option TableHandle) :=
  match catalogTableKey name with
  | none => pure none
  | some key => do
    match ← ExceptT.lift (StoreGet.get key) with
    | none => pure none
    | some bytes =>
      match decodeTableEntry bytes with
      | .error e => throw (.codec e)
      | .ok (tableId, schema) => pure (some ⟨tableId, schema⟩)

/-- The handles of those names that are tables, in the order of the names. -/
def collectTables : List String → ExceptT (CatalogError E) m (List TableHandle)
  | [] => pure []
  | name :: names => do
    match ← getTable name with
    | none => collectTables names
    | some handle => return handle :: (← collectTables names)

def listTables : ExceptT (CatalogError E) m (List TableHandle) := do
  match ← ExceptT.lift (StoreGet.get catalogIndexKey) with
  | none => collectTables []
  | some bytes =>
    match decodeTableIndex bytes with
    | .error e => throw (.codec e)
    | .ok names => collectTables names

end Reads

section Create

variable {H : Host}

/-- The id that the next table gets; a counter of another length than four bytes counts as 0. -/
def nextTableId (counter : Option Bytes) : UInt32 :=
  match counter with
  | some bytes => if bytes.length = 4 then UInt32.ofNat (ofLe bytes) else 0
  | none => 0

/-- The table names listed so far. -/
def indexedNames (index : Option Bytes) : Except CatalogCodecError (List String) :=
  match index with
  | some bytes => decodeTableIndex bytes
  | none => .ok []

/-- Creates a table under a fresh id. The transaction is dropped on every error before the
commit. -/
def createTable (name : String) (columns : List ColumnDef) (primaryKey : Nat) :
    StoreM H (Except (CatalogError H.StoreError) TableHandle) :=
  -- An empty name is exactly a name without a key.
  match catalogTableKey name with
  | none => pure (.error .emptyTableName)
  | some tableKey =>
    match Schema.new name columns primaryKey with
    | .error e => pure (.error (.schema e))
    | .ok schema => do
      let txn ← StoreM.begin
      match ← StoreM.read txn tableKey with
      | some _ =>
        StoreM.abort txn
        pure (.error (.tableAlreadyExists name))
      | none =>
        let tableId := nextTableId (← StoreM.read txn catalogCounterKey)
        if H.overflowChecks && tableId.toNat + 1 == 2 ^ 32 then
          StoreM.abort txn
          pure (.error .counterOverflow)
        else
          let txn ← StoreM.put txn catalogCounterKey (le 4 (tableId + 1).toNat)
          let txn ← StoreM.put txn tableKey (encodeTableEntry tableId schema)
          match indexedNames (← StoreM.read txn catalogIndexKey) with
          | .error e =>
            StoreM.abort txn
            pure (.error (.codec e))
          | .ok names =>
            let txn ← StoreM.put txn catalogIndexKey (encodeTableIndex (names ++ [name]))
            match ← StoreM.commit txn with
            | .ok () => pure (.ok ⟨tableId, schema⟩)
            | .error (.conflict _) => pure (.error .concurrentCreateTable)
            | .error (.store e) => pure (.error (.store e))

end Create

end Catalog

end Choam

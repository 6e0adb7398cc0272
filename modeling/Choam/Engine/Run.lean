import Choam.Engine.Eval

/-!
# Running one statement

`run` executes an INSERT, SELECT, UPDATE or DELETE inside a transaction. A filter that pins the
primary key to a constant is answered by a point lookup, every other by a scan; the whole filter
is then applied to the rows found.
-/

namespace Choam

abbrev Row := List Value

structure QueryResult where
  columns : List String
  rows : List Row
  rowsAffected : Nat
  deriving DecidableEq

def QueryResult.default : QueryResult := ⟨[], [], 0⟩

inductive AccessPath where
  | pointLookup (pk : Value)
  | fullScan
  deriving DecidableEq

/-- The types that a literal can have, and so the ones of the keys that are looked up. -/
def lookupType : Value → ColumnType → Bool
  | .integer _, .integer => true
  | .text _, .text => true
  | .boolean _, .boolean => true
  | _, _ => false

/-- The operand that the primary-key column `pk` is compared with. -/
def otherOperand (pk : String) : Expr → Expr → Option Expr
  | .column c, o => if c = pk then some o else
    match o with
    | .column c' => if c' = pk then some (.column c) else none
    | _ => none
  | o, .column c => if c = pk then some o else none
  | _, _ => none

/-- The value to which the filter pins the primary key: that of the first `pk = constant` in its
AND chain. -/
def findKey (schema : Schema) : Expr → Option Value
  | .binary l .and r => (findKey schema l).or (findKey schema r)
  | .binary l .eq r =>
    match otherOperand schema.pkColumn.name l r with
    | none => none
    | some other =>
      match (eval other none : Except (ExecError Empty) Value) with
      | .error _ => none
      | .ok v => if lookupType v schema.primaryKeyType then some v else none
  | _ => none

def accessPath (schema : Schema) (filter : Option Expr) : AccessPath :=
  match filter.bind (findKey schema) with
  | none => .fullScan
  | some pk => .pointLookup pk

variable {E : Type}

def schemaOf (table : String) : RowM (ExecError E) Schema := do
  match ← (Database.getTable table).adapt ExecError.db with
  | none => throw (.db (.unknownTable table))
  | some handle => pure handle.schema

def columnIndex (schema : Schema) (name : String) : Except (ExecError E) Nat :=
  match schema.columns.findIdx? (·.name = name) with
  | some i => .ok i
  | none => .error (.unknownColumn name)

def candidateRows (table : String) (schema : Schema) (filter : Option Expr) :
    RowM (ExecError E) (List Row) := do
  .ofExcept id (checkFilter filter schema)
  match accessPath schema filter with
  | .pointLookup pk => return (← (RelTransaction.read table pk).adapt .db).toList
  | .fullScan => (RelTransaction.scan table).adapt .db

/-- The rows that the filter keeps, in order. -/
def keepRows (filter : Option Expr) (schema : Schema) : List Row → Except (ExecError E) (List Row)
  | [] => .ok []
  | row :: rows => do
    let keep ← keepsRow filter schema row
    let kept ← keepRows filter schema rows
    return if keep then row :: kept else kept

def matchingRows (table : String) (schema : Schema) (filter : Option Expr) :
    RowM (ExecError E) (List Row) := do
  let candidates ← candidateRows table schema filter
  .ofExcept id (keepRows filter schema candidates)

/-! ## INSERT -/

/-- The columns that an INSERT names, each of them once. -/
def namedTargets (schema : Schema) : List String → List Nat → Except (ExecError E) (List Nat)
  | [], idx => .ok idx
  | n :: names, idx => do
    let i ← columnIndex schema n
    if i ∈ idx then
      .error (.duplicateColumn n)
    else
      namedTargets schema names (idx ++ [i])

def insertTargets (schema : Schema) (columns : Option (List String)) :
    Except (ExecError E) (List Nat) :=
  match columns with
  | none => .ok (List.range schema.columns.length)
  | some names => namedTargets schema names []

/-- The row with the targeted columns set to their expressions, which refer to no row. -/
def fillRow : List (Nat × Expr) → Row → Except (ExecError E) Row
  | [], values => .ok values
  | (i, e) :: rest, values => do
    let v ← eval e none
    fillRow rest (values.set i v)

def insertRow (table : String) (schema : Schema) (targets : List Nat) (exprs : List Expr) :
    RowM (ExecError E) Unit :=
  if exprs.length ≠ targets.length then
    throw (.valueCount targets.length exprs.length)
  else do
    let values ← .ofExcept id
      (fillRow (targets.zip exprs) (List.replicate schema.columns.length .null))
    match values[schema.primaryKey]? with
    | none => throw .panic
    | some .null => throw .nullPrimaryKey
    | some pk =>
      match ← (RelTransaction.read table pk).adapt .db with
      | some _ => throw (.duplicatePrimaryKey pk)
      | none => (RelTransaction.write table values).adapt .db

def insertRows (table : String) (schema : Schema) (targets : List Nat) :
    List (List Expr) → RowM (ExecError E) Unit
  | [] => pure ()
  | exprs :: rows => do
    insertRow table schema targets exprs
    insertRows table schema targets rows

def insert (table : String) (columns : Option (List String)) (rows : List (List Expr)) :
    RowM (ExecError E) QueryResult := do
  let schema ← schemaOf table
  let targets ← .ofExcept id (insertTargets schema columns)
  insertRows table schema targets rows
  return { QueryResult.default with rowsAffected := rows.length }

/-! ## SELECT -/

def pickColumns (schema : Schema) (projection : Projection) : Except (ExecError E) (List Nat) :=
  match projection with
  | .all => .ok (List.range schema.columns.length)
  | .columns names => names.mapM (columnIndex schema)

def orderColumn (schema : Schema) (orderBy : Option OrderBy) :
    Except (ExecError E) (Option (Nat × Bool)) :=
  match orderBy with
  | none => .ok none
  | some o => do
    let i ← columnIndex schema o.column
    return some (i, o.descending)

/-- NULLs sort first. -/
def orderValues : Value → Value → Ordering
  | .null, .null => .eq
  | .null, _ => .lt
  | _, .null => .gt
  | x, y => (compare x y).getD .eq

/-- A row has one value per column, so that the column is always there. -/
def orderRows (i : Nat) (desc : Bool) (a b : Row) : Ordering :=
  let ord := orderValues (a.getD i .null) (b.getD i .null)
  if desc then ord.swap else ord

/-- The stable sort by the ORDER BY column. -/
def sortRows (order : Option (Nat × Bool)) (rows : List Row) : List Row :=
  match order with
  | none => rows
  | some (i, desc) => rows.mergeSort fun a b => orderRows i desc a b != .gt

def limitRows (limit : Option UInt64) (rows : List Row) : List Row :=
  match limit with
  | none => rows
  | some n => rows.take n.toNat

def select (table : String) (projection : Projection) (filter : Option Expr)
    (orderBy : Option OrderBy) (limit : Option UInt64) : RowM (ExecError E) QueryResult := do
  let schema ← schemaOf table
  let picked ← .ofExcept id (pickColumns schema projection)
  let order ← .ofExcept id (orderColumn schema orderBy)
  let rows ← matchingRows table schema filter
  return {
    columns := picked.map fun i => (schema.columns[i]?.map (·.name)).getD ""
    rows := (limitRows limit (sortRows order rows)).map fun r => picked.map fun i => r.getD i .null
    rowsAffected := 0 }

/-! ## UPDATE and DELETE -/

variable (u : Unicode)

/-- The columns that an UPDATE assigns, with the expressions assigned to them. -/
def updateTargets (schema : Schema) :
    List (String × Expr) → List (Nat × Expr) → Except (ExecError E) (List (Nat × Expr))
  | [], targets => .ok targets
  | (name, e) :: rest, targets => do
    let i ← columnIndex schema name
    if i = schema.primaryKey then
      .error (.updatePrimaryKey name)
    else if targets.any (·.1 = i) then
      .error (.duplicateColumn name)
    else
      let ty ← checkType e (some schema)
      let col := (schema.columns[i]?.map fun c => Ty.ofColumnType c.ty).getD .null
      if ty ≠ col ∧ ty ≠ .null then
        .error (.typeMismatch ("cannot assign " ++ ty.debug ++ " to column \"" ++
          u.escapeDebug name ++ "\" of type " ++ col.debug))
      else
        updateTargets schema rest (targets ++ [(i, e)])

/-- The new row: every expression sees the old one. -/
def assignRow (schema : Schema) (old : Row) :
    List (Nat × Expr) → Row → Except (ExecError E) Row
  | [], new => .ok new
  | (i, e) :: rest, new => do
    let v ← eval e (some (schema, old))
    assignRow schema old rest (new.set i v)

def updateRows (table : String) (schema : Schema) (targets : List (Nat × Expr)) :
    List Row → RowM (ExecError E) Unit
  | [] => pure ()
  | old :: rows => do
    let new ← .ofExcept id (assignRow schema old targets old)
    (RelTransaction.write table new).adapt .db
    updateRows table schema targets rows

def update (table : String) (assignments : List (String × Expr)) (filter : Option Expr) :
    RowM (ExecError E) QueryResult := do
  let schema ← schemaOf table
  let targets ← .ofExcept id (updateTargets u schema assignments [])
  let victims ← matchingRows table schema filter
  updateRows table schema targets victims
  return { QueryResult.default with rowsAffected := victims.length }

def deleteRows (table : String) (schema : Schema) : List Row → RowM (ExecError E) Unit
  | [] => pure ()
  | row :: rows =>
    match row[schema.primaryKey]? with
    | none => throw .panic
    | some pk => do
      (RelTransaction.delete table pk).adapt .db
      deleteRows table schema rows

def delete (table : String) (filter : Option Expr) : RowM (ExecError E) QueryResult := do
  let schema ← schemaOf table
  let victims ← matchingRows table schema filter
  deleteRows table schema victims
  return { QueryResult.default with rowsAffected := victims.length }

/-- The table that an INSERT, SELECT, UPDATE or DELETE names. -/
def Statement.table? : Statement → Option String
  | .insert table _ _ => some table
  | .select _ table _ _ _ => some table
  | .update table _ _ => some table
  | .delete table _ => some table
  | _ => none

def run (stmt : Statement) : RowM (ExecError E) QueryResult :=
  match stmt with
  | .insert table columns rows => insert table columns rows
  | .select projection table filter orderBy limit => select table projection filter orderBy limit
  | .update table assignments filter => update u table assignments filter
  | .delete table filter => delete table filter
  -- Transaction control and DDL are handled by the session.
  | .createTable _ _ | .begin | .commit | .rollback => throw .panic

end Choam

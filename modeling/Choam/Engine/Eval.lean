import Choam.Sql.Parser
import Choam.Txn

/-!
# Expression evaluation

Three-valued logic: an operation on NULL gives NULL, except IS NULL, AND and OR. Both operands
are always evaluated. `checkType` types an expression against a schema without looking at a row.
-/

namespace Choam

open ByteString

inductive ExecError (E : Type) where
  | parse (e : ParseError)
  | db (e : DbError E)
  | unknownColumn (name : String)
  | typeMismatch (what : String)
  | divisionByZero
  | integerOverflow
  | primaryKeyCount
  | nullPrimaryKey
  | duplicatePrimaryKey (pk : Value)
  | duplicateColumn (name : String)
  | valueCount (expected found : Nat)
  | updatePrimaryKey (name : String)
  | ddlInTransaction
  | alreadyInTransaction
  | noActiveTransaction
  | transactionAborted
  /-- Not an error of the source: an index out of range, or code marked as unreachable. -/
  | panic

namespace Value

def typeName : Value → String
  | null => "NULL"
  | integer _ => "INTEGER"
  | text _ => "TEXT"
  | bytes _ => "BYTES"
  | boolean _ => "BOOLEAN"

end Value

variable {E : Type}

def mismatch (op : String) (a : Value) (b : Option Value) : ExecError E :=
  .typeMismatch (match b with
    | some b => op ++ " cannot combine " ++ a.typeName ++ " and " ++ b.typeName
    | none => op ++ " cannot be applied to " ++ a.typeName)

/-! ## 64-bit arithmetic -/

/-- The number as a signed 64-bit one, when it is in range. -/
def checked (n : Int) : Option Int64 :=
  if -2 ^ 63 ≤ n ∧ n < 2 ^ 63 then some (Int64.ofInt n) else none

def checkedNeg (x : Int64) : Option Int64 := checked (-x.toInt)
def checkedAdd (x y : Int64) : Option Int64 := checked (x.toInt + y.toInt)
def checkedSub (x y : Int64) : Option Int64 := checked (x.toInt - y.toInt)
def checkedMul (x y : Int64) : Option Int64 := checked (x.toInt * y.toInt)
def checkedDiv (x y : Int64) : Option Int64 := checked (x.toInt.tdiv y.toInt)

/-! ## Operators -/

/-- Orders two non-null values of one type; `none` if the types differ. -/
def compare (a b : Value) : Option Ordering :=
  match a, b with
  | .integer x, .integer y => some (compareOfLessAndEq x y)
  | .text x, .text y => some (lexCmp (utf8 x) (utf8 y))
  | .bytes x, .bytes y => some (lexCmp x y)
  | .boolean x, .boolean y => some (compareOfLessAndEq x y)
  | _, _ => none

/-- A truth value: true, false, or NULL. -/
def asBool (op : BinaryOp) : Value → Except (ExecError E) (Option Bool)
  | .boolean x => .ok (some x)
  | .null => .ok none
  | other => .error (mismatch (if op = .and then "AND" else "OR") other none)

def and3 : Option Bool → Option Bool → Option Bool
  | some false, _ => some false
  | _, some false => some false
  | some true, some true => some true
  | _, _ => none

def or3 : Option Bool → Option Bool → Option Bool
  | some true, _ => some true
  | _, some true => some true
  | some false, some false => some false
  | _, _ => none

def ofBool3 : Option Bool → Value
  | some b => .boolean b
  | none => .null

def logical (op : BinaryOp) (f : Option Bool → Option Bool → Option Bool) (a b : Value) :
    Except (ExecError E) Value := do
  let x ← asBool op a
  let y ← asBool op b
  return ofBool3 (f x y)

def arithmetic (f : Int64 → Int64 → Except (ExecError E) (Option Int64)) (a b : Value) :
    Except (ExecError E) Value :=
  if a = .null ∨ b = .null then
    .ok .null
  else
    match a, b with
    | .integer x, .integer y =>
      match f x y with
      | .error e => .error e
      | .ok none => .error .integerOverflow
      | .ok (some r) => .ok (.integer r)
    | a, b => .error (mismatch "arithmetic" a (some b))

def comparison3 (holds : Ordering → Bool) (a b : Value) : Except (ExecError E) Value :=
  if a = .null ∨ b = .null then
    .ok .null
  else
    match compare a b with
    | some ord => .ok (.boolean (holds ord))
    | none => .error (mismatch "comparison" a (some b))

def binary (op : BinaryOp) (a b : Value) : Except (ExecError E) Value :=
  match op with
  | .and => logical .and and3 a b
  | .or => logical .or or3 a b
  | .add => arithmetic (fun x y => .ok (checkedAdd x y)) a b
  | .sub => arithmetic (fun x y => .ok (checkedSub x y)) a b
  | .mul => arithmetic (fun x y => .ok (checkedMul x y)) a b
  | .div => arithmetic
      (fun x y => if y = 0 then .error .divisionByZero else .ok (checkedDiv x y)) a b
  | .eq => comparison3 (· == .eq) a b
  | .ne => comparison3 (· != .eq) a b
  | .lt => comparison3 (· == .lt) a b
  | .le => comparison3 (· != .gt) a b
  | .gt => comparison3 (· == .gt) a b
  | .ge => comparison3 (· != .lt) a b

def unary (op : UnaryOp) (v : Value) : Except (ExecError E) Value :=
  match op, v with
  | _, .null => .ok .null
  | .neg, .integer n =>
    match checkedNeg n with
    | some r => .ok (.integer r)
    | none => .error .integerOverflow
  | .not, .boolean b => .ok (.boolean !b)
  | .neg, other => .error (mismatch "unary -" other none)
  | .not, other => .error (mismatch "NOT" other none)

def literalValue : Literal → Value
  | .null => .null
  | .integer n => .integer n
  | .text s => .text s
  | .boolean b => .boolean b

/-- The row that columns refer to, if there is one. -/
abbrev RowCtx := Option (Schema × List Value)

def eval : Expr → RowCtx → Except (ExecError E) Value
  | .literal l, _ => .ok (literalValue l)
  | .column name, ctx =>
    match ctx with
    | none => .error (.unknownColumn name)
    | some (schema, row) =>
      match schema.columns.findIdx? (·.name = name) with
      | none => .error (.unknownColumn name)
      | some i =>
        match row[i]? with
        | some v => .ok v
        | none => .error .panic
  | .isNull e negated, ctx => do
    let v ← eval e ctx
    return .boolean (v.isNull != negated)
  | .unary op e, ctx => do
    let v ← eval e ctx
    unary op v
  | .binary l op r, ctx => do
    let a ← eval l ctx
    let b ← eval r ctx
    binary op a b

/-! ## Static types -/

/-- The type of an expression; `null` is the type of a bare NULL. -/
inductive Ty where
  | null
  | integer
  | text
  | bytes
  | boolean
  deriving DecidableEq

namespace Ty

def name : Ty → String
  | null => "NULL"
  | integer => "INTEGER"
  | text => "TEXT"
  | bytes => "BYTES"
  | boolean => "BOOLEAN"

/-- A type as `Debug` shows it. -/
def debug : Ty → String
  | null => "Null"
  | integer => "Integer"
  | text => "Text"
  | bytes => "Bytes"
  | boolean => "Boolean"

def ofColumnType : ColumnType → Ty
  | .integer => integer
  | .text => text
  | .bytes => bytes
  | .boolean => boolean

/-- The type is `want`, or that of a bare NULL. -/
def is (t want : Ty) : Bool := t = want || t = null

end Ty

def literalType : Literal → Ty
  | .null => .null
  | .integer _ => .integer
  | .text _ => .text
  | .boolean _ => .boolean

def UnaryOp.operand : UnaryOp → Ty
  | .neg => .integer
  | .not => .boolean

/-- The type that both operands must have, and that of the result. -/
def checkOperands (what : String) (want : Ty) (a b : Ty) : Except (ExecError E) Ty :=
  if a.is want && b.is want then
    .ok want
  else
    .error (.typeMismatch (what ++ " cannot combine " ++ a.name ++ " and " ++ b.name))

def checkComparison (a b : Ty) : Except (ExecError E) Ty :=
  if a = b || a = .null || b = .null then
    .ok .boolean
  else
    .error (.typeMismatch ("comparison cannot combine " ++ a.name ++ " and " ++ b.name))

def checkBinary (op : BinaryOp) (a b : Ty) : Except (ExecError E) Ty :=
  match op with
  | .and | .or => checkOperands "AND/OR" .boolean a b
  | .add | .sub | .mul | .div => checkOperands "arithmetic" .integer a b
  | .eq | .ne | .lt | .le | .gt | .ge => checkComparison a b

def checkType : Expr → Option Schema → Except (ExecError E) Ty
  | .literal l, _ => .ok (literalType l)
  | .column name, schema =>
    match schema with
    | none => .error (.unknownColumn name)
    | some schema =>
      match schema.columns.find? (·.name = name) with
      | none => .error (.unknownColumn name)
      | some c => .ok (.ofColumnType c.ty)
  | .isNull e _, schema => do
    let _ ← checkType e schema
    return .boolean
  | .unary op e, schema => do
    let t ← checkType e schema
    if t.is op.operand then
      return op.operand
    else
      .error (.typeMismatch ("unary operator cannot be applied to " ++ t.name))
  | .binary l op r, schema => do
    let a ← checkType l schema
    let b ← checkType r schema
    checkBinary op a b

/-- A WHERE clause must be boolean, or a bare NULL. -/
def checkFilter (filter : Option Expr) (schema : Schema) : Except (ExecError E) Unit :=
  match filter with
  | none => .ok ()
  | some f => do
    let t ← checkType f (some schema)
    if t.is .boolean then
      return ()
    else
      .error (.typeMismatch ("WHERE must be boolean, got " ++ t.name))

/-- Whether the filter is exactly TRUE on the row. -/
def keepsRow (filter : Option Expr) (schema : Schema) (row : List Value) :
    Except (ExecError E) Bool :=
  match filter with
  | none => .ok true
  | some f => do
    match ← eval f (some (schema, row)) with
    | .boolean b => return b
    | .null => return false
    | other => .error (.typeMismatch ("WHERE must be boolean, got " ++ other.typeName))

end Choam

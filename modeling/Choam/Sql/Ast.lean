import Choam.Row.Value

/-!
# The syntax tree of the SQL subset
-/

namespace Choam

/-- Never negative when the parser made it: a negative number is a negated literal. -/
inductive Literal where
  | null
  | integer (n : Int64)
  | text (s : String)
  | boolean (b : Bool)
  deriving DecidableEq

inductive UnaryOp where
  | neg
  | not
  deriving DecidableEq

inductive BinaryOp where
  | add | sub | mul | div
  | eq | ne | lt | le | gt | ge
  | and | or
  deriving DecidableEq

inductive Expr where
  | literal (l : Literal)
  | column (name : String)
  | unary (op : UnaryOp) (e : Expr)
  | binary (l : Expr) (op : BinaryOp) (r : Expr)
  /-- `IS NULL`, or `IS NOT NULL` when `negated`. -/
  | isNull (e : Expr) (negated : Bool)
  deriving DecidableEq

structure ColumnSpec where
  name : String
  ty : ColumnType
  primaryKey : Bool
  notNull : Bool
  deriving DecidableEq

inductive Projection where
  | all
  | columns (names : List String)
  deriving DecidableEq

structure OrderBy where
  column : String
  descending : Bool
  deriving DecidableEq

inductive Statement where
  | createTable (name : String) (columns : List ColumnSpec)
  | insert (table : String) (columns : Option (List String)) (rows : List (List Expr))
  | select (projection : Projection) (table : String) (filter : Option Expr)
      (orderBy : Option OrderBy) (limit : Option UInt64)
  | update (table : String) (assignments : List (String × Expr)) (filter : Option Expr)
  | delete (table : String) (filter : Option Expr)
  | begin
  | commit
  | rollback
  deriving DecidableEq

end Choam

import Choam.Sql.Lexer

/-!
# Statements as text

The canonical text of a statement. Every compound expression stands in parentheses, so the text
relies on no precedence.
-/

namespace Choam

def typeName : ColumnType → String
  | .integer => "INTEGER"
  | .text => "TEXT"
  | .bytes => "BYTES"
  | .boolean => "BOOLEAN"

/-- The characters of a text literal, each quote doubled. -/
def escapeQuotes (cs : List Char) : List Char :=
  cs.flatMap fun c => if c = '\'' then ['\'', '\''] else [c]

def Literal.display : Literal → String
  | null => "NULL"
  | integer n => toString n.toInt
  | text s => "'" ++ String.ofList (escapeQuotes s.toList) ++ "'"
  | boolean true => "TRUE"
  | boolean false => "FALSE"

def BinaryOp.display : BinaryOp → String
  | add => "+"
  | sub => "-"
  | mul => "*"
  | div => "/"
  | eq => "="
  | ne => "<>"
  | lt => "<"
  | le => "<="
  | gt => ">"
  | ge => ">="
  | and => "AND"
  | or => "OR"

def Expr.display : Expr → String
  | literal l => l.display
  | column name => name
  | unary .neg e => "(-" ++ e.display ++ ")"
  | unary .not e => "(NOT " ++ e.display ++ ")"
  | binary l op r => "(" ++ l.display ++ " " ++ op.display ++ " " ++ r.display ++ ")"
  | isNull e false => "(" ++ e.display ++ " IS NULL)"
  | isNull e true => "(" ++ e.display ++ " IS NOT NULL)"

/-- Several texts, with commas between. -/
def join (items : List String) : String := ", ".intercalate items

def ColumnSpec.display (c : ColumnSpec) : String :=
  c.name ++ " " ++ typeName c.ty ++ (if c.primaryKey then " PRIMARY KEY" else "") ++
    (if c.notNull then " NOT NULL" else "")

def Projection.display : Projection → String
  | all => "*"
  | columns names => join names

def OrderBy.display (o : OrderBy) : String :=
  " ORDER BY " ++ o.column ++ " " ++ if o.descending then "DESC" else "ASC"

def displayWhere : Option Expr → String
  | none => ""
  | some e => " WHERE " ++ e.display

def displayRow (row : List Expr) : String := "(" ++ join (row.map Expr.display) ++ ")"

def displayAssignment (a : String × Expr) : String := a.1 ++ " = " ++ a.2.display

def Statement.display : Statement → String
  | createTable name columns =>
    "CREATE TABLE " ++ name ++ " (" ++ join (columns.map ColumnSpec.display) ++ ")"
  | insert table columns rows =>
    "INSERT INTO " ++ table ++
      (match columns with
      | none => ""
      | some names => " (" ++ join names ++ ")") ++
      " VALUES " ++ join (rows.map displayRow)
  | select projection table filter orderBy limit =>
    "SELECT " ++ projection.display ++ " FROM " ++ table ++ displayWhere filter ++
      (match orderBy with
      | none => ""
      | some o => o.display) ++
      (match limit with
      | none => ""
      | some n => " LIMIT " ++ toString n.toNat)
  | update table assignments filter =>
    "UPDATE " ++ table ++ " SET " ++ join (assignments.map displayAssignment) ++
      displayWhere filter
  | delete table filter => "DELETE FROM " ++ table ++ displayWhere filter
  | begin => "BEGIN"
  | commit => "COMMIT"
  | rollback => "ROLLBACK"

end Choam

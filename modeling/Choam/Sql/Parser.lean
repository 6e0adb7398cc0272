import Choam.Sql.Lexer

/-!
# The parser

Recursive descent over the tokens that are left, with one function for each level of precedence:
OR, AND, NOT, comparison and IS NULL, addition, multiplication, unary minus, primary. A function
returns what it parsed and the tokens behind it, of which there are fewer than before.
-/

namespace Choam

inductive ParseError where
  | lex (e : LexError)
  | unexpected (found expected : String) (pos : Nat)
  | unexpectedEnd (expected : String)
  | empty
  deriving DecidableEq

def keywords : List String :=
  ["SELECT", "FROM", "WHERE", "INSERT", "INTO", "VALUES", "UPDATE", "SET", "DELETE", "CREATE",
    "TABLE", "PRIMARY", "KEY", "NOT", "NULL", "AND", "OR", "IS", "ORDER", "BY", "ASC", "DESC",
    "LIMIT", "BEGIN", "COMMIT", "ROLLBACK", "TRUE", "FALSE", "INTEGER", "TEXT", "BYTES", "BOOLEAN"]

def eqIgnoreAsciiCase (a b : String) : Bool :=
  a.toList.map Char.toLower == b.toList.map Char.toLower

def isKeyword (word : String) : Bool := keywords.any (eqIgnoreAsciiCase · word)

/-- A token as `Debug` shows it. -/
def Token.debug (u : Unicode) : Token → String
  | word w => "Word(\"" ++ u.escapeDebug w ++ "\")"
  | integer n => "Integer(" ++ toString n.toInt ++ ")"
  | str s => "Str(\"" ++ u.escapeDebug s ++ "\")"
  | lParen => "LParen"
  | rParen => "RParen"
  | comma => "Comma"
  | semicolon => "Semicolon"
  | star => "Star"
  | plus => "Plus"
  | minus => "Minus"
  | slash => "Slash"
  | eq => "Eq"
  | ne => "Ne"
  | lt => "Lt"
  | le => "Le"
  | gt => "Gt"
  | ge => "Ge"

namespace Parser

/-- Tokens with the byte offsets they start at. -/
abbrev Tokens := List (Token × Nat)

/-- Fewer tokens than `ts`. -/
abbrev Shorter (ts : Tokens) := {r : Tokens // r.length < ts.length}

/-- No more tokens than `ts`. -/
abbrev NotLonger (ts : Tokens) := {r : Tokens // r.length ≤ ts.length}

variable (u : Unicode)

def unexpected (ts : Tokens) (expected : String) : ParseError :=
  match ts with
  | (t, pos) :: _ => .unexpected (t.debug u) expected pos
  | [] => .unexpectedEnd expected

def eat (want : Token) (ts : Tokens) : Option (Shorter ts) :=
  match ts with
  | (t, _) :: rest => if t = want then some ⟨rest, Nat.lt_succ_self _⟩ else none
  | [] => none

def expect (want : Token) (what : String) (ts : Tokens) : Except ParseError (Shorter ts) :=
  match eat want ts with
  | some r => .ok r
  | none => .error (unexpected u ts what)

def eatKeyword (kw : String) (ts : Tokens) : Option (Shorter ts) :=
  match ts with
  | (.word w, _) :: rest =>
    if eqIgnoreAsciiCase w kw then some ⟨rest, Nat.lt_succ_self _⟩ else none
  | _ => none

def expectKeyword (kw : String) (ts : Tokens) : Except ParseError (Shorter ts) :=
  match eatKeyword kw ts with
  | some r => .ok r
  | none => .error (unexpected u ts kw)

def ident (what : String) (ts : Tokens) : Except ParseError (String × Shorter ts) :=
  match ts with
  | (.word w, pos) :: rest =>
    if isKeyword w then
      .error (unexpected u ((.word w, pos) :: rest) what)
    else
      .ok (w, ⟨rest, Nat.lt_succ_self _⟩)
  | ts => .error (unexpected u ts what)

/-! ## Expressions -/

/-- The comparison operator that a token is. -/
def cmpOp : Token → Option BinaryOp
  | .eq => some .eq
  | .ne => some .ne
  | .lt => some .lt
  | .le => some .le
  | .gt => some .gt
  | .ge => some .ge
  | _ => none

def addOp : Token → Option BinaryOp
  | .plus => some .add
  | .minus => some .sub
  | _ => none

def mulOp : Token → Option BinaryOp
  | .star => some .mul
  | .slash => some .div
  | _ => none

/-- The operator in front, when `op` knows it. -/
def eatOp (op : Token → Option BinaryOp) (ts : Tokens) : Option (BinaryOp × Shorter ts) :=
  match ts with
  | (t, _) :: rest => (op t).map fun o => (o, ⟨rest, Nat.lt_succ_self _⟩)
  | [] => none

mutual

def orExpr (ts : Tokens) : Except ParseError (Expr × Shorter ts) := do
  let (left, ⟨r, _⟩) ← andExpr ts
  let (e, ⟨r', _⟩) ← orLoop left r
  return (e, ⟨r', by omega⟩)
termination_by 10 * ts.length + 9

def orLoop (left : Expr) (ts : Tokens) : Except ParseError (Expr × NotLonger ts) :=
  match eatKeyword "OR" ts with
  | none => return (left, ⟨ts, le_rfl⟩)
  | some ⟨r, _⟩ => do
    let (right, ⟨r₁, _⟩) ← andExpr r
    let (e, ⟨r₂, _⟩) ← orLoop (.binary left .or right) r₁
    return (e, ⟨r₂, by omega⟩)
termination_by 10 * ts.length

def andExpr (ts : Tokens) : Except ParseError (Expr × Shorter ts) := do
  let (left, ⟨r, _⟩) ← notExpr ts
  let (e, ⟨r', _⟩) ← andLoop left r
  return (e, ⟨r', by omega⟩)
termination_by 10 * ts.length + 8

def andLoop (left : Expr) (ts : Tokens) : Except ParseError (Expr × NotLonger ts) :=
  match eatKeyword "AND" ts with
  | none => return (left, ⟨ts, le_rfl⟩)
  | some ⟨r, _⟩ => do
    let (right, ⟨r₁, _⟩) ← notExpr r
    let (e, ⟨r₂, _⟩) ← andLoop (.binary left .and right) r₁
    return (e, ⟨r₂, by omega⟩)
termination_by 10 * ts.length

def notExpr (ts : Tokens) : Except ParseError (Expr × Shorter ts) :=
  match eatKeyword "NOT" ts with
  | none => cmpExpr ts
  | some ⟨r, _⟩ => do
    let (e, ⟨r', _⟩) ← notExpr r
    return (.unary .not e, ⟨r', by omega⟩)
termination_by 10 * ts.length + 7

def cmpExpr (ts : Tokens) : Except ParseError (Expr × Shorter ts) := do
  let (left, ⟨r, _⟩) ← addExpr ts
  let (e, ⟨r', _⟩) ← cmpLoop left r
  return (e, ⟨r', by omega⟩)
termination_by 10 * ts.length + 6

def cmpLoop (left : Expr) (ts : Tokens) : Except ParseError (Expr × NotLonger ts) :=
  match eatKeyword "IS" ts with
  | some ⟨r, _⟩ => do
    let (negated, ⟨r₁, _⟩) := match eatKeyword "NOT" r with
      | some ⟨r₁, h⟩ => (true, (⟨r₁, h.le⟩ : NotLonger r))
      | none => (false, ⟨r, le_rfl⟩)
    let ⟨r₂, _⟩ ← expectKeyword u "NULL" r₁
    let (e, ⟨r₃, _⟩) ← cmpLoop (.isNull left negated) r₂
    return (e, ⟨r₃, by omega⟩)
  | none =>
    match eatOp cmpOp ts with
    | none => return (left, ⟨ts, le_rfl⟩)
    | some (op, ⟨r, _⟩) => do
      let (right, ⟨r₁, _⟩) ← addExpr r
      let (e, ⟨r₂, _⟩) ← cmpLoop (.binary left op right) r₁
      return (e, ⟨r₂, by omega⟩)
termination_by 10 * ts.length

def addExpr (ts : Tokens) : Except ParseError (Expr × Shorter ts) := do
  let (left, ⟨r, _⟩) ← mulExpr ts
  let (e, ⟨r', _⟩) ← addLoop left r
  return (e, ⟨r', by omega⟩)
termination_by 10 * ts.length + 5

def addLoop (left : Expr) (ts : Tokens) : Except ParseError (Expr × NotLonger ts) :=
  match eatOp addOp ts with
  | none => return (left, ⟨ts, le_rfl⟩)
  | some (op, ⟨r, _⟩) => do
    let (right, ⟨r₁, _⟩) ← mulExpr r
    let (e, ⟨r₂, _⟩) ← addLoop (.binary left op right) r₁
    return (e, ⟨r₂, by omega⟩)
termination_by 10 * ts.length

def mulExpr (ts : Tokens) : Except ParseError (Expr × Shorter ts) := do
  let (left, ⟨r, _⟩) ← unaryExpr ts
  let (e, ⟨r', _⟩) ← mulLoop left r
  return (e, ⟨r', by omega⟩)
termination_by 10 * ts.length + 4

def mulLoop (left : Expr) (ts : Tokens) : Except ParseError (Expr × NotLonger ts) :=
  match eatOp mulOp ts with
  | none => return (left, ⟨ts, le_rfl⟩)
  | some (op, ⟨r, _⟩) => do
    let (right, ⟨r₁, _⟩) ← unaryExpr r
    let (e, ⟨r₂, _⟩) ← mulLoop (.binary left op right) r₁
    return (e, ⟨r₂, by omega⟩)
termination_by 10 * ts.length

def unaryExpr (ts : Tokens) : Except ParseError (Expr × Shorter ts) :=
  match eat .minus ts with
  | none => primary ts
  | some ⟨r, _⟩ => do
    let (e, ⟨r', _⟩) ← unaryExpr r
    return (.unary .neg e, ⟨r', by omega⟩)
termination_by 10 * ts.length + 3

def primary (ts : Tokens) : Except ParseError (Expr × Shorter ts) :=
  match ts with
  | (.integer n, _) :: r => return (.literal (.integer n), ⟨r, Nat.lt_succ_self _⟩)
  | (.str s, _) :: r => return (.literal (.text s), ⟨r, Nat.lt_succ_self _⟩)
  | (.lParen, _) :: r => do
    let (e, ⟨r₁, _⟩) ← orExpr r
    let ⟨r₂, _⟩ ← expect u .rParen "`)`" r₁
    return (e, ⟨r₂, by simp only [List.length_cons]; omega⟩)
  | (.word w, pos) :: r =>
    if eqIgnoreAsciiCase w "NULL" then
      return (.literal .null, ⟨r, Nat.lt_succ_self _⟩)
    else if eqIgnoreAsciiCase w "TRUE" then
      return (.literal (.boolean true), ⟨r, Nat.lt_succ_self _⟩)
    else if eqIgnoreAsciiCase w "FALSE" then
      return (.literal (.boolean false), ⟨r, Nat.lt_succ_self _⟩)
    else if isKeyword w then
      .error (unexpected u ((.word w, pos) :: r) "an expression")
    else
      return (.column w, ⟨r, Nat.lt_succ_self _⟩)
  | ts => .error (unexpected u ts "an expression")
termination_by 10 * ts.length

end

def expr (ts : Tokens) : Except ParseError (Expr × Shorter ts) := orExpr u ts

/-! ## Lists -/

/-- Items that `item` parses, separated by commas: the rest of the list after its first item. -/
def moreItems {α : Type} (item : (ts : Tokens) → Except ParseError (α × Shorter ts))
    (ts : Tokens) : Except ParseError (List α × NotLonger ts) :=
  match eat .comma ts with
  | none => return ([], ⟨ts, le_rfl⟩)
  | some ⟨r, _⟩ => do
    let (a, ⟨r₁, _⟩) ← item r
    let (as, ⟨r₂, _⟩) ← moreItems item r₁
    return (a :: as, ⟨r₂, by omega⟩)
termination_by ts.length

def items {α : Type} (item : (ts : Tokens) → Except ParseError (α × Shorter ts)) (ts : Tokens) :
    Except ParseError (List α × Shorter ts) := do
  let (a, ⟨r, _⟩) ← item ts
  let (as, ⟨r', _⟩) ← moreItems item r
  return (a :: as, ⟨r', by omega⟩)

def identList (what : String) (ts : Tokens) : Except ParseError (List String × Shorter ts) :=
  items (ident u what) ts

/-! ## Statements -/

def columnType (ts : Tokens) : Except ParseError (ColumnType × Shorter ts) :=
  match eatKeyword "INTEGER" ts, eatKeyword "TEXT" ts, eatKeyword "BYTES" ts,
    eatKeyword "BOOLEAN" ts with
  | some r, _, _, _ => .ok (.integer, r)
  | none, some r, _, _ => .ok (.text, r)
  | none, none, some r, _ => .ok (.bytes, r)
  | none, none, none, some r => .ok (.boolean, r)
  | none, none, none, none =>
    .error (unexpected u ts "a column type (INTEGER, TEXT, BYTES, BOOLEAN)")

/-- The modifiers of a column, in any order and number: whether PRIMARY KEY and NOT NULL are among
them, or were seen before. -/
def modifiers (primaryKey notNull : Bool) (ts : Tokens) :
    Except ParseError ((Bool × Bool) × NotLonger ts) :=
  match eatKeyword "PRIMARY" ts with
  | some ⟨r, _⟩ => do
    let ⟨r₁, _⟩ ← expectKeyword u "KEY" r
    let (m, ⟨r₂, _⟩) ← modifiers true notNull r₁
    return (m, ⟨r₂, by omega⟩)
  | none =>
    match eatKeyword "NOT" ts with
    | some ⟨r, _⟩ => do
      let ⟨r₁, _⟩ ← expectKeyword u "NULL" r
      let (m, ⟨r₂, _⟩) ← modifiers primaryKey true r₁
      return (m, ⟨r₂, by omega⟩)
    | none => return ((primaryKey, notNull), ⟨ts, le_rfl⟩)
termination_by ts.length

def columnSpec (ts : Tokens) : Except ParseError (ColumnSpec × Shorter ts) := do
  let (name, ⟨r, _⟩) ← ident u "column name" ts
  let (ty, ⟨r₁, _⟩) ← columnType u r
  let ((primaryKey, notNull), ⟨r₂, _⟩) ← modifiers u false false r₁
  return (⟨name, ty, primaryKey, notNull⟩, ⟨r₂, by omega⟩)

def createTable (ts : Tokens) : Except ParseError (Statement × Shorter ts) := do
  let ⟨r, _⟩ ← expectKeyword u "TABLE" ts
  let (name, ⟨r₁, _⟩) ← ident u "table name" r
  let ⟨r₂, _⟩ ← expect u .lParen "`(`" r₁
  let (columns, ⟨r₃, _⟩) ← items (columnSpec u) r₂
  let ⟨r₄, _⟩ ← expect u .rParen "`)` or `,`" r₃
  return (.createTable name columns, ⟨r₄, by omega⟩)

/-- One parenthesised row of VALUES. -/
def valuesRow (ts : Tokens) : Except ParseError (List Expr × Shorter ts) := do
  let ⟨r, _⟩ ← expect u .lParen "`(`" ts
  let (row, ⟨r₁, _⟩) ← items (expr u) r
  let ⟨r₂, _⟩ ← expect u .rParen "`)` or `,`" r₁
  return (row, ⟨r₂, by omega⟩)

def insert (ts : Tokens) : Except ParseError (Statement × Shorter ts) := do
  let ⟨r, _⟩ ← expectKeyword u "INTO" ts
  let (table, ⟨r₁, _⟩) ← ident u "table name" r
  let (columns, ⟨r₂, _⟩) ← (match eat .lParen r₁ with
    | none => return (none, ⟨r₁, le_rfl⟩)
    | some ⟨r₂, _⟩ => do
      let (c, ⟨r₃, _⟩) ← identList u "column name" r₂
      let ⟨r₄, _⟩ ← expect u .rParen "`)`" r₃
      return (some c, ⟨r₄, by omega⟩) : Except ParseError (Option (List String) × NotLonger r₁))
  let ⟨r₃, _⟩ ← expectKeyword u "VALUES" r₂
  let (rows, ⟨r₄, _⟩) ← items (valuesRow u) r₃
  return (.insert table columns rows, ⟨r₄, by omega⟩)

def optWhere (ts : Tokens) : Except ParseError (Option Expr × NotLonger ts) :=
  match eatKeyword "WHERE" ts with
  | none => return (none, ⟨ts, le_rfl⟩)
  | some ⟨r, _⟩ => do
    let (e, ⟨r₁, _⟩) ← expr u r
    return (some e, ⟨r₁, by omega⟩)

def optOrderBy (ts : Tokens) : Except ParseError (Option OrderBy × NotLonger ts) :=
  match eatKeyword "ORDER" ts with
  | none => return (none, ⟨ts, le_rfl⟩)
  | some ⟨r, _⟩ => do
    let ⟨r₁, _⟩ ← expectKeyword u "BY" r
    let (column, ⟨r₂, _⟩) ← ident u "column name" r₁
    match eatKeyword "DESC" r₂ with
    | some ⟨r₃, _⟩ => return (some ⟨column, true⟩, ⟨r₃, by omega⟩)
    | none =>
      match eatKeyword "ASC" r₂ with
      | some ⟨r₃, _⟩ => return (some ⟨column, false⟩, ⟨r₃, by omega⟩)
      | none => return (some ⟨column, false⟩, ⟨r₂, by omega⟩)

def optLimit (ts : Tokens) : Except ParseError (Option UInt64 × NotLonger ts) :=
  match eatKeyword "LIMIT" ts with
  | none => return (none, ⟨ts, le_rfl⟩)
  | some ⟨r, h⟩ =>
    match hr : r with
    | (.integer n, _) :: r₁ =>
      return (some n.toUInt64, ⟨r₁, by simp only [List.length_cons] at h; omega⟩)
    | t :: r₁ => .error (unexpected u (t :: r₁) "an integer")
    -- The position moves back even where the end of the input kept it from moving on.
    | [] => .error (unexpected u ts "an integer")

def select (ts : Tokens) : Except ParseError (Statement × Shorter ts) := do
  let (projection, ⟨r, _⟩) ← (match eat .star ts with
    | some r => return (.all, r)
    | none => do
      let (names, r) ← identList u "column name or `*`" ts
      return (.columns names, r) : Except ParseError (Projection × Shorter ts))
  let ⟨r₁, _⟩ ← expectKeyword u "FROM" r
  let (table, ⟨r₂, _⟩) ← ident u "table name" r₁
  let (filter, ⟨r₃, _⟩) ← optWhere u r₂
  let (orderBy, ⟨r₄, _⟩) ← optOrderBy u r₃
  let (limit, ⟨r₅, _⟩) ← optLimit u r₄
  return (.select projection table filter orderBy limit, ⟨r₅, by omega⟩)

def assignment (ts : Tokens) : Except ParseError ((String × Expr) × Shorter ts) := do
  let (col, ⟨r, _⟩) ← ident u "column name" ts
  let ⟨r₁, _⟩ ← expect u .eq "`=`" r
  let (e, ⟨r₂, _⟩) ← expr u r₁
  return ((col, e), ⟨r₂, by omega⟩)

def update (ts : Tokens) : Except ParseError (Statement × Shorter ts) := do
  let (table, ⟨r, _⟩) ← ident u "table name" ts
  let ⟨r₁, _⟩ ← expectKeyword u "SET" r
  let (assignments, ⟨r₂, _⟩) ← items (assignment u) r₁
  let (filter, ⟨r₃, _⟩) ← optWhere u r₂
  return (.update table assignments filter, ⟨r₃, by omega⟩)

def delete (ts : Tokens) : Except ParseError (Statement × Shorter ts) := do
  let ⟨r, _⟩ ← expectKeyword u "FROM" ts
  let (table, ⟨r₁, _⟩) ← ident u "table name" r
  let (filter, ⟨r₂, _⟩) ← optWhere u r₁
  return (.delete table filter, ⟨r₂, by omega⟩)

/-- What `p` parses behind a keyword. -/
def after {ts : Tokens} (r : Shorter ts)
    (p : (ts : Tokens) → Except ParseError (Statement × Shorter ts)) :
    Except ParseError (Statement × Shorter ts) := do
  let (s, r') ← p r.val
  return (s, ⟨r'.val, r'.property.trans r.property⟩)

def statement (ts : Tokens) : Except ParseError (Statement × Shorter ts) :=
  match eatKeyword "CREATE" ts with
  | some r => after r (createTable u)
  | none =>
  match eatKeyword "INSERT" ts with
  | some r => after r (insert u)
  | none =>
  match eatKeyword "SELECT" ts with
  | some r => after r (select u)
  | none =>
  match eatKeyword "UPDATE" ts with
  | some r => after r (update u)
  | none =>
  match eatKeyword "DELETE" ts with
  | some r => after r (delete u)
  | none =>
  match eatKeyword "BEGIN" ts with
  | some r => .ok (.begin, r)
  | none =>
  match eatKeyword "COMMIT" ts with
  | some r => .ok (.commit, r)
  | none =>
  match eatKeyword "ROLLBACK" ts with
  | some r => .ok (.rollback, r)
  | none => .error (unexpected u ts "a statement")

/-- Statements with semicolons between, before and behind them. -/
def statements (ts : Tokens) : Except ParseError (List Statement) :=
  match eat .semicolon ts with
  | some ⟨r, _⟩ => statements r
  | none =>
    match ts with
    | [] => return []
    | t :: ts' => do
      let (s, ⟨r, _⟩) ← statement u (t :: ts')
      match r with
      | [] | (.semicolon, _) :: _ => return s :: (← statements r)
      | _ => .error (unexpected u r "`;` or end of input")
termination_by ts.length
decreasing_by all_goals grind

end Parser

def parseScript (u : Unicode) (sql : String) : Except ParseError (List Statement) := do
  let tokens ← (lex u sql).mapError .lex
  Parser.statements u tokens

/-- Parses exactly one statement. -/
def parse (u : Unicode) (sql : String) : Except ParseError Statement := do
  match ← parseScript u sql with
  | [] => .error .empty
  | [s] => .ok s
  | _ => .error (.unexpected "another statement" "end of input" 0)

end Choam

import Choam.Lib.Grammar
import Choam.Sql.Parser

/-!
# The grammar

The documented grammar of the dialect, apart from the parser. Expressions are stratified: OR, AND,
NOT, comparison and IS NULL, addition, multiplication, unary minus, primary, each level made of the
next one. Its derivation trees are `ExprTree`, and `ExprTree.value` is the expression that a tree
stands for. The binary operators are left-associative because their left side is of their own
level; IS NULL stands behind a comparison as another comparison does.
-/

namespace Choam.Grammar

open Choam.Parser (cmpOp addOp mulOp)

/-! ## Tokens -/

def word? (kw : String) : Token → Option Unit
  | .word w => if eqIgnoreAsciiCase w kw then some () else none
  | _ => none

def only? (want : Token) : Token → Option Unit := fun t => if t = want then some () else none

def ident? : Token → Option String
  | .word w => if isKeyword w then none else some w
  | _ => none

def literal? : Token → Option Literal
  | .integer n => some (.integer n)
  | .str s => some (.text s)
  | .word w =>
    if eqIgnoreAsciiCase w "NULL" then some .null
    else if eqIgnoreAsciiCase w "TRUE" then some (.boolean true)
    else if eqIgnoreAsciiCase w "FALSE" then some (.boolean false)
    else none
  | _ => none

/-- A keyword, in any case. -/
abbrev keyword (kw : String) : Phrase Token Unit := .token (word? kw)

/-- A bracket, a separator or an operator. -/
abbrev symbol (want : Token) : Phrase Token Unit := .token (only? want)

/-- A word that is no keyword. -/
abbrev ident : Phrase Token String := .token ident?

/-! ## Expressions -/

inductive Level where
  | or
  | and
  | not
  | cmp
  | add
  | mul
  | unary
  | primary
  deriving DecidableEq

/-- How tightly the operators of a level bind. -/
def Level.rank : Level → Nat
  | or => 0
  | and => 1
  | not => 2
  | cmp => 3
  | add => 4
  | mul => 5
  | unary => 6
  | primary => 7

inductive ExprTree : Level → Type where
  | ofAnd (e : ExprTree .and) : ExprTree .or
  | or (l : ExprTree .or) (kw : (keyword "OR").Tree) (r : ExprTree .and) : ExprTree .or
  | ofNot (e : ExprTree .not) : ExprTree .and
  | and (l : ExprTree .and) (kw : (keyword "AND").Tree) (r : ExprTree .not) : ExprTree .and
  | ofCmp (e : ExprTree .cmp) : ExprTree .not
  | not (kw : (keyword "NOT").Tree) (e : ExprTree .not) : ExprTree .not
  | ofAdd (e : ExprTree .add) : ExprTree .cmp
  | cmp (l : ExprTree .cmp) (op : (Phrase.token cmpOp).Tree) (r : ExprTree .add) : ExprTree .cmp
  | isNull (l : ExprTree .cmp) (is : (keyword "IS").Tree) (negated : (keyword "NOT").opt.Tree)
      (null : (keyword "NULL").Tree) : ExprTree .cmp
  | ofMul (e : ExprTree .mul) : ExprTree .add
  | add (l : ExprTree .add) (op : (Phrase.token addOp).Tree) (r : ExprTree .mul) : ExprTree .add
  | ofUnary (e : ExprTree .unary) : ExprTree .mul
  | mul (l : ExprTree .mul) (op : (Phrase.token mulOp).Tree) (r : ExprTree .unary) : ExprTree .mul
  | ofPrimary (e : ExprTree .primary) : ExprTree .unary
  | neg (minus : (symbol .minus).Tree) (e : ExprTree .unary) : ExprTree .unary
  | literal (l : (Phrase.token literal?).Tree) : ExprTree .primary
  | column (name : ident.Tree) : ExprTree .primary
  | paren (left : (symbol .lParen).Tree) (e : ExprTree .or) (right : (symbol .rParen).Tree) :
      ExprTree .primary

namespace ExprTree

def yield : {l : Level} → ExprTree l → List Token
  | _, ofAnd e | _, ofNot e | _, ofCmp e | _, ofAdd e | _, ofMul e | _, ofUnary e
  | _, ofPrimary e => e.yield
  | _, or l kw r | _, and l kw r => l.yield ++ kw.val :: r.yield
  | _, not kw e => kw.val :: e.yield
  | _, cmp l op r | _, add l op r | _, mul l op r => l.yield ++ op.val :: r.yield
  | _, isNull l is negated null =>
    l.yield ++ is.val :: ((keyword "NOT").opt.yield negated ++ [null.val])
  | _, neg minus e => minus.val :: e.yield
  | _, literal l => [l.val]
  | _, column name => [name.val]
  | _, paren left e right => left.val :: (e.yield ++ [right.val])

/-- The expression that the tree stands for. -/
def value : {l : Level} → ExprTree l → Expr
  | _, ofAnd e | _, ofNot e | _, ofCmp e | _, ofAdd e | _, ofMul e | _, ofUnary e
  | _, ofPrimary e => e.value
  | _, or l _ r => .binary l.value .or r.value
  | _, and l _ r => .binary l.value .and r.value
  | _, not _ e => .unary .not e.value
  | _, cmp l op r => .binary l.value ((Phrase.token cmpOp).value op) r.value
  | _, isNull l _ negated _ => .isNull l.value negated.isSome
  | _, add l op r => .binary l.value ((Phrase.token addOp).value op) r.value
  | _, mul l op r => .binary l.value ((Phrase.token mulOp).value op) r.value
  | _, neg _ e => .unary .neg e.value
  | _, literal l => .literal ((Phrase.token literal?).value l)
  | _, column name => .column (ident.value name)
  | _, paren _ e _ => e.value

end ExprTree

/-- The token is an operator behind the left side of the level. -/
def Operator : Level → Token → Prop
  | .or, t => (word? "OR" t).isSome
  | .and, t => (word? "AND" t).isSome
  | .cmp, t => (word? "IS" t).isSome ∨ (cmpOp t).isSome
  | .add, t => (addOp t).isSome
  | .mul, t => (mulOp t).isSome
  | _, _ => False

/-- A tree ends where no operator of its own level or of its last part follows. -/
def ExprTree.Stop : {l : Level} → ExprTree l → Token → Prop
  | _, ofAnd e, t | _, or _ _ e, t => e.Stop t ∧ ¬ Operator .or t
  | _, ofNot e, t | _, and _ _ e, t => e.Stop t ∧ ¬ Operator .and t
  | _, ofCmp e, t | _, not _ e, t => e.Stop t
  | _, ofAdd e, t | _, cmp _ _ e, t => e.Stop t ∧ ¬ Operator .cmp t
  | _, isNull .., t => ¬ Operator .cmp t
  | _, ofMul e, t | _, add _ _ e, t => e.Stop t ∧ ¬ Operator .add t
  | _, ofUnary e, t | _, mul _ _ e, t => e.Stop t ∧ ¬ Operator .mul t
  | _, ofPrimary e, t | _, neg _ e, t => e.Stop t
  | _, literal _, _ | _, column _, _ | _, paren .., _ => True

/-- The expressions of a level. -/
abbrev exprAt (l : Level) : Phrase Token Expr where
  Tree := ExprTree l
  yield := ExprTree.yield
  value := ExprTree.value
  Stop := ExprTree.Stop

abbrev expr : Phrase Token Expr := exprAt .or

/-! ## Lists -/

/-- At least one `A`, with commas between. -/
abbrev items {α : Type} (A : Phrase Token α) : Phrase Token (List α) := do
  let a ← A
  (a :: ·) <$> (do symbol .comma; A : Phrase Token α).many

abbrev identList : Phrase Token (List String) := items ident

/-! ## Statements -/

def columnType? (t : Token) : Option ColumnType :=
  if (word? "INTEGER" t).isSome then some .integer
  else if (word? "TEXT" t).isSome then some .text
  else if (word? "BYTES" t).isSome then some .bytes
  else if (word? "BOOLEAN" t).isSome then some .boolean
  else none

/-- PRIMARY KEY or NOT NULL, and what it does to whether there was one of each. -/
abbrev modifier : Phrase Token (Bool × Bool → Bool × Bool) :=
  Phrase.either (do keyword "PRIMARY"; keyword "KEY"; return fun m => (true, m.2))
    (do keyword "NOT"; keyword "NULL"; return fun m => (m.1, true))

abbrev columnSpec : Phrase Token ColumnSpec := do
  let name ← ident
  let ty ← Phrase.token columnType?
  let (primaryKey, notNull) ← Phrase.Chain.steps modifier (false, false)
  return ⟨name, ty, primaryKey, notNull⟩

abbrev createTable : Phrase Token Statement := do
  keyword "TABLE"
  let name ← ident
  symbol .lParen
  let columns ← items columnSpec
  symbol .rParen
  return .createTable name columns

abbrev valuesRow : Phrase Token (List Expr) := do
  symbol .lParen
  let row ← items expr
  symbol .rParen
  return row

abbrev insert : Phrase Token Statement := do
  keyword "INTO"
  let table ← ident
  let columns ← (do symbol .lParen; let c ← identList; symbol .rParen; return c :
    Phrase Token (List String)).opt
  keyword "VALUES"
  let rows ← items valuesRow
  return .insert table columns rows

abbrev optWhere : Phrase Token (Option Expr) :=
  (do keyword "WHERE"; expr : Phrase Token Expr).opt

/-- ASC or DESC: whether it is DESC. -/
def direction? (t : Token) : Option Bool :=
  if (word? "DESC" t).isSome then some true
  else if (word? "ASC" t).isSome then some false
  else none

abbrev orderBy : Phrase Token OrderBy := do
  keyword "ORDER"
  keyword "BY"
  let column ← ident
  let descending ← (Phrase.token direction?).opt
  return ⟨column, descending.getD false⟩

def limit? : Token → Option UInt64
  | .integer n => some n.toUInt64
  | _ => none

abbrev limit : Phrase Token UInt64 := do
  keyword "LIMIT"
  Phrase.token limit?

abbrev projection : Phrase Token Projection :=
  Phrase.either (do symbol .star; return .all) (.columns <$> identList)

abbrev select : Phrase Token Statement := do
  let projection ← projection
  keyword "FROM"
  let table ← ident
  let filter ← optWhere
  let orderBy ← orderBy.opt
  let limit ← limit.opt
  return .select projection table filter orderBy limit

abbrev assignment : Phrase Token (String × Expr) := do
  let col ← ident
  symbol .eq
  let e ← expr
  return (col, e)

abbrev update : Phrase Token Statement := do
  let table ← ident
  keyword "SET"
  let assignments ← items assignment
  let filter ← optWhere
  return .update table assignments filter

abbrev delete : Phrase Token Statement := do
  keyword "FROM"
  let table ← ident
  let filter ← optWhere
  return .delete table filter

/-- The keyword that a statement starts with. -/
inductive Verb where
  | create
  | insert
  | select
  | update
  | delete
  | begin
  | commit
  | rollback
  deriving DecidableEq

def verb? (t : Token) : Option Verb :=
  if (word? "CREATE" t).isSome then some .create
  else if (word? "INSERT" t).isSome then some .insert
  else if (word? "SELECT" t).isSome then some .select
  else if (word? "UPDATE" t).isSome then some .update
  else if (word? "DELETE" t).isSome then some .delete
  else if (word? "BEGIN" t).isSome then some .begin
  else if (word? "COMMIT" t).isSome then some .commit
  else if (word? "ROLLBACK" t).isSome then some .rollback
  else none

abbrev body : Verb → Phrase Token Statement
  | .create => createTable
  | .insert => insert
  | .select => select
  | .update => update
  | .delete => delete
  | .begin => return .begin
  | .commit => return .commit
  | .rollback => return .rollback

abbrev statement : Phrase Token Statement := do
  let verb ← Phrase.token verb?
  body verb

/-! ## Scripts -/

/-- Statements with semicolons between them, any number of them also in front, behind and
together. -/
inductive ScriptTree where
  | done
  | semicolon (rest : ScriptTree)
  | last (s : statement.Tree)
  | next (s : statement.Tree) (rest : ScriptTree)

namespace ScriptTree

def yield : ScriptTree → List Token
  | done => []
  | semicolon rest => .semicolon :: rest.yield
  | last s => statement.yield s
  | next s rest => statement.yield s ++ .semicolon :: rest.yield

def statements : ScriptTree → List Statement
  | done => []
  | semicolon rest => rest.statements
  | last s => [statement.value s]
  | next s rest => statement.value s :: rest.statements

end ScriptTree

/-- A script ends where the input does. -/
abbrev script : Phrase Token (List Statement) where
  Tree := ScriptTree
  yield := ScriptTree.yield
  value := ScriptTree.statements
  Stop _ _ := False

end Choam.Grammar

import Choam.Engine.Session
import Choam.Sql.Display

/-!
# What errors say

The texts of the errors, as they are displayed. What `Debug` shows of a character and what the
store's own errors say is not the repository's, and so a parameter.
-/

namespace Choam

open ByteString

/-- How texts that are not the repository's are shown. -/
structure Texts (E : Type) where
  /-- A character as `Debug` shows it, with its quotes. -/
  char : Char → String
  /-- An error of the store. -/
  store : E → String

/-- For a store that raises no errors; no character is escaped. -/
def Texts.plain : Texts Empty := ⟨fun ch => String.ofList ['\'', ch, '\''], Empty.elim⟩

variable (u : Unicode) {E : Type} (x : Texts E)

/-- A string as `Debug` shows it. -/
def quoted (s : String) : String := "\"" ++ u.escapeDebug s ++ "\""

namespace ColumnType

def debug : ColumnType → String
  | integer => "Integer"
  | text => "Text"
  | bytes => "Bytes"
  | boolean => "Boolean"

end ColumnType

/-- Bytes as `Debug` shows them. -/
def debugBytes (bs : Bytes) : String :=
  "[" ++ join (bs.map fun b => toString b.toNat) ++ "]"

namespace Value

def debug : Value → String
  | integer n => "Integer(" ++ toString n.toInt ++ ")"
  | text s => "Text(" ++ quoted u s ++ ")"
  | bytes b => "Bytes(" ++ debugBytes b ++ ")"
  | boolean b => "Boolean(" ++ toString b ++ ")"
  | null => "Null"

end Value

namespace LexError

def message : LexError → String
  | unexpectedChar ch pos =>
    "unexpected character " ++ x.char ch ++ " at byte " ++ toString pos
  | unterminatedString pos => "unterminated string literal starting at byte " ++ toString pos
  | integerOutOfRange pos =>
    "integer literal at byte " ++ toString pos ++ " does not fit in 64 bits"

end LexError

namespace ParseError

def message : ParseError → String
  | lex e => e.message x
  | unexpected found expected pos =>
    "expected " ++ expected ++ " at byte " ++ toString pos ++ ", found " ++ found
  | unexpectedEnd expected => "unexpected end of input, expected " ++ expected
  | empty => "empty input"

end ParseError

namespace ValueError

def message : ValueError → String
  | typeMismatch expected found =>
    "expected a " ++ expected.debug ++ " value, found " ++ found
  | truncated ty => "value data truncated while decoding a " ++ ty.debug
  | invalidUtf8 => "text column contains invalid UTF-8"

end ValueError

namespace SchemaError

def message : SchemaError → String
  | noColumns => "a table must have at least one column"
  | primaryKeyOutOfRange primaryKey columns =>
    "primary key index " ++ toString primaryKey ++ " is out of range for " ++
      toString columns ++ " columns"
  | nullablePrimaryKey name =>
    "the primary key column (" ++ quoted u name ++ ") cannot be nullable"
  | duplicateColumnName name => "duplicate column name " ++ quoted u name

end SchemaError

namespace RowError

def message : RowError → String
  | columnCountMismatch expected found =>
    "row has " ++ toString found ++ " values, schema declares " ++ toString expected ++ " columns"
  | unexpectedNull column =>
    "column " ++ quoted u column ++ " is not nullable but was given a null value"
  | value e => e.message
  | truncated => "row data truncated"

end RowError

namespace CatalogCodecError

def message : CatalogCodecError → String
  | truncated => "catalog entry data truncated"
  | invalidUtf8 => "catalog entry contains invalid UTF-8 in a name"
  | unknownTypeTag tag => "unknown column type tag " ++ toString tag.toNat
  | schema e => e.message u

end CatalogCodecError

namespace CatalogError

def message : CatalogError E → String
  | emptyTableName => "table name must not be empty"
  | tableAlreadyExists name => "table " ++ quoted u name ++ " already exists"
  | concurrentCreateTable => "concurrent CREATE TABLE conflict — retry the call"
  | schema e => e.message u
  | codec e => e.message u
  | store e => x.store e
  -- The call panicked: no error is displayed.
  | counterOverflow => ""

end CatalogError

namespace DbError

def message : DbError E → String
  | unknownTable name => "unknown table " ++ quoted u name
  | value e => e.message
  | row e => e.message u
  | catalog e => e.message u x
  | store e => x.store e
  | conflict table pk =>
    "transaction conflict on table " ++ quoted u table ++ " row " ++ pk.debug u ++
      " — retry the transaction"
  | unrecognizedConflict key => "transaction conflict on an unrecognized key " ++ debugBytes key

end DbError

namespace ExecError

def message : ExecError E → String
  | parse e => e.message x
  | db e => e.message u x
  | unknownColumn name => "unknown column " ++ quoted u name
  | typeMismatch what => "type mismatch: " ++ what
  | divisionByZero => "division by zero"
  | integerOverflow => "integer overflow"
  | primaryKeyCount => "table must declare exactly one PRIMARY KEY column"
  | nullPrimaryKey => "primary key value must not be NULL"
  | duplicatePrimaryKey pk => "duplicate primary key " ++ pk.debug u
  | duplicateColumn name => "column " ++ quoted u name ++ " listed twice"
  | valueCount expected found =>
    "INSERT row has " ++ toString found ++ " values but " ++ toString expected ++
      " columns were targeted"
  | updatePrimaryKey name => "UPDATE cannot change primary key column " ++ quoted u name
  | ddlInTransaction => "CREATE TABLE is not allowed inside a transaction"
  | alreadyInTransaction => "already inside a transaction"
  | noActiveTransaction => "no transaction is active"
  | transactionAborted => "current transaction is aborted; ROLLBACK to continue"
  -- The program panicked: no error is displayed.
  | panic => ""

end ExecError

end Choam

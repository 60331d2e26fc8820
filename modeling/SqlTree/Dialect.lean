import SqlTree.Text.Doubled
import SqlTree.Clause
import SqlTree.Fault

/-!
The dialects of SQL: how each quotes names, spells literals and placeholders, and orders clauses.
-/

namespace SqlTree

inductive Dialect where
  | ansi
  | postgres
  | mysql
  | sqlite
  | sqlserver
  | oracle
deriving DecidableEq, Repr, Inhabited

namespace Dialect

def all : List Dialect := [ansi, postgres, mysql, sqlite, sqlserver, oracle]

def name : Dialect → String
  | ansi => "ansi"
  | postgres => "postgres"
  | mysql => "mysql"
  | sqlite => "sqlite"
  | sqlserver => "sqlserver"
  | oracle => "oracle"

def ofName (s : String) : Except Fault Dialect :=
  match all.find? fun d => d.name = s with
  | some d => .ok d
  | none => .error (.unknownDialect s)

/-- How a dialect introduces itself. -/
def title : Dialect → String
  | ansi => "AnsiDialect()"
  | postgres => "PostgresDialect()"
  | mysql => "MySQLDialect()"
  | sqlite => "SQLiteDialect()"
  | sqlserver => "SQLServerDialect()"
  | oracle => "OracleDialect()"

def openingQuote : Dialect → Char
  | mysql => '\x60'
  | sqlserver => '['
  | _ => '"'

def closingQuote : Dialect → Char
  | mysql => '\x60'
  | sqlserver => ']'
  | _ => '"'

def quoteIdentifier (d : Dialect) (s : String) : String :=
  Text.enclosed (String.singleton d.openingQuote) s (String.singleton d.closingQuote)

def maxIdentifierLength : Dialect → Int
  | mysql => 64
  | sqlserver => 128
  | oracle => 128
  | _ => 63

def stringLiteral (_ : Dialect) (s : String) : String := Text.enclosed "'" s "'"

def upperHex (bs : List UInt8) : String :=
  String.ofList ((Text.hexText bs).toList.map Char.toUpper)

def bytesLiteral (d : Dialect) (bs : List UInt8) : String :=
  match d with
  | postgres => "'\\x" ++ upperHex bs ++ "'"
  | sqlserver => "0x" ++ upperHex bs
  | _ => "X'" ++ upperHex bs ++ "'"

def numberedByDefault : Dialect → Bool
  | postgres => true
  | _ => false

def placeholder (_ : Dialect) (index : Int) (numbered : Bool) : String :=
  if numbered then "$" ++ toString index else "?"

/-- Whether the alias of a table may follow the word AS. -/
def tableAliasAs : Dialect → Bool
  | oracle => false
  | _ => true

/-- One dialect writes its assignments directly before the condition. -/
def clauseOrder (d : Dialect) (order : List String) : List String :=
  match d with
  | mysql =>
    if order.contains "set" && order.contains "where" then
      Clause.insertBefore "set" "where" (order.filter (· != "set"))
    else order
  | _ => order

end Dialect

end SqlTree

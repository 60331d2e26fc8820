import SqlTree.Syntax.Parser.Query

/-!
Parsers of statements, and of texts that hold several of them. Here the parsers of what is nested
are given their meaning.
-/

namespace SqlTree.Syntax.Parser

open Syntax.Tree (ofList ofOption)

section Changes

variable (p : Nested)

def assignment : Parser (Tree .assignment) := do
  let column ← name
  symbol "="
  return .assignment column (← p.expr)

def assignments : Parser (Tree (.list .assignment)) := do return ofList (← commas (assignment p))

def row : Parser (Tree .row) := do return .row (ofList (← parens (exprs p)))

def insertSource : Parser (Tree .insertSource) := do
  if ← takeKeyword "values" then return .rows (ofList (← commas (row p)))
  if ← takeKeyword "default" then
    keyword "values"
    return .defaults
  return .insertQuery (← query p)

/-- The column names of an insertion. A parenthesis before anything else opens a query. -/
def insertColumns : Parser (List Name) := do
  if (← atSymbol "(") && isName (← peekSecond) then nameList else return []

def conflictTarget : Parser (Option (Tree .conflictTarget)) := do
  if ← atSymbol "(" then return some (.conflictColumns (ofList (← parens (exprs p))))
  if ← takeKeyword "on" then
    keyword "constraint"
    return some (.conflictConstraint (← name))
  return none

def conflictAction : Parser (Tree .conflictAction) := do
  keyword "do"
  if ← takeKeyword "nothing" then return .doNothing
  keywords ["update", "set"]
  let fields ← assignments p
  return .doUpdate fields (ofOption (← whereClause p))

def conflict : Parser (Option (Tree .conflict)) := optional "on" do
  keyword "conflict"
  let target ← conflictTarget p
  return .conflict (ofOption target) (← conflictAction p)

def returning : Parser (Tree (.list .selectItem)) := do
  return ofList ((← optional "returning" (selectItems p)).getD [])

def insertRest (ctes : Option (Tree .ctes)) : Parser Statement := do
  keyword "into"
  let table ← path
  let name ← optional "as" name
  let columns ← insertColumns
  let source ← insertSource p
  let conflict ← conflict p
  return .insert (ofOption ctes) table name columns source (ofOption conflict) (← returning p)

def updateRest (ctes : Option (Tree .ctes)) : Parser Statement := do
  let table ← path
  let name ← aliasName
  keyword "set"
  let fields ← assignments p
  let sources ← fromClause p
  let condition ← whereClause p
  return .update (ofOption ctes) table name fields (ofList (sources.getD []))
    (ofOption condition) (← returning p)

def deleteRest (ctes : Option (Tree .ctes)) : Parser Statement := do
  keyword "from"
  let target ← path
  let name ← aliasName
  let tables ← optional "using" (commas (table p))
  let condition ← whereClause p
  return .delete (ofOption ctes) target name (ofList (tables.getD [])) (ofOption condition)
    (← returning p)

def statement : Parser Statement := do
  let ctes ← ctes p
  if ← takeKeyword "insert" then return ← insertRest p ctes
  if ← takeKeyword "update" then return ← updateRest p ctes
  if ← takeKeyword "delete" then return ← deleteRest p ctes
  return .queryStatement (← queryRest p ctes)

end Changes

section Definitions

def columnConstraint : Parser (Option ColumnConstraint) := do
  if ← takeKeyword "primary" then
    keyword "key"
    return some .primaryKey
  if ← takeKeyword "not" then
    keyword "null"
    return some .notNull
  if ← takeKeyword "null" then return some .nullable
  if ← takeKeyword "unique" then return some .unique
  return none

def columnDef : Parser ColumnDef := do
  let name ← name
  let type ← typeName false
  let constraints ← iterate (fun done => do
    match ← columnConstraint with
    | some c => return some (done ++ [c])
    | none => return none) []
  return ⟨name, type, constraints⟩

def createTable : Parser Command := do
  keyword "table"
  let ifNotExists ← takeKeyword "if"
  if ifNotExists then keywords ["not", "exists"]
  let table ← path
  return .createTable ifNotExists table (← parens (commas columnDef))

def dropTable : Parser Command := do
  keyword "table"
  let ifExists ← takeKeyword "if"
  if ifExists then keyword "exists"
  return .dropTable ifExists (← commas path)

def truncate : Parser Command := do
  let _ ← takeKeyword "table"
  return .truncate (← commas path)

def alterAction : Parser AlterAction := do
  if ← takeKeyword "add" then
    let _ ← takeKeyword "column"
    return .add (← columnDef)
  keyword "drop"
  let _ ← takeKeyword "column"
  return .drop (← name)

def alterTable : Parser Command := do
  keyword "table"
  let table ← path
  return .alterTable table (← commas alterAction)

end Definitions

/-- The parsers of what is nested at most `n` deep. Each level is behind a token that was taken, so
a text of `n` tokens needs no more. -/
def nested : Nat → Nested
  | 0 => ⟨unexpected, fun _ => unexpected, unexpected, unexpected, unexpected⟩
  | n + 1 =>
    { expr := fun ls => expression (nested n) ls
      rest := fun e ls => expressionFrom (nested n) e ls
      query := fun ls => query (nested n) ls
      statement := fun ls => statement (nested n) ls
      group := fun ls => group (nested n) ls }

def command (p : Nested) : Parser Command := do
  if ← takeKeyword "create" then return ← createTable
  if ← takeKeyword "drop" then return ← dropTable
  if ← takeKeyword "truncate" then return ← truncate
  if ← takeKeyword "alter" then return ← alterTable
  return .statement (← statement p)

/-- Passes over semicolons and tells whether there were any. -/
def semicolons : Parser Bool :=
  iterate (fun _ => do
    if ← takeSymbol ";" then return some true
    return none) false

/-- Nothing is left. -/
def atEnd : Parser Bool := fun ls => .ok (ls.isEmpty, ls)

/-- One or more commands, separated by semicolons. -/
def commands (p : Nested) : Parser (List Command) := do
  let _ ← semicolons
  let first ← command p
  let all ← iterate (fun done => do
    if !(← semicolons) || (← atEnd) then return none
    return some (done ++ [← command p])) [first]
  if !(← atEnd) then unexpected
  return all

end SqlTree.Syntax.Parser

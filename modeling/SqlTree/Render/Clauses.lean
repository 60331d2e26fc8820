import SqlTree.Render.Expression
import SqlTree.Text.Blank

/-!
Rendering of the clauses of a statement, each from its key and its value. A clause for which
nothing is written yields a blank fragment.
-/

namespace SqlTree.Render

open Fragment (ofText joined commas between parens parensIf after)

variable (r : Renderer) (s : Settings)

def startsWithPercent (t : String) : Bool := t.toList.head? = some '%'

/-- An alias that may follow an expression: an identifier or a text after an apostrophe. -/
def isAliasText (t : String) : Bool :=
  t != "*" && !startsWithPercent t &&
    (Identifier.isIdentText t || t.toList.head? = some '\'')

/-- The two parts of `[expr, alias]`, unless the array is an operation or a call. -/
def aliasPair? (item : Value) : Option (Value × String) :=
  match item.items? with
  | some [first, .text t] =>
    let isOperation := match first with
      | .text head => startsWithPercent head || s.registry.isOperator head
      | _ => false
    if isAliasText t && !isOperation then some (first, t) else none
  | _ => none

def aliasSeparator (table : Bool) : String :=
  if table && !s.dialect.tableAliasAs then " " else " AS "

/-- What an alias is given to. -/
def aliased (table : Bool) (expr : Value) : Render Fragment :=
  if table && expr.isText then words (name s expr) else r.expr s false expr

/-- An item of a selection or a table list. -/
def item (table : Bool) (v : Value) : Render Fragment :=
  match aliasPair? s v with
  | some (expr, t) => do
    let f ← aliased r s table expr
    return f ++ [.text (aliasSeparator s table), .text (← aliasText s t)]
  | none =>
    match v with
    | .text t =>
      if table || !Identifier.isIdentText t then words (name s v) else r.expr s false v
    | v => r.expr s false v

def items (table : Bool) (v : Value) : Render (List Fragment) := v.asItems.mapM (item r s table)

/-- A keyword in front of a list, nothing for the empty list. -/
def headed (keyword : String) (fs : List Fragment) : Fragment :=
  if fs.isEmpty then [] else after (keyword ++ " ") (commas fs)

def selection (key : String) (v : Value) : Render Fragment := do
  return headed (Keyword.render key) (← items r s (Clause.ofTables.contains key) v)

def distinctOn (v : Value) : Render Fragment :=
  match v.asItems with
  | [] => fail .noDistinctItems
  | on :: columns => do
    let f ← list r s on.asItems
    let c ← columns.mapM (item r s false)
    return between "SELECT DISTINCT ON (" ") " f ++ commas c

def insertColumns (columns : List Value) : Except Fault String := do
  return "(" ++ (← names s columns) ++ ")"

/-- A clause map as a statement without parentheses, anything else as an expression. -/
def bareQuery (v : Value) : Render Fragment :=
  match v with
  | .map es => if s.isClause v then r.statement s false es else r.expr s false v
  | v => r.expr s false v

/-- The query of an insertion, behind which nothing may stand. -/
def insertQuery (key : String) : List Value → Render (List Fragment)
  | [] => pure []
  | query :: extra => do
    let f ← bareQuery r s query
    if extra.isEmpty then return [f] else fail (.extraItems key extra)

/-- What follows the table of an insertion: columns, then a query. -/
def insertSource (key : String) (rest : List Value) : Render (List Fragment) :=
  match rest with
  | [] => pure []
  | first :: more =>
    match first.items? with
    | some columns => do
      let f ← words (insertColumns s columns)
      return f :: (← insertQuery r s key more)
    | none => insertQuery r s key rest

def insertInto (key : String) (v : Value) : Render Fragment := do
  let keyword := Keyword.render key ++ " "
  match aliasPair? s v with
  | some _ => return after keyword (← item r s true v)
  | none =>
    match v.asItems with
    | [] => fail .wrongCount
    | table :: rest => do
      let f ← item r s true table
      let more ← insertSource r s key rest
      return joined " " (after keyword f :: more)

def isEmptyContainer : Value → Bool
  | .list [] | .tuple [] | .map [] => true
  | .text t => t.isEmpty
  | _ => false

/-- The statement has a condition: neither absent nor empty nor a bare `and` or `or`. -/
def hasCondition (statement : Entries) : Bool :=
  match Entries.field? statement "where" with
  | none => false
  | some .null => false
  | some v =>
    let bare := match v.items? with
      | some [.text op] => op = "and" || op = "or"
      | _ => false
    !isEmptyContainer v && !bare

def guard (verb : String) (table : Fragment) : Render Unit :=
  if s.checks && !hasCondition s.statement then
    fail (.unguarded verb (table.sql s.dialect s.numbered) s.checking.word)
  else pure ()

def guarded (verb : String) (table : Fragment) : Render Fragment := do
  guard s verb table
  return after (verb ++ " ") table

def truncate (v : Value) : Except Fault String := do
  return "TRUNCATE TABLE " ++ (← names s v.asItems)

def columnList (v : Value) : Except Fault String := do
  if v.asItems.isEmpty then return ""
  return "(" ++ (← names s v.asItems) ++ ")"

def assignment (e : Value × Value) : Render Fragment := do
  let f ← r.expr s false e.2
  return after ((← name s e.1) ++ " = ") f

def assignments (clause : String) (v : Value) : Render Fragment :=
  match v with
  | .map (e :: es) => do return commas (← (e :: es).mapM (assignment r s))
  | v => fail (.notAssignments clause v)

section Joins

def joinKeyword (key : String) : String := if key = "join" then "INNER JOIN" else Keyword.render key

/-- The columns of a `using` condition. -/
def usingColumns? (condition : Value) : Option (List Value) :=
  match condition.items? with
  | some (.text head :: columns) => if head = "using" then some columns else none
  | _ => none

/-- The condition of a join behind its table. -/
def joinCondition (v : Value) : Render Fragment :=
  match v, usingColumns? v with
  | .null, _ => pure []
  | _, some columns => do return [.text (" USING (" ++ (← names s columns) ++ ")")]
  | v, none => do return after " ON " (← r.expr s false v)

def joinTable (keyword : String) (table condition : Value) : Render Fragment := do
  let f ← item r s true table
  return after (keyword ++ " ") f ++ (← joinCondition r s condition)

def joinEntry (keyword : String) (entry : Value) : Render Fragment :=
  match entry.items? with
  | some [table] => joinTable r s keyword table .null
  | some [table, condition] => joinTable r s keyword table condition
  | _ => fail (.badJoin keyword entry)

def join (key : String) (v : Value) : Render Fragment := do
  return joined " " (← v.asItems.mapM (joinEntry r s (joinKeyword key)))

def crossJoinTable (table : Value) : Render Fragment := do
  return after "CROSS JOIN " (← item r s true table)

def crossJoin (v : Value) : Render Fragment := do
  return joined " " (← v.asItems.mapM (crossJoinTable r s))

/-- The clause key of a join that is named on its own: `left` is `left-join`. -/
def joinKey (v : Value) : String :=
  let key := Text.lower v.shown
  if "join".toList.isSuffixOf key.toList then key else key ++ "-join"

def joinStep (key : String) (entry : Value) : Render Fragment :=
  if key = "cross-join" then crossJoinTable r s entry
  else joinEntry r s (joinKeyword key) entry

def joinSteps : List Value → Render (List Fragment)
  | kind :: entry :: rest => do
    let f ← joinStep r s (joinKey kind) entry
    return f :: (← joinSteps rest)
  | _ => pure []

/-- Joins in their written order: a kind and an entry by turns. -/
def joinBy (v : Value) : Render Fragment :=
  let steps := v.asItems
  if steps.length % 2 = 1 then fail (.unpairedJoins steps.length)
  else do return joined " " (← joinSteps r s steps)

end Joins

def isEmptyArray (v : Value) : Bool := v.items?.any List.isEmpty

def condition (key : String) (v : Value) : Render Fragment :=
  match v with
  | .null => pure []
  | v =>
    if isEmptyArray v then pure []
    else do
      let f ← r.expr s false v
      return if f.isBlank then [] else after (Keyword.render key ++ " ") f

section Rows

def row (vs : List Value) : Render Fragment := do return parens (← list r s vs)

/-- The keys of all rows in the order in which they are met. -/
def addColumns (columns row : List Value) : List Value :=
  row.foldl (fun cs c => if cs.any (·.same c) then cs else cs ++ [c]) columns

def rowColumns (rows : List Value) : Except Fault (List Value) :=
  rows.foldlM (fun columns row => do
    match row.elements? with
    | some cs => return addColumns columns cs
    | none => throw .wrongType) []

/-- A row of a map in the order of the columns, null where it lacks one. -/
def rowValues (columns : List Value) (row : Value) : Except Fault (List Value) :=
  if columns.isEmpty then .ok []
  else match row with
    | .map es =>
      if columns.all Value.isKey then
        .ok (columns.map fun c => (Entries.valueAt? es c).getD .null)
      else .error .wrongType
    | _ => .error .unsupported

def rows (v : Value) : Render Fragment :=
  match v with
  | .text "default" => pure (ofText "DEFAULT VALUES")
  | v =>
    match v.asItems with
    | [] => pure (ofText "VALUES ()")
    | first :: rest =>
      if first.isMap then do
        let columns ← rowColumns (first :: rest)
        let fs ← (first :: rest).mapM fun v => do row r s (← rowValues columns v)
        return after ("(" ++ (← names s columns) ++ ") VALUES ") (commas fs)
      else do
        return after "VALUES " (commas (← (first :: rest).mapM fun v => row r s v.asItems))

end Rows

def isTrue : Value → Bool
  | .bool b => b
  | _ => false

def onConflict (v : Value) : Render Fragment := do
  let vs := if isTrue v then [] else v.asItems
  let targets ← each r s false (vs.filter (!s.isClause ·))
  let actions ← ((vs.filter s.isClause).filterMap Value.entries?).mapM (r.statement s false)
  let target := if targets.isEmpty then [] else [parens (commas targets)]
  return joined " " (ofText "ON CONFLICT" :: target ++ actions)

def excluded (columns : Value) : Except Fault String := do
  let cs ← columns.asItems.mapM (name s)
  return ", ".intercalate (cs.map fun c => c ++ " = EXCLUDED." ++ c)

/-- The fields of an update on conflict, and its condition. -/
def updateParts (v : Value) : Value × Value :=
  match v with
  | .map es =>
    match Entries.field? es "fields" with
    | some fields => (fields, (Entries.field? es "where").getD .null)
    | none => (v, .null)
  | v => (v, .null)

def updateFields (key : String) (fields : Value) : Render Fragment :=
  if fields.isMap then assignments r s key fields else words (excluded s fields)

def doUpdate (key : String) (v : Value) : Render Fragment := do
  let f ← updateFields r s key (updateParts v).1
  let w ← condition r s "where" (updateParts v).2
  return after "DO UPDATE SET " (if w.isBlank then f else f ++ .text " " :: w)

def tableExpressionName (v : Value) : Except Fault String :=
  match v.items? with
  | some [table, columns] => do
    let t ← name s table
    match columns.elements? with
    | some cs => return t ++ " (" ++ (← names s cs) ++ ")"
    | none => throw .wrongType
  | some _ => .error .wrongCount
  | none => name s v

def tableExpression (key : String) (entry : Value) : Render Fragment :=
  match entry.items? with
  | some [label, query] => do
    let label ← tableExpressionName s label
    return after (label ++ " AS ") (← nest r s query)
  | _ => fail (.badTableExpression key entry)

def tableExpressions (key : String) (v : Value) : Render Fragment := do
  return after (Keyword.render key ++ " ") (commas (← v.asItems.mapM (tableExpression r s key)))

def setBranch (v : Value) : Render Fragment :=
  match v with
  | .map es =>
    if s.isClause v then r.statement s (Clause.parenthesised.any (Entries.hasField es ·)) es
    else r.expr s false v
  | v => r.expr s false v

def setOperation (key : String) (v : Value) : Render Fragment := do
  return joined (" " ++ Keyword.render key ++ " ") (← v.asItems.mapM (setBranch r s))

def lockWord (key : String) (v : Value) : Except Fault String :=
  match v with
  | .text t =>
    if Identifier.isIdentText (Identifier.snakeCase t) then .ok (Keyword.render t)
    else .error (.badLock key v)
  | v => .error (.badLock key v)

def lock (key : String) (v : Value) : Except Fault String := do
  return " ".intercalate (Keyword.render key :: (← v.asItems.mapM (lockWord key)))

section Definitions

def columnType (column type : Value) : Except Fault String :=
  match type with
  | .text t => .ok t
  | type => .error (.badColumnType column type)

def columnSpec (v : Value) : Except Fault String :=
  match v with
  | .text _ => name s v
  | v =>
    match v.elements? with
    | none => .error .wrongType
    | some [] => .error .wrongCount
    | some (column :: types) => do
      let types ← types.mapM (columnType column)
      let types ← types.mapM Identifier.typeName
      return Text.trimEnd ((← name s column) ++ " " ++ " ".intercalate types)

def createTable (v : Value) : Except Fault String :=
  match v.asItems with
  | [] => .error .wrongCount
  | table :: options => do
    let options ← options.mapM fun o => do return " " ++ (← keyword o)
    return "CREATE TABLE" ++ String.join options ++ " " ++ (← name s table)

def withColumns (v : Value) : Except Fault String := do
  return "(" ++ ", ".intercalate (← v.asItems.mapM (columnSpec s)) ++ ")"

def isIfExists (v : Value) : Bool := v.text? = some "if-exists"

def dropTable (v : Value) : Except Fault String := do
  let guardWords := if v.asItems.any isIfExists then "IF EXISTS " else ""
  return "DROP TABLE " ++ guardWords ++ (← names s (v.asItems.filter (!isIfExists ·)))

def alterAction (v : Value) : Render Fragment :=
  match v with
  | .map es => if s.isClause v then r.statement s false es else words (keyword v)
  | v => words (keyword v)

def alterTable (v : Value) : Render Fragment :=
  match v.asItems with
  | [] => fail .wrongCount
  | table :: actions => do
    let f ← words (do return "ALTER TABLE " ++ (← name s table))
    let fs ← actions.mapM (alterAction r s)
    return if fs.isEmpty then f else f ++ .text " " :: commas fs

/-- One column specification, rather than a list of them. -/
def isColumnSpec (v : Value) : Bool :=
  v.isText || v.items?.any fun vs => vs.head?.any Value.isText

def addColumn (v : Value) : Except Fault String := do
  let specs := if isColumnSpec v then [v] else v.asItems
  return ", ".intercalate (← specs.mapM fun c => do return "ADD COLUMN " ++ (← columnSpec s c))

def dropColumn (v : Value) : Except Fault String := do
  return ", ".intercalate (← v.asItems.mapM fun c => do return "DROP COLUMN " ++ (← name s c))

end Definitions

/-- Renders the clause `key` with the value `v`, where `form` is registered for `key`. -/
def clause (form : ClauseForm) (key : String) (v : Value) : Render Fragment :=
  match form with
  | .alterTable => alterTable r s v
  | .addColumn => words (addColumn s v)
  | .dropColumn => words (dropColumn s v)
  | .createTable => words (createTable s v)
  | .withColumns => words (withColumns s v)
  | .dropTable => words (dropTable s v)
  | .rawText => splice r s v
  | .nested => nest r s v
  | .tableExpressions => tableExpressions r s key v
  | .setOperation => setOperation r s key v
  | .insertInto => insertInto r s key v
  | .updateTable => do guarded s "UPDATE" (← item r s true v)
  | .deleteTables => do guarded s "DELETE" (commas (← items r s true v))
  | .deleteFrom => do guarded s "DELETE FROM" (← item r s true v)
  | .truncateTables => words (truncate s v)
  | .columnList => words (columnList s v)
  | .selection => selection r s key v
  | .distinctOn => distinctOn r s v
  | .assignments => do return after "SET " (← assignments r s key v)
  | .joinBy => joinBy r s v
  | .join => join r s key v
  | .crossJoin => crossJoin r s v
  | .condition => condition r s key v
  | .grouping => do return headed "GROUP BY" (← each r s false v.asItems)
  | .ordering => do return headed "ORDER BY" (← orderItems r s v)
  | .rows => rows r s v
  | .onConflict => onConflict r s v
  | .onConstraint => words (do return "ON CONSTRAINT " ++ (← name s v))
  | .doNothing => pure (ofText "DO NOTHING")
  | .doUpdate => doUpdate r s key v
  | .lock => words (lock key v)

end SqlTree.Render

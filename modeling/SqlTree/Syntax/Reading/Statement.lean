import SqlTree.Syntax.Reading.Query

/-!
Statements that change data or tables as clause maps, given the readings of their parts.
-/

namespace SqlTree.Syntax

/-- What an insertion puts in. -/
inductive Inserted where
  | query (v : Value)
  | values (v : Value)

def ColumnConstraint.word : ColumnConstraint → String
  | .primaryKey => "primary-key"
  | .notNull => "not-null"
  | .nullable => "null"
  | .unique => "unique"

namespace Reading

open Operand

section Changes

def target (path : Path) : Read Value := visit (pure path.value)

/-- The assignments of a `SET` list. A column that comes twice keeps its first place and its last
value. -/
def assignments (fields : List (Read (Value × Value))) : Read Value :=
  visit do return .map (Entries.updated [] (← fields.mapM id))

def assignment (column : Name) (e : Operand) : Read (Value × Value) :=
  visit do return (column.value, ← e.value)

def returning (items : List (Read Value)) : Read Entries :=
  optionalEntry "returning" <| if items.isEmpty then none else
    some do return .list (← visitAll items)

def rows (rs : List (Read Value)) : Read Inserted := do return .values (.list (← rs.mapM id))

def insertedQuery (q : Read Entries) : Read Inserted := do return .query (.map (← q))

/-- The clauses of an insertion: table, columns and rows, or one array when a query is inserted. -/
def insertion (table : Value) (columns : Option (List Value)) : Inserted → Entries
  | .query q => entry "insert-into" (.list (table :: (columns.map Value.list).toList ++ [q]))
  | .values vs =>
    entry "insert-into" table ++
      (columns.elim [] fun cs => entry "columns" (.list cs)) ++ entry "values" vs

/-- The insertion comes behind the clauses that follow it in the text. -/
def insert (ctes : Option (Read Entries)) (table : Path) (name : Option Name) (columns : List Name)
    (source : Read Inserted) (conflict : Option (Read Entries)) (items : List (Read Value)) :
    Read Entries :=
  visit do
    let ctes ← ctes.getD (pure [])
    let table ← target table
    let table := name.elim table fun n => .list [table, n.asAlias]
    let columns ← if columns.isEmpty then pure none else some <$> nameList columns
    let source ← source
    let conflict ← conflict.getD (pure [])
    let items ← returning items
    return ctes ++ conflict ++ items ++ insertion table columns source

def conflictColumns (items : List Operand) : Read Entries := do
  return entry "on-conflict" (.list (← values items))

def anyConflict : Entries := entry "on-conflict" (.list [])

def doUpdate (fields : List (Read (Value × Value))) (whereTest : Option Operand) :
    Read Entries := do
  let fields ← assignments fields
  match ← condition "where" whereTest with
  | [] => return entry "do-update-set" fields
  | tests => return entry "do-update-set" (.map (entry "fields" fields ++ tests))

def conflict (target : Option (Read Entries)) (action : Read Entries) : Read Entries :=
  visit do
    let target ← target.getD (pure anyConflict)
    return target ++ (← action)

/-- The table of a change with its alias. -/
def changed (path : Path) (name : Option Name) : Read Value := do
  let table ← target path
  match name with
  | none => return table
  | some n => return .list [table, ← visit (pure n.asAlias)]

def update (ctes : Option (Read Entries)) (table : Path) (name : Option Name)
    (fields : List (Read (Value × Value))) (sources : List (Read FromItem))
    (whereTest : Option Operand) (items : List (Read Value)) : Read Entries :=
  visit do
    let ctes ← ctes.getD (pure [])
    let table ← changed table name
    let fields ← assignments fields
    let sources ← fromClause sources
    let whereTest ← condition "where" whereTest
    return ctes ++ entry "update" table ++ entry "set" fields ++ sources ++ whereTest ++
      (← returning items)

def delete (ctes : Option (Read Entries)) (table : Path) (name : Option Name)
    (tables : List (Read Value)) (whereTest : Option Operand) (items : List (Read Value)) :
    Read Entries :=
  visit do
    let ctes ← ctes.getD (pure [])
    let table ← changed table name
    let tables ← optionalEntry "using" <| if tables.isEmpty then none else
      some do return .list (← visitAll tables)
    let whereTest ← condition "where" whereTest
    return ctes ++ entry "delete-from" table ++ tables ++ whereTest ++ (← returning items)

end Changes

section Definitions

def columnDef (c : ColumnDef) : Read Value :=
  visit do
    let type ← c.type.read
    return .list (c.name.value :: .text type :: c.constraints.map fun k => .text k.word)

/-- One value stands for the list that holds it. -/
def oneOrList : List Value → Value
  | [v] => v
  | vs => .list vs

def createTable (ifNotExists : Bool) (table : Path) (columns : List ColumnDef) : Read Entries :=
  visit do
    let table ← target table
    let columns ← columns.mapM columnDef
    let table := if ifNotExists then .list [table, .text "if-not-exists"] else table
    return entry "create-table" table ++ entry "with-columns" (.list columns)

def dropTable (ifExists : Bool) (tables : List Path) : Read Entries :=
  visit do
    let tables ← tables.mapM target
    return entry "drop-table" (oneOrList (tables ++ if ifExists then [.text "if-exists"] else []))

def truncate (tables : List Path) : Read Entries :=
  visit do return entry "truncate" (oneOrList (← tables.mapM target))

def alterAction : AlterAction → Read Entries
  | .add column => visit do return entry "add-column" (← columnDef column)
  | .drop column => visit (pure (entry "drop-column" column.value))

def alterTable (table : Path) (actions : List AlterAction) : Read Entries :=
  visit do
    let table ← target table
    match ← actions.mapM alterAction with
    | [action] => return entry "alter-table" table ++ action
    | actions => return entry "alter-table" (.list (table :: actions.map .map))

end Definitions

end Reading

end SqlTree.Syntax

/-!
The clauses of a statement, their order, and the ways in which clauses are rendered.
-/

namespace SqlTree

/-- How a clause is rendered; several clauses share one way. -/
inductive ClauseForm where
  | alterTable
  | addColumn
  | dropColumn
  | createTable
  | withColumns
  | dropTable
  | rawText
  | nested
  | tableExpressions
  | setOperation
  | insertInto
  | updateTable
  | deleteTables
  | deleteFrom
  | truncateTables
  | columnList
  | selection
  | distinctOn
  | assignments
  | joinBy
  | join
  | crossJoin
  | condition
  | grouping
  | ordering
  | rows
  | onConflict
  | onConstraint
  | doNothing
  | doUpdate
  | lock
deriving DecidableEq, Repr, Inhabited

namespace Clause

/-- Every clause with its form, in the order in which one statement writes them. -/
def table : List (String × ClauseForm) :=
  [("alter-table", .alterTable), ("add-column", .addColumn), ("drop-column", .dropColumn),
   ("create-table", .createTable), ("with-columns", .withColumns), ("drop-table", .dropTable),
   ("raw", .rawText), ("nest", .nested), ("with", .tableExpressions),
   ("with-recursive", .tableExpressions), ("intersect", .setOperation), ("union", .setOperation),
   ("union-all", .setOperation), ("except", .setOperation), ("except-all", .setOperation),
   ("insert-into", .insertInto), ("replace-into", .insertInto), ("update", .updateTable),
   ("delete", .deleteTables), ("delete-from", .deleteFrom), ("truncate", .truncateTables),
   ("columns", .columnList), ("select", .selection), ("select-distinct", .selection),
   ("select-distinct-on", .distinctOn), ("set", .assignments), ("from", .selection),
   ("using", .selection), ("join-by", .joinBy), ("join", .join), ("left-join", .join),
   ("right-join", .join), ("inner-join", .join), ("outer-join", .join), ("full-join", .join),
   ("cross-join", .crossJoin), ("where", .condition), ("group-by", .grouping),
   ("having", .condition), ("order-by", .ordering), ("limit", .condition),
   ("offset", .condition), ("for", .lock), ("lock", .lock), ("values", .rows),
   ("on-conflict", .onConflict), ("on-constraint", .onConstraint), ("do-nothing", .doNothing),
   ("do-update-set", .doUpdate), ("returning", .selection)]

def order : List String := table.map (·.1)

/-- Puts `key` in front of the first `anchor`. -/
def insertBefore (key anchor : String) : List String → List String
  | [] => []
  | k :: ks => if k = anchor then key :: k :: ks else k :: insertBefore key anchor ks

def joins : List String :=
  ["join", "left-join", "right-join", "inner-join", "outer-join", "full-join"]

def setOperations : List String := ["union", "union-all", "intersect", "except", "except-all"]

def tableExpressions : List String := ["with", "with-recursive"]

def selections : List String := ["select", "select-distinct", "select-distinct-on"]

/-- Clauses whose items are tables. -/
def ofTables : List String := ["from", "using", "delete"]

/-- Clauses that put a branch of a set operation in parentheses. -/
def parenthesised : List String :=
  setOperations ++ ["order-by", "limit", "offset", "for", "lock", "with", "with-recursive"]

end Clause

end SqlTree

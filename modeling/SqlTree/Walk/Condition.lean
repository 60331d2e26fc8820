import SqlTree.Walk.Basic

/-!
Conditions added to every clause map that reads or changes a table.
-/

namespace SqlTree

/-- Clauses that name the table a condition applies to. -/
def filteredClauses : List String := ["from", "delete-from", "update"]

def isFiltered (es : Entries) : Bool :=
  filteredClauses.any fun key => (Entries.field? es key).any Value.given

/-- The condition after an existing one, if there is one. -/
def conjoined (existing condition : Value) : Value :=
  if existing.given then .list [.text "and", existing, condition] else condition

def addCondition (condition : Value) (es : Entries) : Entries :=
  if isFiltered es then
    Entries.putField es "where" (conjoined ((Entries.field? es "where").getD .null) condition)
  else es

/-- Adds the condition throughout the tree. -/
def injectWhere (clauses : List String) (condition : Value) (statement : Value) :
    Except Fault Value :=
  Walk.walkPure clauses (addCondition condition) statement

/-- Columns that are to equal values, as one condition. -/
def mapEquals (fields : Entries) : Value :=
  match fields.map fun e => Value.list [.text "=", e.1, e.2] with
  | [test] => test
  | tests => .list (.text "and" :: tests)

end SqlTree

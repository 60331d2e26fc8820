import SqlTree.Proofs.RoundTrip.Blocks

/-! Statements that change rows, made of parts that are the same after they were written and
read. -/

namespace SqlTree

open Syntax (headed)

namespace Change

/-- The table of a change, perhaps with an alias. -/
structure Target where
  table : String
  plain : PlainName table
  name : Option String
  name_plain : ∀ a ∈ name, PlainName a

def Target.value (t : Target) : Value :=
  match t.name with
  | none => .text t.table
  | some a => .list [.text t.table, .text a]

/-- One column or more. -/
structure Columns where
  names : List String
  ne_nil : names ≠ []
  plain : ∀ c ∈ names, PlainName c

def Columns.value (c : Columns) : Value := .list (c.names.map .text)

/-- Distinct columns, each with what it is set to. -/
structure Assignments where
  items : List (String × Value)
  ne_nil : items ≠ []
  nodup : (items.map Prod.fst).Nodup
  plain : ∀ e ∈ items, PlainName e.1
  expressible : ∀ e ∈ items, Expressible e.2

def Assignments.value (a : Assignments) : Value := .record a.items

/-- What a row may hold. -/
inductive Cell : Value → Prop
  | expression {v : Value} : Expressible v → Cell v
  | null : Cell .null
  | default : Cell (headed "default" [])

/-- What is inserted. -/
inductive Source where
  | defaults
  | rows (rs : List (List Value)) (ne_nil : rs ≠ []) (cells : ∀ r ∈ rs, r ≠ [] ∧ ∀ v ∈ r, Cell v)

def Source.value : Source → Value
  | defaults => .text "default"
  | rows rs _ _ => .list (rs.map .list)

/-- What an insertion may be in conflict about. -/
inductive ConflictTarget where
  | columns (c : Columns)
  | any
  | constraint (name : String) (plain : PlainName name)

def ConflictTarget.clauses : ConflictTarget → List (String × Value)
  | columns c => [("on-conflict", c.value)]
  | any => [("on-conflict", .list [])]
  | constraint name _ => [("on-conflict", .list []), ("on-constraint", .text name)]

/-- What is done instead of the insertion. -/
inductive ConflictAction where
  | nothing
  -- assignments to a column of this name would be taken for a map with a condition
  | set (a : Assignments) (not_wrapped : "fields" ∉ a.items.map Prod.fst)
  | setWhere (a : Assignments) (condition : Value) (expressible : Expressible condition)
      (es : Entries) (perm : es.Perm [(.text "fields", a.value), (.text "where", condition)])

def ConflictAction.clause : ConflictAction → String × Value
  | nothing => ("do-nothing", .bool true)
  | set a _ => ("do-update-set", a.value)
  | setWhere _ _ _ es _ => ("do-update-set", .map es)

structure Conflict where
  target : ConflictTarget
  action : ConflictAction

def Conflict.clauses (c : Conflict) : List (String × Value) := c.target.clauses ++ [c.action.clause]

/-- What is selected from the changed rows. -/
structure Returned where
  items : List Value
  ne_nil : items ≠ []
  selected : ∀ v ∈ items, SelectItem v

/-- A clause that may be missing. -/
def optionalClause (key : String) (v : Option Value) : List (String × Value) :=
  v.toList.map (key, ·)

def returningClause (r : Option Returned) : List (String × Value) :=
  optionalClause "returning" (r.map fun r => .list r.items)

structure Insertion where
  target : Target
  columns : Option Columns
  source : Source
  conflict : Option Conflict
  returning : Option Returned

/-- The clauses in the order in which they are written. -/
def Insertion.clauses (i : Insertion) : List (String × Value) :=
  ("insert-into", i.target.value) :: optionalClause "columns" (i.columns.map Columns.value) ++
    ("values", i.source.value) :: i.conflict.elim [] Conflict.clauses ++ returningClause i.returning

structure Update where
  target : Target
  fields : Assignments
  tables : Option Value
  tables_canonical : ∀ v ∈ tables, Canonical (.clause .tables) v
  condition : Option Value
  expressible : ∀ v ∈ condition, Expressible v
  returning : Option Returned

def Update.clauses (u : Update) : List (String × Value) :=
  ("update", u.target.value) :: ("set", u.fields.value) :: optionalClause "from" u.tables ++
    optionalClause "where" u.condition ++ returningClause u.returning

structure Deletion where
  target : Target
  tables : Option (List Value)
  tables_canonical : ∀ vs ∈ tables, vs ≠ [] ∧ ∀ v ∈ vs, Canonical .table v
  condition : Option Value
  expressible : ∀ v ∈ condition, Expressible v
  returning : Option Returned

def Deletion.clauses (d : Deletion) : List (String × Value) :=
  ("delete-from", d.target.value) :: optionalClause "using" (d.tables.map .list) ++
    optionalClause "where" d.condition ++ returningClause d.returning

end Change

inductive Change where
  | insert (i : Change.Insertion)
  | update (u : Change.Update)
  | delete (d : Change.Deletion)

namespace Change

def clauses : Change → List (String × Value)
  | insert i => i.clauses
  | update u => u.clauses
  | delete d => d.clauses

/-- The entries of the clause map, one order of them. -/
def entries (c : Change) : Entries := c.clauses.map fun e => (.text e.1, e.2)

end Change

end SqlTree

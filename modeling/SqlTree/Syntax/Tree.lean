/-!
Syntax trees of SQL text. A tree keeps the grouping of the text, so parentheses are nodes; text
that is not analysed any further is kept as it was written.
-/

namespace SqlTree.Syntax

/-- A name as it was written, in its quotes if it is quoted. -/
structure Name where
  text : String
  quoted : Bool
deriving DecidableEq, Repr, Inhabited

abbrev Path := List Name

inductive TypeBase where
  | plain (parts : List String)
  | precision (name : String)
  | varying (name : String)
  | withTimeZone (name : String)
  | withoutTimeZone (name : String)
deriving DecidableEq, Repr, Inhabited

structure TypeName where
  base : TypeBase
  modifiers : List String
  dimensions : Nat
deriving DecidableEq, Repr, Inhabited

inductive Connective where
  | and
  | or
deriving DecidableEq, Repr, Inhabited

inductive SetOperator where
  | union
  | unionAll
  | intersect
  | except
  | exceptAll
deriving DecidableEq, Repr, Inhabited

inductive JoinKind where
  | inner
  | left
  | right
  | full
  | cross
deriving DecidableEq, Repr, Inhabited

/-- Tests of one operand. -/
inductive Test where
  | isNull
  | isTrue
  | isFalse
deriving DecidableEq, Repr, Inhabited

/-- Predicates on two operands, other than comparisons. -/
inductive Predicate where
  | like
  | ilike
  | similarTo
  | distinctFrom
deriving DecidableEq, Repr, Inhabited

inductive Quantifier where
  | all
  | any
deriving DecidableEq, Repr, Inhabited

/-- What stands before the arguments of a call. -/
inductive Arguments where
  | all
  | distinct
  | star
deriving DecidableEq, Repr, Inhabited

inductive NullsOrder where
  | first
  | last
deriving DecidableEq, Repr, Inhabited

inductive LockStrength where
  | update
  | noKeyUpdate
  | share
  | keyShare
deriving DecidableEq, Repr, Inhabited

inductive LockWait where
  | nowait
  | skipLocked
deriving DecidableEq, Repr, Inhabited

structure Lock where
  strength : LockStrength
  wait : Option LockWait
deriving DecidableEq, Repr, Inhabited

/-- The sorts of tree nodes. -/
inductive Kind where
  | expr
  | branch
  | window
  | orderItem
  | limit
  | query
  | ctes
  | cte
  | body
  | distinct
  | select
  | selectItem
  | source
  | table
  | join
  | joinTest
  | assignment
  | row
  | insertSource
  | conflictTarget
  | conflictAction
  | conflict
  | statement
  | list (k : Kind)
  | option (k : Kind)

/-- A syntax tree. Its kind says where in a text it may stand. -/
inductive Tree : Kind → Type where
  -- sequences and optional parts
  | nil {k : Kind} : Tree (.list k)
  | cons {k : Kind} (head : Tree k) (tail : Tree (.list k)) : Tree (.list k)
  | absent {k : Kind} : Tree (.option k)
  | present {k : Kind} (t : Tree k) : Tree (.option k)
  -- expressions
  | number (digits : String) : Tree .expr
  | string (quoted : String) : Tree .expr
  | boolean (b : Bool) : Tree .expr
  | null : Tree .expr
  | typed (type quoted : String) : Tree .expr
  /-- Text that is kept as it stands. -/
  | verbatim (sql : String) : Tree .expr
  | column (path : Path) : Tree .expr
  | param (sign : String) : Tree .expr
  | call (head : List String) (args : Arguments) (items : Tree (.list .expr))
      (filter : Tree (.option .expr)) (window : Tree (.option .window)) : Tree .expr
  | cases (branches : Tree (.list .branch)) (otherwise : Tree (.option .expr)) : Tree .expr
  | caseOf (subject : Tree .expr) (branches : Tree (.list .branch))
      (otherwise : Tree (.option .expr)) : Tree .expr
  | paren (e : Tree .expr) : Tree .expr
  | field (e : Tree .expr) (name : Name) : Tree .expr
  /-- `(first, rest...)`, or `ROW(rest...)` without a first item. -/
  | rowOf (first : Tree (.option .expr)) (rest : Tree (.list .expr)) : Tree .expr
  | subquery (q : Tree .query) : Tree .expr
  | exists (q : Tree .query) : Tree .expr
  | array (items : Tree (.list .expr)) : Tree .expr
  | arrayOf (q : Tree .query) : Tree .expr
  | cast (e : Tree .expr) (type : TypeName) : Tree .expr
  | typecast (e : Tree .expr) (type : TypeName) : Tree .expr
  | extract (field : Name) (e : Tree .expr) : Tree .expr
  | quantified (q : Quantifier) (e : Tree .expr) : Tree .expr
  | quantifiedQuery (q : Quantifier) (query : Tree .query) : Tree .expr
  | default : Tree .expr
  | connected (op : Connective) (left right : Tree .expr) : Tree .expr
  | not (e : Tree .expr) : Tree .expr
  | test (negated : Bool) (t : Test) (e : Tree .expr) : Tree .expr
  | predicate (negated : Bool) (p : Predicate) (left right : Tree .expr) : Tree .expr
  | comparison (op : String) (left right : Tree .expr) : Tree .expr
  | binary (op : String) (left right : Tree .expr) : Tree .expr
  | between (negated : Bool) (e low high : Tree .expr) : Tree .expr
  | inList (negated : Bool) (e : Tree .expr) (items : Tree (.list .expr)) : Tree .expr
  | inQuery (negated : Bool) (e : Tree .expr) (q : Tree .query) : Tree .expr
  | atTimeZone (e zone : Tree .expr) : Tree .expr
  | negate (e : Tree .expr) : Tree .expr
  | plus (e : Tree .expr) : Tree .expr
  | subscript (e index : Tree .expr) : Tree .expr
  -- parts of expressions
  | branch (test result : Tree .expr) : Tree .branch
  | windowNamed (name : Name) : Tree .window
  | windowSpec (partition : Tree (.list .expr)) (order : Tree (.list .orderItem))
      (frame : Option String) : Tree .window
  | orderItem (e : Tree .expr) (descending : Bool) (nulls : Option NullsOrder) : Tree .orderItem
  -- queries
  | limit (e : Tree .expr) : Tree .limit
  | limitAll : Tree .limit
  | offset (e : Tree .expr) : Tree .limit
  | fetch (e : Tree (.option .expr)) : Tree .limit
  | query (ctes : Tree (.option .ctes)) (body : Tree .body) (order : Tree (.list .orderItem))
      (limits : Tree (.list .limit)) (lock : Option Lock) : Tree .query
  | ctes (recursively : Bool) (items : Tree (.list .cte)) : Tree .ctes
  | cte (name : Name) (columns : List Name) (body : Tree .statement) : Tree .cte
  | selectBody (s : Tree .select) : Tree .body
  | nested (q : Tree .query) : Tree .body
  | operation (op : SetOperator) (left right : Tree .body) : Tree .body
  | distinctAll : Tree .distinct
  | distinctOn (items : Tree (.list .expr)) : Tree .distinct
  | select (distinct : Tree (.option .distinct)) (items : Tree (.list .selectItem))
      (sources : Tree (.list .source)) (condition : Tree (.option .expr))
      (groups : Tree (.list .expr)) (having : Tree (.option .expr)) : Tree .select
  | star : Tree .selectItem
  | tableStar (path : Path) (sql : String) : Tree .selectItem
  | item (e : Tree .expr) : Tree .selectItem
  | aliased (e : Tree .expr) (name : Name) : Tree .selectItem
  -- tables
  | source (table : Tree .table) (joins : Tree (.list .join)) : Tree .source
  | relation (path : Path) (name : Option Name) : Tree .table
  | derived (q : Tree .query) (name : Option Name) : Tree .table
  | lateral (q : Tree .query) (name : Option Name) : Tree .table
  | lateralCall (e : Tree .expr) (name : Option Name) : Tree .table
  | tableCall (e : Tree .expr) (name : Option Name) : Tree .table
  | join (kind : JoinKind) (table : Tree .table) (test : Tree (.option .joinTest)) : Tree .join
  | joinOn (e : Tree .expr) : Tree .joinTest
  | joinUsing (columns : List Name) : Tree .joinTest
  -- changes
  | assignment (column : Name) (e : Tree .expr) : Tree .assignment
  | row (items : Tree (.list .expr)) : Tree .row
  | rows (rows : Tree (.list .row)) : Tree .insertSource
  | insertQuery (q : Tree .query) : Tree .insertSource
  | defaults : Tree .insertSource
  | conflictColumns (items : Tree (.list .expr)) : Tree .conflictTarget
  | conflictConstraint (name : Name) : Tree .conflictTarget
  | doNothing : Tree .conflictAction
  | doUpdate (fields : Tree (.list .assignment)) (condition : Tree (.option .expr)) :
      Tree .conflictAction
  | conflict (target : Tree (.option .conflictTarget)) (action : Tree .conflictAction) :
      Tree .conflict
  | queryStatement (q : Tree .query) : Tree .statement
  | insert (ctes : Tree (.option .ctes)) (table : Path) (name : Option Name)
      (columns : List Name) (source : Tree .insertSource) (conflict : Tree (.option .conflict))
      (returning : Tree (.list .selectItem)) : Tree .statement
  | update (ctes : Tree (.option .ctes)) (table : Path) (name : Option Name)
      (fields : Tree (.list .assignment)) (sources : Tree (.list .source))
      (condition : Tree (.option .expr)) (returning : Tree (.list .selectItem)) : Tree .statement
  | delete (ctes : Tree (.option .ctes)) (table : Path) (name : Option Name)
      (tables : Tree (.list .table)) (condition : Tree (.option .expr))
      (returning : Tree (.list .selectItem)) : Tree .statement

abbrev Expr := Tree .expr
abbrev Query := Tree .query
abbrev Statement := Tree .statement

namespace Tree

def ofList {k : Kind} : List (Tree k) → Tree (.list k)
  | [] => nil
  | t :: ts => cons t (ofList ts)

def ofOption {k : Kind} : Option (Tree k) → Tree (.option k)
  | none => absent
  | some t => present t

end Tree

inductive ColumnConstraint where
  | primaryKey
  | notNull
  | nullable
  | unique
deriving DecidableEq, Repr, Inhabited

structure ColumnDef where
  name : Name
  type : TypeName
  constraints : List ColumnConstraint
deriving DecidableEq, Repr, Inhabited

inductive AlterAction where
  | add (column : ColumnDef)
  | drop (column : Name)
deriving DecidableEq, Repr, Inhabited

/-- What a semicolon may end. -/
inductive Command where
  | statement (s : Tree .statement)
  | createTable (ifNotExists : Bool) (table : Path) (columns : List ColumnDef)
  | dropTable (ifExists : Bool) (tables : List Path)
  | truncate (tables : List Path)
  | alterTable (table : Path) (actions : List AlterAction)

end SqlTree.Syntax

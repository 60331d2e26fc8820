import SqlTree.Syntax.Reading.Expression
import SqlTree.Syntax.Reading.Join

/-!
Queries as clause maps, given the readings of their parts.
-/

namespace SqlTree.Syntax

def SetOperator.clause : SetOperator → String
  | .union => "union"
  | .unionAll => "union-all"
  | .intersect => "intersect"
  | .except => "except"
  | .exceptAll => "except-all"

def JoinKind.clause : JoinKind → String
  | .inner => "join"
  | .left => "left-join"
  | .right => "right-join"
  | .full => "full-join"
  | .cross => "cross-join"

def LockStrength.word : LockStrength → String
  | .update => "update"
  | .noKeyUpdate => "no-key-update"
  | .share => "share"
  | .keyShare => "key-share"

def LockWait.word : LockWait → String
  | .nowait => "nowait"
  | .skipLocked => "skip-locked"

def Lock.value (l : Lock) : Value :=
  match l.wait with
  | none => .text l.strength.word
  | some w => .list [.text l.strength.word, .text w.word]

namespace Reading

open Operand

def entry (key : String) (v : Value) : Entries := [(.text key, v)]

/-- The entry of a clause that may be missing. -/
def optionalEntry (key : String) (r : Option (Read Value)) : Read Entries :=
  match r with
  | none => pure []
  | some r => do return entry key (← r)

/-- The names of a list, which is a node. -/
def nameList (names : List Name) : Read (List Value) := visit (pure (names.map Name.value))

section Tables

/-- A table with its alias, which is a node. -/
def aliased (v : Read Value) (name : Option Name) : Read Value :=
  visit do
    let v ← v
    match name with
    | none => return v
    | some n => return .list [v, ← visit (pure n.asAlias)]

def relation (path : Path) (name : Option Name) : Read Value :=
  aliased (visit (pure path.value)) name

def lateral (v : Read Value) (name : Option Name) : Read Value :=
  aliased (do return headed "lateral" [← v]) name

def join (kind : JoinKind) (table : Read Value) (test : Option (Read Value)) : Read Joined := do
  let t ← table
  match test with
  | none => return (kind.clause, t)
  | some test => return (kind.clause, .list [t, ← test])

def joinOn (e : Operand) : Read Value := visit e.value

def joinUsing (columns : List Name) : Read Value :=
  visit do return headed "using" (← nameList columns)

def source (table : Read Value) (joins : List (Read Joined)) : Read FromItem := do
  let t ← table
  return ⟨t, ← joins.mapM id⟩

/-- The clauses of a `FROM` list. A missing one has no items. -/
def fromClause (sources : List (Read FromItem)) : Read Entries :=
  if sources.isEmpty then pure [] else visit do return FromItem.entries (← sources.mapM id)

def condition (key : String) (e : Option Operand) : Read Entries :=
  optionalEntry key (e.map fun e => visit e.value)

end Tables

section Select

def tableStar (path : Path) (sql : String) : Read Value :=
  visit do
    let star ← visit (pure path.star?)
    return star.getD (.raw (.text sql))

def aliasedItem (e : Operand) (name : Name) : Read Value :=
  visit do return .list [← e.value, name.asAlias]

def groupClause (groups : List Operand) : Read Entries :=
  optionalEntry "group-by" <| if groups.isEmpty then none else
    some (visit do return .list (← values groups))

/-- The first argument reads the clause's key and what stands before the items. -/
def select (distinct : Option (Read (String × List Value))) (items : List (Read Value))
    (sources : List (Read FromItem)) (whereTest : Option Operand) (groups : List Operand)
    (having : Option Operand) : Read Entries :=
  visit do
    let (key, front) ← distinct.getD (pure ("select", []))
    let items ← visitAll items
    let sources ← fromClause sources
    let whereTest ← condition "where" whereTest
    let groups ← groupClause groups
    let having ← condition "having" having
    return entry key (.list (front ++ items)) ++ sources ++ whereTest ++ groups ++ having

def distinctOn (items : List Operand) : Read (String × List Value) := do
  return ("select-distinct-on", [.list (← values items)])

end Select

section Queries

/-- A set operation. On the left an operation of the same kind takes the right side in. -/
def combine (key : String) (left right : Entries) : Entries :=
  match left with
  | [(.text k, .list branches)] =>
    if k = key then entry key (.list (branches ++ [.map right]))
    else entry key (.list [.map left, .map right])
  | _ => entry key (.list [.map left, .map right])

def operation (op : SetOperator) (left right : Read Entries) : Read Entries :=
  visit do
    let l ← left
    return combine op.clause l (← right)

def cte (name : Name) (columns : List Name) (body : Read Entries) : Read Value :=
  visit do
    if columns.isEmpty then return .list [name.value, .map (← body)]
    let columns ← nameList columns
    return .list [.list [name.value, .list columns], .map (← body)]

def ctes (recursively : Bool) (items : List (Read Value)) : Read Entries :=
  visit do
    let key := if recursively then "with-recursive" else "with"
    return entry key (.list (← items.mapM id))

def hasTableExpressions (es : Entries) : Bool :=
  Clause.tableExpressions.any (Entries.hasField es ·)

/-- Common table expressions and a tail around a body. A body that has one of these already becomes
a nested query, because it takes effect before them. -/
def surround (ctes body tail : Entries) : Entries :=
  let clashes := tail.any fun e => (Entries.valueAt? body e.1).isSome
  if clashes || (!ctes.isEmpty && hasTableExpressions body) then
    ctes ++ entry "nest" (.map body) ++ tail
  else ctes ++ body ++ tail

def orderClause (order : List (Read Value)) : Read Entries :=
  optionalEntry "order-by" <| if order.isEmpty then none else
    some do return .list (← visitAll order)

def lockClause (lock : Option Lock) : Read Entries :=
  optionalEntry "for" (lock.map fun l => visit (pure l.value))

def query (ctes : Option (Read Entries)) (body : Read Entries) (order : List (Read Value))
    (limits : List (Read Entries)) (lock : Option Lock) : Read Entries :=
  visit do
    let ctes ← ctes.getD (pure [])
    let body ← body
    let order ← orderClause order
    let limits ← limits.mapM id
    let lock ← lockClause lock
    return surround ctes body (order ++ limits.flatten ++ lock)

def limit (key : String) (e : Operand) : Read Entries := do return entry key (← e.value)

/-- `FETCH` without a number means one row. -/
def fetch (e : Option Operand) : Read Entries := do
  return entry "limit" (← (e.map value).getD (pure (untyped (.int 1))))

end Queries

end Reading

end SqlTree.Syntax

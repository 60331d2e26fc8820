import SqlTree.Walk.Columns

/-!
The table aliases of every query block, as a tree of scopes: one for the statement, and one for
each table expression, branch and subquery inside it.
-/

namespace SqlTree

/-- The aliases of one query block. A table without alias stands for itself. -/
structure AliasScope where
  location : String
  aliases : List (String × String)
  children : List AliasScope
deriving Inhabited

namespace AliasScope

def bindTable (bindings : List (String × String)) (item : Value) : List (String × String) :=
  match item with
  | .text t => bindName bindings t t
  | item =>
    match item.items? with
    | some [.text table, .text t] => bindName bindings table t
    | _ => bindings

def tableAliases (es : Entries) : Except Fault (List (String × String)) := do
  return (← tableItems es).foldl bindTable []

/-- The first location is bare, later ones are numbered. -/
def numbered (base : String) (scopes : List AliasScope) : List AliasScope :=
  scopes.mapIdx fun i scope =>
    { scope with
      location := if i = 0 then base else base ++ "[" ++ toString i ++ "]" }

/-- The label of a table expression: its name, or the name in front of its columns. -/
def label (name : Value) : Except Fault String :=
  match name.items? with
  | some [] => .error .outOfRange
  | some (first :: _) => .ok first.shown
  | none => .ok name.shown

/-- A pair without clause map inside only has to have a label. -/
def checkPair (v : Value) : Except Fault Unit :=
  match v.elements? with
  | some [name, _] => do
    let _ ← label name
  | _ => .error (Walk.notPair v)

/-- The clauses with scopes of their own, in the order in which the scopes are listed. -/
def searched : List String :=
  Clause.tableExpressions ++ Clause.setOperations ++ ["from", "where", "select", "having"]

/-- The scopes found in the clause `key`. -/
def found (parts : List (Value × Except Fault (List AliasScope))) (key : String) :
    Except Fault (List AliasScope) :=
  match parts.find? fun p => p.1.text? = some key with
  | some p => p.2
  | none => .ok []

/-- The scope of a block whose clauses were searched. -/
def block (location : String) (es : Entries)
    (parts : List (Value × Except Fault (List AliasScope))) : Except Fault AliasScope := do
  let aliases ← tableAliases es
  let children ← searched.mapM (found parts)
  return ⟨location, aliases, children.flatten⟩

mutual

/-- The scopes of the clause maps in an expression, without their locations. -/
def inExpr : Value → Except Fault (List AliasScope)
  | .map es =>
    if Form.ofEntries Clause.order es = .clause then do return [← block "" es (inEntries es)]
    else .ok []
  | .list vs => inExprs vs
  | .tuple vs => inExprs vs
  | _ => .ok []

def inExprs : List Value → Except Fault (List AliasScope)
  | [] => .ok []
  | v :: vs => do
    let scopes ← inExpr v
    return scopes ++ (← inExprs vs)

/-- The scope of a value that is itself a clause map. -/
def inClause (location : String) : Value → Except Fault (List AliasScope)
  | .map es =>
    if Form.ofEntries Clause.order es = .clause then do
      return [← block location es (inEntries es)]
    else .ok []
  | _ => .ok []

def inBranches (key : String) (index : Nat) : List Value → Except Fault (List AliasScope)
  | [] => .ok []
  | v :: vs => do
    let scopes ← inClause (key ++ "[" ++ toString index ++ "]") v
    return scopes ++ (← inBranches key (index + 1) vs)

def inPair (key : String) : Value → Except Fault (List AliasScope)
  | .list [name, query] => do inClause (key ++ ":" ++ (← label name)) query
  | .tuple [name, query] => do inClause (key ++ ":" ++ (← label name)) query
  | .set [name, query] => do inClause (key ++ ":" ++ (← label name)) query
  | v => do
    checkPair v
    return []

def inPairs (key : String) : List Value → Except Fault (List AliasScope)
  | [] => .ok []
  | v :: vs => do
    let scopes ← inPair key v
    return scopes ++ (← inPairs key vs)

/-- What is found in a clause; only clauses with a given value are searched. -/
def inValue (key : String) : Value → Except Fault (List AliasScope)
  | .list vs =>
    if Clause.tableExpressions.contains key then inPairs key vs
    else if Clause.setOperations.contains key then inBranches key 0 vs
    else do return numbered key (← inExprs vs)
  | .tuple vs =>
    if Clause.tableExpressions.contains key then inPairs key vs
    else if Clause.setOperations.contains key then inBranches key 0 vs
    else do return numbered key (← inExprs vs)
  | .set vs =>
    if Clause.tableExpressions.contains key then inPairs key vs
    else if Clause.setOperations.contains key then inBranches key 0 vs
    else .ok []
  | .map es =>
    if es.isEmpty then .ok []
    else if Clause.tableExpressions.contains key then do
      es.forM fun e => checkPair e.1
      return []
    else if Clause.setOperations.contains key then .ok []
    else if Form.ofEntries Clause.order es = .clause then do
      return [← block key es (inEntries es)]
    else .ok []
  | v =>
    if !v.given then .ok []
    else if Clause.tableExpressions.contains key then
      match v.elements? with
      | none => .error .wrongType
      | some vs => match vs.head? with
        | some w => .error (Walk.notPair w)
        | none => .ok []
    else if Clause.setOperations.contains key then
      if v.elements?.isSome then .ok [] else .error .wrongType
    else .ok []

def inEntries : List (Value × Value) → List (Value × Except Fault (List AliasScope))
  | [] => []
  | (k, v) :: es =>
    let rest := inEntries es
    match k with
    | .text key => if searched.contains key then (k, inValue key v) :: rest else rest
    | _ => rest

end

/-- The scopes of a statement. -/
def ofStatement (location : String) (v : Value) : Except Fault AliasScope :=
  match v with
  | .map es => block location es (inEntries es)
  | _ => .error .unsupported

end AliasScope

end SqlTree

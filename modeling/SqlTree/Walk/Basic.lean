import SqlTree.Form
import SqlTree.Registry

/-!
Rebuilding a statement tree from the inside out. A transformation receives every clause map once,
after the clause maps inside it have been replaced.
-/

namespace SqlTree

/-- A walk may keep a state and may fail on values that are not shaped as their clause asks. -/
abbrev Walk (σ : Type) := StateT σ (Except Fault)

namespace Walk

/-- How a clause is searched for clause maps. -/
inductive Reach where
  /-- Pairs of a name and a query. -/
  | tableExpressions
  /-- Branches of a set operation. -/
  | branches
  /-- Any nesting of arrays. -/
  | expression
deriving DecidableEq, Repr

def expressionClauses : List String :=
  Clause.selections ++ Clause.joins ++
    ["from", "using", "cross-join", "join-by", "where", "having", "returning", "nest",
     "insert-into"]

def reach? (key : Value) : Option Reach :=
  match key with
  | .text t =>
    if Clause.tableExpressions.contains t then some .tableExpressions
    else if Clause.setOperations.contains t then some .branches
    else if expressionClauses.contains t then some .expression
    else none
  | _ => none

def reject {σ α : Type} (f : Fault) : Walk σ α := fun _ => .error f

/-- A value that is no pair: of another length, or without items. -/
def notPair (v : Value) : Fault := if v.elements?.isSome then .wrongCount else .wrongType

def isNull : Value → Bool
  | .null => true
  | _ => false

section

variable {σ : Type} (clauses : List String) (transform : Entries → Walk σ Entries)

mutual

/-- Clause maps are walked, arrays are searched and come out as lists, all else stays. -/
def expr : Value → Walk σ Value
  | .map es =>
    if Form.ofEntries clauses es = .clause then do return .map (← transform (← entries es))
    else pure (.map es)
  | .list vs => do return .list (← exprs vs)
  | .tuple vs => do return .list (← exprs vs)
  | v => pure v

def exprs : List Value → Walk σ (List Value)
  | [] => pure []
  | v :: vs => do
    let w ← expr v
    return w :: (← exprs vs)

def keys : List (Value × Value) → Walk σ (List Value)
  | [] => pure []
  | (k, _) :: es => do
    let w ← expr k
    return w :: (← keys es)

def branches : Value → Walk σ Value
  | .list vs => do return .list (← exprs vs)
  | .tuple vs => do return .list (← exprs vs)
  | .set vs => do return .list (← exprs vs)
  | .map es => do return .list (← keys es)
  | v =>
    match v.elements? with
    | some vs => pure (.list vs)
    | none => reject .wrongType

/-- A name, which stays, and a query, which is walked. -/
def pair : Value → Walk σ Value
  | .list [name, query] => do return .list [name, ← expr query]
  | .tuple [name, query] => do return .list [name, ← expr query]
  | .set [name, query] => do return .list [name, ← expr query]
  | .map [(name, _), (query, _)] => do return .list [name, ← expr query]
  | v =>
    match v, v.elements? with
    | .list _, _ | .tuple _, _ | .set _, _ | .map _, _ => reject .wrongCount
    | _, some [name, query] => pure (.list [name, query])
    | v, _ => reject (notPair v)

def pairs : List Value → Walk σ (List Value)
  | [] => pure []
  | v :: vs => do
    let w ← pair v
    return w :: (← pairs vs)

def keyPairs : List (Value × Value) → Walk σ (List Value)
  | [] => pure []
  | (k, _) :: es => do
    let w ← pair k
    return w :: (← keyPairs es)

def tableExpressions : Value → Walk σ Value
  | .list vs => do return .list (← pairs vs)
  | .tuple vs => do return .list (← pairs vs)
  | .set vs => do return .list (← pairs vs)
  | .map es => do return .list (← keyPairs es)
  | v =>
    match v.elements? with
    | some [] => pure (.list [])
    | some (w :: _) => reject (notPair w)
    | none => reject .wrongType

/-- The entries of a clause map, each searched as its clause says. Null values are passed over. -/
def entries : List (Value × Value) → Walk σ (List (Value × Value))
  | [] => pure []
  | (k, v) :: es => do
    let w ← (if isNull v then pure v
      else match reach? k with
        | some .tableExpressions => tableExpressions v
        | some .branches => branches v
        | some .expression => expr v
        | none => pure v : Walk σ Value)
    return (k, w) :: (← entries es)

end

/-- Why a value cannot be taken for a clause map. -/
def notMap (v : Value) : Fault :=
  match v.elements? with
  | none => .wrongType
  | some vs =>
    match vs.find? fun w => (w.elements?.map List.length) != some 2 with
    | some w => notPair w
    | none =>
      if vs.all fun w => ((w.elements?.getD []).head?).all Value.isKey then .unsupported
      else .wrongType

/-- Walks a clause map. The map itself is transformed last, whatever its keys are. -/
def walk (v : Value) : Walk σ Value :=
  match v with
  | .map es => do return .map (← transform (← entries clauses transform es))
  | v => reject (notMap v)

end

/-- A walk with a transformation that neither fails nor keeps a state. -/
def walkPure (clauses : List String) (transform : Entries → Entries) (v : Value) :
    Except Fault Value :=
  (walk clauses (fun es => (pure (transform es) : Walk Unit Entries)) v).run' ()

end Walk

end SqlTree

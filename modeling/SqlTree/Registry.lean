import SqlTree.Clause
import SqlTree.Operator
import SqlTree.Fault
import SqlTree.Text.Case

/-!
Registries: which names are operators, which head a special form, and which clauses there are in
what order.
-/

namespace SqlTree

/-- The special forms: arrays whose head has a rendering of its own. -/
inductive SpecialForm where
  | cases
  | caseOf
  | cast
  | between
  | negation
  | distinct
  | filter
  | composite
  | array
  | nest
  | raw
  | inlined
  | param
  | lift
  | lateral
  | windowed
  | interval
  | entity
  | aliasName
  | field
  | atTimeZone
  | exists
  | subscript
  | extract
  | default
deriving DecidableEq, Repr, Inhabited

namespace SpecialForm

def table : List (String × SpecialForm) :=
  [("case", .cases), ("case-expr", .caseOf), ("cast", .cast), ("between", .between),
   ("not-between", .between), ("not", .negation), ("distinct", .distinct), ("filter", .filter),
   ("composite", .composite), ("array", .array), ("nest", .nest), ("raw", .raw),
   ("inline", .inlined), ("param", .param), ("lift", .lift), ("lateral", .lateral),
   ("over", .windowed), ("interval", .interval), ("entity", .entity), ("alias", .aliasName),
   (".", .field), ("at-time-zone", .atTimeZone), ("exists", .exists), ("at", .subscript),
   ("extract", .extract), ("default", .default)]

def named? (name : String) : Option SpecialForm := table.lookup name

end SpecialForm

def ClauseForm.named? (name : String) : Option ClauseForm := Clause.table.lookup name

/-- What a caller hands over as a form: a form, or a value that is none. -/
inductive Handover (α : Type) where
  | form (f : α)
  | other (v : Value)

/-- The clauses with their forms, and apart from them the order in which a statement writes them. -/
structure Registry where
  binary : List String
  unary : List String
  nilIgnoring : List String
  forms : List (String × SpecialForm)
  clauses : List (String × ClauseForm)
  order : List String
deriving Inhabited

namespace Registry

def base : Registry where
  binary := Operator.binary
  unary := Operator.unary
  nilIgnoring := Operator.nilIgnoring
  forms := SpecialForm.table
  clauses := Clause.table
  order := Clause.order

/-- The name under which an operator is kept: lower case, other spellings replaced. -/
def normalize (name : String) : String :=
  let op := Text.lower name
  (Operator.aliases.lookup op).getD op

section Lookup

variable (r : Registry)

def isBinary (op : String) : Bool := r.binary.contains op

def isUnary (op : String) : Bool := r.unary.contains op

def ignoresNil (op : String) : Bool := r.nilIgnoring.contains op

def form? (op : String) : Option SpecialForm := r.forms.lookup op

def clause? (key : String) : Option ClauseForm := r.clauses.lookup key

def clauseKeys : List String := r.clauses.map (·.1)

def clauseOrder : List String := r.order

def isOperator (name : String) : Bool :=
  let op := normalize name
  r.isBinary op || (r.form? op).isSome || Operator.membership.contains op

end Lookup

def addName (name : String) (names : List String) : List String :=
  if names.contains name then names else names ++ [name]

/-- An operator replaces a special form of the same name; marks are only added. -/
def registerOperator (r : Registry) (name : String) (ignoreNil unary : Bool) :
    Except Fault Registry :=
  if name.isEmpty then .error .emptyOperatorName
  else
    let op := Text.lower name
    .ok { r with
      binary := addName op r.binary
      forms := r.forms.filter (·.1 != op)
      nilIgnoring := if ignoreNil then addName op r.nilIgnoring else r.nilIgnoring
      unary := if unary then addName op r.unary else r.unary }

/-- A special form replaces an operator of the same name. -/
def registerForm (r : Registry) (name : String) : Handover SpecialForm → Except Fault Registry
  | .other v => .error (.formNotUsable name v.typeName)
  | .form f =>
    let op := Text.lower name
    .ok { r with
      forms := r.forms.filter (·.1 != op) ++ [(op, f)]
      binary := r.binary.filter (· != op) }

/-- A clause goes in front of `anchor`, or to the end without one. It leaves its former place
first, so it cannot be its own anchor. -/
def registerClause (r : Registry) (name : String) (form : Handover ClauseForm)
    (anchor : Option String) : Except Fault Registry :=
  match form with
  | .other v => .error (.clauseNotUsable name v.typeName)
  | .form f =>
    let clauses := r.clauses.filter (·.1 != name) ++ [(name, f)]
    let others := r.order.filter (· != name)
    match anchor with
    | none => .ok { r with clauses, order := others ++ [name] }
    | some key =>
      if !r.order.contains key then .error (.unknownAnchor name key)
      else if key = name then .error .ownAnchor
      else .ok { r with clauses, order := Clause.insertBefore name key others }

def registerAll (r : Registry) (names : List String) : Except Fault Registry :=
  names.foldlM (fun r name => r.registerOperator name false false) r

/-- Adds an operator under a name that is in lower case already. -/
def addOperator (r : Registry) (op : String) : Registry :=
  { r with binary := addName op r.binary, forms := r.forms.filter (·.1 != op) }

/-- The registry with the operators of Postgres. -/
def standard : Registry := Operator.postgres.foldl addOperator base

end Registry

end SqlTree

import SqlTree.Syntax.Reading.Literal

/-!
Expressions as values, given the readings of their parts.
-/

namespace SqlTree.Syntax

/-- The reading of an expression. Behind the same connective it is read as further operands, with
no level in between, so that a long chain stays flat. -/
structure Operand where
  value : Read Value
  operands : Connective → Read (List Value)

namespace Operand

/-- An expression that goes on no chain. -/
def single (r : Read Value) : Operand := ⟨r, fun _ => do return [← r]⟩

/-- A node of its own. -/
def node (r : Read Value) : Operand := single (visit r)

def leaf (v : Value) : Operand := node (pure v)

def leafOr (v : Except Fault Value) : Operand := node fun _ => v

/-- An array with a head, of the values of some operands. -/
def form (head : String) (parts : List Operand) : Operand :=
  node do return headed head (← parts.mapM value)

/-- The values of a list, which is a node. -/
def values (parts : List Operand) : Read (List Value) := visitAll (parts.map value)

/-- An array with a head and the values of a list. An empty list is no node. -/
def listed (head : String) (parts : List Operand) : Operand :=
  node do return headed head (← if parts.isEmpty then pure [] else values parts)

end Operand

def Connective.word : Connective → String
  | .and => "and"
  | .or => "or"

def Predicate.word (negated : Bool) : Predicate → String
  | .like => if negated then "not-like" else "like"
  | .ilike => if negated then "not-ilike" else "ilike"
  | .similarTo => if negated then "not-similar-to" else "similar-to"
  | .distinctFrom => if negated then "is-not-distinct-from" else "is-distinct-from"

def Test.operand : Test → Value
  | .isNull => .null
  | .isTrue => .bool true
  | .isFalse => .bool false

def Quantifier.word : Quantifier → String
  | .all => "%all"
  | .any => "%any"

namespace Reading

open Operand

def chainOperands (op : Connective) (left right : Operand) : Read (List Value) := do
  let lefts ← left.operands op
  return lefts ++ [← right.value]

def connected (op : Connective) (left right : Operand) : Operand :=
  let whole : Read Value := visit do return headed op.word (← chainOperands op left right)
  ⟨whole, fun op' => if op' = op then chainOperands op left right else do return [← whole]⟩

def test (negated : Bool) (t : Test) (e : Operand) : Operand :=
  node do return headed (if negated then "is-not" else "is") [← e.value, t.operand]

def comparison (op : String) (left right : Operand) : Operand :=
  form (if op = "!=" then "<>" else op) [left, right]

/-- The members of a list. A list that starts like an array with a head gets one. -/
def members : List Value → Value
  | vs@(.text _ :: _) => headed "composite" vs
  | vs@(.list _ :: _) => headed "composite" vs
  | vs => .list vs

def inList (negated : Bool) (e : Operand) (items : List Operand) : Operand :=
  node do
    let v ← e.value
    let vs ← visit (values items)
    return headed (if negated then "not-in" else "in") [v, members vs]

def inQuery (negated : Bool) (e : Operand) (q : Read Entries) : Operand :=
  node do
    let v ← e.value
    let es ← visit q
    return headed (if negated then "not-in" else "in") [v, .map es]

def cast (e : Operand) (type : TypeName) : Operand :=
  node do
    let v ← e.value
    return headed "cast" [v, .text (← type.read)]

def typecast (e : Operand) (type : TypeName) : Operand :=
  node do
    let v ← e.value
    return Literal.cast v (← type.read)

def negate (e : Operand) : Operand := node do return Literal.negated (← e.value)

def subquery (q : Read Entries) : Operand := node do return .map (← q)

/-- An array with a head and a query. -/
def ofQuery (head : String) (q : Read Entries) : Operand :=
  node do return headed head [.map (← q)]

def array (items : List Operand) : Operand :=
  node do return headed "array" [.list (← if items.isEmpty then pure [] else values items)]

def field (e : Operand) (name : Name) : Operand :=
  node do return headed "." [← e.value, name.value]

def extract (field : Name) (e : Operand) : Operand :=
  node do return headed "extract" [.text (Text.lower field.content), ← e.value]

def row (first : Option Operand) (rest : List Operand) : Operand :=
  node do
    let firsts ← first.toList.mapM value
    let rests ← if rest.isEmpty then pure [] else values rest
    return headed "composite" (firsts ++ rests)

/-- The values of a case's branches, and of what holds otherwise. -/
def branches (bs : List (Read (List Value))) (otherwise : Option Operand) : Read (List Value) := do
  let vs ← bs.mapM id
  match otherwise with
  | none => return vs.flatten
  | some e => return vs.flatten ++ [.text "else", ← e.value]

def cases (bs : List (Read (List Value))) (otherwise : Option Operand) : Operand :=
  node do return headed "case" (← branches bs otherwise)

def caseOf (subject : Operand) (bs : List (Read (List Value))) (otherwise : Option Operand) :
    Operand :=
  node do
    let v ← subject.value
    return headed "case-expr" (v :: (← branches bs otherwise))

section Calls

def callHead (head : List String) (args : Arguments) : String :=
  "%" ++ ".".intercalate head ++ (if args = .distinct then "-distinct" else "")

def callItems (args : Arguments) (items : List Operand) : Read (List Value) :=
  if args = .star then pure [.text "*"] else if items.isEmpty then pure [] else values items

/-- A filter that is null filters nothing. -/
def filtered (call : Value) : Option Value → Value
  | none | some .null => call
  | some v => headed "filter" [call, v]

/-- A call over a window, which may be the whole. -/
def windowed (call : Value) : Option (Option Value) → Value
  | none => call
  | some none => headed "over" [call]
  | some (some w) => headed "over" [call, w]

def call (head : List String) (args : Arguments) (items : List Operand) (filter : Option Operand)
    (window : Option (Read (Option Value))) : Operand :=
  node do
    let vs ← callItems args items
    let filter ← filter.mapM value
    let window ← window.mapM id
    return windowed (filtered (headed (callHead head args) vs) filter) window

def windowSpec (partition : List Operand) (order : List (Read Value)) (frame : Option String) :
    Read (Option Value) :=
  visit do
    let partition ← if partition.isEmpty then pure [] else do
      pure [("partition-by", Value.list (← values partition))]
    let order ← if order.isEmpty then pure [] else do
      pure [("order-by", Value.list (← visitAll order))]
    let frame := frame.toList.map fun sql => ("frame", Value.raw (.text sql))
    let fields := partition ++ order ++ frame
    return if fields.isEmpty then none else some (.record fields)

def orderItem (e : Operand) (descending : Bool) (nulls : Option NullsOrder) : Read Value :=
  visit do
    let direction := Value.text (if descending then "desc" else "asc")
    let nulls := nulls.toList.map fun n => match n with
      | .first => Value.text "nulls-first"
      | .last => Value.text "nulls-last"
    return .list ((← e.value) :: direction :: nulls)

end Calls

end Reading

end SqlTree.Syntax

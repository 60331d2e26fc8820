import SqlTree.Render.Value

/-!
Rendering of expressions other than special forms: operators, membership tests, calls, spliced
text and ordered items. What is inside an expression is rendered by a given renderer.
-/

namespace SqlTree

/-- Renders the parts of a value. The flag says that the part is an operand, or a statement inside
another one. -/
structure Renderer where
  expr : Settings → Bool → Value → Render Fragment
  statement : Settings → Bool → Entries → Render Fragment

namespace Render

open Fragment (ofText joined commas between parens parensIf after)

variable (r : Renderer) (s : Settings)

def each (nested : Bool) (vs : List Value) : Render (List Fragment) := vs.mapM (r.expr s nested)

def list (vs : List Value) : Render Fragment := do return commas (← each r s false vs)

def operands (vs : List Value) : Render (List Fragment) := each r s true vs

/-- A clause map as a statement in parentheses, anything else as an expression. -/
def subquery (nested : Bool) (v : Value) : Render Fragment :=
  match v with
  | .map es => if s.isClause v then r.statement s true es else r.expr s nested v
  | v => r.expr s nested v

/-- A statement in parentheses, or an expression in parentheses. -/
def nest (v : Value) : Render Fragment :=
  match v with
  | .map es =>
    if s.isClause v then r.statement s true es else do return parens (← r.expr s false v)
  | v => do return parens (← r.expr s false v)

/-- Text is spliced as it stands; what lies between pieces of text is rendered. -/
def splicePart (v : Value) : Render Fragment :=
  match v with
  | .text t => pure (ofText t)
  | v => r.expr s false v

def splice (v : Value) : Render Fragment :=
  match v with
  | .text t => pure (ofText t)
  | v =>
    match v.elements? with
    | some parts => do return (← parts.mapM (splicePart r s)).flatten
    | none => fail .wrongType

section Operators

variable (nested : Bool)

def nullTest (op : String) : String := " IS " ++ (if op = "=" then "NULL" else "NOT NULL")

/-- A null on either side turns the comparison into a test for null. -/
def comparison (op : String) (left right : Value) : Render Fragment :=
  match s.nullTests, left, right with
  | true, .null, _ => do return (← r.expr s true right) ++ [.text (nullTest op)]
  | true, _, .null => do return (← r.expr s true left) ++ [.text (nullTest op)]
  | _, _, _ => do
    let l ← r.expr s true left
    let f ← r.expr s true right
    return l ++ .text (" " ++ op ++ " ") :: f

def equality (op : String) (args : List Value) : Render Fragment :=
  match args with
  | [left, right] => do return parensIf nested (← comparison r s op left right)
  | _ => fail (.notBinary op args.length)

def isNull : Value → Bool
  | .null => true
  | _ => false

def infixed (op : String) (args : List Value) : Render Fragment :=
  let args := if s.registry.ignoresNil op then args.filter (!isNull ·) else args
  match args with
  | [] =>
    match Operator.unit? op with
    | some t => pure (ofText t)
    | none => fail (.noOperands op)
  | [x] =>
    if s.registry.isUnary op then do
      return parensIf nested (.text (Keyword.render op ++ " ") :: (← r.expr s true x))
    else r.expr s nested x
  | xs => do
    return parensIf nested (joined (" " ++ Keyword.render op ++ " ") (← operands r s xs))

/-- A list of plain values is the right side of a membership test as it stands; one that starts
with a name or an array is an expression. -/
def isValueList (first : Value) : Bool := !(Identifier.isIdent first || first.isArray)

/-- The values of a parameter that is bound to a list. -/
def paramItems? (v : Value) : Except Fault (Option (List Value)) :=
  match v with
  | .map es =>
    match Entries.field? es Form.paramKey with
    | some name => do return (← param s name).items?
    | none => .ok none
  | _ => .ok none

/-- A list without values, which the settings may refuse. -/
def emptySide (keyword : String) (left : Fragment) : Render Fragment :=
  if s.checks then
    fail (.emptyMembership (left.sql s.dialect s.numbered) keyword s.checking.word)
  else pure (ofText "()")

def membershipSide (keyword : String) (left : Fragment) (right : Value) : Render Fragment := do
  match ← paramItems? s right with
  | some [] => emptySide s keyword left
  | some values => return parens (commas (← values.mapM (bind s)))
  | none =>
    match right.items? with
    | some [] => emptySide s keyword left
    | some (first :: rest) =>
      if isValueList first then return parens (← list r s (first :: rest))
      else r.expr s true right
    | none => r.expr s true right

def membership (op : String) (args : List Value) : Render Fragment :=
  let keyword := Keyword.render op
  match args with
  | [left, right] => do
    let l ← r.expr s true left
    let f ← membershipSide r s keyword l right
    return parensIf nested (l ++ .text (" " ++ keyword ++ " ") :: f)
  | _ => fail (.notMembership keyword op args.length)

end Operators

def distinctSuffix : List Char := "_DISTINCT".toList

def checkHead (name : String) : Except Fault Unit :=
  (Text.parts (· = '.') (String.ofList (Keyword.dropPercent name.toList))).forM fun part =>
    Identifier.check part s.dialect.maxIdentifierLength

/-- The call of a function. A name that ends in `-distinct` marks the arguments. -/
def call (name : String) (args : List Value) : Render Fragment := do
  checkHead s name
  let full := (Keyword.function name).toList
  let marked := distinctSuffix.isSuffixOf full
  let kept := if marked then full.take (full.length - distinctSuffix.length) else full
  let head := String.ofList kept
  let opening := head ++ "(" ++ (if marked then "DISTINCT " else "")
  match args with
  | [] => return ofText (head ++ "()")
  | [.map es] =>
    if s.isClause (.map es) then return between opening ")" (← r.statement s false es)
    else return between opening ")" (← list r s args)
  | _ => return between opening ")" (← list r s args)

def orderWords : List String := ["asc", "desc", "nulls-first", "nulls-last"]

/-- Splits an ordered item into its expression and its modifiers. -/
def orderItem (item : Value) : Value × List String :=
  match item.items? with
  | some [expr, .text a] =>
    if orderWords.contains (Text.lower a) then (expr, [Text.lower a]) else (item, [])
  | some [expr, .text a, .text b] =>
    if orderWords.contains (Text.lower a) then (expr, [Text.lower a, Text.lower b]) else (item, [])
  | _ => (item, [])

/-- Ascending order is not written. -/
def orderSuffix (modifier : String) : String :=
  if modifier = "desc" then " DESC"
  else if "nulls-".toList.isPrefixOf modifier.toList then " " ++ Keyword.render modifier
  else ""

def ordered (item : Value) : Render Fragment := do
  let (expr, modifiers) := orderItem item
  return (← r.expr s false expr) ++ modifiers.map fun m => .text (orderSuffix m)

def orderItems (v : Value) : Render (List Fragment) := v.asItems.mapM (ordered r s)

end Render

end SqlTree

import SqlTree.Render.Expression

/-!
Rendering of the special forms, each from the name it is called by and its arguments.
-/

namespace SqlTree.Render

open Fragment (ofText joined commas between parens parensIf after)

variable (r : Renderer) (s : Settings)

def argumentFault (op : String) (args : List Value) (allowed : List Nat) : Render Fragment :=
  fail (.argumentCount op allowed args)

/-- The value inside an untyped wrapper. -/
def unwrapped (v : Value) : Value :=
  match v with
  | .map [(.text key, inner)] => if key = Form.valueKey then inner else v
  | v => v

def isElse (v : Value) : Bool :=
  match v with
  | .text t => Text.lower t = "else" || Text.lower t = ":else"
  | _ => false

def branch (test result : Value) : Render Fragment :=
  if isElse test then do return after "ELSE " (← r.expr s false result)
  else do
    let t ← r.expr s false test
    let v ← r.expr s false result
    return after "WHEN " t ++ after " THEN " v

def branches (op : String) : List Value → Render (List Fragment)
  | [] => pure []
  | [_] => fail (.unpairedBranches op)
  | test :: result :: rest => do
    let f ← branch r s test result
    return f :: (← branches op rest)

/-- The branches of a case, which have to come in pairs. -/
def casePairs (op : String) (pairs : List Value) : Render Fragment :=
  if pairs.length % 2 = 1 then fail (.unpairedBranches op)
  else do return joined " " (← branches r s op pairs)

def typeOrExpr (v : Value) : Render Fragment :=
  match v with
  | .text t => words (Identifier.typeName t)
  | v => r.expr s false v

def arrayItems (items : List Value) (types : List Value) : Render Fragment := do
  let f ← list r s items
  match types with
  | [] => return between "ARRAY[" "]" f
  | type :: _ => return between "ARRAY[" ("]::" ++ (← typeName type) ++ "[]") f

def array (op : String) (args : List Value) : Render Fragment :=
  let plain : Render Fragment := do return between "ARRAY[" "]" (← list r s args)
  match args with
  | [] => plain
  | first :: rest =>
    match first, first.items? with
    | .map es, _ =>
      if rest.isEmpty && s.isClause first then do
        return between "ARRAY(" ")" (← r.statement s false es)
      else plain
    | _, some items =>
      if rest.length ≤ 1 then arrayItems r s items rest
      else argumentFault op args [1, 2]
    | _, none => plain

/-- Texts are literals, and every value in the other arguments is written as a literal. -/
def inlinedArgument (v : Value) : Render Fragment :=
  match v with
  | .text _ => literal s v
  | v => r.expr s.inlined false v

/-- A quantity or a zone: texts as literals, other values without placeholders. -/
def quantity (v : Value) : Render Fragment :=
  match v with
  | .text _ | .int _ | .real _ => literal s v
  | v => r.expr s.inlined false v

def windowPart (keyword : String) (v : Value) (items : Value → Render (List Fragment)) :
    Render (List Fragment) :=
  if v.given then do return [after keyword (commas (← items v))] else pure []

def windowFrame (v : Value) : Render (List Fragment) :=
  match v with
  | .null => pure []
  | v => do return [← r.expr s false v]

def window (es : Entries) : Render Fragment := do
  let part := fun key => (Entries.field? es key).getD .null
  let groups ← windowPart "PARTITION BY " (part "partition-by") fun v => each r s false v.asItems
  let order ← windowPart "ORDER BY " (part "order-by") (orderItems r s)
  let frame ← windowFrame r s (part "frame")
  return joined " " (groups ++ order ++ frame)

def windowed (call spec : Value) : Render Fragment := do
  let f ← r.expr s false call
  match spec with
  | .null => return f ++ [.text " OVER ()"]
  | .text t => return f ++ [.text " OVER ", .text (← nameText s t)]
  | .map es => return f ++ between " OVER (" ")" (← window r s es)
  | v => fail (.badWindow v)

def unitTexts (units : List Value) : Except Fault (List String) :=
  units.mapM fun u => do return " " ++ (← keyword u)

def interval (v : Value) (units : List Value) : Render Fragment := do
  let f ← quantity r s (unwrapped v)
  return after "INTERVAL " f ++ (← unitTexts units).map .text

def zone (v : Value) : Render Fragment :=
  match unwrapped v with
  | .text t => literal s (.text t)
  | v => r.expr s.inlined false v

/-- Only a name may be indexed without parentheses. -/
def subscript (v index : Value) : Render Fragment := do
  let f ← r.expr s false v
  let i ← r.expr s false index
  return (if Identifier.isIdent v then f else parens f) ++ between "[" "]" i

def extract (field v : Value) : Render Fragment :=
  match field with
  | .text t =>
    if Identifier.isIdentText t then do
      return between ("EXTRACT(" ++ Keyword.render t ++ " FROM ") ")" (← r.expr s false v)
    else fail (.badExtractField field)
  | _ => fail (.badExtractField field)

def fieldPath (fields : List Value) : Except Fault String := do
  return "." ++ ".".intercalate (← fields.mapM (entity s))

/-- Renders `[op, args...]`, where `form` is registered for `op`. -/
def special (form : SpecialForm) (op : String) (args : List Value) : Render Fragment :=
  match form, args with
  | .cases, _ => do return between "CASE " " END" (← casePairs r s op args)
  | .caseOf, [] => fail .noSubject
  | .caseOf, subject :: pairs => do
    let f ← r.expr s false subject
    return after "CASE " f ++ between " " " END" (← casePairs r s op pairs)
  | .cast, [v, type] => do
    let f ← r.expr s false v
    return after "CAST(" f ++ between " AS " ")" (← typeOrExpr r s type)
  | .between, [x, low, high] => do
    let f ← r.expr s true x
    let l ← r.expr s true low
    let h ← r.expr s true high
    return f ++ .text (" " ++ Keyword.render op ++ " ") :: l ++ .text " AND " :: h
  | .negation, [x] => do return after "NOT " (← r.expr s true x)
  | .distinct, _ => do return after "DISTINCT " (commas (← operands r s args))
  | .filter, [call, test] => do
    let f ← r.expr s false call
    return f ++ between " FILTER (WHERE " ")" (← r.expr s false test)
  | .composite, _ => do return parens (← list r s args)
  | .array, _ => array r s op args
  | .nest, [v] => nest r s v
  | .raw, [v] => splice r s v
  | .raw, _ => do return (← args.mapM (splicePart r s)).flatten
  | .inlined, _ => do return joined " " (← args.mapM (inlinedArgument r s))
  | .param, [name] => boundParam s name
  | .lift, [v] => bind s v
  | .lateral, [v] => do return after "LATERAL " (← subquery r s false v)
  | .windowed, [call] => windowed r s call .null
  | .windowed, [call, spec] => windowed r s call spec
  | .interval, [] => fail .noQuantity
  | .interval, v :: units => interval r s v units
  | .entity, [name] => words (quotedEntity s name)
  | .aliasName, [name] => words (aliasName s name)
  | .field, v :: first :: rest => do
    let f ← r.expr s false v
    return parens f ++ [.text (← fieldPath s (first :: rest))]
  | .field, _ => fail .noField
  | .atTimeZone, [v, z] => do
    let f ← r.expr s true v
    return f ++ .text " AT TIME ZONE " :: (← zone r s z)
  | .exists, [v] => do return after "EXISTS " (← subquery r s true v)
  | .subscript, [v, index] => subscript r s v index
  | .extract, [field, v] => extract r s field v
  | .default, [] => pure (ofText "DEFAULT")
  | .cast, _ | .filter, _ | .atTimeZone, _ | .subscript, _ | .extract, _ =>
    argumentFault op args [2]
  | .between, _ => argumentFault op args [3]
  | .negation, _ | .nest, _ | .param, _ | .lift, _ | .lateral, _ | .entity, _ | .aliasName, _
  | .exists, _ => argumentFault op args [1]
  | .windowed, _ => argumentFault op args [1, 2]
  | .default, _ => argumentFault op args [0]

end SqlTree.Render

import SqlTree.Syntax.Parser.Primary

/-!
Parsers of expressions, level by level from the strongest binding to the weakest. A level is given
by what may follow its first operand, so that an operand that has been read already can be gone on
from.
-/

namespace SqlTree.Syntax.Parser

open Syntax.Tree (ofList ofOption)

variable (p : Nested)

def typecastOrIndex (e : Expr) : Parser (Option Expr) := do
  if ← takeSymbol "::" then return some (.typecast e (← typeName true))
  if ← takeSymbol "[" then
    let index ← p.expr
    symbol "]"
    return some (.subscript e index)
  return none

def postfixFrom (e : Expr) : Parser Expr := iterate (typecastOrIndex p) e

/-- The sign of a minus or plus in front of an operand. -/
def sign? : Option Token → Option (Expr → Expr)
  | some (.symbol "-") => some .negate
  | some (.symbol "+") => some .plus
  | _ => none

/-- The operators that one level takes, out of the next token. -/
def operatorIn (signs : List String) : Option Token → Option String
  | some (.symbol t) => if signs.contains t then some t else none
  | _ => none

def anyOperator : Option Token → Option String
  | some (.operator t) => some t
  | _ => none

/-- Operators of one level with operands of the next, grouped to the left. -/
def binaryFrom (op? : Option Token → Option String) (operand : Parser Expr) (e : Expr) :
    Parser Expr :=
  iterate (fun left => do
    match op? (← peek) with
    | none => return none
    | some op =>
      skip
      return some (.binary op left (← operand))) e

/-- The constructors of signs, outermost first. -/
def signs : Parser (List (Expr → Expr)) :=
  iterate (fun done => do
    match sign? (← peek) with
    | none => return none
    | some f =>
      skip
      return some (done ++ [f])) []

/-- An operand with its signs and all that binds stronger than a sign. -/
def unary : Parser Expr := do
  let fs ← signs
  let e ← postfixFrom p (← primary p)
  return fs.foldr (fun f x => f x) e

def zoneFrom (operand : Parser Expr) (e : Expr) : Parser Expr :=
  iterate (fun left => do
    if ← takeKeyword "at" then
      timeZone
      return some (.atTimeZone left (← operand))
    return none) e

def zoneLevel : Parser Expr := do zoneFrom (unary p) (← unary p)

def powerFrom : Expr → Parser Expr := binaryFrom (operatorIn ["^"]) (zoneLevel p)

def powerLevel : Parser Expr := do powerFrom p (← zoneLevel p)

def productFrom : Expr → Parser Expr :=
  binaryFrom (operatorIn ["*", "/", "%"]) (powerLevel p)

def productLevel : Parser Expr := do productFrom p (← powerLevel p)

def sumFrom : Expr → Parser Expr := binaryFrom (operatorIn ["+", "-"]) (productLevel p)

def sumLevel : Parser Expr := do sumFrom p (← productLevel p)

def otherFrom : Expr → Parser Expr := binaryFrom anyOperator (sumLevel p)

def otherLevel : Parser Expr := do otherFrom p (← sumLevel p)

def betweenBounds (negated : Bool) (e : Expr) : Parser Expr := do
  let low ← otherLevel p
  keyword "and"
  return .between negated e low (← otherLevel p)

/-- A membership test. A query is preferred to an expression. -/
def membership (negated : Bool) (e : Expr) : Parser Expr := do
  symbol "("
  match ← p.group with
  | .query q =>
    symbol ")"
    return .inQuery negated e q
  | .either q first =>
    if ← takeSymbol ")" then return .inQuery negated e q
    let items ← more "," p.expr [first]
    symbol ")"
    return .inList negated e (ofList items)
  | .expr first =>
    let items ← more "," p.expr [first]
    symbol ")"
    return .inList negated e (ofList items)

/-- The predicate that the next token starts, on the operand before it. -/
def predicate? (negated : Bool) (e : Expr) : Parser (Option Expr) := do
  if ← takeKeyword "between" then return some (← betweenBounds p negated e)
  if ← takeKeyword "in" then return some (← membership p negated e)
  if ← takeKeyword "like" then return some (.predicate negated .like e (← otherLevel p))
  if ← takeKeyword "ilike" then return some (.predicate negated .ilike e (← otherLevel p))
  if ← takeKeyword "similar" then
    keyword "to"
    return some (.predicate negated .similarTo e (← otherLevel p))
  return none

def predicateFrom (e : Expr) : Parser Expr := do
  if ← takeKeyword "not" then
    match ← predicate? p true e with
    | some e => return e
    | none => unexpected
  return (← predicate? p false e).getD e

def predicateLevel : Parser Expr := do predicateFrom p (← otherLevel p)

def comparisonFrom (e : Expr) : Parser Expr := do
  match operatorIn ["=", "<>", "!=", "<=", ">=", "<", ">"] (← peek) with
  | none => return e
  | some op =>
    skip
    return .comparison op e (← predicateLevel p)

def comparisonLevel : Parser Expr := do comparisonFrom p (← predicateLevel p)

/-- What follows `is`. -/
def isTest (e : Expr) : Parser Expr := do
  let negated ← takeKeyword "not"
  if ← takeKeyword "null" then return .test negated .isNull e
  if ← takeKeyword "true" then return .test negated .isTrue e
  if ← takeKeyword "false" then return .test negated .isFalse e
  keywords ["distinct", "from"]
  return .predicate negated .distinctFrom e (← comparisonLevel p)

def testFrom (e : Expr) : Parser Expr :=
  iterate (fun left => do
    if ← takeKeyword "is" then return some (← isTest p left)
    if ← takeKeyword "isnull" then return some (.test false .isNull left)
    if ← takeKeyword "notnull" then return some (.test true .isNull left)
    return none) e

def testLevel : Parser Expr := do testFrom p (← comparisonLevel p)

/-- How many times a negation is written. -/
def negations : Parser Nat :=
  iterate (fun n => do
    if ← takeKeyword "not" then return some (n + 1)
    return none) 0

def notLevel : Parser Expr := do
  let n ← negations
  return Nat.repeat Tree.not n (← testLevel p)

def connectedFrom (word : String) (op : Connective) (operand : Parser Expr) (e : Expr) :
    Parser Expr :=
  iterate (fun left => do
    if ← takeKeyword word then return some (.connected op left (← operand))
    return none) e

def andFrom : Expr → Parser Expr := connectedFrom "and" .and (notLevel p)

def andLevel : Parser Expr := do andFrom p (← notLevel p)

def orFrom : Expr → Parser Expr := connectedFrom "or" .or (andLevel p)

def expression : Parser Expr := do orFrom p (← andLevel p)

/-- Goes on from an operand without signs. -/
def expressionFrom (e : Expr) : Parser Expr := do
  let e ← postfixFrom p e
  let e ← zoneFrom (unary p) e
  let e ← powerFrom p e
  let e ← productFrom p e
  let e ← sumFrom p e
  let e ← otherFrom p e
  let e ← predicateFrom p e
  let e ← comparisonFrom p e
  let e ← testFrom p e
  let e ← andFrom p e
  orFrom p e

end SqlTree.Syntax.Parser

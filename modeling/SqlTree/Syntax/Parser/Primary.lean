import SqlTree.Syntax.Parser.Name
import SqlTree.Text.Case

/-!
Parsers of primary expressions: those that no operator at their edge can take apart. What stands
inside parentheses and the like is read by given parsers.
-/

namespace SqlTree.Syntax

/-- What parentheses may hold where both an expression and a query may stand. -/
inductive Group where
  /-- A query that is not in parentheses itself. -/
  | query (q : Query)
  /-- A query in parentheses, which is an expression as well. -/
  | either (q : Query) (e : Expr)
  | expr (e : Expr)

/-- The parsers that read what is nested. Each is called behind a token that was taken. -/
structure Nested where
  expr : Parser Expr
  /-- Goes on from an operand that was read. -/
  rest : Expr → Parser Expr
  query : Parser Query
  statement : Parser Statement
  /-- What stands between parentheses, up to a comma or the closing one. -/
  group : Parser Group

namespace Parser

open Syntax.Tree (ofList ofOption)

variable (p : Nested)

def exprs : Parser (List Expr) := commas p.expr

def exprList : Parser (Tree (.list .expr)) := do return ofList (← exprs p)

section Calls

/-- `descending` and the order of nulls. -/
def orderItem : Parser (Tree .orderItem) := do
  let e ← p.expr
  let descending ← takeKeyword "desc"
  if !descending then let _ ← takeKeyword "asc"
  if ← takeKeyword "nulls" then
    if ← takeKeyword "first" then return .orderItem e descending (some .first)
    keyword "last"
    return .orderItem e descending (some .last)
  return .orderItem e descending none

def orderClause : Parser (Option (List (Tree .orderItem))) :=
  optional "order" do
    keyword "by"
    commas (orderItem p)

def frameBound : Parser Unit := do
  if ← takeKeyword "unbounded" then
    if !(← takeKeyword "preceding") then keyword "following"
  else if ← takeKeyword "current" then keyword "row"
  else
    let _ ← p.expr
    if !(← takeKeyword "preceding") then keyword "following"

def frame : Parser Unit := do
  if !(← takeKeyword "rows") then keyword "range"
  if ← takeKeyword "between" then
    frameBound p
    keyword "and"
    frameBound p
  else frameBound p

def frameText : Parser (Option String) := do
  let t ← peek
  if isKeyword "rows" t || isKeyword "range" t then return some (← spanned (frame p)).2
  return none

def windowSpec : Parser (Tree .window) := do
  let partition ← optional "partition" do
    keyword "by"
    exprs p
  let order ← orderClause p
  return .windowSpec (ofList (partition.getD [])) (ofList (order.getD [])) (← frameText p)

def window : Parser (Tree .window) := do
  if ← atSymbol "(" then parens (windowSpec p) else return .windowNamed (← name)

def filter : Parser Expr := parens do
  keyword "where"
  p.expr

/-- The arguments of a call, and whether they are put in order. -/
structure CallArguments where
  marks : Arguments
  items : List Expr
  ordered : Bool

/-- Arguments from the first one on, then perhaps an order. -/
def argumentsFrom (marks : Arguments) (first : Expr) : Parser CallArguments := do
  let items ← more "," p.expr [first]
  return ⟨marks, items, (← orderClause p).isSome⟩

/-- What follows an expression in parentheses: further items of a row, or a field. -/
def closeGroup (e : Expr) : Parser Expr := do
  if ← takeSymbol "," then
    let rest ← exprList p
    symbol ")"
    return .rowOf (.present e) rest
  symbol ")"
  if ← takeSymbol "." then return .field e (← name)
  return .paren e

end Calls

section Primary

/-- Which of two readings follows `ALL (` at the start of arguments: with a row or a field behind
it the word marks the arguments, else it quantifies. -/
def allArguments : Parser CallArguments := do
  symbol "("
  match ← p.group with
  | .query q =>
    symbol ")"
    argumentsFrom p .all (← p.rest (.quantifiedQuery .all q))
  | .either q e =>
    match ← closeGroup p e with
    | .paren _ => argumentsFrom p .all (← p.rest (.quantifiedQuery .all q))
    | e => argumentsFrom p .all (← p.rest e)
  | .expr e =>
    match ← closeGroup p e with
    | .paren e => argumentsFrom p .all (← p.rest (.quantified .all e))
    | e => argumentsFrom p .all (← p.rest e)

/-- What stands between the parentheses of a call. -/
def arguments : Parser CallArguments := do
  if ← atSymbol ")" then return ⟨.all, [], false⟩
  if ← takeSymbol "*" then return ⟨.star, [], false⟩
  if ← takeKeyword "distinct" then return ← argumentsFrom p .distinct (← p.expr)
  if ← takeKeyword "all" then
    if ← atSymbol "(" then return ← allArguments p
    return ← argumentsFrom p .all (← p.expr)
  argumentsFrom p .all (← p.expr)

/-- A call from its opening parenthesis on. -/
def callRest (head : Path) : Parser (CallArguments × Expr) := do
  let args ← parens (arguments p)
  let filter ← optional "filter" (filter p)
  let window ← optional "over" (window p)
  return (args, .call (head.map fun n => Text.lower n.text) args.marks (ofList args.items)
    (ofOption filter) (ofOption window))

/-- What no path of names starts with, but a call does. -/
def isCallWord (t : Option Token) : Bool := isKeyword "left" t || isKeyword "right" t

def isCallStart (t : Option Token) : Bool := isName t || isCallWord t

def callWord : Parser Name := do
  match ← peek with
  | some (.keyword w t) =>
    if w = "left" || w = "right" then
      skip
      return ⟨t, false⟩
    name
  | _ => name

/-- What stands before the arguments of a call: one name or two. -/
def callHead : Parser Path := do
  let first ← callWord
  if ← takeSymbol "." then return [first, ← name]
  return [first]

/-- A call of what was read since `start`. It is kept as text if its arguments are put in order. -/
def callFrom (start : List Lexeme) (head : Path) : Parser Expr := do
  let (args, e) ← callRest p head
  if args.ordered then
    return .verbatim (Lexeme.span (start.take (start.length - (← get).length)))
  return e

def call : Parser Expr := do
  let start ← get
  callFrom p start (← callHead)

/-- A call, or what becomes of a path that is not called. -/
def callOrPath {α : Type} (called : Expr → Parser α) (other : Path → Parser α) : Parser α := do
  if isCallWord (← peek) then called (← call p)
  else
    let start ← get
    let head ← path
    if head.length ≤ 2 && (← atSymbol "(") then called (← callFrom p start head)
    else other head

def branch : Parser (Tree .branch) := do
  keyword "when"
  let test ← p.expr
  keyword "then"
  return .branch test (← p.expr)

def caseRest : Parser (Tree (.list .branch) × Tree (.option .expr)) := do
  let first ← branch p
  let branches ← iterate (fun done => do
    if ← atKeyword "when" then return some (done ++ [← branch p])
    return none) [first]
  let otherwise ← optional "else" p.expr
  keyword "end"
  return (ofList branches, ofOption otherwise)

def caseOf : Parser Expr := do
  if ← atKeyword "when" then
    let (branches, otherwise) ← caseRest p
    return .cases branches otherwise
  let subject ← p.expr
  let (branches, otherwise) ← caseRest p
  return .caseOf subject branches otherwise

/-- What stands in the parentheses of a quantifier. -/
def quantified (q : Quantifier) : Parser Expr := parens do
  match ← p.group with
  | .query query | .either query _ => return .quantifiedQuery q query
  | .expr e => return .quantified q e

def arrayRest : Parser Expr := do
  if ← takeSymbol "[" then
    if ← takeSymbol "]" then return .array .nil
    let items ← exprList p
    symbol "]"
    return .array items
  return .arrayOf (← parens p.query)

def rowRest : Parser Expr := parens do
  if ← atSymbol ")" then return .rowOf .absent .nil
  return .rowOf .absent (← exprList p)

def castRest : Parser Expr := parens do
  let e ← p.expr
  keyword "as"
  return .cast e (← typeName false)

def extractRest : Parser Expr := parens do
  let field ← name
  keyword "from"
  return .extract field (← p.expr)

/-- A primary expression in parentheses. -/
def parenthesised : Parser Expr := do
  match ← p.group with
  | .query q =>
    symbol ")"
    return .subquery q
  | .either _ e | .expr e => closeGroup p e

/-- The literal prefixes whose text is kept. -/
def keptPrefixes : List String := ["b", "x", "u"]

def typedLiteral (word quoted : String) : Parser Expr := do
  let ((), sql) ← spanned do
    skip
    skip
  let type := Text.lower word
  return if keptPrefixes.contains type then .verbatim sql else .typed type quoted

/-- The typed literal that the next two tokens are. -/
def typedLiteral? : Parser (Option Expr) := do
  match (← peek).bind typeWord?, ← peekSecond with
  | some word, some (.string quoted) => return some (← typedLiteral word quoted)
  | _, _ => return none

/-- An expression that starts with a name. -/
def named : Parser Expr := do
  match ← typedLiteral? with
  | some e => return e
  | none => callOrPath p pure fun path => pure (.column path)

/-- An expression that starts with a keyword. -/
def worded (word : String) : Parser Expr := do
  match word with
  | "true" => return .boolean true
  | "false" => return .boolean false
  | "null" => return .null
  | "default" => return .default
  | "case" => caseOf p
  | "row" => rowRest p
  | "exists" => return .exists (← parens p.query)
  | "array" => arrayRest p
  | "cast" => castRest p
  | "extract" => extractRest p
  | "all" => quantified p .all
  | _ => quantified p .any

def exprWords : List String :=
  ["true", "false", "null", "default", "case", "row", "exists", "array", "cast", "extract", "all",
   "any"]

def primary : Parser Expr := do
  match ← peek with
  | some (.number t) =>
    skip
    return .number t
  | some (.string t) =>
    skip
    return .string t
  | some (.param t) =>
    skip
    return .param t
  | some (.symbol "(") =>
    skip
    parenthesised p
  | some (.keyword word text) =>
    if exprWords.contains word then
      skip
      worded p word
    else if isCallStart (some (.keyword word text)) then named p
    else unexpected
  | some t => if isName (some t) then named p else unexpected
  | none => unexpected

end Primary

end Parser

end SqlTree.Syntax

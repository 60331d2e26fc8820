import SqlTree.Syntax.Parser.Expression

/-!
Parsers of queries: common table expressions, set operations, `SELECT` and what follows it.
-/

namespace SqlTree.Syntax.Parser

open Syntax.Tree (ofList ofOption)

variable (p : Nested)

section Select

/-- A path and then `.*` are next. -/
def startsStar : List Lexeme → Bool
  | ⟨_, t⟩ :: ⟨_, .symbol "."⟩ :: next :: rest =>
    isName (some t) && (next.token == .symbol "*" || startsStar (next :: rest))
  | _ => false

/-- A path that ends in `.*`. -/
def starredPath : Parser Path := do
  let first ← name
  iterate (fun done => do
    symbol "."
    if ← takeSymbol "*" then return none
    return some (done ++ [← name])) [first]

def selectItem : Parser (Tree .selectItem) := do
  if ← takeSymbol "*" then return .star
  if startsStar (← get) then
    let (path, sql) ← spanned starredPath
    return .tableStar path sql
  let e ← expression p
  match ← aliasName with
  | some name => return .aliased e name
  | none => return .item e

def selectItems : Parser (List (Tree .selectItem)) := commas (selectItem p)

/-- What stands between `select` and its items. `all` in this place is always a quantifier. -/
def distinct : Parser (Option (Tree .distinct)) := do
  if ← takeKeyword "distinct" then
    if ← takeKeyword "on" then return some (.distinctOn (ofList (← parens (commas p.expr))))
    return some .distinctAll
  let _ ← takeKeyword "all"
  return none

end Select

section Tables

def parenQuery : Parser Query := parens p.query

/-- A table that starts with a call or a path. -/
def namedTable : Parser (Tree .table) := do
  callOrPath p (fun e => return .tableCall e (← aliasName))
    (fun path => return .relation path (← aliasName))

def lateralTable : Parser (Tree .table) := do
  if ← atSymbol "(" then
    let q ← parenQuery p
    return .lateral q (← aliasName)
  let e ← call p
  return .lateralCall e (← aliasName)

def table : Parser (Tree .table) := do
  if ← atSymbol "(" then
    let q ← parenQuery p
    return .derived q (← aliasName)
  if ← takeKeyword "lateral" then lateralTable p else namedTable p

def joinTest : Parser (Tree .joinTest) := do
  if ← takeKeyword "on" then return .joinOn (← p.expr)
  keyword "using"
  return .joinUsing (← nameList)

def outerJoin (kind : JoinKind) : Parser (Tree .join) := do
  let _ ← takeKeyword "outer"
  keyword "join"
  let t ← table p
  return .join kind t (.present (← joinTest p))

def join : Parser (Option (Tree .join)) := do
  if ← takeKeyword "left" then return some (← outerJoin p .left)
  if ← takeKeyword "right" then return some (← outerJoin p .right)
  if ← takeKeyword "full" then return some (← outerJoin p .full)
  if ← takeKeyword "cross" then
    keyword "join"
    return some (.join .cross (← table p) .absent)
  let inner ← takeKeyword "inner"
  if inner || (← atKeyword "join") then
    keyword "join"
    let t ← table p
    return some (.join .inner t (.present (← joinTest p)))
  return none

def source : Parser (Tree .source) := do
  let first ← table p
  let joins ← iterate (fun done => do
    match ← join p with
    | some j => return some (done ++ [j])
    | none => return none) []
  return .source first (ofList joins)

def fromClause : Parser (Option (List (Tree .source))) := optional "from" (commas (source p))

def whereClause : Parser (Option Expr) := optional "where" p.expr

end Tables

/-- The rest of a `SELECT` after its keyword. -/
def select : Parser (Tree .select) := do
  let distinct ← distinct p
  let items ← selectItems p
  let sources ← fromClause p
  let condition ← whereClause p
  let groups ← optional "group" do
    keyword "by"
    exprs p
  let having ← optional "having" p.expr
  return .select (ofOption distinct) (ofList items) (ofList (sources.getD [])) (ofOption condition)
    (ofList (groups.getD [])) (ofOption having)

section Body

def bodyPrimary : Parser (Tree .body) := do
  if ← takeKeyword "select" then return .selectBody (← select p)
  return .nested (← parenQuery p)

def intersectionFrom (b : Tree .body) : Parser (Tree .body) :=
  iterate (fun left => do
    if ← takeKeyword "intersect" then return some (.operation .intersect left (← bodyPrimary p))
    return none) b

def bodyTerm : Parser (Tree .body) := do intersectionFrom p (← bodyPrimary p)

/-- The operator of a union or difference. -/
def setOperator : Parser (Option SetOperator) := do
  if ← takeKeyword "union" then
    if ← takeKeyword "all" then return some .unionAll
    let _ ← takeKeyword "distinct"
    return some .union
  if ← takeKeyword "except" then
    if ← takeKeyword "all" then return some .exceptAll
    return some .except
  return none

def bodyFrom (b : Tree .body) : Parser (Tree .body) := do
  iterate (fun left => do
    match ← setOperator with
    | some op => return some (.operation op left (← bodyTerm p))
    | none => return none) (← intersectionFrom p b)

end Body

section Tail

/-- The rest of `LIMIT`. Before a parenthesis `all` is part of an expression. -/
def limitRest : Parser (Tree .limit) := do
  if (← atKeyword "all") && !isSymbol "(" (← peekSecond) then
    skip
    return .limitAll
  return .limit (← p.expr)

def offsetRest : Parser (Tree .limit) := do
  let e ← p.expr
  if !(← takeKeyword "row") then let _ ← takeKeyword "rows"
  return .offset e

/-- The rest of `FETCH`. `row` and `rows` may start the number of rows or end the clause. -/
def fetchRest : Parser (Tree .limit) := do
  if !(← takeKeyword "first") then keyword "next"
  let next ← peek
  let second ← peekSecond
  let bare := (isKeyword "row" next && !isSymbol "(" second) ||
    (isKeyword "rows" next && isKeyword "only" second)
  let number ← if bare then pure none else some <$> p.expr
  if !(← takeKeyword "row") then keyword "rows"
  keyword "only"
  return .fetch (ofOption number)

def limits : Parser (List (Tree .limit)) := do
  if ← takeKeyword "limit" then
    let limit ← limitRest p
    return limit :: (← optional "offset" (offsetRest p)).toList
  if ← takeKeyword "offset" then
    let offset ← offsetRest p
    if ← takeKeyword "limit" then return [offset, ← limitRest p]
    return offset :: (← optional "fetch" (fetchRest p)).toList
  return (← optional "fetch" (fetchRest p)).toList

def lockStrength : Parser LockStrength := do
  if ← takeKeyword "update" then return .update
  if ← takeKeyword "share" then return .share
  if ← takeKeyword "no" then
    keywords ["key", "update"]
    return .noKeyUpdate
  keywords ["key", "share"]
  return .keyShare

def lockWait : Parser (Option LockWait) := do
  if ← takeKeyword "nowait" then return some .nowait
  if ← takeKeyword "skip" then
    keyword "locked"
    return some .skipLocked
  return none

def lock : Parser (Option Lock) := optional "for" do
  let strength ← lockStrength
  return ⟨strength, ← lockWait⟩

end Tail

section Query

def cte : Parser (Tree .cte) := do
  let name ← name
  let columns ← if ← atSymbol "(" then nameList else pure []
  keyword "as"
  return .cte name columns (← parens p.statement)

def ctes : Parser (Option (Tree .ctes)) := optional "with" do
  let recursively ← takeKeyword "recursive"
  return .ctes recursively (ofList (← commas (cte p)))

/-- Goes on from the start of a query's body. -/
def queryFrom (ctes : Option (Tree .ctes)) (b : Tree .body) : Parser Query := do
  let body ← bodyFrom p b
  let order ← orderClause p
  let limits ← limits p
  return .query (ofOption ctes) body (ofList (order.getD [])) (ofList limits) (← lock)

def queryRest (ctes : Option (Tree .ctes)) : Parser Query := do
  queryFrom p ctes (← bodyPrimary p)

def query : Parser Query := do queryRest p (← ctes p)

end Query

section Group

/-- What makes a query of a query in parentheses before it. -/
def queryWords : List String :=
  ["union", "except", "intersect", "order", "limit", "offset", "fetch", "for"]

/-- Goes on from a query in parentheses, which is an expression as well. -/
def groupFrom (q : Query) (e : Expr) : Parser Group := do
  match ← peek with
  | some (.symbol ")") | some (.symbol ",") => return .either (nestedQuery q) e
  | some (.keyword word _) =>
    if queryWords.contains word then return .query (← queryFrom p none (.nested q))
    return .expr (← expressionFrom p e)
  | _ => return .expr (← expressionFrom p e)
where
  nestedQuery (q : Query) : Query := .query .absent (.nested q) .nil .nil none

/-- What may be an expression or a query. -/
def group : Parser Group := do
  let next ← peek
  if isKeyword "select" next || isKeyword "with" next then return .query (← query p)
  if ← takeSymbol "(" then
    match ← p.group with
    | .query q =>
      symbol ")"
      groupFrom p q (.subquery q)
    | .either q e =>
      match ← closeGroup p e with
      | .paren e => groupFrom p q (.paren e)
      | e => return .expr (← expressionFrom p e)
    | .expr e => return .expr (← expressionFrom p (← closeGroup p e))
  else return .expr (← expression p)

end Group

end SqlTree.Syntax.Parser

import SqlTree.Token.Basic

/-!
The grammar of SQL text: its terminals, its rules and what they derive. Right sides are written with
options, repetitions and alternatives, and may be recursive on the left.
-/

namespace SqlTree.Grammar

/-- The terminals: words, signs and classes of tokens. -/
inductive Terminal where
  | ADD | ALL | ALTER | AND | ANY | ARRAY | AS | ASC | AT | BETWEEN | BY | CASE | CAST | COLUMN
  | CONFLICT | CONSTRAINT | CREATE | CROSS | CURRENT | DEFAULT | DELETE | DESC | DISTINCT | DO
  | DROP | ELSE | END | EXCEPT | EXISTS | EXTRACT | FALSE | FETCH | FILTER | FIRST | FOLLOWING
  | FOR | FROM | FULL | GROUP | HAVING | IF | ILIKE | IN | INNER | INSERT | INTERSECT | INTO | IS
  | ISNULL | JOIN | KEY | LAST | LATERAL | LEFT | LIKE | LIMIT | LOCKED | NEXT | NO | NOT
  | NOTHING | NOTNULL | NOWAIT | NULL | NULLS | OFFSET | ON | ONLY | OR | ORDER | OUTER | OVER
  | PARTITION | PRECEDING | PRECISION | PRIMARY | RANGE | RECURSIVE | RETURNING | RIGHT | ROW
  | ROWS | SELECT | SET | SHARE | SIMILAR | SKIP | TABLE | THEN | TIME | TO | TRUE | TRUNCATE
  | UNBOUNDED | UNION | UNIQUE | UPDATE | USING | VALUES | VARYING | WHEN | WHERE | WITH | WITHOUT
  | ZONE
  | SEMI | COMMA | DOT | LPAR | RPAR | LSQB | RSQB | TYPECAST | EQ | NEQ | LTE | GTE | LT | GT
  | PLUS | MINUS | STAR | SLASH | PERCENT | CARET
  | NAME | QUOTED_NAME | STRING | NUMBER | PARAM | OTHER_OP
deriving DecidableEq

namespace Terminal

/-- The keyword that a terminal stands for. Its case does not matter in a text. -/
def word? : Terminal → Option String
  | .ADD => some "add" | .ALL => some "all" | .ALTER => some "alter" | .AND => some "and"
  | .ANY => some "any" | .ARRAY => some "array" | .AS => some "as" | .ASC => some "asc"
  | .AT => some "at" | .BETWEEN => some "between" | .BY => some "by" | .CASE => some "case"
  | .CAST => some "cast" | .COLUMN => some "column" | .CONFLICT => some "conflict"
  | .CONSTRAINT => some "constraint" | .CREATE => some "create" | .CROSS => some "cross"
  | .CURRENT => some "current" | .DEFAULT => some "default" | .DELETE => some "delete"
  | .DESC => some "desc" | .DISTINCT => some "distinct" | .DO => some "do" | .DROP => some "drop"
  | .ELSE => some "else" | .END => some "end" | .EXCEPT => some "except"
  | .EXISTS => some "exists" | .EXTRACT => some "extract" | .FALSE => some "false"
  | .FETCH => some "fetch" | .FILTER => some "filter" | .FIRST => some "first"
  | .FOLLOWING => some "following" | .FOR => some "for" | .FROM => some "from"
  | .FULL => some "full" | .GROUP => some "group" | .HAVING => some "having" | .IF => some "if"
  | .ILIKE => some "ilike" | .IN => some "in" | .INNER => some "inner" | .INSERT => some "insert"
  | .INTERSECT => some "intersect" | .INTO => some "into" | .IS => some "is"
  | .ISNULL => some "isnull" | .JOIN => some "join" | .KEY => some "key" | .LAST => some "last"
  | .LATERAL => some "lateral" | .LEFT => some "left" | .LIKE => some "like"
  | .LIMIT => some "limit" | .LOCKED => some "locked" | .NEXT => some "next" | .NO => some "no"
  | .NOT => some "not" | .NOTHING => some "nothing" | .NOTNULL => some "notnull"
  | .NOWAIT => some "nowait" | .NULL => some "null" | .NULLS => some "nulls"
  | .OFFSET => some "offset" | .ON => some "on" | .ONLY => some "only" | .OR => some "or"
  | .ORDER => some "order" | .OUTER => some "outer" | .OVER => some "over"
  | .PARTITION => some "partition" | .PRECEDING => some "preceding"
  | .PRECISION => some "precision" | .PRIMARY => some "primary" | .RANGE => some "range"
  | .RECURSIVE => some "recursive" | .RETURNING => some "returning" | .RIGHT => some "right"
  | .ROW => some "row" | .ROWS => some "rows" | .SELECT => some "select" | .SET => some "set"
  | .SHARE => some "share" | .SIMILAR => some "similar" | .SKIP => some "skip"
  | .TABLE => some "table" | .THEN => some "then" | .TIME => some "time" | .TO => some "to"
  | .TRUE => some "true" | .TRUNCATE => some "truncate" | .UNBOUNDED => some "unbounded"
  | .UNION => some "union" | .UNIQUE => some "unique" | .UPDATE => some "update"
  | .USING => some "using" | .VALUES => some "values" | .VARYING => some "varying"
  | .WHEN => some "when" | .WHERE => some "where" | .WITH => some "with"
  | .WITHOUT => some "without" | .ZONE => some "zone"
  | _ => none

/-- The signs that a terminal stands for. -/
def signs : Terminal → List String
  | .SEMI => [";"] | .COMMA => [","] | .DOT => ["."] | .LPAR => ["("] | .RPAR => [")"]
  | .LSQB => ["["] | .RSQB => ["]"] | .TYPECAST => ["::"] | .EQ => ["="] | .NEQ => ["<>", "!="]
  | .LTE => ["<="] | .GTE => [">="] | .LT => ["<"] | .GT => [">"] | .PLUS => ["+"]
  | .MINUS => ["-"] | .STAR => ["*"] | .SLASH => ["/"] | .PERCENT => ["%"] | .CARET => ["^"]
  | _ => []

def Matches (c : Terminal) : Token → Prop
  | .keyword w _ => c.word? = some w
  | .symbol s => s ∈ c.signs
  | .name _ => c = NAME
  | .quotedName _ => c = QUOTED_NAME
  | .string _ => c = STRING
  | .number _ => c = NUMBER
  | .param _ => c = PARAM
  | .operator _ => c = OTHER_OP

end Terminal

inductive Rule where
  | start | stmt
  | query | limitOffset | setExpr | setTerm | setPrimary | selectCore | distinctSpec | selectList
  | selectItem
  | withClause | cte | cteColumns | cteBody | fromClause | fromItem | tableRef | relationRef
  | subqueryRef | lateralRef
  | functionRef | aliasClause | joinPart | joinCondition | whereClause | groupClause
  | havingClause | orderClause
  | orderItem | orderDirection | nullsOrder | limitPart | offsetPart | fetchPart | forClause
  | lockStrength | lockWait
  | insertStmt | insertAlias | insertColumns | insertSource | valuesRow | onConflict
  | conflictTarget
  | conflictAction | returningClause | updateStmt | setList | setItem | deleteStmt | usingClause
  | createTableStmt | ifNotExists | columnDef | columnConstraint | dropTableStmt | ifExists
  | truncateStmt
  | alterTableStmt | alterAction
  | expr | orExpr | andExpr | notExpr | isExpr | cmpExpr | compOp | predExpr | inSource
  | otherExpr | addExpr | mulExpr
  | expExpr | atExpr | unaryExpr | postfixExpr | primary | literal | columnRef | funcCall
  | funcName | funcArgs | aggOrder
  | filterClause | overClause | windowSpec | partitionClause | frameClause | frameExtent
  | frameBound | caseExpr
  | whenClause | elseClause | exprList | identList | qualifiedName | typeName | typeBase
  | typeModifier | arrayBounds
  | ident | unreservedKeyword
deriving DecidableEq

/-- The right side of a rule. -/
inductive Rhs where
  | void
  | empty
  | token (c : Terminal)
  | rule (r : Rule)
  | seq (x y : Rhs)
  | alt (x y : Rhs)
  | star (x : Rhs)

instance : Coe Terminal Rhs := ⟨.token⟩

instance : Coe Rule Rhs := ⟨.rule⟩

namespace Rhs

def seqs : List Rhs → Rhs := List.foldr seq empty

def alts : List Rhs → Rhs := List.foldr alt void

def opt (x : Rhs) : Rhs := alt x empty

def plus (x : Rhs) : Rhs := seq x (star x)

/-- One or more, with commas between them. -/
def list (x : Rhs) : Rhs := seqs [x, star (seqs [token .COMMA, x])]

end Rhs

open Terminal Rule Rhs in
/-- The rules of the grammar. -/
def rhs : Rule → Rhs
  | .start => seqs [star SEMI, stmt, star (seqs [plus SEMI, stmt]), star SEMI]
  | .stmt => alts [
      query, insertStmt, updateStmt, deleteStmt, createTableStmt, dropTableStmt, truncateStmt,
      alterTableStmt]
  -- queries
  | .query => seqs [opt withClause, setExpr, opt orderClause, opt limitOffset, opt forClause]
  | .limitOffset => alts [
      seqs [limitPart, opt offsetPart], seqs [offsetPart, opt limitPart],
      seqs [opt offsetPart, fetchPart]]
  | .setExpr => alts [
      setTerm, seqs [setExpr, UNION, setTerm], seqs [setExpr, UNION, DISTINCT, setTerm],
      seqs [setExpr, UNION, ALL, setTerm], seqs [setExpr, EXCEPT, setTerm],
      seqs [setExpr, EXCEPT, ALL, setTerm]]
  | .setTerm => alts [setPrimary, seqs [setTerm, INTERSECT, setPrimary]]
  | .setPrimary => alts [selectCore, seqs [LPAR, query, RPAR]]
  | .selectCore =>
    seqs [SELECT, opt distinctSpec, selectList, opt fromClause, opt whereClause, opt groupClause,
      opt havingClause]
  | .distinctSpec => alts [DISTINCT, seqs [DISTINCT, ON, LPAR, exprList, RPAR], ALL]
  | .selectList => list selectItem
  | .selectItem => alts [STAR, seqs [qualifiedName, DOT, STAR], expr, seqs [expr, opt AS, ident]]
  | .withClause => alts [seqs [WITH, list cte], seqs [WITH, RECURSIVE, list cte]]
  | .cte => seqs [ident, opt cteColumns, AS, LPAR, cteBody, RPAR]
  | .cteColumns => seqs [LPAR, identList, RPAR]
  | .cteBody => alts [query, insertStmt, updateStmt, deleteStmt]
  | .fromClause => seqs [FROM, list fromItem]
  | .fromItem => seqs [tableRef, star joinPart]
  | .tableRef => alts [relationRef, subqueryRef, lateralRef, functionRef]
  | .relationRef => seqs [qualifiedName, opt aliasClause]
  | .subqueryRef => seqs [LPAR, query, RPAR, opt aliasClause]
  | .lateralRef => alts [
      seqs [LATERAL, LPAR, query, RPAR, opt aliasClause], seqs [LATERAL, funcCall, opt aliasClause]]
  | .functionRef => seqs [funcCall, opt aliasClause]
  | .aliasClause => seqs [opt AS, ident]
  | .joinPart => alts [
      seqs [opt INNER, JOIN, tableRef, joinCondition],
      seqs [LEFT, opt OUTER, JOIN, tableRef, joinCondition],
      seqs [RIGHT, opt OUTER, JOIN, tableRef, joinCondition],
      seqs [FULL, opt OUTER, JOIN, tableRef, joinCondition], seqs [CROSS, JOIN, tableRef]]
  | .joinCondition => alts [seqs [ON, expr], seqs [USING, LPAR, identList, RPAR]]
  | .whereClause => seqs [WHERE, expr]
  | .groupClause => seqs [GROUP, BY, exprList]
  | .havingClause => seqs [HAVING, expr]
  | .orderClause => seqs [ORDER, BY, list orderItem]
  | .orderItem => seqs [expr, opt orderDirection, opt nullsOrder]
  | .orderDirection => alts [ASC, DESC]
  | .nullsOrder => alts [seqs [NULLS, FIRST], seqs [NULLS, LAST]]
  | .limitPart => alts [seqs [LIMIT, expr], seqs [LIMIT, ALL]]
  | .offsetPart => seqs [OFFSET, expr, opt (alts [ROW, ROWS])]
  | .fetchPart => seqs [FETCH, alts [FIRST, NEXT], opt expr, alts [ROW, ROWS], ONLY]
  | .forClause => seqs [FOR, lockStrength, opt lockWait]
  | .lockStrength => alts [UPDATE, seqs [NO, KEY, UPDATE], SHARE, seqs [KEY, SHARE]]
  | .lockWait => alts [NOWAIT, seqs [SKIP, LOCKED]]
  -- changes of rows
  | .insertStmt =>
    seqs [opt withClause, INSERT, INTO, qualifiedName, opt insertAlias, opt insertColumns,
      insertSource, opt onConflict, opt returningClause]
  | .insertAlias => seqs [AS, ident]
  | .insertColumns => seqs [LPAR, identList, RPAR]
  | .insertSource => alts [seqs [VALUES, list valuesRow], query, seqs [DEFAULT, VALUES]]
  | .valuesRow => seqs [LPAR, exprList, RPAR]
  | .onConflict => seqs [ON, CONFLICT, opt conflictTarget, conflictAction]
  | .conflictTarget => alts [seqs [LPAR, exprList, RPAR], seqs [ON, CONSTRAINT, ident]]
  | .conflictAction => alts [seqs [DO, NOTHING], seqs [DO, UPDATE, SET, setList, opt whereClause]]
  | .returningClause => seqs [RETURNING, selectList]
  | .updateStmt =>
    seqs [opt withClause, UPDATE, qualifiedName, opt aliasClause, SET, setList, opt fromClause,
      opt whereClause, opt returningClause]
  | .setList => list setItem
  | .setItem => seqs [ident, EQ, expr]
  | .deleteStmt =>
    seqs [opt withClause, DELETE, FROM, qualifiedName, opt aliasClause, opt usingClause,
      opt whereClause, opt returningClause]
  | .usingClause => seqs [USING, list tableRef]
  -- changes of tables
  | .createTableStmt =>
    seqs [CREATE, TABLE, opt ifNotExists, qualifiedName, LPAR, list columnDef, RPAR]
  | .ifNotExists => seqs [IF, NOT, EXISTS]
  | .columnDef => seqs [ident, typeName, star columnConstraint]
  | .columnConstraint => alts [seqs [PRIMARY, KEY], seqs [NOT, NULL], NULL, UNIQUE]
  | .dropTableStmt => seqs [DROP, TABLE, opt ifExists, list qualifiedName]
  | .ifExists => seqs [IF, EXISTS]
  | .truncateStmt => seqs [TRUNCATE, opt TABLE, list qualifiedName]
  | .alterTableStmt => seqs [ALTER, TABLE, qualifiedName, list alterAction]
  | .alterAction => alts [seqs [ADD, opt COLUMN, columnDef], seqs [DROP, opt COLUMN, ident]]
  -- expressions
  | .expr => orExpr
  | .orExpr => alts [andExpr, seqs [orExpr, OR, andExpr]]
  | .andExpr => alts [notExpr, seqs [andExpr, AND, notExpr]]
  | .notExpr => alts [isExpr, seqs [NOT, notExpr]]
  | .isExpr => alts [
      cmpExpr, seqs [isExpr, IS, NULL], seqs [isExpr, ISNULL], seqs [isExpr, IS, NOT, NULL],
      seqs [isExpr, NOTNULL], seqs [isExpr, IS, TRUE], seqs [isExpr, IS, NOT, TRUE],
      seqs [isExpr, IS, FALSE], seqs [isExpr, IS, NOT, FALSE],
      seqs [isExpr, IS, DISTINCT, FROM, cmpExpr], seqs [isExpr, IS, NOT, DISTINCT, FROM, cmpExpr]]
  | .cmpExpr => alts [predExpr, seqs [predExpr, compOp, predExpr]]
  | .compOp => alts [EQ, NEQ, LTE, GTE, LT, GT]
  | .predExpr => alts [
      otherExpr, seqs [otherExpr, BETWEEN, otherExpr, AND, otherExpr],
      seqs [otherExpr, NOT, BETWEEN, otherExpr, AND, otherExpr], seqs [otherExpr, IN, inSource],
      seqs [otherExpr, NOT, IN, inSource], seqs [otherExpr, LIKE, otherExpr],
      seqs [otherExpr, NOT, LIKE, otherExpr], seqs [otherExpr, ILIKE, otherExpr],
      seqs [otherExpr, NOT, ILIKE, otherExpr], seqs [otherExpr, SIMILAR, TO, otherExpr],
      seqs [otherExpr, NOT, SIMILAR, TO, otherExpr]]
  | .inSource => alts [seqs [LPAR, query, RPAR], seqs [LPAR, exprList, RPAR]]
  | .otherExpr => alts [addExpr, seqs [otherExpr, OTHER_OP, addExpr]]
  | .addExpr => alts [mulExpr, seqs [addExpr, PLUS, mulExpr], seqs [addExpr, MINUS, mulExpr]]
  | .mulExpr => alts [
      expExpr, seqs [mulExpr, STAR, expExpr], seqs [mulExpr, SLASH, expExpr],
      seqs [mulExpr, PERCENT, expExpr]]
  | .expExpr => alts [atExpr, seqs [expExpr, CARET, atExpr]]
  | .atExpr => alts [unaryExpr, seqs [atExpr, AT, TIME, ZONE, unaryExpr]]
  | .unaryExpr => alts [postfixExpr, seqs [MINUS, unaryExpr], seqs [PLUS, unaryExpr]]
  | .postfixExpr => alts [
      primary, seqs [postfixExpr, TYPECAST, typeName], seqs [postfixExpr, LSQB, expr, RSQB]]
  | .primary => alts [
      literal, columnRef, funcCall, caseExpr, PARAM, seqs [LPAR, expr, RPAR],
      seqs [LPAR, expr, RPAR, DOT, ident], seqs [LPAR, expr, COMMA, exprList, RPAR],
      seqs [ROW, LPAR, opt exprList, RPAR], seqs [LPAR, query, RPAR],
      seqs [EXISTS, LPAR, query, RPAR], seqs [ARRAY, LSQB, opt exprList, RSQB],
      seqs [ARRAY, LPAR, query, RPAR], seqs [CAST, LPAR, expr, AS, typeName, RPAR],
      seqs [EXTRACT, LPAR, ident, FROM, expr, RPAR], seqs [ALL, LPAR, query, RPAR],
      seqs [ALL, LPAR, expr, RPAR], seqs [ANY, LPAR, query, RPAR], seqs [ANY, LPAR, expr, RPAR],
      DEFAULT]
  | .literal => alts [NUMBER, STRING, TRUE, FALSE, NULL, seqs [alts [NAME, TIME], STRING]]
  | .columnRef => seqs [ident, star (seqs [DOT, ident])]
  | .funcCall => seqs [funcName, LPAR, opt funcArgs, RPAR, opt filterClause, opt overClause]
  | .funcName => seqs [alts [ident, LEFT, RIGHT], opt (seqs [DOT, ident])]
  | .funcArgs => alts [
      STAR, seqs [exprList, opt aggOrder], seqs [ALL, exprList, opt aggOrder],
      seqs [DISTINCT, exprList, opt aggOrder]]
  | .aggOrder => orderClause
  | .filterClause => seqs [FILTER, LPAR, WHERE, expr, RPAR]
  | .overClause => alts [seqs [OVER, LPAR, windowSpec, RPAR], seqs [OVER, ident]]
  | .windowSpec => seqs [opt partitionClause, opt orderClause, opt frameClause]
  | .partitionClause => seqs [PARTITION, BY, exprList]
  | .frameClause => seqs [alts [ROWS, RANGE], frameExtent]
  | .frameExtent => alts [frameBound, seqs [BETWEEN, frameBound, AND, frameBound]]
  | .frameBound => alts [
      seqs [UNBOUNDED, PRECEDING], seqs [UNBOUNDED, FOLLOWING], seqs [CURRENT, ROW],
      seqs [expr, PRECEDING], seqs [expr, FOLLOWING]]
  | .caseExpr => alts [
      seqs [CASE, plus whenClause, opt elseClause, END],
      seqs [CASE, expr, plus whenClause, opt elseClause, END]]
  | .whenClause => seqs [WHEN, expr, THEN, expr]
  | .elseClause => seqs [ELSE, expr]
  | .exprList => list expr
  | .identList => list ident
  | .qualifiedName => seqs [ident, star (seqs [DOT, ident])]
  | .typeName => seqs [typeBase, opt typeModifier, star arrayBounds]
  | .typeBase => alts [
      seqs [alts [NAME, TIME], opt (seqs [DOT, NAME])], seqs [NAME, PRECISION],
      seqs [NAME, VARYING], seqs [alts [NAME, TIME], WITH, TIME, ZONE],
      seqs [alts [NAME, TIME], WITHOUT, TIME, ZONE]]
  | .typeModifier => seqs [LPAR, list NUMBER, RPAR]
  | .arrayBounds => seqs [LSQB, RSQB]
  | .ident => alts [NAME, QUOTED_NAME, unreservedKeyword]
  | .unreservedKeyword => alts [
      KEY, TIME, ZONE, FIRST, LAST, NULLS, ROWS, NEXT, ONLY, CONFLICT, NOTHING, DO]

theorem rhs_expr : rhs .expr = .rule .orExpr := by simp only [rhs]

/-- What the right sides derive: sequences of tokens. -/
inductive Derives : Rhs → List Token → Prop
  | empty : Derives .empty []
  | token {c : Terminal} {t : Token} : c.Matches t → Derives (.token c) [t]
  | rule {r : Rule} {ts : List Token} : Derives (rhs r) ts → Derives (.rule r) ts
  | seq {x y : Rhs} {ts us : List Token} : Derives x ts → Derives y us →
      Derives (.seq x y) (ts ++ us)
  | left {x y : Rhs} {ts : List Token} : Derives x ts → Derives (.alt x y) ts
  | right {x y : Rhs} {ts : List Token} : Derives y ts → Derives (.alt x y) ts
  | stop {x : Rhs} : Derives (.star x) []
  | more {x : Rhs} {ts us : List Token} : Derives x ts → Derives (.star x) us →
      Derives (.star x) (ts ++ us)

end SqlTree.Grammar

import SqlTree.Syntax.Tree

/-! Tests of all nodes of a syntax tree. -/

namespace SqlTree.Syntax.Tree

/-- The test holds of the tree and of all its parts; sequences and options are no parts. -/
def every (p : (k : Kind) → Tree k → Bool) : {k : Kind} → Tree k → Bool
  -- sequences and optional parts
  | _, .nil => true
  | _, .cons t ts => t.every p && ts.every p
  | _, .absent => true
  | _, .present t => t.every p
  -- expressions
  | _, .number digits => p _ (.number digits)
  | _, .string quoted => p _ (.string quoted)
  | _, .boolean b => p _ (.boolean b)
  | _, .null => p _ .null
  | _, .typed type quoted => p _ (.typed type quoted)
  | _, .verbatim sql => p _ (.verbatim sql)
  | _, .column path => p _ (.column path)
  | _, .param sign => p _ (.param sign)
  | _, .call head args items filter window =>
    p _ (.call head args items filter window) && items.every p && filter.every p && window.every p
  | _, .cases branches otherwise =>
    p _ (.cases branches otherwise) && branches.every p && otherwise.every p
  | _, .caseOf subject branches otherwise =>
    p _ (.caseOf subject branches otherwise) && subject.every p && branches.every p &&
      otherwise.every p
  | _, .paren e => p _ (.paren e) && e.every p
  | _, .field e name => p _ (.field e name) && e.every p
  | _, .rowOf first rest => p _ (.rowOf first rest) && first.every p && rest.every p
  | _, .subquery q => p _ (.subquery q) && q.every p
  | _, .exists q => p _ (.exists q) && q.every p
  | _, .array items => p _ (.array items) && items.every p
  | _, .arrayOf q => p _ (.arrayOf q) && q.every p
  | _, .cast e type => p _ (.cast e type) && e.every p
  | _, .typecast e type => p _ (.typecast e type) && e.every p
  | _, .extract part e => p _ (.extract part e) && e.every p
  | _, .quantified q e => p _ (.quantified q e) && e.every p
  | _, .quantifiedQuery q body => p _ (.quantifiedQuery q body) && body.every p
  | _, .default => p _ .default
  | _, .connected op left right => p _ (.connected op left right) && left.every p && right.every p
  | _, .not e => p _ (.not e) && e.every p
  | _, .test negated t e => p _ (.test negated t e) && e.every p
  | _, .predicate negated kind left right =>
    p _ (.predicate negated kind left right) && left.every p && right.every p
  | _, .comparison op left right => p _ (.comparison op left right) && left.every p && right.every p
  | _, .binary op left right => p _ (.binary op left right) && left.every p && right.every p
  | _, .between negated e low high =>
    p _ (.between negated e low high) && e.every p && low.every p && high.every p
  | _, .inList negated e items => p _ (.inList negated e items) && e.every p && items.every p
  | _, .inQuery negated e q => p _ (.inQuery negated e q) && e.every p && q.every p
  | _, .atTimeZone e zone => p _ (.atTimeZone e zone) && e.every p && zone.every p
  | _, .negate e => p _ (.negate e) && e.every p
  | _, .plus e => p _ (.plus e) && e.every p
  | _, .subscript e index => p _ (.subscript e index) && e.every p && index.every p
  -- parts of expressions
  | _, .branch t result => p _ (.branch t result) && t.every p && result.every p
  | _, .windowNamed name => p _ (.windowNamed name)
  | _, .windowSpec partition order frame =>
    p _ (.windowSpec partition order frame) && partition.every p && order.every p
  | _, .orderItem e descending nulls => p _ (.orderItem e descending nulls) && e.every p
  -- queries
  | _, .limit e => p _ (.limit e) && e.every p
  | _, .limitAll => p _ .limitAll
  | _, .offset e => p _ (.offset e) && e.every p
  | _, .fetch e => p _ (.fetch e) && e.every p
  | _, .query withs body order limits lock =>
    p _ (.query withs body order limits lock) && withs.every p && body.every p && order.every p &&
      limits.every p
  | _, .ctes recursively items => p _ (.ctes recursively items) && items.every p
  | _, .cte name columns body => p _ (.cte name columns body) && body.every p
  | _, .selectBody s => p _ (.selectBody s) && s.every p
  | _, .nested q => p _ (.nested q) && q.every p
  | _, .operation op left right => p _ (.operation op left right) && left.every p && right.every p
  | _, .distinctAll => p _ .distinctAll
  | _, .distinctOn items => p _ (.distinctOn items) && items.every p
  | _, .select distinct items sources condition groups having =>
    p _ (.select distinct items sources condition groups having) && distinct.every p &&
      items.every p && sources.every p && condition.every p && groups.every p && having.every p
  | _, .star => p _ .star
  | _, .tableStar path sql => p _ (.tableStar path sql)
  | _, .item e => p _ (.item e) && e.every p
  | _, .aliased e name => p _ (.aliased e name) && e.every p
  -- tables
  | _, .source table joins => p _ (.source table joins) && table.every p && joins.every p
  | _, .relation path name => p _ (.relation path name)
  | _, .derived q name => p _ (.derived q name) && q.every p
  | _, .lateral q name => p _ (.lateral q name) && q.every p
  | _, .lateralCall e name => p _ (.lateralCall e name) && e.every p
  | _, .tableCall e name => p _ (.tableCall e name) && e.every p
  | _, .join kind table t => p _ (.join kind table t) && table.every p && t.every p
  | _, .joinOn e => p _ (.joinOn e) && e.every p
  | _, .joinUsing columns => p _ (.joinUsing columns)
  -- changes
  | _, .assignment name e => p _ (.assignment name e) && e.every p
  | _, .row items => p _ (.row items) && items.every p
  | _, .rows rs => p _ (.rows rs) && rs.every p
  | _, .insertQuery q => p _ (.insertQuery q) && q.every p
  | _, .defaults => p _ .defaults
  | _, .conflictColumns items => p _ (.conflictColumns items) && items.every p
  | _, .conflictConstraint name => p _ (.conflictConstraint name)
  | _, .doNothing => p _ .doNothing
  | _, .doUpdate fields condition =>
    p _ (.doUpdate fields condition) && fields.every p && condition.every p
  | _, .conflict target action => p _ (.conflict target action) && target.every p && action.every p
  | _, .queryStatement q => p _ (.queryStatement q) && q.every p
  | _, .insert withs table name columns inserted onConflict returning =>
    p _ (.insert withs table name columns inserted onConflict returning) && withs.every p &&
      inserted.every p && onConflict.every p && returning.every p
  | _, .update withs table name fields sources condition returning =>
    p _ (.update withs table name fields sources condition returning) && withs.every p &&
      fields.every p && sources.every p && condition.every p && returning.every p
  | _, .delete withs table name tables condition returning =>
    p _ (.delete withs table name tables condition returning) && withs.every p && tables.every p &&
      condition.every p && returning.every p

variable {p q : (k : Kind) → Tree k → Bool} {k : Kind}

theorem every_ofList {ts : List (Tree k)} : (ofList ts).every p ↔ ∀ t ∈ ts, t.every p := by
  induction ts with
  | nil => simp [ofList, every]
  | cons t ts ih => simp [ofList, every, ih]

theorem every_ofOption {t : Option (Tree k)} : (ofOption t).every p ↔ ∀ u ∈ t, u.every p := by
  cases t <;> simp [ofOption, every]

theorem every_and {t : Tree k} (hp : t.every p) (hq : t.every q) :
    t.every fun k t => p k t && q k t := by
  induction t <;> simp_all [every]

end SqlTree.Syntax.Tree

import SqlTree.Syntax.Reading.Statement

/-!
The reading of whole trees, node by node: the reading of a tree is made of the readings of its
parts.
-/

namespace SqlTree.Syntax

open Reading

/-- What a tree of a kind is read as. -/
def Meaning : Kind → Type
  | .expr => Operand
  | .branch => Read (List Value)
  | .window => Read (Option Value)
  | .orderItem => Read Value
  | .limit => Read Entries
  | .query => Read Entries
  | .ctes => Read Entries
  | .cte => Read Value
  | .body => Read Entries
  | .distinct => Read (String × List Value)
  | .select => Read Entries
  | .selectItem => Read Value
  | .source => Read FromItem
  | .table => Read Value
  | .join => Read Joined
  | .joinTest => Read Value
  | .assignment => Read (Value × Value)
  | .row => Read Value
  | .insertSource => Read Inserted
  | .conflictTarget => Read Entries
  | .conflictAction => Read Entries
  | .conflict => Read Entries
  | .statement => Read Entries
  | .list k => List (Meaning k)
  | .option k => Option (Meaning k)

namespace Tree

def read : {k : Kind} → Tree k → Meaning k
  | _, .nil => []
  | _, .cons t ts => t.read :: ts.read
  | _, .absent => none
  | _, .present t => some t.read
  | _, .number digits => .leafOr (Literal.number digits |>.map untyped)
  | _, .string quoted => .leaf (untyped (.text (Literal.unquoted quoted)))
  | _, .boolean b => .leaf (untyped (.bool b))
  | _, .null => .leaf .null
  | _, .typed type quoted => .leaf (Literal.typed type quoted)
  | _, .verbatim sql => .leaf (.raw (.text sql))
  | _, .column path => .leaf (Path.value path)
  | _, .param sign => .leaf (headed "param" [.text (String.ofList (sign.toList.drop 1))])
  | _, .call head args items filter window =>
    Reading.call head args items.read filter.read window.read
  | _, .cases branches otherwise => Reading.cases branches.read otherwise.read
  | _, .caseOf subject branches otherwise =>
    Reading.caseOf subject.read branches.read otherwise.read
  | _, .paren e => .node e.read.value
  | _, .field e name => Reading.field e.read name
  | _, .rowOf first rest => Reading.row first.read rest.read
  | _, .subquery q => Reading.subquery q.read
  | _, .exists q => ofQuery "exists" q.read
  | _, .array items => Reading.array items.read
  | _, .arrayOf q => ofQuery "array" q.read
  | _, .cast e type => Reading.cast e.read type
  | _, .typecast e type => Reading.typecast e.read type
  | _, .extract part e => Reading.extract part e.read
  | _, .quantified q e => .form q.word [e.read]
  | _, .quantifiedQuery quantifier q => ofQuery quantifier.word q.read
  | _, .default => .leaf (headed "default" [])
  | _, .connected op left right => Reading.connected op left.read right.read
  | _, .not e => .form "not" [e.read]
  | _, .test negated t e => Reading.test negated t e.read
  | _, .predicate negated p left right => .form (p.word negated) [left.read, right.read]
  | _, .comparison op left right => Reading.comparison op left.read right.read
  | _, .binary op left right => .form op [left.read, right.read]
  | _, .between negated e low high =>
    .form (if negated then "not-between" else "between") [e.read, low.read, high.read]
  | _, .inList negated e items => Reading.inList negated e.read items.read
  | _, .inQuery negated e q => Reading.inQuery negated e.read q.read
  | _, .atTimeZone e zone => .form "at-time-zone" [e.read, zone.read]
  | _, .negate e => Reading.negate e.read
  | _, .plus e => .form "+" [e.read]
  | _, .subscript e index => .form "at" [e.read, index.read]
  | _, .branch t e => [t.read, e.read].mapM Operand.value
  | _, .windowNamed name => pure (some name.value)
  | _, .windowSpec partition order frame => Reading.windowSpec partition.read order.read frame
  | _, .orderItem e descending nulls => Reading.orderItem e.read descending nulls
  | _, .limit e => Reading.limit "limit" e.read
  | _, .limitAll => pure []
  | _, .offset e => Reading.limit "offset" e.read
  | _, .fetch e => Reading.fetch e.read
  | _, .query withs body order limits lock =>
    Reading.query withs.read body.read order.read limits.read lock
  | _, .ctes recursively items => Reading.ctes recursively items.read
  | _, .cte name columns body => Reading.cte name columns body.read
  | _, .selectBody s => s.read
  | _, .nested q => q.read
  | _, .operation op left right => Reading.operation op left.read right.read
  | _, .distinctAll => pure ("select-distinct", [])
  | _, .distinctOn items => Reading.distinctOn items.read
  | _, .select mark items sources condition groups having =>
    Reading.select mark.read items.read sources.read condition.read groups.read having.read
  | _, .star => visit (pure (.text "*"))
  | _, .tableStar path sql => Reading.tableStar path sql
  | _, .item e => visit e.read.value
  | _, .aliased e name => aliasedItem e.read name
  | _, .source t joins => Reading.source t.read joins.read
  | _, .relation path name => Reading.relation path name
  | _, .derived q name => Reading.aliased (.map <$> q.read) name
  | _, .lateral q name => Reading.lateral (.map <$> q.read) name
  | _, .lateralCall e name => Reading.lateral e.read.value name
  | _, .tableCall e name => Reading.aliased e.read.value name
  | _, .join kind t condition => Reading.join kind t.read condition.read
  | _, .joinOn e => Reading.joinOn e.read
  | _, .joinUsing columns => Reading.joinUsing columns
  | _, .assignment name e => Reading.assignment name e.read
  | _, .row items => .list <$> Operand.values items.read
  | _, .rows rs => Reading.rows rs.read
  | _, .insertQuery q => insertedQuery q.read
  | _, .defaults => pure (.values (.text "default"))
  | _, .conflictColumns items => Reading.conflictColumns items.read
  | _, .conflictConstraint name => pure (anyConflict ++ entry "on-constraint" name.value)
  | _, .doNothing => pure (entry "do-nothing" (.bool true))
  | _, .doUpdate fields condition => Reading.doUpdate fields.read condition.read
  | _, .conflict target action => Reading.conflict target.read action.read
  | _, .queryStatement q => q.read
  | _, .insert withs table name columns inserted onConflict returning =>
    Reading.insert withs.read table name columns inserted.read onConflict.read returning.read
  | _, .update withs table name fields sources condition returning =>
    Reading.update withs.read table name fields.read sources.read condition.read returning.read
  | _, .delete withs table name tables condition returning =>
    Reading.delete withs.read table name tables.read condition.read returning.read

end Tree

/-- A command as a clause map. -/
def Command.read : Command → Read Entries
  | .statement s => s.read
  | .createTable ifNotExists table columns => Reading.createTable ifNotExists table columns
  | .dropTable ifExists tables => Reading.dropTable ifExists tables
  | .truncate tables => Reading.truncate tables
  | .alterTable table actions => Reading.alterTable table actions

/-- The clause maps of a whole text, which is a node above its commands. -/
def readAll (limit : Int) (cs : List Command) : Except Fault (List Value) :=
  visitAll (cs.map fun c => Value.map <$> c.read) ⟨limit, 0⟩

end SqlTree.Syntax

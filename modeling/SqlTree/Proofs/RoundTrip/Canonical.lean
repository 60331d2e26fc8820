import SqlTree.Proofs.RoundTrip.Expression
import SqlTree.Syntax.Reading.Query

/-! Canonical queries: the clause maps that are the same after they were written and read. -/

namespace SqlTree

open Syntax (SetOperator JoinKind NullsOrder)

/-- The clauses of a query. -/
inductive QueryClause where
  | ctes (recursively : Bool)
  | operation (op : SetOperator)
  | select (distinct : Bool)
  | tables
  | join (kind : JoinKind)
  | filter
  | groups
  | having
  | order
  | limit
  | offset
deriving DecidableEq

namespace QueryClause

def key : QueryClause → String
  | ctes recursively => if recursively then "with-recursive" else "with"
  | operation op => op.clause
  | select distinct => if distinct then "select-distinct" else "select"
  | tables => "from"
  | join kind => kind.clause
  | filter => "where"
  | groups => "group-by"
  | having => "having"
  | order => "order-by"
  | limit => "limit"
  | offset => "offset"

/-- Clauses of a query that are not part of its body. -/
def isAround : QueryClause → Bool
  | ctes _ | order | limit | offset => true
  | _ => false

def isOperation : QueryClause → Bool
  | operation _ => true
  | _ => false

end QueryClause

/-- The clause map of a query. -/
def blockEntries (es : List (QueryClause × Value)) : Entries :=
  es.map fun e => (.text e.1.key, e.2)

/-- Which clauses stand in one query: those of a single selection, or a set operation and what may
stand around it. -/
structure QueryShape (cs : List QueryClause) : Prop where
  nodup : cs.Nodup
  ctes : .ctes false ∉ cs ∨ .ctes true ∉ cs
  body : ((∃ distinct, .select distinct ∈ cs ∧ .select (!distinct) ∉ cs) ∧
      (∀ kind, .join kind ∈ cs → .tables ∈ cs) ∧ ∀ op, .operation op ∉ cs) ∨
    ∃ op, .operation op ∈ cs ∧ ∀ c ∈ cs, c = .operation op ∨ c.isAround = true

/-- Items of a selection. -/
inductive SelectItem : Value → Prop
  | expression {v : Value} : Expressible v → SelectItem v
  | star : SelectItem (.text "*")
  | tableStar {t : String} : DottedName t → SelectItem (.text (t ++ ".*"))
  | aliased {t a : String} : DottedName t → PlainName a → SelectItem (.list [.text t, .text a])

def nullsWord : NullsOrder → String
  | .first => "nulls-first"
  | .last => "nulls-last"

/-- An expression with its direction, and where nulls go. -/
inductive OrderItem : Value → Prop
  | mk {v : Value} (descending : Bool) (nulls : Option NullsOrder) : Expressible v →
      OrderItem (.list (v :: .text (if descending then "desc" else "asc") ::
        nulls.toList.map fun n => .text (nullsWord n)))

/-- What a part of a query is. -/
inductive Role where
  | query
  | table
  | joined
  | cte
  | clause (c : QueryClause)

inductive Canonical : Role → Value → Prop
  | table {t : String} : DottedName t → Canonical .table (.text t)
  | aliased {t a : String} : DottedName t → PlainName a →
      Canonical .table (.list [.text t, .text a])
  | derived {q : Value} {a : String} : Canonical .query q → PlainName a →
      Canonical .table (.list [q, .text a])
  | joined {t v : Value} : Canonical .table t → Expressible v → Canonical .joined (.list [t, v])
  | cte {t : String} {q : Value} : PlainName t → Canonical .query q →
      Canonical .cte (.list [.text t, q])
  | cteColumns {t : String} {cs : List String} {q : Value} : PlainName t → cs ≠ [] →
      (∀ c ∈ cs, PlainName c) → Canonical .query q →
      Canonical .cte (.list [.list [.text t, .list (cs.map .text)], q])
  | ctes (recursively : Bool) {vs : List Value} : vs ≠ [] → (∀ v ∈ vs, Canonical .cte v) →
      Canonical (.clause (.ctes recursively)) (.list vs)
  -- what is nested to the left under the same operator alone would be taken in
  | operation (op : SetOperator) {v w : Value} {vs : List Value} :
      (∀ u, v ≠ .map [(.text op.clause, u)]) → Canonical .query v → Canonical .query w →
      (∀ u ∈ vs, Canonical .query u) → Canonical (.clause (.operation op)) (.list (v :: w :: vs))
  | select (distinct : Bool) {vs : List Value} : vs ≠ [] → (∀ v ∈ vs, SelectItem v) →
      Canonical (.clause (.select distinct)) (.list vs)
  -- one table alone is no list
  | oneTable {t : String} : DottedName t → Canonical (.clause .tables) (.text t)
  | tables {vs : List Value} : vs ≠ [] → (∀ t, vs ≠ [.text t]) →
      (∀ v ∈ vs, Canonical .table v) → Canonical (.clause .tables) (.list vs)
  | join {kind : JoinKind} {vs : List Value} : kind ≠ .cross → vs ≠ [] →
      (∀ v ∈ vs, Canonical .joined v) → Canonical (.clause (.join kind)) (.list vs)
  | crossJoin {vs : List Value} : vs ≠ [] → (∀ v ∈ vs, Canonical .table v) →
      Canonical (.clause (.join .cross)) (.list vs)
  | filter {v : Value} : Expressible v → Canonical (.clause .filter) v
  | groups {vs : List Value} : vs ≠ [] → (∀ v ∈ vs, Expressible v) →
      Canonical (.clause .groups) (.list vs)
  | having {v : Value} : Expressible v → Canonical (.clause .having) v
  | order {vs : List Value} : vs ≠ [] → (∀ v ∈ vs, OrderItem v) →
      Canonical (.clause .order) (.list vs)
  | limit {v : Value} : Expressible v → Canonical (.clause .limit) v
  | offset {v : Value} : Expressible v → Canonical (.clause .offset) v
  | query {es : List (QueryClause × Value)} : QueryShape (es.map Prod.fst) →
      (∀ e ∈ es, Canonical (.clause e.1) e.2) →
      Canonical .query (.map (blockEntries es))

end SqlTree

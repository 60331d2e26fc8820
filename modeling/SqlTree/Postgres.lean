import SqlTree.Form
import SqlTree.Value.Json

/-!
Expressions for the operators of Postgres on JSON, arrays, patterns and text search.
-/

namespace SqlTree.Postgres

def operation (op : String) (left right : Value) : Value := .list [.text op, left, right]

/-- An array constructor over untyped values. -/
def arrayOf (vs : List Value) : Value :=
  .list [.text "array", .list (vs.map fun v => .typed v Form.valueKey)]

/-- The column contains the value, which is bound as JSON text. -/
def jsonbContains (column v : Value) : Except Fault Value :=
  match Json.encode? v with
  | some t =>
    .ok (operation "@>" column (.list [.text "cast", .lift (.text t), .text "jsonb"]))
  | none => .error .wrongType

/-- The text at a path inside the column. -/
def jsonbPath (column : Value) (path : List Value) : Value := operation "#>>" column (arrayOf path)

def arrayOverlaps (column values : Value) : Except Fault Value :=
  match values.elements? with
  | some vs => .ok (operation "&&" column (arrayOf vs))
  | none => .error .wrongType

def regexMatch (column pattern : Value) (caseInsensitive : Bool) : Value :=
  operation (if caseInsensitive then "~*" else "~") column (.typed pattern Form.valueKey)

def textSearch (column query : Value) : Value :=
  operation "@@" column (.list [.text "%to_tsquery", .typed query Form.valueKey])

end SqlTree.Postgres

import SqlTree.Parse
import SqlTree.Format

/-!
Whether `format` knows every operator and clause that the parser puts into a clause map.
-/

namespace SqlTree

def Fault.kindOf {α : Type} : Except Fault α → Option FaultKind
  | .ok _ => none
  | .error e => some e.kind

/-- A query that is assigned to a column named `fields` is taken for the wrapper of an update on
conflict, so its table expressions are rendered as expressions. -/
theorem query_for_fields_unknown :
    Fault.kindOf ((parse defaultParseDepth
      "INSERT INTO t VALUES (1) ON CONFLICT (a) DO UPDATE SET fields = (WITH \"a b\" AS (SELECT 1) SELECT 2)").bind
        (format .standard {})) = some .unknownOperator := by
  decide +kernel

end SqlTree

import SqlTree.Parse
import SqlTree.Format

/-!
Positional parameters from the text that is read to the text that is written.
-/

namespace SqlTree

/-- The frame of a window is kept as text, and the placeholders beside it are numbered anew. -/
theorem frame_param_kept :
    ((parse defaultParseDepth "SELECT $2, sum(a) OVER (ORDER BY b ROWS $1 PRECEDING)").bind
      (format .standard { params := [("1", .int 1), ("2", .int 2)] })).toOption.map
        (fun out => (out.sql, out.params.length)) =
      some ("SELECT $1, SUM(a) OVER (ORDER BY b ROWS $1 PRECEDING)", 1) := by
  decide +kernel

end SqlTree

import SqlTree.Parse
import SqlTree.Format

/-!
The names of tables and columns from the text that is read to the text that is written.
-/

namespace SqlTree

/-- The name of a table that is not plain is read as two names. -/
theorem quoted_table_misread :
    ((parse defaultParseDepth "INSERT INTO \"Abc\" VALUES (1)").bind
      (format .standard { inline := true })).toOption.map Formatted.sql =
        some "INSERT INTO entity Abc VALUES (1)" := by
  decide +kernel

end SqlTree

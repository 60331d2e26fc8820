import SqlTree.Text.Digit

/-!
The tokens of SQL text and the lexemes that carry them.
-/

namespace SqlTree

inductive Token where
  | number (text : String)
  | name (text : String)
  | quotedName (text : String)
  | string (text : String)
  | param (text : String)
  /-- A keyword in lower case, and as it was written. -/
  | keyword (word text : String)
  /-- An operator that is not shared with the grammar's own signs. -/
  | operator (text : String)
  | symbol (text : String)
deriving DecidableEq, Repr, Inhabited

/-- A token together with the blanks and comments before it. -/
structure Lexeme where
  gap : List Char
  token : Token
deriving DecidableEq, Repr, Inhabited

namespace Token

def text : Token → String
  | number t | name t | quotedName t | string t | param t | operator t | symbol t => t
  | keyword _ t => t

/-- The words that the grammar knows. -/
def keywords : List String :=
  ["add", "all", "alter", "and", "any", "array", "as", "asc", "at", "between", "by", "case",
   "cast", "column", "conflict", "constraint", "create", "cross", "current", "default", "delete",
   "desc", "distinct", "do", "drop", "else", "end", "except", "exists", "extract", "false",
   "fetch", "filter", "first", "following", "for", "from", "full", "group", "having", "if",
   "ilike", "in", "inner", "insert", "intersect", "into", "is", "isnull", "join", "key", "last",
   "lateral", "left", "like", "limit", "locked", "next", "no", "not", "nothing", "notnull",
   "nowait", "null", "nulls", "offset", "on", "only", "or", "order", "outer", "over",
   "partition", "preceding", "precision", "primary", "range", "recursive", "returning", "right",
   "row", "rows", "select", "set", "share", "similar", "skip", "table", "then", "time", "to",
   "true", "truncate", "unbounded", "union", "unique", "update", "using", "values", "varying",
   "when", "where", "with", "without", "zone"]

/-- Keywords that are names as well. -/
def unreserved : List String :=
  ["key", "time", "zone", "first", "last", "nulls", "rows", "next", "only", "conflict", "nothing",
   "do"]

end Token

namespace Lexeme

def source (l : Lexeme) : List Char := l.gap ++ l.token.text.toList

/-- The text from the first token to the last one. -/
def span : List Lexeme → String
  | [] => ""
  | l :: ls => String.ofList (l.token.text.toList ++ ls.flatMap source)

end Lexeme

end SqlTree

/-!
The operators that every registry starts with.
-/

namespace SqlTree.Operator

/-- Operators between two operands. -/
def binary : List String :=
  ["and", "or", "xor", "=", "<>", "<", ">", "<=", ">=",
   "+", "-", "*", "/", "%", "|", "&", "^", "||", "<->", "~", "&&",
   "like", "not-like", "ilike", "not-ilike", "similar-to", "not-similar-to", "regexp",
   "is", "is-not", "is-distinct-from", "is-not-distinct-from", "with-ordinality"]

def aliases : List (String × String) := [("not=", "<>"), ("!=", "<>"), ("regex", "regexp")]

def unary : List String := ["+", "-", "~"]

/-- Operators that drop their null operands. -/
def nilIgnoring : List String := ["and", "or"]

/-- Operators that turn a null operand into a null test. -/
def equality : List String := ["=", "<>"]

def membership : List String := ["in", "not-in"]

/-- The value of an operator left without operands. -/
def unit? : String → Option String
  | "and" => some "TRUE"
  | "or" => some "FALSE"
  | _ => none

/-- JSON, pattern, array, range, text-search and named-argument operators. -/
def postgres : List String :=
  ["->", "->>", "#>", "#>>", "@>", "<@", "?", "?|", "?&", "#-", "@?", "@@",
   "~", "~*", "!~", "!~*", "&&", "<->", "<<", ">>", "=>"]

end SqlTree.Operator

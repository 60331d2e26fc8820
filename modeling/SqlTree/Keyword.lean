import SqlTree.Text.Word
import SqlTree.Text.Case

/-!
Names of clauses, operators, types and functions as SQL keywords: `not-in` is `NOT IN` and
`%count` is `COUNT`. A leading apostrophe keeps a name as it is.
-/

namespace SqlTree.Keyword

/-- A hyphen between two word characters separates words. `before` is the character that was
read last. -/
def spaceHyphens (before : Option Char) : List Char → List Char
  | [] => []
  | c :: rest =>
    let separates := c = '-' && before.any Text.isWordChar && rest.head?.any Text.isWordChar
    (if separates then ' ' else c) :: spaceHyphens (some c) rest

def dropPercent : List Char → List Char
  | '%' :: rest => rest
  | cs => cs

def render (name : String) : String :=
  match name.toList with
  | '\'' :: rest => String.ofList rest
  | cs => String.ofList ((spaceHyphens none (dropPercent cs)).flatMap Text.upperChar)

/-- The keyword of a function name, its words joined by underscores. -/
def function (name : String) : String :=
  String.ofList ((render name).toList.map fun c => if c = ' ' then '_' else c)

end SqlTree.Keyword

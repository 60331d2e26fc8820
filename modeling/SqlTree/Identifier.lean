import SqlTree.Fault
import SqlTree.Keyword

/-!
Identifiers: which texts are names, what a part of a name may hold, and which parts have to be
quoted. A pattern that reaches to the end of a text also holds before one final line break.
-/

namespace SqlTree.Identifier

def isNameStart (c : Char) : Bool := Text.isAsciiLetter c || c = '_'

def isNameChar (c : Char) : Bool := Text.isAsciiLetter c || Text.isAsciiDigit c || c = '_'

/-- Nothing is left, or one line break. -/
def atEnd (cs : List Char) : Bool := cs.isEmpty || cs == ['\n']

/-- Reads `name`, then further names after points or slashes, then perhaps `.*`. The flag says
that a name has to start here. -/
def isPath : Bool → List Char → Bool
  | true, [] => false
  | true, c :: rest => isNameStart c && isPath false rest
  | false, [] => true
  | false, c :: rest =>
    if isNameChar c then isPath false rest
    else if c = '/' then isPath true rest
    else if c = '.' then
      match rest with
      | '*' :: more => atEnd more
      | _ => isPath true rest
    else c = '\n' && rest.isEmpty

/-- Texts that stand for a column, a table or a call: a star, a path of names, or `%` and more. -/
def isIdentText (s : String) : Bool :=
  match s.toList with
  | ['*'] => true
  | '%' :: rest => !rest.isEmpty
  | cs => isPath true cs

def isIdent (v : Value) : Bool := v.text?.any isIdentText

/-- A name that starts and goes on as the two classes say. -/
def isWord (start next : Char → Bool) (s : String) : Bool :=
  match s.toList with
  | [] => false
  | c :: rest => start c && atEnd (rest.dropWhile next)

def isPlain (s : String) : Bool := isWord isNameStart isNameChar s

def isLowerStart (c : Char) : Bool := ('a' ≤ c && c ≤ 'z') || c = '_'

def isLowerPlain (s : String) : Bool :=
  isWord isLowerStart (fun c => isLowerStart c || Text.isAsciiDigit c) s

def isCallChar (c : Char) : Bool := isNameChar c || c = '$'

/-- Reads words joined by hyphens or points. The flag says that a word has to start here. -/
def isCallTail : Bool → List Char → Bool
  | true, [] => false
  | true, c :: rest => isCallChar c && isCallTail false rest
  | false, [] => true
  | false, c :: rest =>
    if isCallChar c then isCallTail false rest
    else if c = '-' || c = '.' then isCallTail true rest
    else c = '\n' && rest.isEmpty

/-- Heads of calls that need not be identifiers: `count-distinct`, `pg_catalog.now`. -/
def isCallHead (s : String) : Bool :=
  match Keyword.dropPercent s.toList with
  | [] => false
  | c :: rest => isNameStart c && isCallTail false rest

def reservedWords : List String :=
  ["add", "all", "alter", "and", "any", "array", "as", "asc", "at",
   "between", "by", "case", "cast", "check", "column", "constraint",
   "create", "cross", "current", "default", "delete", "desc", "distinct",
   "drop", "else", "end", "except", "exists", "extract", "false", "fetch",
   "filter", "following", "for", "foreign", "from", "full", "grant",
   "group", "having", "if", "ilike", "in", "index", "inner", "insert",
   "intersect", "into", "is", "isnull", "join", "lateral", "left", "like",
   "limit", "locked", "no", "not", "notnull", "nowait", "null", "offset",
   "on", "or", "order", "outer", "over", "partition", "preceding",
   "precision", "primary", "range", "recursive", "references",
   "returning", "right", "row", "select", "set", "share", "similar",
   "skip", "some", "table", "then", "to", "true", "truncate", "unbounded",
   "union", "unique", "update", "user", "using", "values", "varying",
   "when", "where", "with", "without"]

def needsQuoting (part : String) : Bool :=
  part != "*" && (!isPlain part || reservedWords.contains (Text.lower part))

def checkNullBytes (s place : String) : Except Fault Unit :=
  if s.toList.contains '\x00' then .error (.nullByte place (.text s)) else .ok ()

/-- One part of a name is not empty, holds no semicolon and no null byte, and is not longer than
the limit. -/
def check (part : String) (limit : Int) : Except Fault Unit := do
  if part.isEmpty then throw .emptyName
  if part.toList.contains ';' then throw (.suspiciousName part)
  checkNullBytes part "identifiers"
  if (part.length : Int) > limit then throw (.longName part limit)

def snakeCase (name : String) : String :=
  String.ofList (name.toList.map fun c => if c = '-' then '_' else c)

/-- Whether `--` stands somewhere in the text. -/
def hasComment : List Char → Bool
  | [] => false
  | c :: rest => (c = '-' && rest.head? = some '-') || hasComment rest

/-- A type name as SQL. Semicolons and comment marks are refused. -/
def typeName (type : String) : Except Fault String := do
  if type.toList.contains ';' || hasComment type.toList then
    throw (.suspiciousType (.text type))
  checkNullBytes type "type names"
  return Keyword.render type

end SqlTree.Identifier

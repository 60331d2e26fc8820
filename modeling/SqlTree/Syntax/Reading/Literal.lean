import SqlTree.Syntax.Reading.Name

/-!
Literals as values. The text between quotes only ever becomes a value.
-/

namespace SqlTree.Syntax.Literal

/-- The most digits that an integer may have. -/
def digitLimit : Nat := 4300

def number (digits : String) : Except Fault Value :=
  let cs := digits.toList
  if cs.any fun c => c = '.' || c = 'e' || c = 'E' then
    .ok (.real ((Number.Binary64.ofText? digits).getD .nan))
  else if digitLimit < cs.length then .error .longNumeral
  else .ok (.int (Text.digitsValue cs))

def unquoted (quoted : String) : String := Text.unquoted '\'' quoted

def escaped (c : Char) : Char :=
  match c with
  | 'n' => '\n'
  | 't' => '\t'
  | 'r' => '\r'
  | 'b' => '\x08'
  | 'f' => '\x0c'
  | c => c

/-- Undoes escapes by backslashes. One at the end stays. -/
def unescape : List Char → List Char
  | '\\' :: c :: rest => escaped c :: unescape rest
  | c :: rest => c :: unescape rest
  | [] => []

/-- A string with a type in front of it. -/
def typed (type quoted : String) : Value :=
  let content := unquoted quoted
  if type = "e" then untyped (.text (String.ofList (unescape content.toList)))
  else if type = "interval" then headed "interval" [.text content]
  else .typed (.text content) type

/-- A cast value. An untyped text takes the type, unless that names a clause. -/
def cast (v : Value) (type : String) : Value :=
  match untyped? v with
  | some (.text s) =>
    if Clause.order.contains type then headed "cast" [v, .text type] else .typed (.text s) type
  | _ => headed "cast" [v, .text type]

/-- A value behind a minus. Literal numbers take the sign, and truth values are numbers here. -/
def negated (v : Value) : Value :=
  match untyped? v with
  | some (.int n) => untyped (.int (-n))
  | some (.real x) => untyped (.real x.negate)
  | some (.bool b) => untyped (.int (if b then -1 else 0))
  | _ => headed "-" [v]

end SqlTree.Syntax.Literal

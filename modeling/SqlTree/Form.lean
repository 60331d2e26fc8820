import SqlTree.Clause
import SqlTree.Identifier
import SqlTree.Value.Same

/-!
What kind of expression a value is. Every value is of exactly one kind.
-/

namespace SqlTree

inductive Form where
  | ident
  | raw
  | param
  | lift
  | literal
  | typed
  | clause
  | array
  | plain
deriving DecidableEq, Repr, Inhabited

namespace Form

/-- The word by which a form is known. -/
def word : Form → String
  | ident => "ident"
  | raw => "raw"
  | param => "param"
  | lift => "lift"
  | literal => "inline"
  | typed => "typed"
  | clause => "clause"
  | array => "array"
  | plain => "literal"

def rawKey : String := "__raw"
def paramKey : String := "__param"
def liftKey : String := "__lift"
def literalKey : String := "__literal"
def valueKey : String := "$"

def wrapperKeys : List String := [rawKey, paramKey, liftKey, literalKey]

/-- The value is a map of one entry whose key is `$` or names a type: no clause, and not reserved
by two leading underscores. -/
def isTypedEntries (clauses : List String) : Entries → Bool
  | [(.text key, _)] =>
    key = valueKey || (!("__".toList.isPrefixOf key.toList) && !clauses.contains key)
  | _ => false

def isTyped (clauses : List String) (v : Value) : Bool :=
  v.entries?.any (isTypedEntries clauses)

def ofEntries (clauses : List String) (es : Entries) : Form :=
  if Entries.hasField es rawKey then .raw
  else if Entries.hasField es paramKey then .param
  else if Entries.hasField es liftKey then .lift
  else if Entries.hasField es literalKey then .literal
  else if isTypedEntries clauses es then .typed
  else .clause

/-- The form of a value, where `clauses` are the clauses that are known. -/
def of (clauses : List String) : Value → Form
  | .text s => if Identifier.isIdentText s then .ident else .plain
  | .map es => ofEntries clauses es
  | .list _ => .array
  | .tuple _ => .array
  | _ => .plain

def isClause (clauses : List String) (v : Value) : Bool := of clauses v = .clause

end Form

namespace Value

/-- SQL text to be spliced as it stands. -/
def raw (sql : Value) : Value := record [(Form.rawKey, sql)]

/-- A named parameter. -/
def param (name : Value) : Value := record [(Form.paramKey, name)]

/-- A value to be bound whatever it is. -/
def lift (v : Value) : Value := record [(Form.liftKey, v)]

/-- A value to be written as SQL text. -/
def literal (v : Value) : Value := record [(Form.literalKey, v)]

/-- A value with a type; `$` stands for none. -/
def typed (v : Value) (type : String) : Value := record [(type, v)]

end Value

end SqlTree

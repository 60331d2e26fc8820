import SqlTree.Syntax.Reading.Basic
import SqlTree.Text.Doubled

/-!
Names, paths and types as values. A name that would not come back as it is keeps its quotes.
-/

namespace SqlTree.Syntax

namespace Name

/-- The name without its quotes. -/
def content (n : Name) : String := if n.quoted then Text.unquoted '"' n.text else n.text

/-- The name means the same when it is written without quotes. -/
def isPlain (n : Name) : Bool :=
  if n.quoted then Identifier.isLowerPlain n.content else Identifier.isPlain n.content

def value (n : Name) : Value := .text n.content

/-- A name as an alias; the apostrophe keeps the rest from being quoted again. -/
def asAlias (n : Name) : Value :=
  .text (if n.isPlain then n.content else Text.enclosed "'\"" n.content "\"")

end Name

namespace Path

def text (p : Path) : String := ".".intercalate (p.map Name.content)

def value (p : Path) : Value :=
  if p.all Name.isPlain then .text (text p) else headed "entity" [.text (text p)]

/-- The star of a table, unless its name cannot be written plainly. -/
def star? (p : Path) : Option Value :=
  if p.all Name.isPlain then some (.text (text p ++ ".*")) else none

end Path

namespace TypeBase

def text : TypeBase → String
  | plain parts => ".".intercalate (parts.map Text.lower)
  | precision name => Text.lower name ++ "-precision"
  | varying name => Text.lower name ++ "-varying"
  | withTimeZone name => Text.lower name ++ "-with-time-zone"
  | withoutTimeZone name => Text.lower name ++ "-without-time-zone"

end TypeBase

namespace TypeName

def text (t : TypeName) : String :=
  let modifiers := if t.modifiers.isEmpty then "" else "(" ++ ",".intercalate t.modifiers ++ ")"
  t.base.text ++ modifiers ++ String.join (List.replicate t.dimensions "[]")

/-- The type's base is a node of its own. -/
def read (t : TypeName) : Read String := visit (visit (pure t.text))

end TypeName

end SqlTree.Syntax

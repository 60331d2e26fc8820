import SqlTree.Render.Settings
import SqlTree.Text.Split

/-!
Names of tables, columns, aliases, types and functions as SQL text.
-/

namespace SqlTree.Render

variable (s : Settings)

def isPathSeparator (c : Char) : Bool := c = '.' || c = '/'

/-- A part is quoted where the settings or its spelling ask for it. -/
def namePart (part : String) : Except Fault String := do
  if part = "*" then return part
  Identifier.check part s.dialect.maxIdentifierLength
  return if s.quoted || Identifier.needsQuoting part then s.dialect.quoteIdentifier part else part

def nameText (name : String) : Except Fault String := do
  let name := if s.quotedSnake then Identifier.snakeCase name else name
  return ".".intercalate (← (Text.parts isPathSeparator name).mapM (namePart s))

/-- An alias is one part. After an apostrophe it stands as it is. -/
def aliasText (name : String) : Except Fault String :=
  match name.toList with
  | '\'' :: rest =>
    if rest.contains ';' then .error (.suspiciousText (String.ofList rest))
    else .ok (String.ofList rest)
  | _ => namePart s (if s.quotedSnake then Identifier.snakeCase name else name)

def entity (v : Value) : Except Fault String :=
  match v with
  | .text name => nameText s name
  | v => .error (.nameNotText v)

def aliasName (v : Value) : Except Fault String :=
  match v with
  | .text name => aliasText s name
  | v => .error (.nameNotText v)

/-- A bare table or column name. -/
def name (v : Value) : Except Fault String :=
  match v with
  | .text t =>
    if Identifier.isIdentText t then nameText s t
    else if t.toList.contains ';' then .error (.suspiciousText t)
    else .error (.notAName v)
  | v => .error (.notAName v)

def names (vs : List Value) : Except Fault String := do
  return ", ".intercalate (← vs.mapM (name s))

/-- Every part in quotes, its case kept. -/
def quotedEntity (v : Value) : Except Fault String :=
  match v with
  | .text t => do
    let parts ← (Text.parts (· = '.') t).mapM fun part => do
      Identifier.check part s.dialect.maxIdentifierLength
      return s.dialect.quoteIdentifier part
    return ".".intercalate parts
  | .bytes _ | .buffer _ => .error .wrongType
  | _ => .error .unsupported

/-- `%f.a.b` is the call of `f` on `a` and `b`. -/
def ident (t : String) : Except Fault String :=
  match t.toList with
  | '%' :: rest =>
    match (Text.splitAt (· = '.') rest).map String.ofList with
    | [] => .ok ""
    | head :: args => do
      return Keyword.function head ++ "(" ++ ", ".intercalate (← args.mapM (nameText s)) ++ ")"
  | _ => nameText s t

/-- A keyword given as a value. -/
def keyword (v : Value) : Except Fault String :=
  match v with
  | .text t => .ok (Keyword.render t)
  | .bytes _ | .buffer _ => .error .wrongType
  | _ => .error .unsupported

/-- A type name given as a value; a container is searched for the texts that no type may hold. -/
def typeName (v : Value) : Except Fault String :=
  match v with
  | .text t => Identifier.typeName t
  | .list _ | .tuple _ | .set _ | .map _ =>
    let holds := fun t => (v.elements?.getD []).any fun x => x.text? = some t
    if holds ";" || holds "--" then .error (.suspiciousType v)
    else if holds "\x00" then .error (.nullByte "type names" v)
    else .error .unsupported
  | _ => .error .wrongType

end SqlTree.Render

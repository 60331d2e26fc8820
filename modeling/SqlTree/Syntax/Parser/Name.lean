import SqlTree.Syntax.Parser.Basic

/-!
Parsers of names, paths, aliases and type names.
-/

namespace SqlTree.Syntax.Parser

/-- The name that a token is, if it is one. -/
def nameOf? : Token → Option Name
  | .name t => some ⟨t, false⟩
  | .quotedName t => some ⟨t, true⟩
  | .keyword w t => if Token.unreserved.contains w then some ⟨t, false⟩ else none
  | _ => none

def isName (t : Option Token) : Bool := (t.bind nameOf?).isSome

def name : Parser Name := do
  match (← peek).bind nameOf? with
  | some n =>
    skip
    return n
  | none => unexpected

/-- The rest of a path after its first name. -/
def pathFrom (first : Name) : Parser Path := more "." name [first]

def path : Parser Path := do pathFrom (← name)

def names : Parser (List Name) := commas name

def nameList : Parser (List Name) := parens names

/-- An alias with or without its keyword. -/
def aliasName : Parser (Option Name) := do
  if ← takeKeyword "as" then return some (← name)
  if isName (← peek) then return some (← name)
  return none

/-- What a type or a typed literal may start with. -/
def typeWord? : Token → Option String
  | .name t => some t
  | .keyword w t => if w = "time" then some t else none
  | _ => none

def plainName : Parser String := do
  match ← peek with
  | some (.name t) =>
    skip
    return t
  | _ => unexpected

def timeZone : Parser Unit := keywords ["time", "zone"]

def typeBase : Parser TypeBase := do
  match ← peek with
  | some t =>
    match typeWord? t with
    | none => unexpected
    | some word =>
      skip
      let simple := match t with
        | .name _ => true
        | _ => false
      if ← takeSymbol "." then return .plain [word, ← plainName]
      if simple then
        if ← takeKeyword "precision" then return .precision word
        if ← takeKeyword "varying" then return .varying word
      if ← takeKeyword "with" then
        timeZone
        return .withTimeZone word
      if ← takeKeyword "without" then
        timeZone
        return .withoutTimeZone word
      return .plain [word]
  | none => unexpected

def numeral : Parser String := do
  match ← peek with
  | some (.number t) =>
    skip
    return t
  | _ => unexpected

def typeModifiers : Parser (List String) := do
  if ← takeSymbol "(" then
    let ts ← commas numeral
    symbol ")"
    return ts
  return []

/-- Empty brackets. Where an index may follow, brackets that are not empty are left. -/
def brackets (mayIndex : Bool) : Parser Nat :=
  iterate (fun n => do
    if !(← atSymbol "[") then return none
    if mayIndex && !isSymbol "]" (← peekSecond) then return none
    symbol "["
    symbol "]"
    return some (n + 1)) 0

def typeName (mayIndex : Bool) : Parser TypeName := do
  let base ← typeBase
  let modifiers ← typeModifiers
  return ⟨base, modifiers, ← brackets mayIndex⟩

end SqlTree.Syntax.Parser

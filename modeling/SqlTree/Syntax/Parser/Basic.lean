import SqlTree.Token.Basic
import SqlTree.Syntax.Tree

/-!
Parsers of lexeme sequences. A parser takes what it can from the front, or fails at the first
lexeme with which no tree of its kind goes on. All choices are made by the next one or two tokens.
-/

namespace SqlTree.Syntax

/-- A failure is what was left when it happened. -/
abbrev Parser (α : Type) := StateT (List Lexeme) (Except (List Lexeme)) α

namespace Parser

def unexpected {α : Type} : Parser α := fun ls => .error ls

/-- The next token. -/
def peek : Parser (Option Token) := fun ls => .ok (ls.head?.map (·.token), ls)

/-- The token after the next one. -/
def peekSecond : Parser (Option Token) := fun ls => .ok ((ls.drop 1).head?.map (·.token), ls)

def skip : Parser Unit
  | [] => .error []
  | _ :: ls => .ok ((), ls)

def isKeyword (word : String) : Option Token → Bool
  | some (.keyword w _) => w = word
  | _ => false

def isSymbol (sign : String) : Option Token → Bool
  | some (.symbol t) => t = sign
  | _ => false

/-- The next token is that keyword. -/
def atKeyword (word : String) : Parser Bool := do return isKeyword word (← peek)

def atSymbol (sign : String) : Parser Bool := do return isSymbol sign (← peek)

/-- Takes the keyword if it is next. -/
def takeKeyword (word : String) : Parser Bool := do
  if ← atKeyword word then
    skip
    return true
  return false

def takeSymbol (sign : String) : Parser Bool := do
  if ← atSymbol sign then
    skip
    return true
  return false

def keyword (word : String) : Parser Unit := do
  if !(← takeKeyword word) then unexpected

def symbol (sign : String) : Parser Unit := do
  if !(← takeSymbol sign) then unexpected

def keywords (words : List String) : Parser Unit := words.forM keyword

/-- Applies a step as long as it yields something, at most once for each of the given lexemes. -/
def iterateOver {α : Type} (step : α → Parser (Option α)) : List Lexeme → α → Parser α
  | [], a => pure a
  | _ :: ls, a => do
    match ← step a with
    | none => return a
    | some b => iterateOver step ls b

/-- Applies a step as long as it yields something. Every such step takes a lexeme, so there are no
more steps than lexemes. -/
def iterate {α : Type} (step : α → Parser (Option α)) (a : α) : Parser α := fun ls =>
  iterateOver step ls a ls

/-- Further items, each after the sign. -/
def more {α : Type} (sign : String) (item : Parser α) (first : List α) : Parser (List α) :=
  iterate (fun done => do
    if ← takeSymbol sign then return some (done ++ [← item])
    return none) first

/-- One or more items with commas between them. -/
def commas {α : Type} (item : Parser α) : Parser (List α) := do
  more "," item [← item]

def parens {α : Type} (p : Parser α) : Parser α := do
  symbol "("
  let a ← p
  symbol ")"
  return a

/-- A clause that is there if its keyword is. -/
def optional {α : Type} (word : String) (p : Parser α) : Parser (Option α) := do
  if ← takeKeyword word then return some (← p)
  return none

/-- The text of what a parser takes. -/
def spanned {α : Type} (p : Parser α) : Parser (α × String) := fun ls =>
  match p ls with
  | .error e => .error e
  | .ok (a, rest) => .ok ((a, Lexeme.span (ls.take (ls.length - rest.length))), rest)

end Parser

end SqlTree.Syntax

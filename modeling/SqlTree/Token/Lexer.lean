import SqlTree.Token.Basic
import SqlTree.Fault

/-!
Cutting SQL text into tokens. At each place the first class in `classes` that matches is taken,
with as many characters as its pattern takes.
-/

namespace SqlTree.Lexer

/-- Letters as keywords see them: case is ignored, and so is the difference between a letter and
the few foreign letters that have its case. -/
def foldLetter (c : Char) : Char :=
  if 'A' ≤ c ∧ c ≤ 'Z' then Char.ofNat (c.toNat + 32)
  else if c = 'ſ' then 's'
  else if c.toNat = 0x212A then 'k'
  else if c = 'İ' ∨ c = 'ı' then 'i'
  else c

def isNameStart (c : Char) : Bool :=
  let f := foldLetter c
  ('a' ≤ f && f ≤ 'z') || f = '_'

def isNameChar (c : Char) : Bool := isNameStart c || ('0' ≤ c && c ≤ '9') || c = '$'

/-- How many characters a pattern takes from the front of a text. -/
abbrev Pattern := List Char → Option Nat

def digitRun (cs : List Char) : Nat := (cs.takeWhile Text.isDigit).length

def exponentRun : List Char → Nat
  | c :: rest =>
    if c = 'e' ∨ c = 'E' then
      let sign := match rest with
        | s :: _ => if s = '+' ∨ s = '-' then 1 else 0
        | [] => 0
      let n := digitRun (rest.drop sign)
      if n = 0 then 0 else 1 + sign + n
    else 0
  | [] => 0

def mantissaRun (cs : List Char) : Nat :=
  let whole := digitRun cs
  match cs.drop whole with
  | '.' :: rest =>
    let places := digitRun rest
    if whole = 0 ∧ places = 0 then 0 else whole + 1 + places
  | _ => whole

def number : Pattern := fun cs =>
  let n := mantissaRun cs
  if n = 0 then none else some (n + exponentRun (cs.drop n))

def name : Pattern
  | c :: rest => if isNameStart c then some (1 + (rest.takeWhile isNameChar).length) else none
  | [] => none

/-- The place behind the first end mark. -/
def blockEnd (n : Nat) : List Char → Option Nat
  | '*' :: '/' :: _ => some (n + 2)
  | _ :: rest => blockEnd (n + 1) rest
  | [] => none

def blockComment : Pattern
  | '/' :: '*' :: rest => blockEnd 2 rest
  | _ => none

/-- The place behind the closing quote. Doubled quotes are passed over; if the text ends first, the
last of them is split and its first half closes. -/
def quoteEnd (quote : Char) (n : Nat) (fallback : Option Nat) : List Char → Option Nat
  | [] => fallback
  | [c] => if c = quote then some (n + 1) else fallback
  | c :: d :: rest =>
    if c = quote then
      if d = quote then quoteEnd quote (n + 2) (some (n + 1)) rest else some (n + 1)
    else quoteEnd quote (n + 1) fallback (d :: rest)

def quotedName : Pattern
  | '"' :: rest => (quoteEnd '"' 1 none rest).filter (2 < ·)
  | _ => none

def string : Pattern
  | '\'' :: rest => quoteEnd '\'' 1 none rest
  | _ => none

def isSpace (c : Char) : Bool :=
  c = ' ' || c = '\t' || c = '\x0c' || c = '\r' || c = '\n'

def space : Pattern := fun cs =>
  let n := (cs.takeWhile isSpace).length
  if n = 0 then none else some n

def lineComment : Pattern
  | '-' :: '-' :: rest => some (2 + (rest.takeWhile (· != '\n')).length)
  | _ => none

def param : Pattern
  | '$' :: rest =>
    let n := digitRun rest
    if n = 0 then none else some (1 + n)
  | _ => none

/-- The first of the spellings that the text starts with. -/
def oneOf (spellings : List String) : Pattern := fun cs =>
  (spellings.find? fun s => s.toList.isPrefixOf cs).map fun s => s.toList.length

/-- Longer operators come before their beginnings. -/
def operators : List String :=
  ["->>", "->", "#>>", "#>", "#-", "@>", "<@", "@@", "@?", "?|", "?&", "?", "||", "&&", "!~*",
   "!~", "~*", "~", "<->", "<<", ">>", "|", "&"]

def symbols : List String :=
  ["<>", "!=", ">=", "<=", "::", "^", ",", ".", "=", ">", "(", "[", "<", "-", "%", "+", ")", "]",
   "/", "*", ";"]

/-- A name that spells a keyword is that keyword. -/
def nameToken (t : String) : Token :=
  let word := String.ofList (t.toList.map foldLetter)
  if Token.keywords.contains word then .keyword word t else .name t

/-- The classes in the order in which they are tried; a class without a token is skipped. -/
def classes : List (Pattern × Option (String → Token)) :=
  [(number, some .number), (name, some nameToken), (blockComment, none),
   (quotedName, some .quotedName), (string, some .string), (space, none), (lineComment, none),
   (param, some .param), (oneOf operators, some .operator), (oneOf symbols, some .symbol)]

def firstMatch (cs : List Char) : Option (Nat × Option (String → Token)) :=
  classes.findSome? fun c => (c.1 cs).map fun n => (n, c.2)

/-- At most `n` steps of lexing: the lexemes, and what is left from the first character that no
class matches. `gap` is what was skipped before. -/
def lexUpTo : Nat → List Char → List Char → List Lexeme × List Char
  | _, _, [] => ([], [])
  | 0, _, cs => ([], cs)
  | n + 1, gap, c :: rest =>
    match firstMatch (c :: rest) with
    | none => ([], c :: rest)
    | some (length, kind) =>
      let taken := (c :: rest).take length
      let left := rest.drop (length - 1)
      match kind with
      | none => lexUpTo n (gap ++ taken) left
      | some make =>
        let (lexemes, stuck) := lexUpTo n [] left
        (⟨gap, make (String.ofList taken)⟩ :: lexemes, stuck)

/-- The lexemes of a text. Every step takes a character, so there are no more steps than
characters. -/
def lex (cs : List Char) : List Lexeme × List Char := lexUpTo cs.length [] cs

/-- The place that follows the text `before`. -/
def placeAfter (before : List Char) : Place :=
  ⟨1 + before.count '\n', 1 + (before.reverse.takeWhile (· != '\n')).length⟩

end SqlTree.Lexer

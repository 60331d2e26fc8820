import SqlTree.Token.Lexer
import SqlTree.Syntax.Parser.Statement

/-!
The commands of an SQL text. A text is refused at the first character that no token starts with, or
at the first token with which no command goes on, whichever comes first.
-/

namespace SqlTree.Syntax

/-- The place of the first of the lexemes that were left. -/
def placeOf (lexemes rest : List Lexeme) : Place :=
  let taken := lexemes.take (lexemes.length - rest.length)
  let gap := (rest.head?.map Lexeme.gap).getD []
  Lexer.placeAfter (taken.flatMap Lexeme.source ++ gap)

/-- The place at which the characters `rest` are left of a text. -/
def placeBefore (text rest : List Char) : Place :=
  Lexer.placeAfter (text.take (text.length - rest.length))

def commandsOf (s : String) : Except Fault (List Command) :=
  let (lexemes, stuck) := Lexer.lex s.toList
  match Parser.commands (Parser.nested lexemes.length) lexemes, stuck with
  | .ok (cs, _), [] => .ok cs
  | .error [], [] => .error .unexpectedEnd
  | .error (l :: ls), _ => .error (.unexpected (placeOf lexemes (l :: ls)))
  | _, stuck => .error (.unexpected (placeBefore s.toList stuck))

end SqlTree.Syntax

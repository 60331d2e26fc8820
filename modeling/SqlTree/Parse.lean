import SqlTree.Syntax.Text
import SqlTree.Syntax.Reading.Tree
import SqlTree.Format

/-!
Parsing: SQL text as clause maps, and SQL text in a normal form.
-/

namespace SqlTree

/-- How deep a syntax tree may be unless a caller says otherwise. -/
def defaultParseDepth : Int := 150

def isBlankText (s : String) : Bool := s.toList.all (" \t\r\n;".toList.contains ·)

/-- The clause maps of all statements of a text. -/
def parseAll (maxDepth : Int) (s : String) : Except Fault (List Value) :=
  if isBlankText s then .ok [] else do Syntax.readAll maxDepth (← Syntax.commandsOf s)

/-- The clause map of the first statement. The other ones have to be readable as well. -/
def parse (maxDepth : Int) (s : String) : Except Fault Value := do
  match ← parseAll maxDepth s with
  | [] => throw (.noStatement s)
  | v :: _ => return v

/-- The text with its statements written out in one way. -/
def normalize (dialect : Option String) (s : String) : Except Fault String := do
  let statements ← parseAll defaultParseDepth s
  let texts ← statements.mapM fun v => do
    return (← format .standard { dialect, inline := true } v).sql
  return "; ".intercalate texts

end SqlTree

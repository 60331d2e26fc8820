import SqlTree.Dialect
import SqlTree.Value.Json

/-!
Values as SQL literals.
-/

namespace SqlTree.Literal

mutual

/-- The SQL text of a value. Maps are JSON in quotes; sets have no literal form. -/
def render (d : Dialect) : Value → Except Fault String
  | .null => .ok "NULL"
  | .bool b => .ok (if b then "TRUE" else "FALSE")
  | .int n => .ok (toString n)
  | .real x => .ok x.text
  | .decimal d => .ok d.text
  | .text s => .ok (d.stringLiteral s)
  | .bytes bs => .ok (d.bytesLiteral bs)
  | .buffer bs => .ok (d.bytesLiteral bs)
  | .datetime s => .ok (d.stringLiteral (Calendar.spaced s))
  | .date s => .ok (d.stringLiteral s)
  | .time s => .ok (d.stringLiteral s)
  | .uuid s => .ok (d.stringLiteral s)
  | .list xs => do return "ARRAY[" ++ ", ".intercalate (← renderItems d xs) ++ "]"
  | .tuple xs => do return "ARRAY[" ++ ", ".intercalate (← renderItems d xs) ++ "]"
  | .map es =>
    match Json.encode? (.map es) with
    | some s => .ok (d.stringLiteral s)
    | none => .error .wrongType
  | .set xs => .error (.noLiteral (.set xs))

def renderItems (d : Dialect) : List Value → Except Fault (List String)
  | [] => .ok []
  | x :: xs => do return (← render d x) :: (← renderItems d xs)

end

end SqlTree.Literal

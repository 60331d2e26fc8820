import SqlTree.Render.Name
import SqlTree.Render.Fragment
import SqlTree.Literal

/-!
Rendering of values: literals, placeholders, parameters and typed values. The number of
placeholders written so far is carried along.
-/

namespace SqlTree

/-- Rendering may fail, and counts the placeholders. -/
abbrev Render := StateT Nat (Except Fault)

namespace Render

variable (s : Settings)

def fail {α : Type} (f : Fault) : Render α := fun _ => .error f

def words (t : Except Fault String) : Render Fragment := do return .ofText (← t)

def literal (v : Value) : Render Fragment := do
  return [.literal (← Literal.render s.dialect v)]

/-- The literal of a value, or the next placeholder for it. -/
def bind (v : Value) : Render Fragment :=
  if s.inline then literal s v
  else modifyGet fun n => ([.slot (n + 1) v], n + 1)

/-- Null and truth values are always written as words. -/
def plain (v : Value) : Render Fragment :=
  match v with
  | .null => literal s v
  | .bool _ => literal s v
  | v => bind s v

def jsonTypes : List String := ["json", "jsonb"]

/-- Maps and lists of a JSON type become JSON text. -/
def jsonValue (type : String) (v : Value) : Except Fault Value :=
  if jsonTypes.contains (Text.lower type) then
    match v with
    | .map _ | .list _ =>
      match Json.encode? v with
      | some t => .ok (.text t)
      | none => .error .wrongType
    | v => .ok v
  else .ok v

/-- A value behind which its type is written; `$` is no type. -/
def typed (type : String) (v : Value) : Render Fragment := do
  if type = Form.valueKey then plain s v
  else
    let f ← plain s (← jsonValue type v)
    return f ++ [.text "::", .text (← Identifier.typeName type)]

def sortedTexts (ts : List String) : List String := ts.mergeSort (fun a b => decide (a ≤ b))

def param (name : Value) : Except Fault Value :=
  match s.params.lookup name.shown with
  | some v => .ok v
  | none => .error (.missingParameter name.shown (sortedTexts (s.params.map (·.1))))

def boundParam (name : Value) : Render Fragment := do bind s (← param s name)

end Render

end SqlTree

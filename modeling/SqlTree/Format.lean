import SqlTree.Render.Statement

/-!
Formatting: a clause map, or any single expression, as SQL text with the values of its
placeholders.
-/

namespace SqlTree

structure Formatted where
  sql : String
  params : List Value
deriving Inhabited

/-- A map is a statement unless it is a wrapper or an untyped value. -/
def isStatement (es : Entries) : Bool :=
  !Form.wrapperKeys.any (Entries.hasField es ·) &&
    !(match es with
      | [(.text key, _)] => key = Form.valueKey
      | _ => false)

/-- The fragment of a value at the top of a rendering by `r`. -/
def fragmentBy (r : Renderer) (s : Settings) (data : Value) : Render Fragment :=
  match data with
  | .map es => if isStatement es then r.statement s false es else r.expr s false data
  | data => r.expr s false data

def fragment (s : Settings) (data : Value) : Render Fragment :=
  fragmentBy (Render.upTo (data.height + 1)) s data

def format (registry : Registry) (o : Options) (data : Value) : Except Fault Formatted := do
  let s ← Settings.ofOptions registry o
  let f ← (fragment s data).run' 0
  return ⟨f.sql s.dialect s.numbered, f.values⟩

end SqlTree

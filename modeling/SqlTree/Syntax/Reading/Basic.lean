import SqlTree.Form
import SqlTree.Syntax.Tree

/-!
Reading syntax trees as clause maps. A reading goes down the tree, and knows how deep it is.
-/

namespace SqlTree.Syntax

structure Depth where
  limit : Int
  reached : Nat
deriving DecidableEq, Repr

abbrev Read (α : Type) := ReaderT Depth (Except Fault) α

/-- Reads a node one level deeper, if the limit allows it. -/
def visit {α : Type} (r : Read α) : Read α := fun d =>
  let deeper : Depth := ⟨d.limit, d.reached + 1⟩
  if d.limit < deeper.reached then .error (.textTooDeep deeper.reached d.limit) else r deeper

def visitAll {α : Type} (rs : List (Read α)) : Read (List α) := visit (rs.mapM id)

/-- An array with a head. -/
def headed (head : String) (items : List Value) : Value := .list (.text head :: items)

def untyped (v : Value) : Value := .typed v Form.valueKey

/-- The content of an untyped value. -/
def untyped? : Value → Option Value
  | .map [(.text key, v)] => if key = Form.valueKey then some v else none
  | _ => none

end SqlTree.Syntax

import SqlTree.Dialect

/-!
Rendered SQL before it is put into one text. A fragment keeps its values apart from its words, so
that the same fragment can be written with either kind of placeholder.
-/

namespace SqlTree

inductive Piece where
  /-- Words, names and punctuation. -/
  | text (s : String)
  /-- The SQL literal of a value. -/
  | literal (s : String)
  /-- The place of a value that is bound; `index` counts the places from one. -/
  | slot (index : Nat) (value : Value)
deriving Inhabited

abbrev Fragment := List Piece

namespace Piece

def sql (d : Dialect) (numbered : Bool) : Piece → String
  | text s => s
  | literal s => s
  | slot index _ => d.placeholder index numbered

def value? : Piece → Option Value
  | slot _ v => some v
  | _ => none

def isBlank : Piece → Bool
  | text s => s.isEmpty
  | literal s => s.isEmpty
  | slot .. => false

end Piece

namespace Fragment

def ofText (s : String) : Fragment := [.text s]

def sql (d : Dialect) (numbered : Bool) (f : Fragment) : String :=
  String.join (f.map (Piece.sql d numbered))

def values (f : Fragment) : List Value := f.filterMap Piece.value?

/-- Nothing is written for the fragment. -/
def isBlank (f : Fragment) : Bool := f.all Piece.isBlank

@[simp] theorem values_append (f g : Fragment) : values (f ++ g) = values f ++ values g :=
  List.filterMap_append

@[simp] theorem sql_append (d : Dialect) (numbered : Bool) (f g : Fragment) :
    sql d numbered (f ++ g) = sql d numbered f ++ sql d numbered g := by
  simp [sql]

@[simp] theorem isBlank_append (f g : Fragment) : isBlank (f ++ g) = (isBlank f && isBlank g) :=
  List.all_append

def joined (separator : String) : List Fragment → Fragment
  | [] => []
  | [f] => f
  | f :: fs => f ++ .text separator :: joined separator fs

def commas (fs : List Fragment) : Fragment := joined ", " fs

def between (opening closing : String) (f : Fragment) : Fragment :=
  .text opening :: f ++ [.text closing]

def parens (f : Fragment) : Fragment := between "(" ")" f

def parensIf (nested : Bool) (f : Fragment) : Fragment := if nested then parens f else f

/-- Text in front of a fragment. -/
def after (s : String) (f : Fragment) : Fragment := .text s :: f

end Fragment

end SqlTree

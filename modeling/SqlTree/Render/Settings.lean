import SqlTree.Registry
import SqlTree.Dialect
import SqlTree.Form

/-!
The settings of one rendering, and how they follow from the options that a caller gives.
-/

namespace SqlTree

inductive Checking where
  | none
  | basic
  | strict
deriving DecidableEq, Repr, Inhabited

namespace Checking

def word : Checking → String
  | none => "none"
  | basic => "basic"
  | strict => "strict"

def ofName : String → Except Fault Checking
  | "none" => .ok none
  | "basic" => .ok basic
  | "strict" => .ok strict
  | s => .error (.unknownChecking s)

end Checking

/-- What a caller may choose. An absent choice is left to the dialect or to the library. -/
structure Options where
  dialect : Option String := none
  quoted : Bool := false
  quotedSnake : Bool := false
  inline : Bool := false
  numbered : Option Bool := none
  params : List (String × Value) := []
  checking : String := "none"
  nullTests : Bool := true
  maxDepth : Option Int := none
deriving Inhabited

structure Settings where
  dialect : Dialect
  registry : Registry
  clauseOrder : List String
  quoted : Bool
  quotedSnake : Bool
  inline : Bool
  numbered : Bool
  params : List (String × Value)
  checking : Checking
  nullTests : Bool
  maxDepth : Int
  /-- How many expressions enclose the current one. -/
  depth : Int
  /-- The statement that is being rendered. -/
  statement : Entries
deriving Inhabited

namespace Settings

def defaultMaxDepth : Int := 100

def ofOptions (registry : Registry) (o : Options) : Except Fault Settings := do
  let dialect ← Dialect.ofName (o.dialect.getD "postgres")
  let checking ← Checking.ofName o.checking
  return {
    dialect
    registry
    clauseOrder := dialect.clauseOrder registry.clauseOrder
    quoted := o.quoted || o.quotedSnake
    quotedSnake := o.quotedSnake
    inline := o.inline
    numbered := o.numbered.getD dialect.numberedByDefault
    params := o.params
    checking
    nullTests := o.nullTests
    maxDepth := o.maxDepth.getD defaultMaxDepth
    depth := 0
    statement := [] }

variable (s : Settings)

def checks : Bool := s.checking != .none

def inlined : Settings := { s with inline := true }

/-- One expression further inside. -/
def inner : Settings := { s with depth := s.depth + 1 }

def within (statement : Entries) : Settings := { s with statement }

def form (v : Value) : Form := Form.of s.registry.clauseKeys v

def isClause (v : Value) : Bool := Form.isClause s.registry.clauseKeys v

end Settings

end SqlTree

import SqlTree.Syntax.Reading.Name

/-!
The tables of `FROM`. Joins go under their own clauses if that keeps their order, and else into one
sequence.
-/

namespace SqlTree.Syntax

/-- A join's clause and its entry. -/
abbrev Joined := String × Value

/-- One item of a `FROM` list. -/
structure FromItem where
  table : Value
  joins : List Joined

namespace Joined

/-- Adds an entry to its clause. -/
def insert (groups : List (String × List Value)) (j : Joined) : List (String × List Value) :=
  match groups with
  | [] => [(j.1, [j.2])]
  | g :: gs => if g.1 = j.1 then (g.1, g.2 ++ [j.2]) :: gs else g :: insert gs j

def inOrder : List Nat → Bool
  | a :: b :: rest => a ≤ b && inOrder (b :: rest)
  | _ => true

def entries (joins : List Joined) : Entries :=
  if joins.isEmpty then []
  else if inOrder (joins.map fun j => Clause.order.idxOf j.1) then
    (joins.foldl insert []).map fun g => (.text g.1, .list g.2)
  else [(.text "join-by", .list (joins.flatMap fun j => [.text j.1, j.2]))]

end Joined

namespace FromItem

/-- Some item that is not the last has joins. -/
def isChained (items : List FromItem) : Bool := items.dropLast.any fun i => !i.joins.isEmpty

/-- The list as one chain, in which a comma is a cross join. -/
def chain : List FromItem → List Joined
  | [] => []
  | i :: rest => ("cross-join", i.table) :: i.joins ++ chain rest

def tables (items : List FromItem) : List Value :=
  (if isChained items then items.take 1 else items).map FromItem.table

def joined (items : List FromItem) : List Joined :=
  if isChained items then (chain items).drop 1 else items.flatMap FromItem.joins

/-- A lone name stands for the list that holds it. -/
def tableValue : List Value → Value
  | [.text t] => .text t
  | ts => .list ts

def entries (items : List FromItem) : Entries :=
  (.text "from", tableValue (tables items)) :: Joined.entries (joined items)

end FromItem

end SqlTree.Syntax

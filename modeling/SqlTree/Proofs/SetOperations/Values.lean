import SqlTree.Proofs.Grammar
import SqlTree.Proofs.Nesting.Layers

/-!
The values of set operations, whatever the operations and the `SELECT`s stand for: of a syntax tree, of
a clause map, and of a text that is read by the rules of the grammar.
-/

namespace SqlTree.SetOperations

open Grammar (Rule)
open Syntax (Depth Kind Tree Read SetOperator visit)
open Nesting (bodyOf readLayer withsOf)

section Tails

/-- A clause behind the body of a query. -/
inductive Ending where
  | order
  | limit
  | offset
deriving DecidableEq

namespace Ending

def all : List Ending := [order, limit, offset]

def key : Ending → String
  | order => "order-by"
  | limit => "limit"
  | offset => "offset"

end Ending

/-- What stands behind the body of a query. -/
abbrev Tail := Ending → Option Value

namespace Tail

def ofEntries (es : Entries) : Tail := fun e => Entries.field? es e.key

def isEmpty (t : Tail) : Bool := Ending.all.all fun e => (t e).isNone

end Tail

end Tails

/-- What is left open here: what a `SELECT` results in, and what is done to results. -/
structure Interpretation (R : Type) where
  select : Entries → R
  operation : SetOperator → R → R → R
  tail : Tail → R → R
  withs : Entries → R → R

variable {R : Type} (I : Interpretation R)

namespace Interpretation

def tailed (t : Tail) (x : R) : R := if t.isEmpty then x else I.tail t x

def bound (withs : Entries) (x : R) : R := if withs.isEmpty then x else I.withs withs x

section Pointwise

/-- All interpretations with a property at once. -/
def pointwise (p : Interpretation R → Prop) : Interpretation ({ I // p I } → R) where
  select es J := J.1.select es
  operation op x y J := J.1.operation op (x J) (y J)
  tail t x J := J.1.tail t (x J)
  withs es x J := J.1.withs es (x J)

variable {p : Interpretation R → Prop} (J : { I // p I })

@[simp] theorem tailed_pointwise (t : Tail) (x : { I // p I } → R) :
    (pointwise p).tailed t x J = J.1.tailed t (x J) := by
  unfold tailed
  split <;> rfl

@[simp] theorem bound_pointwise (withs : Entries) (x : { I // p I } → R) :
    (pointwise p).bound withs x J = J.1.bound withs (x J) := by
  unfold bound
  split <;> rfl

end Pointwise

section Trees

/-- The value of a query or its body as the text groups them. Other trees have none. -/
def value : {k : Kind} → Tree k → Read R
  | _, .query ctes body order limits lock => visit do
    let x ← value body
    let l ← readLayer ctes order limits lock
    return I.bound l.withs (I.tailed (.ofEntries l.tail) x)
  | _, .selectBody s => do return I.select (← (s.read : Read Entries))
  | _, .nested q => value q
  | _, .operation op left right => visit do
    let x ← value left
    return I.operation op x (← value right)
  | _, _ => fun _ => .error .unsupported

end Trees

section Maps

def operator? : Value → Option SetOperator
  | .text "union" => some .union
  | .text "union-all" => some .unionAll
  | .text "intersect" => some .intersect
  | .text "except" => some .except
  | .text "except-all" => some .exceptAll
  | _ => none

/-- Results that are put together from the left. -/
def folded (op : SetOperator) : List R → Option R
  | [] => none
  | x :: xs => some (xs.foldl (I.operation op) x)

mutual

/-- The value of a clause map: its set operation or else its `SELECT`, then the tail, then the common
table expressions. -/
def ofMap : Value → Option R
  | .map es => some <| I.bound (withsOf es) <| I.tailed (.ofEntries es) <|
    (operation? es).getD (I.select (bodyOf es))
  | _ => none

/-- The value of the set operation that is among the entries. -/
def operation? : List (Value × Value) → Option R
  | [] => none
  | (k, v) :: es =>
    match operator? k with
    | some op => I.folded op (branches v)
    | none => operation? es

def branches : Value → List R
  | .list vs => branchValues vs
  | _ => []

def branchValues : List Value → List R
  | [] => []
  | v :: vs => (ofMap v).toList ++ branchValues vs

end

end Maps

end Interpretation

section Texts

/-- What the text of a query is made of, its `SELECT`s and the clauses around a body being left
closed. -/
inductive Mark where
  | opening
  | closing
  | sign (op : SetOperator)
  | select (es : Entries)
  | withs (es : Entries)
  | tail (e : Ending) (v : Value)

def withMark? (withs : Entries) : Option Mark := if withs.isEmpty then none else some (.withs withs)

def Tail.mark? (t : Tail) (e : Ending) : Option Mark := (t e).map (.tail e)

def Tail.marks (t : Tail) : List Mark := Ending.all.flatMap fun e => (t.mark? e).toList

/-- The text has the value by a rule of the grammar: `INTERSECT` binds tighter than the other
operations, and all of them group from the left. -/
inductive Reads : Rule → List Mark → R → Prop
  | select (es : Entries) : Reads .setPrimary [.select es] (I.select es)
  | parens {ms : List Mark} {x : R} : Reads .query ms x →
      Reads .setPrimary (.opening :: ms ++ [.closing]) x
  | primary {ms : List Mark} {x : R} : Reads .setPrimary ms x → Reads .setTerm ms x
  | intersect {ls rs : List Mark} {x y : R} : Reads .setTerm ls x → Reads .setPrimary rs y →
      Reads .setTerm (ls ++ .sign .intersect :: rs) (I.operation .intersect x y)
  | term {ms : List Mark} {x : R} : Reads .setTerm ms x → Reads .setExpr ms x
  | operation {op : SetOperator} {ls rs : List Mark} {x y : R} : op ≠ .intersect →
      Reads .setExpr ls x → Reads .setTerm rs y →
      Reads .setExpr (ls ++ .sign op :: rs) (I.operation op x y)
  | query (withs : Entries) (t : Tail) {ms : List Mark} {x : R} : Reads .setExpr ms x →
      Reads .query ((withMark? withs).toList ++ ms ++ t.marks) (I.bound withs (I.tailed t x))

variable {I}

/-- A text that has a value in all interpretations has it in each of them. -/
theorem Reads.at {p : Interpretation R → Prop} {r : Rule} {ms : List Mark} {x : { I // p I } → R}
    (h : Reads (.pointwise p) r ms x) (J : { I // p I }) : Reads J.1 r ms (x J) := by
  induction h with
  | select es => exact .select es
  | parens _ ih => exact .parens ih
  | primary _ ih => exact .primary ih
  | intersect _ _ ihl ihr => exact .intersect ihl ihr
  | term _ ih => exact .term ih
  | operation hop _ _ ihl ihr => exact .operation hop ihl ihr
  | query withs t _ ih =>
    rw [Interpretation.bound_pointwise, Interpretation.tailed_pointwise]
    exact .query withs t ih

end Texts

end SqlTree.SetOperations

import SqlTree.Walk.Basic

/-!
Replacing selected columns while their output names stay. A column is found by the table it
resolves to, by its own name, or by its output name.
-/

namespace SqlTree

def itemsOf (es : Entries) (key : String) : Except Fault (List Value) :=
  match Entries.field? es key with
  | none => .ok []
  | some v =>
    if v.given then
      match v.elements? with
      | some vs => .ok vs
      | none => .error .wrongType
    else .ok []

/-- The tables of FROM and of the joins; a list holds several, anything else is one. -/
def tableItems (es : Entries) : Except Fault (List Value) := do
  let sources := match Entries.field? es "from" with
    | some (.list vs) => vs
    | some v => if v.given then [v] else []
    | none => []
  let entries ← Clause.joins.mapM (itemsOf es)
  return sources ++ entries.flatten.filterMap fun entry => entry.items?.bind List.head?

/-- A binding replaces an earlier one in its place. -/
def bindName (bindings : List (String × String)) (name target : String) :
    List (String × String) :=
  if bindings.any (·.1 = name) then
    bindings.map fun b => if b.1 = name then (name, target) else b
  else bindings ++ [(name, target)]

namespace Override

def bindAlias (bindings : List (String × String)) (item : Value) : List (String × String) :=
  match item with
  | .text t => bindName bindings t t
  | item =>
    match item.items? with
    | some [.text table, .text t] => bindName (bindName bindings t table) table table
    | some [_, .text t] => bindName bindings t t
    | _ => bindings

/-- What each name in front of a column stands for. -/
def aliasTables (es : Entries) : Except Fault (List (String × String)) := do
  return (← tableItems es).foldl bindAlias []

/-- The texts before and after the first point. -/
def splitColumn? (t : String) : Option (String × String) :=
  let cs := t.toList
  match cs.dropWhile (· != '.') with
  | [] => none
  | _ :: rest => some (String.ofList (cs.takeWhile (· != '.')), String.ofList rest)

def resolveText (tables : List (String × String)) (t : String) : String × String :=
  match splitColumn? t with
  | some (table, column) => ((tables.lookup table).getD table ++ "." ++ column, column)
  | none => (t, t)

/-- The resolved name and the output name of a selected item. -/
def resolve? (tables : List (String × String)) (item : Value) : Option (String × String) :=
  match item with
  | .text t => some (resolveText tables t)
  | item =>
    match item.items? with
    | some [expr, .text t] =>
      if t.toList.head? = some '%' then none
      else match expr with
        | .text e => some ((resolveText tables e).1, t)
        | _ => some (t, t)
    | _ => none

/-- The keys under which an item is looked up, first to last. -/
def candidates (name output : String) : List String :=
  [name] ++ (match splitColumn? name with
    | some (_, column) => [column]
    | none => []) ++ [output]

def item (overrides : Entries) (tables : List (String × String)) (v : Value) : Value :=
  match resolve? tables v with
  | none => v
  | some (name, output) =>
    match (candidates name output).findSome? (Entries.field? overrides) with
    | some replacement => .list [replacement, .text output]
    | none => v

def selection (overrides : Entries) (tables : List (String × String)) (key : String) (v : Value) :
    Except Fault Value :=
  if !v.given then .ok v
  else if key = "select-distinct-on" then
    match v.elements? with
    | none => .error .wrongType
    | some [] => .error .wrongCount
    | some (on :: vs) => .ok (.list (on :: vs.map (item overrides tables)))
  else
    let vs := match v with
      | .list vs => vs
      | v => [v]
    .ok (.list (vs.map (item overrides tables)))

end Override

/-- Replaces the selected items that `overrides` names. -/
def overrideSelects (overrides : Entries) (statement : Value) : Except Fault Value :=
  match statement with
  | .map es => do
    let tables ← Override.aliasTables es
    let es ← Clause.selections.foldlM (fun es key => do
      match Entries.field? es key with
      | none => return es
      | some v => return Entries.putField es key (← Override.selection overrides tables key v)) es
    return .map es
  | v => .error (Walk.notMap v)

end SqlTree

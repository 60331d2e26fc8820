import SqlTree.Render.Special
import SqlTree.Render.Clauses

/-!
Rendering of statements and of expressions of every kind, and the renderer that results when the
parts of a value are rendered in the same way as the value.
-/

namespace SqlTree.Render

open Fragment (ofText joined commas between parens parensIf after)

variable (r : Renderer) (s : Settings)

def keyText : Value → String := Value.shown

def unknownKeys (known : List String) (statement : Entries) : List String :=
  (statement.filter fun e => !(e.1.text?.any known.contains)).map fun e => keyText e.1

/-- The clause `key` of the statement, if the statement has it. -/
def clauseOf (statement : Entries) (key : String) : Render (Option Fragment) :=
  match Entries.field? statement key, s.registry.clause? key with
  | none, _ => pure none
  | some .null, _ => pure none
  | some _, none => pure none
  | some v, some form => do
    let f ← clause r s form key v
    return if f.isBlank then none else some f

def checkKeys (es : Entries) : Except Fault Unit :=
  let known := s.registry.clauseKeys
  let unknown := unknownKeys known es
  if unknown.isEmpty then .ok () else .error (.unknownClause unknown (sortedTexts known))

/-- The clauses of a statement in the order of the settings, those without text left out. -/
def statement (nested : Bool) (es : Entries) : Render Fragment := do
  checkKeys s es
  let fs ← s.clauseOrder.mapM (clauseOf r (s.within es) es)
  return parensIf nested (joined " " fs.reduceOption)

/-- An array is an operation, a call or a special form if its head is a text, else a row. -/
def operation (nested : Bool) (head : String) (args : List Value) : Render Fragment :=
  let op := Registry.normalize head
  if Operator.equality.contains op && s.registry.isBinary op then equality r s nested op args
  else if s.registry.isBinary op then infixed r s nested op args
  else if Operator.membership.contains op then membership r s nested op args
  else
    match s.registry.form? op with
    | some form => special r s form op args
    | none =>
      if Identifier.isIdentText head || Identifier.isCallHead head then call r s head args
      else fail (.unknownOperator head)

def arrayOf (nested : Bool) (vs : List Value) : Render Fragment :=
  match vs with
  | [] => pure (ofText "")
  | .text head :: args => operation r s nested head args
  | vs => do return parens (← list r s vs)

section Expressions

-- how a statement in the place of an expression is rendered
variable (stated : Settings → Entries → Render Fragment)

def mapOf (es : Entries) : Render Fragment :=
  let field := fun key => (Entries.field? es key).getD .null
  match Form.ofEntries s.registry.clauseKeys es with
  | .raw => splice r s (field Form.rawKey)
  | .param => boundParam s (field Form.paramKey)
  | .lift => bind s (field Form.liftKey)
  | .literal => literal s (field Form.literalKey)
  | .typed =>
    match es with
    | [(.text type, v)] => typed s type v
    | _ => stated s es
  | _ => stated s es

def expression (nested : Bool) (v : Value) : Render Fragment :=
  match v with
  | .text t => if Identifier.isIdentText t then words (ident s t) else bind s v
  | .map es => mapOf r s stated es
  | .list vs => arrayOf r s nested vs
  | .tuple vs => arrayOf r s nested vs
  | v => plain s v

/-- The limit bounds how deep expressions nest. -/
def checkDepth : Render Unit :=
  if s.depth > s.maxDepth then fail (.expressionTooDeep s.depth s.maxDepth) else pure ()

/-- Renders one expression deeper. -/
def deeper (nested : Bool) (v : Value) : Render Fragment := do
  checkDepth s.inner
  expression r s.inner stated nested v

end Expressions

/-- The renderer of values that are at most `n` levels high. -/
def upTo : Nat → Renderer
  | 0 => ⟨fun _ _ _ => fail .unsupported, fun _ _ _ => fail .unsupported⟩
  | n + 1 => ⟨fun s => deeper (upTo n) s (statement (upTo n) · true), statement (upTo n)⟩

end SqlTree.Render

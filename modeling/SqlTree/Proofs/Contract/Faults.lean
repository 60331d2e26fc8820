import SqlTree.Proofs.Ensures
import SqlTree.Render.Special
import SqlTree.Render.Clauses

/-!
The faults of names, types and literals. None of them says that an operator or a clause is unknown.
-/

namespace SqlTree

/-- The two faults that say that a name is not known. -/
def Fault.isUnknown (e : Fault) : Bool := e.kind = .unknownOperator || e.kind = .unknownClause

theorem Meets.weaken {α : Type} {E E' : Fault → Prop} {P : α → Prop} {x : Except Fault α}
    (h : Meets E P x) (hE : ∀ e, E e → E' e) : Meets E' P x := by
  cases x with
  | error e => exact hE e h
  | ok a => exact h

/-- A result, or a fault other than that a name is not known. -/
abbrev Known {α : Type} (x : Except Fault α) : Prop :=
  Meets (fun e => e.isUnknown = false) (fun _ => True) x

namespace Known

variable {α β : Type}

theorem error {e : Fault} (h : e.isUnknown = false) : Known (.error e : Except Fault α) := h

theorem bind {x : Except Fault α} {k : α → Except Fault β} (h : Known x) (hk : ∀ a, Known (k a)) :
    Known (x >>= k) :=
  Meets.bind h fun a _ => hk a

theorem mapM {f : α → Except Fault β} {as : List α} (h : ∀ a, Known (f a)) : Known (as.mapM f) :=
  (Meets.mapM fun a _ => h a).mono fun _ _ => trivial

end Known

namespace Identifier

theorem known_checkNullBytes (t place : String) : Known (checkNullBytes t place) := by
  unfold checkNullBytes
  split
  · exact .error rfl
  · trivial

theorem known_check (part : String) (limit : Int) : Known (check part limit) := by
  unfold check
  dsimp only
  by_cases hempty : part.isEmpty = true
  · rw [if_pos hempty]
    exact Known.error (e := .emptyName) rfl
  rw [if_neg hempty]
  by_cases hsemicolon : part.toList.contains ';' = true
  · rw [if_pos hsemicolon]
    exact Known.error (e := .suspiciousName part) rfl
  rw [if_neg hsemicolon]
  refine .bind (known_checkNullBytes part _) fun _ => ?_
  split
  · exact Known.error (e := .longName part limit) rfl
  · trivial

theorem known_typeName (type : String) : Known (typeName type) := by
  unfold typeName
  split
  · exact .error rfl
  · exact .bind (known_checkNullBytes type _) fun _ => trivial

end Identifier

mutual

theorem Literal.known_render (d : Dialect) : ∀ v : Value, Known (Literal.render d v)
  | .null | .bool _ | .int _ | .real _ | .decimal _ | .text _ | .bytes _ | .buffer _
  | .datetime _ | .date _ | .time _ | .uuid _ => trivial
  | .list vs | .tuple vs => .bind (Literal.known_renderItems d vs) fun _ => trivial
  | .map es => by
    rw [Literal.render]
    split
    · trivial
    · exact .error rfl
  | .set vs => .error (e := .noLiteral (.set vs)) rfl

theorem Literal.known_renderItems (d : Dialect) :
    ∀ vs : List Value, Known (Literal.renderItems d vs)
  | [] => trivial
  | v :: vs => .bind (Literal.known_render d v) fun _ =>
    .bind (Literal.known_renderItems d vs) fun _ => trivial

end

namespace Render

variable (s : Settings)

section Names

theorem known_namePart (part : String) : Known (namePart s part) := by
  unfold namePart
  split
  · trivial
  · exact .bind (Identifier.known_check part _) fun _ => trivial

theorem known_nameText (t : String) : Known (nameText s t) :=
  .bind (.mapM fun part => known_namePart s part) fun _ => trivial

theorem known_aliasText (t : String) : Known (aliasText s t) := by
  unfold aliasText
  split
  · split
    · exact .error rfl
    · trivial
  · exact known_namePart s _

theorem known_aliasName (v : Value) : Known (aliasName s v) := by
  unfold aliasName
  split
  · exact known_aliasText s _
  · exact .error rfl

theorem known_name (v : Value) : Known (name s v) := by
  unfold Render.name
  split
  · split
    · exact known_nameText s _
    · split <;> exact .error rfl
  · exact .error rfl

theorem known_quotedEntity (v : Value) : Known (quotedEntity s v) := by
  unfold quotedEntity
  split
  · exact .bind (.mapM fun part => .bind (Identifier.known_check part _) fun _ => trivial)
      fun _ => trivial
  all_goals exact .error rfl

theorem known_ident (t : String) : Known (ident s t) := by
  unfold Render.ident
  split
  · split
    · trivial
    · exact .bind (.mapM fun a => known_nameText s a) fun _ => trivial
  · exact known_nameText s t

theorem known_excluded (v : Value) : Known (excluded s v) :=
  .bind (.mapM fun c => known_name s c) fun _ => trivial

theorem known_fieldPath (fields : List Value) : Known (Render.fieldPath s fields) := by
  refine .bind (.mapM fun v => ?_) fun _ => trivial
  unfold entity
  split
  · exact known_nameText s _
  · exact .error rfl

theorem known_checkHead (head : String) : Known (checkHead s head) := by
  unfold checkHead
  generalize Text.parts _ _ = parts
  induction parts with
  | nil => trivial
  | cons part parts ih => exact .bind (Identifier.known_check part _) fun _ => ih

end Names

omit s

section Words

theorem known_keyword (v : Value) : Known (keyword v) := by
  unfold Render.keyword
  split
  · trivial
  all_goals exact .error rfl

theorem known_typeName (v : Value) : Known (typeName v) := by
  unfold Render.typeName
  split
  · exact Identifier.known_typeName _
  iterate 4
    · dsimp only
      split <;> [exact .error rfl; (split <;> exact .error rfl)]
  · exact .error rfl

theorem known_lockWord (key : String) (v : Value) : Known (lockWord key v) := by
  unfold lockWord
  split
  · split
    · trivial
    · exact .error rfl
  · exact .error rfl

theorem known_columnSpec (s : Settings) (v : Value) : Known (columnSpec s v) := by
  unfold columnSpec
  split
  · exact known_name s _
  · split
    · exact .error rfl
    · exact .error rfl
    · refine .bind (.mapM fun type => ?_) fun types =>
        .bind (.mapM fun t => Identifier.known_typeName t) fun _ => .bind (known_name s _) fun _ =>
          trivial
      unfold columnType
      split
      · trivial
      · exact .error rfl

end Words

end Render

end SqlTree

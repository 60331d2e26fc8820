import SqlTree.Proofs.Coupling.Fragment
import SqlTree.Render.Statement

/-!
Settings and data under which two renderings may run beside each other, and the renderings of
names and values, which are the leaves of all others.
-/

namespace SqlTree

/-- The special forms that write the values of their arguments as literals whatever the settings. -/
def SpecialForm.inlines : SpecialForm → Bool
  | .inlined | .interval | .atTimeZone => true
  | _ => false

/-- The registries do the same with the operations of this name. -/
structure Registry.Agree (r r' : Registry) (op : String) : Prop where
  isBinary : r.isBinary op = r'.isBinary op
  isUnary : r.isUnary op = r'.isUnary op
  ignoresNil : r.ignoresNil op = r'.ignoresNil op
  form? : r.form? op = r'.form? op

theorem Registry.Agree.refl (r : Registry) (op : String) : r.Agree r op := ⟨rfl, rfl, rfl, rfl⟩

theorem Registry.Agree.isOperator {r r' : Registry} {head : String}
    (h : r.Agree r' (Registry.normalize head)) : r.isOperator head = r'.isOperator head := by
  simp only [Registry.isOperator, h.isBinary, h.form?]

namespace Render

open Traced (slots rel)

/-- The values of a parameter in two renderings. A list of values has its counterpart item by
item. -/
inductive ParamAlike (C : Coupling) : Except Fault Value → Except Fault Value → Prop
  | error {e e' : Fault} : C.fault e e' → ParamAlike C (.error e) (.error e')
  | ok {v v' : Value} : C.value v v' →
      Option.Rel (List.Forall₂ C.value) v.items? v'.items? → ParamAlike C (.ok v) (.ok v')

/-- Settings that spell names and literals in the same way and have the same clauses, and whose
differences the coupling bears. -/
structure Alike (C : Coupling) (s s' : Settings) : Prop where
  dialect : s.dialect = s'.dialect
  clauses : s.registry.clauses = s'.registry.clauses
  clauseOrder : s.clauseOrder = s'.clauseOrder
  quoted : s.quoted = s'.quoted
  quotedSnake : s.quotedSnake = s'.quotedSnake
  nullTests : s.nullTests = s'.nullTests
  bind : ∀ {v v'}, C.value v v' → Parallel C [] (bind s v) (bind s' v')
  param : ∀ key, ParamAlike C (param s key) (param s' key)
  checkDepth : Parallel C [] (checkDepth s.inner) (checkDepth s'.inner)
  emptySide : ∀ keyword {f f'}, rel C.piece f f' →
    Parallel C [] (emptySide s keyword f) (emptySide s' keyword f')
  guard : ∀ verb {f f'}, rel C.piece f f' → Parallel C [] (guard s verb f) (guard s' verb f')

/-- The settings `S` and the data `D` over which two renderings run beside each other: what a
rendering makes of either for the parts of a value stays among them, and the operations in the data
are the same under both settings. -/
structure Simulation (C : Coupling) (S : Settings → Settings → Prop) (D : Value → Prop) :
    Prop where
  alike : ∀ {s s'}, S s s' → Alike C s s'
  operators : ∀ {s s' v head args}, S s s' → D v → v.items? = some (.text head :: args) →
    s.registry.Agree s'.registry (Registry.normalize head)
  within : ∀ {s s'} es, S s s' → S (s.within es) (s'.within es)
  inner : ∀ {s s'}, S s s' → S s.inner s'.inner
  inlined : ∀ {s s' v head args form}, S s s' → D v → v.items? = some (.text head :: args) →
    s.registry.form? (Registry.normalize head) = some form → form.inlines = true →
    S s.inlined s'.inlined
  null : D .null
  element : ∀ {v vs w}, D v → v.elements? = some vs → w ∈ vs → D w
  entry : ∀ {es e}, D (.map es) → e ∈ es → D e.2

namespace Simulation

variable {C : Coupling} {S : Settings → Settings → Prop} {D : Value → Prop}
  (sim : Simulation C S D)

include sim

theorem item {v w : Value} {vs : List Value} (hv : D v) (h : v.items? = some vs) (hw : w ∈ vs) :
    D w := by
  cases v <;> simp only [Value.items?, reduceCtorEq, Option.some.injEq] at h <;> subst h
  · exact sim.element hv rfl hw
  · exact sim.element hv rfl hw

theorem asItem {v w : Value} (hv : D v) (hw : w ∈ v.asItems) : D w := by
  unfold Value.asItems at hw
  cases h : v.items? with
  | none =>
    simp only [h, Option.getD_none, List.mem_singleton] at hw
    exact hw ▸ hv
  | some vs => exact sim.item hv h (by simpa [h] using hw)

theorem valueAt {es : Entries} {key v : Value} (hes : D (.map es))
    (h : Entries.valueAt? es key = some v) : D v := by
  obtain ⟨e, he, rfl⟩ := Option.map_eq_some_iff.mp h
  exact sim.entry hes (List.mem_of_find?_eq_some he)

theorem field {es : Entries} (hes : D (.map es)) (key : String) :
    D ((Entries.field? es key).getD .null) := by
  cases h : Entries.field? es key with
  | none => exact sim.null
  | some v => exact sim.valueAt hes h

end Simulation

/-- Renderers that run beside each other on all settings and data of a simulation. -/
structure Renderers (C : Coupling) (S : Settings → Settings → Prop) (D : Value → Prop)
    (r r' : Renderer) : Prop extends Simulation C S D where
  expr : ∀ {s s' v} nested, S s s' → D v →
    Parallel C [] (r.expr s nested v) (r'.expr s' nested v)
  statement : ∀ {s s' es} nested, S s s' → D (.map es) →
    Parallel C [] (r.statement s nested es) (r'.statement s' nested es)

namespace Alike

variable {C : Coupling} {s s' : Settings} (h : Alike C s s')

include h

theorem clauseKeys_eq : s.registry.clauseKeys = s'.registry.clauseKeys := by
  simp only [Registry.clauseKeys, h.clauses]

theorem form_eq : s.form = s'.form := by
  funext v
  simp only [Settings.form, h.clauseKeys_eq]

theorem isClause_eq : s.isClause = s'.isClause := by
  funext v
  simp only [Settings.isClause, h.clauseKeys_eq]

section Names

theorem namePart_eq : namePart s = namePart s' := by
  funext part
  simp only [namePart, h.dialect, h.quoted]

theorem nameText_eq : nameText s = nameText s' := by
  funext t
  simp only [nameText, h.namePart_eq, h.quotedSnake]

theorem aliasText_eq : aliasText s = aliasText s' := by
  funext t
  simp only [aliasText, h.namePart_eq, h.quotedSnake]

theorem entity_eq : entity s = entity s' := by
  funext v
  simp only [entity, h.nameText_eq]

theorem aliasName_eq : aliasName s = aliasName s' := by
  funext v
  simp only [aliasName, h.aliasText_eq]

theorem name_eq : name s = name s' := by
  funext v
  simp only [name, h.nameText_eq]

theorem names_eq : names s = names s' := by
  funext vs
  simp only [names, h.name_eq]

theorem quotedEntity_eq : quotedEntity s = quotedEntity s' := by
  funext v
  simp only [quotedEntity, h.dialect]

theorem fieldPath_eq : fieldPath s = fieldPath s' := by
  funext fields
  simp only [fieldPath, h.entity_eq]

theorem ident_eq : ident s = ident s' := by
  funext t
  simp only [ident, h.nameText_eq]

end Names

end Alike

section Leaves

variable {C : Coupling} {s s' : Settings}

theorem Parallel.words (t : Except Fault String) : Parallel C [] (words t) (words t) :=
  .bind_lift fun d _ => .pure rfl (.ofText d)

theorem Parallel.literal (h : s.dialect = s'.dialect) (v : Value) :
    Parallel C [] (literal s v) (literal s' v) := by
  unfold Render.literal
  rw [h]
  exact .bind_lift fun t _ => .pure rfl (.cons (C.piece_literal t) .nil)

theorem Parallel.plain (h : Alike C s s') (v : Value) : Parallel C [] (plain s v) (plain s' v) := by
  cases v
  case null => exact .literal h.dialect _
  case bool => exact .literal h.dialect _
  all_goals exact h.bind (C.value_refl _)

theorem Parallel.typed (h : Alike C s s') (type : String) (v : Value) :
    Parallel C [] (typed s type v) (typed s' type v) := by
  unfold Render.typed
  split
  · exact .plain h v
  · refine .bind_lift fun w _ => .bind (.plain h w) fun f g hf => ?_
    exact .bind_lift fun t _ => .pure (by simp) (hf.append (.text _ (.text _ .nil)))

theorem Parallel.boundParam (h : Alike C s s') (key : Value) :
    Parallel C [] (boundParam s key) (boundParam s' key) := by
  have hp := h.param key
  unfold Render.boundParam
  generalize param s key = p at hp ⊢
  generalize param s' key = p' at hp ⊢
  cases hp with
  | error hf => exact ⟨fun _ _ _ => hf⟩
  | ok hv _ => exact h.bind hv

end Leaves

theorem ParamAlike.refl (C : Coupling) (p : Except Fault Value) : ParamAlike C p p := by
  cases p with
  | error e => exact .error (C.fault_refl e)
  | ok v =>
    refine .ok (C.value_refl v) ?_
    cases v.items? with
    | none => exact .none
    | some vs => exact .some (List.forall₂_same.mpr fun w _ => C.value_refl w)

/-- Where every two faults are alike, how values are written is all that two settings which differ
in it have to account for. -/
theorem Alike.of_modes {C : Coupling} {s : Settings} {inline numbered : Bool}
    (hfault : ∀ e e', C.fault e e')
    (hbind : ∀ {v v'}, C.value v v' →
      Parallel C [] (Render.bind s v) (Render.bind { s with inline, numbered } v')) :
    Alike C s { s with inline, numbered } where
  dialect := rfl
  clauses := rfl
  clauseOrder := rfl
  quoted := rfl
  quotedSnake := rfl
  nullTests := rfl
  bind := hbind
  param _ := .refl C _
  checkDepth := .refusal (hfault _ _) (.pure rfl rfl)
  emptySide _ _ _ _ := .refusal (hfault _ _) (.pure rfl (.ofText _))
  guard _ _ _ _ := .refusal (hfault _ _) (.pure rfl rfl)

end Render

end SqlTree

import SqlTree.Proofs.Coupling.Settings

/-!
Operators, membership tests, calls, spliced text and ordered items in two renderings.
-/

namespace SqlTree.Render

open Traced (slots rel)

namespace Renderers

variable {C : Coupling} {S : Settings → Settings → Prop} {D : Value → Prop} {r r' : Renderer}
  {s s' : Settings} (hr : Renderers C S D r r') (hs : S s s')

include hr hs

theorem each (nested : Bool) {vs : List Value} (hvs : ∀ v ∈ vs, D v) :
    Parallel C [] (each r s nested vs) (each r' s' nested vs) :=
  .mapM_same fun v hv => hr.expr nested hs (hvs v hv)

theorem list {vs : List Value} (hvs : ∀ v ∈ vs, D v) :
    Parallel C [] (list r s vs) (list r' s' vs) :=
  .bind (hr.each hs false hvs) fun _ _ h => .pure (by simp) h.commas

theorem operands {vs : List Value} (hvs : ∀ v ∈ vs, D v) :
    Parallel C [] (operands r s vs) (operands r' s' vs) :=
  hr.each hs true hvs

theorem subquery (nested : Bool) {v : Value} (hv : D v) :
    Parallel C [] (subquery r s nested v) (subquery r' s' nested v) := by
  unfold Render.subquery
  rw [(hr.alike hs).isClause_eq]
  split
  · split
    · exact hr.statement true hs hv
    · exact hr.expr nested hs hv
  · exact hr.expr nested hs hv

theorem nest {v : Value} (hv : D v) : Parallel C [] (nest r s v) (nest r' s' v) := by
  unfold Render.nest
  rw [(hr.alike hs).isClause_eq]
  split
  · split
    · exact hr.statement true hs hv
    · exact .bind (hr.expr false hs hv) fun _ _ h => .pure (by simp) h.parens
  · exact .bind (hr.expr false hs hv) fun _ _ h => .pure (by simp) h.parens

theorem splicePart {v : Value} (hv : D v) :
    Parallel C [] (splicePart r s v) (splicePart r' s' v) := by
  cases v
  case text t => exact .pure rfl (.ofText t)
  all_goals exact hr.expr false hs hv

theorem spliceParts {vs : List Value} (hvs : ∀ v ∈ vs, D v) :
    Parallel C [] (do return (← vs.mapM (Render.splicePart r s)).flatten)
      (do return (← vs.mapM (Render.splicePart r' s')).flatten) :=
  .bind (.mapM_same fun v hv => hr.splicePart hs (hvs v hv))
    fun _ _ h => .pure (by simp) h.flatten

theorem splice {v : Value} (hv : D v) : Parallel C [] (splice r s v) (splice r' s' v) := by
  unfold Render.splice
  split
  · exact .pure rfl (.ofText _)
  · split
    · next parts hp => exact hr.spliceParts hs fun w hw => hr.element hv hp hw
    · exact .fail _

section Operators

variable (nested : Bool)

theorem comparison (op : String) {left right : Value} (hleft : D left) (hright : D right) :
    Parallel C [] (comparison r s op left right) (comparison r' s' op left right) := by
  unfold Render.comparison
  rw [(hr.alike hs).nullTests]
  split
  · exact .bind (hr.expr true hs hright) fun _ _ h => .pure (by simp) (h.append (.text _ .nil))
  · exact .bind (hr.expr true hs hleft) fun _ _ h => .pure (by simp) (h.append (.text _ .nil))
  · exact .bind (hr.expr true hs hleft) fun _ _ hl =>
      .bind (hr.expr true hs hright) fun _ _ h => .pure (by simp) (hl.append (h.text _))

theorem equality (op : String) {args : List Value} (hargs : ∀ v ∈ args, D v) :
    Parallel C [] (equality r s nested op args) (equality r' s' nested op args) := by
  unfold Render.equality
  split
  · next left right =>
    exact .bind (hr.comparison hs op (hargs left (by simp)) (hargs right (by simp)))
      fun _ _ h => .pure (by simp) (h.parensIf nested)
  · exact .fail _

theorem infixed {op : String} (hop : s.registry.Agree s'.registry op) {args : List Value}
    (hargs : ∀ v ∈ args, D v) :
    Parallel C [] (infixed r s nested op args) (infixed r' s' nested op args) := by
  unfold Render.infixed
  rw [hop.ignoresNil, hop.isUnary]
  generalize hkept : (if s'.registry.ignoresNil op then args.filter (!isNull ·) else args) = kept
  have hkept : ∀ v ∈ kept, D v := by
    subst hkept
    intro v hv
    split at hv
    · exact hargs v (List.mem_of_mem_filter hv)
    · exact hargs v hv
  dsimp only
  split
  · split
    · exact .pure rfl (.ofText _)
    · exact .fail _
  · split
    · exact .bind (hr.expr true hs (hkept _ (by simp))) fun _ _ h =>
        .pure (by simp) ((h.text _).parensIf nested)
    · exact hr.expr nested hs (hkept _ (by simp))
  · exact .bind (hr.operands hs hkept) fun _ _ h =>
      .pure (by simp) ((h.joined _).parensIf nested)

theorem paramItems (v : Value) :
    (∃ e e', paramItems? s v = .error e ∧ paramItems? s' v = .error e' ∧ C.fault e e') ∨
      ∃ vs vs', paramItems? s v = .ok vs ∧ paramItems? s' v = .ok vs' ∧
        Option.Rel (List.Forall₂ C.value) vs vs' := by
  unfold paramItems?
  split
  · split
    · next key _ =>
      have hp := (hr.alike hs).param key
      generalize param s key = p at hp ⊢
      generalize param s' key = p' at hp ⊢
      cases hp with
      | error hf => exact .inl ⟨_, _, rfl, rfl, hf⟩
      | ok _ hvs => exact .inr ⟨_, _, rfl, rfl, hvs⟩
    · exact .inr ⟨none, none, rfl, rfl, .none⟩
  · exact .inr ⟨none, none, rfl, rfl, .none⟩

theorem membershipSide (keyword : String) {l l' : Fragment} (hl : rel C.piece l l') {v : Value}
    (hv : D v) :
    Parallel C [] (membershipSide r s keyword l v) (membershipSide r' s' keyword l' v) := by
  unfold Render.membershipSide
  obtain ⟨e, e', he, he', hf⟩ | ⟨vs, vs', hvs, hvs', h⟩ := hr.paramItems hs v
  · rw [he, he', lift_error_bind, lift_error_bind]
    exact ⟨fun _ _ _ => hf⟩
  rw [hvs, hvs', lift_ok_bind, lift_ok_bind]
  cases h with
  | some h =>
    cases h with
    | nil => exact (hr.alike hs).emptySide keyword hl
    | cons h₀ h =>
      refine .bind (.mapM (.imp ?_ (List.Forall₂.cons h₀ h))) fun _ _ h =>
        .pure (by simp) h.commas.parens
      exact fun _ _ => (hr.alike hs).bind
  | none =>
    dsimp only
    split
    · exact (hr.alike hs).emptySide keyword hl
    · next hvs =>
      split
      · exact .bind (hr.list hs fun w hw => hr.item hv hvs hw) fun _ _ h =>
          .pure (by simp) h.parens
      · exact hr.expr true hs hv
    · exact hr.expr true hs hv

theorem membership (op : String) {args : List Value} (hargs : ∀ v ∈ args, D v) :
    Parallel C [] (membership r s nested op args) (membership r' s' nested op args) := by
  unfold Render.membership
  dsimp only
  split
  · next left right =>
    exact .bind (hr.expr true hs (hargs left (by simp))) fun l l' hl =>
      .bind (hr.membershipSide hs _ hl (hargs right (by simp))) fun _ _ h =>
        .pure (by simp) ((hl.append (h.text _)).parensIf nested)
  · exact .fail _

end Operators

omit hr hs in
theorem checkHead_eq (h : Alike C s s') : checkHead s = checkHead s' := by
  funext t
  simp only [checkHead, h.dialect]

theorem call (name : String) {args : List Value} (hargs : ∀ v ∈ args, D v) :
    Parallel C [] (call r s name args) (call r' s' name args) := by
  unfold Render.call
  rw [checkHead_eq (hr.alike hs), (hr.alike hs).isClause_eq]
  refine .bind_lift fun _ _ => ?_
  dsimp only
  split
  · exact .pure rfl (.ofText _)
  · split
    · exact .bind (hr.statement false hs (hargs _ (by simp))) fun _ _ h =>
        .pure (by simp) (h.between _ _)
    · exact .bind (hr.list hs hargs) fun _ _ h => .pure (by simp) (h.between _ _)
  · exact .bind (hr.list hs hargs) fun _ _ h => .pure (by simp) (h.between _ _)

omit hs in
theorem orderItem_fst {item : Value} (h : D item) : D (orderItem item).1 := by
  unfold orderItem
  split
  · next hi => split <;> [exact hr.item h hi (by simp); exact h]
  · next hi => split <;> [exact hr.item h hi (by simp); exact h]
  · exact h

theorem ordered {item : Value} (h : D item) :
    Parallel C [] (ordered r s item) (ordered r' s' item) :=
  .bind (hr.expr false hs (hr.orderItem_fst h)) fun _ _ hf =>
    .pure (by simp) (hf.append (.texts _ _))

theorem orderItems {v : Value} (hv : D v) :
    Parallel C [] (orderItems r s v) (orderItems r' s' v) :=
  .mapM_same fun _ hw => hr.ordered hs (hr.asItem hv hw)

end Renderers

end SqlTree.Render

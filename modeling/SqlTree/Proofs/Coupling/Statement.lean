import SqlTree.Proofs.Coupling.Clauses
import SqlTree.Format

/-!
Statements and expressions in two renderings, and the renderer of values of any height.
-/

namespace SqlTree

namespace Render

open Traced (slots rel)

theorem Alike.checkKeys_eq {C : Coupling} {s s' : Settings} (h : Alike C s s') :
    checkKeys s = checkKeys s' := by
  funext es
  simp only [checkKeys, h.clauseKeys_eq]

namespace Renderers

variable {C : Coupling} {S : Settings → Settings → Prop} {D : Value → Prop} {r r' : Renderer}
  {s s' : Settings} (hr : Renderers C S D r r') (hs : S s s')

include hr hs

section Statements

theorem clauseOf {es : Entries} (hes : D (.map es)) (key : String) :
    Parallel C [] (clauseOf r s es key) (clauseOf r' s' es key) := by
  unfold Render.clauseOf
  rw [Registry.clause?, (hr.alike hs).clauses, ← Registry.clause?]
  split
  · exact .pure rfl .none
  · exact .pure rfl .none
  · exact .pure rfl .none
  · next v form _ hv _ =>
    refine .bind (hr.clause hs form key (hr.valueAt hes hv)) fun f g hf => ?_
    rw [← hf.isBlank_eq]
    split
    · next hb => exact .pure (by simp [Traced.slots_of_isBlank hb]) .none
    · exact .pure (by simp) (.some hf)

theorem clauses (nested : Bool) {es : Entries} (hes : D (.map es)) :
    Parallel C [] (Render.statement r s nested es) (Render.statement r' s' nested es) := by
  unfold Render.statement
  rw [(hr.alike hs).checkKeys_eq, (hr.alike hs).clauseOrder]
  refine .bind_lift fun _ _ => ?_
  refine .bind (.mapM_same fun key _ => hr.clauseOf (hr.within es hs) hes key) fun _ _ h => ?_
  exact .pure (by simp) ((h.reduceOption.joined _).parensIf nested)

end Statements

section Arrays

theorem operation (nested : Bool) {v : Value} {head : String} {args : List Value} (hv : D v)
    (hi : v.items? = some (.text head :: args)) :
    Parallel C [] (operation r s nested head args) (operation r' s' nested head args) := by
  have hargs : ∀ w ∈ args, D w := fun w hw => hr.toSimulation.item hv hi (by simp [hw])
  have hop := hr.operators hs hv hi
  have hin : ∀ form, s.registry.form? (Registry.normalize head) = some form →
      form.inlines = true → S s.inlined s'.inlined := fun _ => hr.inlined hs hv hi
  unfold Render.operation
  rw [hop.form?] at hin
  dsimp only
  rw [hop.isBinary, hop.form?]
  split
  · exact hr.equality hs nested _ hargs
  · split
    · exact hr.infixed hs nested hop hargs
    · split
      · exact hr.membership hs nested _ hargs
      · split
        · next form hform => exact hr.special hs form _ hargs (hin form hform)
        · split
          · exact hr.call hs head hargs
          · exact .fail _

theorem arrayOf (nested : Bool) {v : Value} {vs : List Value} (hv : D v)
    (hi : v.items? = some vs) :
    Parallel C [] (arrayOf r s nested vs) (arrayOf r' s' nested vs) := by
  unfold Render.arrayOf
  split
  · exact .pure rfl (.ofText _)
  · exact hr.operation hs nested hv hi
  · exact .bind (hr.list hs fun w hw => hr.toSimulation.item hv hi hw) fun _ _ h => .pure (by simp) h.parens

end Arrays

section Expressions

variable {stated stated' : Settings → Entries → Render Fragment}
  (hst : ∀ es, D (.map es) → Parallel C [] (stated s es) (stated' s' es))

include hst

theorem mapOf {es : Entries} (hes : D (.map es)) :
    Parallel C [] (mapOf r s stated es) (mapOf r' s' stated' es) := by
  unfold Render.mapOf
  dsimp only
  rw [(hr.alike hs).clauseKeys_eq]
  split
  · exact hr.splice hs (hr.field hes _)
  · exact .boundParam (hr.alike hs) _
  · exact (hr.alike hs).bind (C.value_refl _)
  · exact .literal (hr.alike hs).dialect _
  · split
    · exact .typed (hr.alike hs) _ _
    · exact hst es hes
  · exact hst es hes

theorem expression (nested : Bool) {v : Value} (hv : D v) :
    Parallel C [] (expression r s stated nested v) (expression r' s' stated' nested v) := by
  unfold Render.expression
  rw [(hr.alike hs).ident_eq]
  split
  · split
    · exact .words _
    · exact (hr.alike hs).bind (C.value_refl _)
  · exact hr.mapOf hs hst hv
  · exact hr.arrayOf hs nested hv rfl
  · exact hr.arrayOf hs nested hv rfl
  · exact .plain (hr.alike hs) _

end Expressions

theorem deeper {stated stated' : Settings → Entries → Render Fragment}
    (hst : ∀ {s s' es}, S s s' → D (.map es) → Parallel C [] (stated s es) (stated' s' es))
    (nested : Bool) {v : Value} (hv : D v) :
    Parallel C [] (deeper r s stated nested v) (deeper r' s' stated' nested v) := by
  unfold Render.deeper
  refine .bind (hr.alike hs).checkDepth fun _ _ _ => ?_
  exact hr.expression (hr.inner hs) (fun _ => hst (hr.inner hs)) nested hv

end Renderers

variable {C : Coupling} {S : Settings → Settings → Prop} {D : Value → Prop}

/-- The induction over the height of values. -/
theorem Simulation.upTo (sim : Simulation C S D) (n : Nat) :
    Renderers C S D (upTo n) (upTo n) := by
  induction n with
  | zero => exact { sim with
      expr := fun _ _ _ => .fail _
      statement := fun _ _ _ => .fail _ }
  | succ n ih =>
    have hst : ∀ {s s' es}, S s s' → D (.map es) → Parallel C []
        ((statement (Render.upTo n) · true) s es) ((statement (Render.upTo n) · true) s' es) :=
      fun hs hes => ih.clauses hs true hes
    rw [Render.upTo]
    constructor
    · exact sim
    · intro s s' v nested hs hv
      exact ih.deeper hs hst nested hv
    · intro s s' es nested hs hes
      exact ih.clauses hs nested hes

end Render

namespace Render.Renderers

variable {C : Coupling} {S : Settings → Settings → Prop} {D : Value → Prop} {r r' : Renderer}
  {s s' : Settings}

theorem fragmentBy (hr : Renderers C S D r r') (hs : S s s') {data : Value} (h : D data) :
    Parallel C [] (fragmentBy r s data) (fragmentBy r' s' data) := by
  unfold SqlTree.fragmentBy
  split
  · split
    · exact hr.statement false hs h
    · exact hr.expr false hs h
  · exact hr.expr false hs h

end Render.Renderers

end SqlTree

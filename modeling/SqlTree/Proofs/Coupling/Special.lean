import SqlTree.Proofs.Coupling.Expression

/-!
The special forms in two renderings. Those that write literals whatever the settings go on under
settings of their own, which the simulation has to bear.
-/

namespace SqlTree.Render

open Traced (slots rel)

namespace Renderers

variable {C : Coupling} {S : Settings → Settings → Prop} {D : Value → Prop} {r r' : Renderer}
  {s s' : Settings} (hr : Renderers C S D r r') (hs : S s s')

include hr hs

section Cases

theorem branch {test result : Value} (ht : D test) (hv : D result) :
    Parallel C [] (branch r s test result) (branch r' s' test result) := by
  unfold Render.branch
  split
  · exact .bind (hr.expr false hs hv) fun _ _ h => .pure (by simp) (h.after _)
  · exact .bind (hr.expr false hs ht) fun _ _ h => .bind (hr.expr false hs hv) fun _ _ hf =>
      .pure (by simp) ((h.after _).append (hf.after _))

theorem branches (op : String) {pairs : List Value} (h : ∀ v ∈ pairs, D v) :
    Parallel C [] (branches r s op pairs) (branches r' s' op pairs) := by
  fun_induction Render.branches r s op pairs with
  | case1 => exact .pure rfl .nil
  | case2 => exact .fail _
  | case3 test result rest ih =>
    exact .bind (hr.branch hs (h _ (by simp)) (h _ (by simp))) fun _ _ hf =>
      .bind (ih fun v hv => h v (by simp [hv])) fun _ _ hfs => .pure (by simp) (.cons hf hfs)

theorem casePairs (op : String) {pairs : List Value} (h : ∀ v ∈ pairs, D v) :
    Parallel C [] (casePairs r s op pairs) (casePairs r' s' op pairs) := by
  unfold Render.casePairs
  split
  · exact .fail _
  · exact .bind (hr.branches hs op h) fun _ _ hf => .pure (by simp) (hf.joined _)

end Cases

theorem typeOrExpr {v : Value} (hv : D v) :
    Parallel C [] (typeOrExpr r s v) (typeOrExpr r' s' v) := by
  unfold Render.typeOrExpr
  split
  · exact .words _
  · exact hr.expr false hs hv

theorem arrayItems {items : List Value} (h : ∀ v ∈ items, D v) (types : List Value) :
    Parallel C [] (arrayItems r s items types) (arrayItems r' s' items types) := by
  unfold Render.arrayItems
  refine .bind (hr.list hs h) fun f g hf => ?_
  split
  · exact .pure (by simp) (hf.between _ _)
  · exact .bind_lift fun t _ => .pure (by simp) (hf.between _ _)

theorem array (op : String) {args : List Value} (h : ∀ v ∈ args, D v) :
    Parallel C [] (array r s op args) (array r' s' op args) := by
  have plain : Parallel C [] (do return Fragment.between "ARRAY[" "]" (← Render.list r s args))
      (do return Fragment.between "ARRAY[" "]" (← Render.list r' s' args)) :=
    .bind (hr.list hs h) fun _ _ hf => .pure (by simp) (hf.between _ _)
  unfold Render.array
  rw [(hr.alike hs).isClause_eq]
  dsimp only
  split
  · exact plain
  · next first rest =>
    split
    · split
      · exact .bind (hr.statement false hs (h _ (by simp))) fun _ _ hf =>
          .pure (by simp) (hf.between _ _)
      · exact plain
    · next hi =>
      split
      · exact hr.arrayItems hs (fun v hv => hr.item (h _ (by simp)) hi hv) rest
      · exact .fail _
    · exact plain

section Windows

omit hr hs in
theorem windowPart (keyword : String) (v : Value) {items items' : Value → Render (List Fragment)}
    (h : Parallel C [] (items v) (items' v)) :
    Parallel C [] (windowPart keyword v items) (windowPart keyword v items') := by
  unfold Render.windowPart
  split
  · exact .bind h fun _ _ hf => .pure (by simp) (.cons (hf.commas.after _) .nil)
  · exact .pure rfl .nil

theorem windowFrame {v : Value} (hv : D v) :
    Parallel C [] (windowFrame r s v) (windowFrame r' s' v) := by
  unfold Render.windowFrame
  split
  · exact .pure rfl .nil
  · exact .bind (hr.expr false hs hv) fun _ _ hf => .pure (by simp) (.cons hf .nil)

theorem window {es : Entries} (h : D (.map es)) :
    Parallel C [] (window r s es) (window r' s' es) := by
  have hpart := fun key => hr.field h key
  unfold Render.window
  refine .bind (windowPart _ _ (hr.each hs false fun v hv => hr.asItem (hpart _) hv))
    fun _ _ hg => ?_
  refine .bind (windowPart _ _ (hr.orderItems hs (hpart _))) fun _ _ ho => ?_
  refine .bind (hr.windowFrame hs (hpart _)) fun _ _ hf => ?_
  exact .pure (by simp) (.joined _ (List.rel_append (List.rel_append hg ho) hf))

theorem windowed {call spec : Value} (hcall : D call) (hspec : D spec) :
    Parallel C [] (windowed r s call spec) (windowed r' s' call spec) := by
  unfold Render.windowed
  rw [(hr.alike hs).nameText_eq]
  refine .bind (hr.expr false hs hcall) fun f g hf => ?_
  split
  · exact .pure (by simp) (hf.append (.text _ .nil))
  · exact .bind_lift fun t _ => .pure (by simp) (hf.append (.text _ (.text _ .nil)))
  · exact .bind (hr.window hs hspec) fun _ _ hw => .pure (by simp) (hf.append (hw.between _ _))
  · exact .fail _

end Windows

section Inlined

variable (hin : S s.inlined s'.inlined)

include hin

theorem inlinedArgument {v : Value} (hv : D v) :
    Parallel C [] (inlinedArgument r s v) (inlinedArgument r' s' v) := by
  unfold Render.inlinedArgument
  split
  · exact .literal (hr.alike hs).dialect _
  · exact hr.expr false hin hv

theorem quantity {v : Value} (hv : D v) : Parallel C [] (quantity r s v) (quantity r' s' v) := by
  unfold Render.quantity
  split
  · exact .literal (hr.alike hs).dialect _
  · exact .literal (hr.alike hs).dialect _
  · exact .literal (hr.alike hs).dialect _
  · exact hr.expr false hin hv

omit hs hin in
theorem unwrapped {v : Value} (hv : D v) : D (unwrapped v) := by
  unfold Render.unwrapped
  split
  · split
    · exact hr.entry hv (List.mem_singleton_self _)
    · exact hv
  · exact hv

theorem interval {v : Value} (hv : D v) (units : List Value) :
    Parallel C [] (interval r s v units) (interval r' s' v units) := by
  unfold Render.interval
  refine .bind (hr.quantity hs hin (hr.unwrapped hv)) fun f g hf => .bind_lift fun us _ => ?_
  exact .pure (by simp) ((hf.after _).append (.texts _ us))

theorem zone {v : Value} (hv : D v) : Parallel C [] (zone r s v) (zone r' s' v) := by
  have hw := hr.unwrapped hv
  unfold Render.zone
  split
  · exact .literal (hr.alike hs).dialect _
  · exact hr.expr false hin hw

end Inlined

theorem subscript {v index : Value} (hv : D v) (hi : D index) :
    Parallel C [] (subscript r s v index) (subscript r' s' v index) := by
  unfold Render.subscript
  refine .bind (hr.expr false hs hv) fun f g hf => .bind (hr.expr false hs hi) fun f' g' hi => ?_
  split
  · exact .pure (by simp) (hf.append (hi.between _ _))
  · exact .pure (by simp) (hf.parens.append (hi.between _ _))

theorem extract (field : Value) {v : Value} (hv : D v) :
    Parallel C [] (extract r s field v) (extract r' s' field v) := by
  unfold Render.extract
  split
  · split
    · exact .bind (hr.expr false hs hv) fun _ _ hf => .pure (by simp) (hf.between _ _)
    · exact .fail _
  · exact .fail _

theorem special (form : SpecialForm) (op : String) {args : List Value} (h : ∀ v ∈ args, D v)
    (hin : form.inlines = true → S s.inlined s'.inlined) :
    Parallel C [] (special r s form op args) (special r' s' form op args) := by
  unfold Render.special
  rw [(hr.alike hs).quotedEntity_eq, (hr.alike hs).aliasName_eq]
  split
  case h_1 => exact .bind (hr.casePairs hs op h) fun _ _ hf => .pure (by simp) (hf.between _ _)
  case h_2 => exact .fail _
  case h_3 subject pairs =>
    exact .bind (hr.expr false hs (h _ (by simp))) fun _ _ hf =>
      .bind (hr.casePairs hs op fun v hv => h v (by simp [hv])) fun _ _ hp =>
        .pure (by simp) ((hf.after _).append (hp.between _ _))
  case h_4 =>
    exact .bind (hr.expr false hs (h _ (by simp))) fun _ _ hf =>
      .bind (hr.typeOrExpr hs (h _ (by simp))) fun _ _ ht =>
        .pure (by simp) ((hf.after _).append (ht.between _ _))
  case h_5 =>
    exact .bind (hr.expr true hs (h _ (by simp))) fun _ _ hx =>
      .bind (hr.expr true hs (h _ (by simp))) fun _ _ hl =>
        .bind (hr.expr true hs (h _ (by simp))) fun _ _ hf =>
          .pure (by simp) ((hx.append (hl.text _)).append (hf.text _))
  case h_6 =>
    exact .bind (hr.expr true hs (h _ (by simp))) fun _ _ hf => .pure (by simp) (hf.after _)
  case h_7 => exact .bind (hr.operands hs h) fun _ _ hf => .pure (by simp) (hf.commas.after _)
  case h_8 =>
    exact .bind (hr.expr false hs (h _ (by simp))) fun _ _ hf =>
      .bind (hr.expr false hs (h _ (by simp))) fun _ _ ht =>
        .pure (by simp) (hf.append (ht.between _ _))
  case h_9 => exact .bind (hr.list hs h) fun _ _ hf => .pure (by simp) hf.parens
  case h_10 => exact hr.array hs op h
  case h_11 => exact hr.nest hs (h _ (by simp))
  case h_12 => exact hr.splice hs (h _ (by simp))
  case h_13 => exact hr.spliceParts hs h
  case h_14 =>
    refine .bind (.mapM_same fun v hv => hr.inlinedArgument hs (hin rfl) (h v hv)) fun _ _ hf => ?_
    exact .pure (by simp) (hf.joined _)
  case h_15 => exact .boundParam (hr.alike hs) _
  case h_16 => exact (hr.alike hs).bind (C.value_refl _)
  case h_17 =>
    exact .bind (hr.subquery hs false (h _ (by simp))) fun _ _ hf => .pure (by simp) (hf.after _)
  case h_18 => exact hr.windowed hs (h _ (by simp)) hr.null
  case h_19 => exact hr.windowed hs (h _ (by simp)) (h _ (by simp))
  case h_20 => exact .fail _
  case h_21 => exact hr.interval hs (hin rfl) (h _ (by simp)) _
  case h_22 => exact .words _
  case h_23 => exact .words _
  case h_24 =>
    rw [(hr.alike hs).fieldPath_eq]
    exact .bind (hr.expr false hs (h _ (by simp))) fun _ _ hf => .bind_lift fun _ _ =>
      .pure (by simp) (hf.parens.append (.text _ .nil))
  case h_25 => exact .fail _
  case h_26 =>
    exact .bind (hr.expr true hs (h _ (by simp))) fun _ _ hf =>
      .bind (hr.zone hs (hin rfl) (h _ (by simp))) fun _ _ hz =>
        .pure (by simp) (hf.append (hz.text _))
  case h_27 =>
    exact .bind (hr.subquery hs true (h _ (by simp))) fun _ _ hf => .pure (by simp) (hf.after _)
  case h_28 => exact hr.subscript hs (h _ (by simp)) (h _ (by simp))
  case h_29 => exact hr.extract hs _ (h _ (by simp))
  case h_30 => exact .pure rfl (.ofText _)
  all_goals exact .fail _

end Renderers

end SqlTree.Render

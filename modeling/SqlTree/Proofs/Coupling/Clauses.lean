import SqlTree.Proofs.Coupling.Special

/-!
The clauses in two renderings. A clause that is left out for being blank is left out of both, since
a place is never blank.
-/

namespace SqlTree.Render

open Traced (slots rel)

section Texts

variable {C : Coupling} {s s' : Settings} (h : Alike C s s')

include h

theorem Alike.aliasSeparator_eq : aliasSeparator s = aliasSeparator s' := by
  funext table
  simp only [aliasSeparator, h.dialect]

theorem Alike.columnSpec_eq : columnSpec s = columnSpec s' := by
  funext v
  simp only [columnSpec, h.name_eq]

theorem Alike.tableExpressionName_eq : tableExpressionName s = tableExpressionName s' := by
  funext v
  simp only [tableExpressionName, h.name_eq, h.names_eq]

theorem Alike.excluded_eq : excluded s = excluded s' := by
  funext v
  simp only [excluded, h.name_eq]

end Texts

namespace Renderers

variable {C : Coupling} {S : Settings → Settings → Prop} {D : Value → Prop} {r r' : Renderer}
  {s s' : Settings} (hr : Renderers C S D r r') (hs : S s s')

include hr hs

section Items

theorem aliasPair_eq {v : Value} (hv : D v) : aliasPair? s v = aliasPair? s' v := by
  unfold aliasPair?
  split
  · next first t hi =>
    cases first with
    | text head =>
      dsimp only
      rw [(hr.operators hs hv hi).isOperator]
    | _ => rfl
  · rfl

theorem aliased (table : Bool) {v : Value} (hv : D v) :
    Parallel C [] (aliased r s table v) (aliased r' s' table v) := by
  unfold Render.aliased
  rw [(hr.alike hs).name_eq]
  split
  · exact .words _
  · exact hr.expr false hs hv

omit hs in
theorem aliasPair {v expr : Value} {t : String} (hv : D v) (h : aliasPair? s v = some (expr, t)) :
    D expr := by
  unfold aliasPair? at h
  split at h
  · next first u hi =>
    obtain ⟨rfl, -⟩ : first = expr ∧ u = t := by
      simpa using (Option.ite_none_right_eq_some.mp h).2
    exact hr.toSimulation.item hv hi (by simp)
  · cases h

theorem item (table : Bool) {v : Value} (hv : D v) :
    Parallel C [] (item r s table v) (item r' s' table v) := by
  have halike := hr.alike hs
  unfold Render.item
  rw [halike.aliasSeparator_eq, halike.aliasText_eq, halike.name_eq, ← hr.aliasPair_eq hs hv]
  split
  · next hp =>
    refine .bind (hr.aliased hs table (hr.aliasPair hv hp)) fun _ _ hf => .bind_lift fun _ _ => ?_
    exact .pure (by simp) (hf.append (.text _ (.text _ .nil)))
  · split
    · split
      · exact .words _
      · exact hr.expr false hs hv
    · exact hr.expr false hs hv

theorem items (table : Bool) {v : Value} (hv : D v) :
    Parallel C [] (items r s table v) (items r' s' table v) :=
  .mapM_same fun _ hw => hr.item hs table (hr.asItem hv hw)

omit hr hs in
theorem headed (keyword : String) {fs gs : List Fragment} (h : rel C.piece fs gs) :
    Parallel C (slots fs) (pure (headed keyword fs)) (pure (headed keyword gs)) := by
  unfold Render.headed
  rw [← h.isEmpty_eq]
  cases fs with
  | nil => exact .pure rfl .nil
  | cons f fs => exact .pure (by simp) (h.commas.after _)

theorem selection (key : String) {v : Value} (hv : D v) :
    Parallel C [] (selection r s key v) (selection r' s' key v) :=
  .bind (hr.items hs _ hv) fun _ _ h => headed _ h

theorem distinctOn {v : Value} (hv : D v) :
    Parallel C [] (distinctOn r s v) (distinctOn r' s' v) := by
  unfold Render.distinctOn
  split
  · exact .fail _
  · next on columns h =>
    have hitem : ∀ w ∈ on :: columns, D w := fun w hw => hr.asItem hv (h ▸ hw)
    refine .bind (hr.list hs fun w hw => hr.asItem (hitem on (by simp)) hw) fun _ _ hf => ?_
    refine .bind (.mapM_same fun w hw => hr.item hs false (hitem w (by simp [hw]))) fun _ _ hc => ?_
    exact .pure (by simp) ((hf.between _ _).append hc.commas)

end Items

section Insertion

theorem bareQuery {v : Value} (hv : D v) :
    Parallel C [] (bareQuery r s v) (bareQuery r' s' v) := by
  unfold Render.bareQuery
  rw [(hr.alike hs).isClause_eq]
  split
  · split
    · exact hr.statement false hs hv
    · exact hr.expr false hs hv
  · exact hr.expr false hs hv

theorem insertQuery (key : String) {vs : List Value} (h : ∀ v ∈ vs, D v) :
    Parallel C [] (insertQuery r s key vs) (insertQuery r' s' key vs) := by
  cases vs with
  | nil => exact .pure rfl .nil
  | cons query extra =>
    refine .bind (hr.bareQuery hs (h _ (by simp))) fun _ _ hf => ?_
    split
    · exact .pure (by simp) (.cons hf .nil)
    · exact .fail _

theorem insertSource (key : String) {vs : List Value} (h : ∀ v ∈ vs, D v) :
    Parallel C [] (insertSource r s key vs) (insertSource r' s' key vs) := by
  unfold Render.insertSource insertColumns
  rw [(hr.alike hs).names_eq]
  split
  · exact .pure rfl .nil
  · split
    · refine .bind (.words _) fun _ _ hf => ?_
      refine .bind (hr.insertQuery hs key fun v hv => h v (by simp [hv])) fun _ _ hg => ?_
      exact .pure (by simp) (.cons hf hg)
    · exact hr.insertQuery hs key h

theorem insertInto (key : String) {v : Value} (hv : D v) :
    Parallel C [] (insertInto r s key v) (insertInto r' s' key v) := by
  unfold Render.insertInto
  rw [hr.aliasPair_eq hs hv]
  dsimp only
  split
  · exact .bind (hr.item hs true hv) fun _ _ hf => .pure (by simp) (hf.after _)
  · split
    · exact .fail _
    · next table rest h =>
      have hitem : ∀ w ∈ table :: rest, D w := fun w hw => hr.asItem hv (h ▸ hw)
      refine .bind (hr.item hs true (hitem _ (by simp))) fun _ _ hf => ?_
      refine .bind (hr.insertSource hs key fun w hw => hitem w (by simp [hw])) fun _ _ hg => ?_
      exact .pure (by simp) (.joined _ (.cons (hf.after _) hg))

end Insertion

theorem guarded (verb : String) {f g : Fragment} (h : rel C.piece f g) :
    Parallel C (slots f) (guarded s verb f) (guarded s' verb g) :=
  .bind ((hr.alike hs).guard verb h) fun _ _ _ => .pure (by simp) (h.after _)

section Assignments

theorem assignments (clause : String) {v : Value} (hv : D v) :
    Parallel C [] (assignments r s clause v) (assignments r' s' clause v) := by
  unfold Render.assignments Render.assignment
  rw [(hr.alike hs).name_eq]
  split
  · refine .bind (.mapM_same fun e he => ?_) fun _ _ h => .pure (by simp) h.commas
    exact .bind (hr.expr false hs (hr.entry hv he)) fun _ _ hf =>
      .bind_lift fun _ _ => .pure (by simp) (hf.after _)
  · exact .fail _

end Assignments

section Joins

theorem joinCondition {v : Value} (hv : D v) :
    Parallel C [] (joinCondition r s v) (joinCondition r' s' v) := by
  unfold Render.joinCondition
  rw [(hr.alike hs).names_eq]
  split
  · exact .pure rfl .nil
  · exact .bind_lift fun _ _ => .pure rfl (.text _ .nil)
  · exact .bind (hr.expr false hs hv) fun _ _ hf => .pure (by simp) (hf.after _)

theorem joinTable (keyword : String) {table condition : Value} (ht : D table) (hc : D condition) :
    Parallel C [] (joinTable r s keyword table condition)
      (joinTable r' s' keyword table condition) :=
  .bind (hr.item hs true ht) fun _ _ hf => .bind (hr.joinCondition hs hc) fun _ _ hg =>
    .pure (by simp) ((hf.after _).append hg)

theorem joinEntry (keyword : String) {entry : Value} (h : D entry) :
    Parallel C [] (joinEntry r s keyword entry) (joinEntry r' s' keyword entry) := by
  unfold Render.joinEntry
  split
  · next hi => exact hr.joinTable hs keyword (hr.toSimulation.item h hi (by simp)) hr.null
  · next hi =>
    exact hr.joinTable hs keyword (hr.toSimulation.item h hi (by simp)) (hr.toSimulation.item h hi (by simp))
  · exact .fail _

theorem join (key : String) {v : Value} (hv : D v) :
    Parallel C [] (join r s key v) (join r' s' key v) :=
  .bind (.mapM_same fun _ hw => hr.joinEntry hs _ (hr.asItem hv hw)) fun _ _ h =>
    .pure (by simp) (h.joined _)

theorem crossJoinTable {table : Value} (h : D table) :
    Parallel C [] (crossJoinTable r s table) (crossJoinTable r' s' table) :=
  .bind (hr.item hs true h) fun _ _ hf => .pure (by simp) (hf.after _)

theorem crossJoin {v : Value} (hv : D v) :
    Parallel C [] (crossJoin r s v) (crossJoin r' s' v) :=
  .bind (.mapM_same fun _ hw => hr.crossJoinTable hs (hr.asItem hv hw)) fun _ _ h =>
    .pure (by simp) (h.joined _)

theorem joinStep (key : String) {entry : Value} (h : D entry) :
    Parallel C [] (joinStep r s key entry) (joinStep r' s' key entry) := by
  unfold Render.joinStep
  split
  · exact hr.crossJoinTable hs h
  · exact hr.joinEntry hs _ h

theorem joinSteps {vs : List Value} (h : ∀ v ∈ vs, D v) :
    Parallel C [] (joinSteps r s vs) (joinSteps r' s' vs) := by
  fun_induction Render.joinSteps r s vs with
  | case1 kind entry rest ih =>
    exact .bind (hr.joinStep hs _ (h _ (by simp))) fun _ _ hf =>
      .bind (ih fun v hv => h v (by simp [hv])) fun _ _ hg => .pure (by simp) (.cons hf hg)
  | case2 vs hvs =>
    rw [Render.joinSteps.eq_2 r' s' vs hvs]
    exact .pure rfl .nil

theorem joinBy {v : Value} (hv : D v) : Parallel C [] (joinBy r s v) (joinBy r' s' v) := by
  unfold Render.joinBy
  dsimp only
  split
  · exact .fail _
  · exact .bind (hr.joinSteps hs fun _ hw => hr.asItem hv hw) fun _ _ h =>
      .pure (by simp) (h.joined _)

end Joins

theorem condition (key : String) {v : Value} (hv : D v) :
    Parallel C [] (condition r s key v) (condition r' s' key v) := by
  unfold Render.condition
  split
  · exact .pure rfl .nil
  · split
    · exact .pure rfl .nil
    · refine .bind (hr.expr false hs hv) fun f g hf => ?_
      rw [← hf.isBlank_eq]
      split
      · next hb => exact .pure (by simp [Traced.slots_of_isBlank hb]) .nil
      · exact .pure (by simp) (hf.after _)

section Rows

theorem row {vs : List Value} (h : ∀ v ∈ vs, D v) : Parallel C [] (row r s vs) (row r' s' vs) :=
  .bind (hr.list hs h) fun _ _ hf => .pure (by simp) hf.parens

omit hs in
theorem rowValues {columns vs : List Value} {v w : Value} (hv : D v)
    (h : rowValues columns v = .ok vs) (hw : w ∈ vs) : D w := by
  unfold Render.rowValues at h
  split at h
  · cases h
    simp at hw
  · split at h
    · split at h
      · cases h
        obtain ⟨c, -, rfl⟩ := List.mem_map.mp hw
        cases hc : Entries.valueAt? _ c with
        | none => exact hr.null
        | some w => exact hr.valueAt hv hc
      · cases h
    · cases h

theorem rows {v : Value} (hv : D v) : Parallel C [] (rows r s v) (rows r' s' v) := by
  unfold Render.rows
  rw [(hr.alike hs).names_eq]
  split
  · exact .pure rfl (.ofText _)
  · split
    · exact .pure rfl (.ofText _)
    · next first rest hrows =>
      have hrow : ∀ w ∈ first :: rest, D w := fun w hw => hr.asItem hv (hrows ▸ hw)
      split
      · refine .bind_lift fun columns _ => .bind (.mapM_same fun w hw => ?_) fun _ _ h =>
          .bind_lift fun _ _ => .pure (by simp) (h.commas.after _)
        exact .bind_lift fun vs hvs => hr.row hs fun x => hr.rowValues (hrow w hw) hvs
      · exact .bind (.mapM_same fun w hw => hr.row hs fun x => hr.asItem (hrow w hw)) fun _ _ h =>
          .pure (by simp) (h.commas.after _)

end Rows

section Conflicts

theorem onConflict {v : Value} (hv : D v) :
    Parallel C [] (onConflict r s v) (onConflict r' s' v) := by
  have hitem : ∀ w ∈ if isTrue v then [] else v.asItems, D w := by
    intro w hw
    split at hw
    · simp at hw
    · exact hr.asItem hv hw
  unfold Render.onConflict
  rw [(hr.alike hs).isClause_eq]
  generalize (if isTrue v then [] else v.asItems) = vs at hitem ⊢
  refine .bind (hr.each hs false fun w hw => hitem w (List.mem_of_mem_filter hw)) fun f g hf => ?_
  refine .bind (.mapM_same fun es hes => ?_) fun _ _ ha => ?_
  · obtain ⟨w, hw, hes⟩ := List.mem_filterMap.mp hes
    have hwes : w = .map es := by
      cases w <;> simp_all [Value.entries?]
    exact hr.statement false hs (hwes ▸ hitem w (List.mem_of_mem_filter hw))
  · have htarget : rel C.piece (if f.isEmpty then [] else [Fragment.parens (Fragment.commas f)])
        (if g.isEmpty then [] else [Fragment.parens (Fragment.commas g)]) := by
      rw [← hf.isEmpty_eq]
      split
      · exact .nil
      · exact .cons hf.commas.parens .nil
    refine .pure ?_ (.joined _ (.cons (.ofText _) (List.rel_append htarget ha)))
    cases f <;> simp

theorem updateFields (key : String) {v : Value} (hv : D v) :
    Parallel C [] (updateFields r s key v) (updateFields r' s' key v) := by
  unfold Render.updateFields
  rw [(hr.alike hs).excluded_eq]
  split
  · exact hr.assignments hs key hv
  · exact .words _

omit hs in
theorem updateParts {v : Value} (hv : D v) : D (updateParts v).1 ∧ D (updateParts v).2 := by
  unfold Render.updateParts
  split
  · split
    · next h => exact ⟨hr.valueAt hv h, hr.field hv _⟩
    · exact ⟨hv, hr.null⟩
  · exact ⟨hv, hr.null⟩

theorem doUpdate (key : String) {v : Value} (hv : D v) :
    Parallel C [] (doUpdate r s key v) (doUpdate r' s' key v) := by
  obtain ⟨hfields, hcondition⟩ := hr.updateParts hv
  unfold Render.doUpdate
  refine .bind (hr.updateFields hs key hfields) fun _ _ hf => ?_
  refine .bind (hr.condition hs "where" hcondition) fun w x hw => ?_
  rw [← hw.isBlank_eq]
  split
  · next hb => exact .pure (by simp [Traced.slots_of_isBlank hb]) (hf.after _)
  · exact .pure (by simp) ((hf.append (hw.text _)).after _)

end Conflicts

theorem tableExpression (key : String) {entry : Value} (h : D entry) :
    Parallel C [] (tableExpression r s key entry) (tableExpression r' s' key entry) := by
  unfold Render.tableExpression
  rw [(hr.alike hs).tableExpressionName_eq]
  split
  · next hi =>
    exact .bind_lift fun _ _ => .bind (hr.nest hs (hr.toSimulation.item h hi (by simp))) fun _ _ hf =>
      .pure (by simp) (hf.after _)
  · exact .fail _

theorem tableExpressions (key : String) {v : Value} (hv : D v) :
    Parallel C [] (tableExpressions r s key v) (tableExpressions r' s' key v) :=
  .bind (.mapM_same fun _ hw => hr.tableExpression hs key (hr.asItem hv hw)) fun _ _ h =>
    .pure (by simp) (h.commas.after _)

theorem setBranch {v : Value} (hv : D v) :
    Parallel C [] (setBranch r s v) (setBranch r' s' v) := by
  unfold Render.setBranch
  rw [(hr.alike hs).isClause_eq]
  split
  · split
    · exact hr.statement _ hs hv
    · exact hr.expr false hs hv
  · exact hr.expr false hs hv

theorem setOperation (key : String) {v : Value} (hv : D v) :
    Parallel C [] (setOperation r s key v) (setOperation r' s' key v) :=
  .bind (.mapM_same fun _ hw => hr.setBranch hs (hr.asItem hv hw)) fun _ _ h =>
    .pure (by simp) (h.joined _)

section Definitions

theorem alterAction {v : Value} (hv : D v) :
    Parallel C [] (alterAction r s v) (alterAction r' s' v) := by
  unfold Render.alterAction
  rw [(hr.alike hs).isClause_eq]
  split
  · split
    · exact hr.statement false hs hv
    · exact .words _
  · exact .words _

theorem alterTable {v : Value} (hv : D v) :
    Parallel C [] (alterTable r s v) (alterTable r' s' v) := by
  unfold Render.alterTable
  rw [(hr.alike hs).name_eq]
  split
  · exact .fail _
  · next table actions h =>
    refine .bind (.words _) fun _ _ hf => ?_
    refine .bind (.mapM_same fun w hw => hr.alterAction hs (hr.asItem hv ?_)) fun fs _ hfs => ?_
    · exact h ▸ List.mem_cons_of_mem _ hw
    · rw [← hfs.isEmpty_eq]
      cases fs with
      | nil => exact .pure (by simp) hf
      | cons f fs => exact .pure (by simp) (hf.append (hfs.commas.text _))

end Definitions

theorem clause (form : ClauseForm) (key : String) {v : Value} (hv : D v) :
    Parallel C [] (clause r s form key v) (clause r' s' form key v) := by
  have halike := hr.alike hs
  cases form
  case alterTable => exact hr.alterTable hs hv
  case rawText => exact hr.splice hs hv
  case nested => exact hr.nest hs hv
  case tableExpressions => exact hr.tableExpressions hs key hv
  case setOperation => exact hr.setOperation hs key hv
  case insertInto => exact hr.insertInto hs key hv
  case updateTable => exact .bind (hr.item hs true hv) fun _ _ h => hr.guarded hs _ h
  case deleteTables =>
    refine .bind (hr.items hs true hv) fun fs _ h => ?_
    simpa using hr.guarded hs "DELETE" h.commas
  case deleteFrom => exact .bind (hr.item hs true hv) fun _ _ h => hr.guarded hs _ h
  case selection => exact hr.selection hs key hv
  case distinctOn => exact hr.distinctOn hs hv
  case assignments => exact .bind (hr.assignments hs key hv) fun _ _ h => .pure (by simp) (h.after _)
  case joinBy => exact hr.joinBy hs hv
  case join => exact hr.join hs key hv
  case crossJoin => exact hr.crossJoin hs hv
  case condition => exact hr.condition hs key hv
  case grouping =>
    exact .bind (hr.each hs false fun _ hw => hr.asItem hv hw) fun _ _ h => headed _ h
  case ordering => exact .bind (hr.orderItems hs hv) fun _ _ h => headed _ h
  case rows => exact hr.rows hs hv
  case onConflict => exact hr.onConflict hs hv
  case doNothing => exact .pure rfl (.ofText _)
  case doUpdate => exact hr.doUpdate hs key hv
  all_goals
    simp only [Render.clause, addColumn, dropColumn, createTable, withColumns, dropTable, truncate,
      columnList, halike.columnSpec_eq, halike.name_eq, halike.names_eq]
    exact .words _

end Renderers

end SqlTree.Render

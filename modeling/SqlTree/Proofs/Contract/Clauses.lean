import SqlTree.Proofs.Contract.Special

/-!
The clauses of statements under a contract.
-/

namespace SqlTree.Contract.Kept

open Render
open Fragment (ofText joined commas parens parensIf after)

variable {M : Contract} {K : Value → Prop} {r : Renderer} {s : Settings} (hr : M.Kept K r)
  (hs : M.settings s)

include hr hs

section Items

/-- What an item is rendered from: what its alias is given to, or the item itself. -/
structure ItemParts (M : Contract) (K : Value → Prop) (s : Settings) (v : Value) : Prop where
  aliased : ∀ e t, aliasPair? s v = some (e, t) → K e ∧ M.Spelled .free .bound (aliasText s t)
  whole : aliasPair? s v = none → K v

theorem item (table : Bool) {v : Value} (hv : ItemParts M K s v) : M.Holds (item r s table v) := by
  unfold Render.item
  split
  · next e t hpair =>
    obtain ⟨he, ht⟩ := hv.aliased e t hpair
    have haliased : M.Holds (aliased r s table e) := by
      unfold aliased
      split
      · exact holds_words (spelled_name hs e)
      · exact hr.expr false hs he
    have hseparator : M.word .bound .free (aliasSeparator s table) := by
      unfold aliasSeparator
      split
      · exact M.phrase (by decide)
      · exact M.phrase (by decide)
    exact .bind haliased fun _ hf => .bind_lift ht fun _ hw => .pure (good_linked hf hseparator hw)
  · next hnone =>
    have hv := hv.whole hnone
    split
    · split
      · exact holds_words (spelled_name hs _)
      · exact hr.expr false hs hv
    · exact hr.expr false hs hv

theorem items (table : Bool) {v : Value} (hv : ∀ w ∈ v.asItems, ItemParts M K s w) :
    M.HoldsAll (items r s table v) :=
  .mapM_all fun w hw => hr.item hs table (hv w hw)

omit hr hs in
theorem good_headed {keyword : String} (hkeyword : M.word .free .bound keyword)
    {fs : List Fragment} (h : ∀ f ∈ fs, M.good f) : M.good (headed keyword fs) := by
  unfold headed
  split
  · exact good_nil
  · exact good_after (word_appendBound hkeyword (M.phrase (by decide))) (good_commas h)

theorem selection {key : String} (hkey : M.word .free .bound (Keyword.render key)) {v : Value}
    (hv : ∀ w ∈ v.asItems, ItemParts M K s w) : M.Holds (selection r s key v) :=
  .bind (hr.items hs _ hv) fun _ h => .pure (good_headed hkey h)

theorem distinctOn {v : Value}
    (hon : ∀ on ∈ v.asItems.head?, ∀ w ∈ on.asItems, K w)
    (hcolumns : ∀ w ∈ v.asItems.tail, ItemParts M K s w) : M.Holds (distinctOn r s v) := by
  unfold Render.distinctOn
  split
  · exact holds_fail rfl
  · next on columns h =>
    rw [h] at hon hcolumns
    refine .bind (hr.list hs (hon on rfl)) fun f hf => ?_
    refine .bind (.mapM_all fun w hw => hr.item hs false (hcolumns w hw)) fun fs hfs => .pure ?_
    have hall := good_after (M.phrase (t := "SELECT DISTINCT ON (") (by decide))
      (good_linked hf (M.phrase (t := ") ") (by decide)) (good_commas hfs))
    simpa [Fragment.between, after] using hall

end Items

section Insertion

theorem insertQuery (key : String) {vs : List Value} (h : ∀ v ∈ vs, K v) :
    M.HoldsAll (insertQuery r s key vs) := by
  cases vs with
  | nil => exact .pure (by simp)
  | cons query extra =>
    refine .bind (hr.bareQuery hs (h query (by simp))) fun f hf => ?_
    split
    · exact .pure (by simpa using hf)
    · exact .fail (M.fault_of_known (e := .extraItems _ _) rfl)

theorem insertSource (key : String) {vs : List Value}
    (hfirst : ∀ v ∈ vs.head?, v.items? = none → K v) (hmore : ∀ v ∈ vs.tail, K v) :
    M.HoldsAll (insertSource r s key vs) := by
  unfold Render.insertSource
  split
  · exact .pure (by simp)
  · next first more =>
    split
    · refine .bind (holds_words (spelled_inParens (spelled_names hs _))) fun f hf => ?_
      refine .bind (hr.insertQuery hs key hmore) fun fs hfs => .pure ?_
      exact List.forall_mem_cons.mpr ⟨hf, hfs⟩
    · next hnone =>
      exact hr.insertQuery hs key (List.forall_mem_cons.mpr ⟨hfirst first rfl hnone, hmore⟩)

theorem insertInto {key : String} (hkey : M.word .free .bound (Keyword.render key)) {v : Value}
    (hwhole : (aliasPair? s v).isSome = true → ItemParts M K s v)
    (htable : ∀ t ∈ v.asItems.head?, ItemParts M K s t)
    (hfirst : ∀ w ∈ v.asItems.tail.head?, w.items? = none → K w)
    (hmore : ∀ w ∈ v.asItems.tail.tail, K w) : M.Holds (insertInto r s key v) := by
  have hword : M.word .free .free (Keyword.render key ++ " ") :=
    word_appendBound hkey (M.phrase (by decide))
  unfold Render.insertInto
  dsimp only
  split
  · next hpair =>
    exact .bind (hr.item hs true (hwhole (by simp [hpair]))) fun _ h => .pure (good_after hword h)
  · split
    · exact holds_fail rfl
    · next table rest h =>
      rw [h] at htable hfirst hmore
      refine .bind (hr.item hs true (htable table rfl)) fun f hf => ?_
      refine .bind (hr.insertSource hs key hfirst hmore) fun fs hfs => .pure ?_
      exact good_spaced (List.forall_mem_cons.mpr ⟨good_after hword hf, hfs⟩)

end Insertion

omit hr hs in
theorem guarded {verb : String} (hverb : M.word .free .free (verb ++ " ")) {f : Fragment}
    (hf : M.good f) : M.Holds (guarded s verb f) := by
  refine .bind (P := fun _ => True) ?_ fun _ _ => .pure (good_after hverb hf)
  unfold Render.guard
  split
  · exact .fail (M.fault_of_known (e := .unguarded _ _ _) rfl)
  · exact .pure trivial

theorem assignments (clause : String) {v : Value} (hv : ∀ es, v = .map es → ∀ e ∈ es, K e.2) :
    M.Holds (assignments r s clause v) := by
  unfold Render.assignments
  split
  · refine .bind (.mapM_all fun e he => ?_) fun _ h => .pure (good_commas h)
    refine .bind (hr.expr false hs (hv _ rfl e he)) fun f hf => ?_
    refine .bind_lift (spelled_name hs e.1) fun t ht => .pure (good_after ?_ hf)
    exact word_appendBound ht (M.phrase (by decide))
  · exact holds_fail rfl

section Joins

theorem joinCondition {v : Value} (hv : usingColumns? v = none → K v) :
    ∀ {f : Fragment}, M.good f → M.Holds (do return f ++ (← joinCondition r s v)) := by
  intro f hf
  unfold Render.joinCondition
  split
  · exact .bind (P := fun g => g = []) (.pure rfl) fun g hg => .pure (by simpa [hg] using hf)
  · refine .bind (P := fun g => M.good (f ++ g)) ?_ fun g hg => .pure hg
    refine .bind_lift (spelled_names hs _) fun t ht => .pure (good_before hf ?_)
    exact word_appendBound (word_append (M.phrase (by decide)) ht) (M.phrase (by decide))
  · next hnone =>
    refine .bind (P := fun g => M.good (f ++ g)) ?_ fun g hg => .pure hg
    exact .bind (hr.expr false hs (hv hnone)) fun g hg =>
      .pure (good_linked hf (M.phrase (by decide)) hg)

/-- The table and the condition of a join. -/
structure JoinParts (M : Contract) (K : Value → Prop) (s : Settings) (entry : Value) : Prop where
  alone : ∀ table, entry.items? = some [table] → ItemParts M K s table
  table : ∀ table condition, entry.items? = some [table, condition] → ItemParts M K s table
  condition : ∀ table condition, entry.items? = some [table, condition] →
    usingColumns? condition = none → K condition

theorem joinEntry {keyword : String} (hkeyword : M.word .free .bound keyword) {entry : Value}
    (h : JoinParts M K s entry) (hnull : K .null) : M.Holds (joinEntry r s keyword entry) := by
  have hword : M.word .free .free (keyword ++ " ") :=
    word_appendBound hkeyword (M.phrase (by decide))
  have htable : ∀ {table condition : Value}, ItemParts M K s table →
      (usingColumns? condition = none → K condition) →
      M.Holds (joinTable r s keyword table condition) := fun ht hc =>
    .bind (hr.item hs true ht) fun _ hf => hr.joinCondition hs hc (good_after hword hf)
  unfold Render.joinEntry
  split
  · next hi => exact htable (h.alone _ hi) fun _ => hnull
  · next hi => exact htable (h.table _ _ hi) (h.condition _ _ hi)
  · exact holds_fail rfl

theorem join {key : String} (hkey : M.word .free .bound (joinKeyword key)) {v : Value}
    (h : ∀ entry ∈ v.asItems, JoinParts M K s entry) (hnull : K .null) :
    M.Holds (join r s key v) :=
  .bind (.mapM_all fun entry he => hr.joinEntry hs hkey (h entry he) hnull) fun _ h =>
    .pure (good_spaced h)

theorem crossJoinTable {table : Value} (h : ItemParts M K s table) :
    M.Holds (crossJoinTable r s table) :=
  .bind (hr.item hs true h) fun _ hf => .pure (good_after (M.phrase (by decide)) hf)

theorem crossJoin {v : Value} (h : ∀ table ∈ v.asItems, ItemParts M K s table) :
    M.Holds (crossJoin r s v) :=
  .bind (.mapM_all fun table ht => hr.crossJoinTable hs (h table ht)) fun _ h =>
    .pure (good_spaced h)

/-- Kinds and entries of joins by turns. -/
inductive JoinSteps (M : Contract) (K : Value → Prop) (s : Settings) : List Value → Prop
  | nil : JoinSteps M K s []
  | odd (v : Value) : JoinSteps M K s [v]
  | step {kind entry : Value} {rest : List Value} :
      M.word .free .bound (joinKeyword (joinKey kind)) →
      (joinKey kind = "cross-join" → ItemParts M K s entry) →
      (joinKey kind ≠ "cross-join" → JoinParts M K s entry) → JoinSteps M K s rest →
      JoinSteps M K s (kind :: entry :: rest)

theorem joinSteps {vs : List Value} (h : JoinSteps M K s vs) (hnull : K .null) :
    M.HoldsAll (joinSteps r s vs) := by
  induction h with
  | nil => exact .pure (by simp)
  | odd => exact .pure (by simp)
  | @step kind entry rest hkind hitem hjoin _ ih =>
    have hstep : M.Holds (joinStep r s (joinKey kind) entry) := by
      unfold joinStep
      split
      · next hcross => exact hr.crossJoinTable hs (hitem hcross)
      · next hcross => exact hr.joinEntry hs hkind (hjoin hcross) hnull
    exact .bind hstep fun _ hf => .bind ih fun _ hfs => .pure (List.forall_mem_cons.mpr ⟨hf, hfs⟩)

theorem joinBy {v : Value} (h : JoinSteps M K s v.asItems) (hnull : K .null) :
    M.Holds (joinBy r s v) := by
  unfold Render.joinBy
  dsimp only
  split
  · exact holds_fail rfl
  · exact .bind (hr.joinSteps hs h hnull) fun _ hf => .pure (good_spaced hf)

end Joins

theorem condition {key : String} (hkey : M.word .free .bound (Keyword.render key)) {v : Value}
    (hv : K v) : M.Holds (condition r s key v) := by
  unfold Render.condition
  split
  · exact .pure good_nil
  · split
    · exact .pure good_nil
    · refine .bind (hr.expr false hs hv) fun f hf => ?_
      split
      · exact .pure good_nil
      · exact .pure (good_after (word_appendBound hkey (M.phrase (by decide))) hf)

theorem grouping {v : Value} (h : ∀ w ∈ v.asItems, K w) (key : String) :
    M.Holds (clause r s .grouping key v) :=
  .bind (hr.each hs false h) fun _ hf => .pure (good_headed (M.phrase (by decide)) hf)

theorem ordering {v : Value} (h : ∀ item ∈ v.asItems, K (orderItem item).1 ∧ OrderWords M item)
    (key : String) : M.Holds (clause r s .ordering key v) :=
  .bind (hr.orderItems hs h) fun _ hf => .pure (good_headed (M.phrase (by decide)) hf)

section Rows

theorem row {vs : List Value} (h : ∀ v ∈ vs, K v) : M.Holds (row r s vs) :=
  .bind (hr.list hs h) fun _ hf => .pure (good_parens hf)

omit hr hs in
theorem meets_rowColumns (rows : List Value) :
    Meets M.fault (fun _ => True) (rowColumns rows) := by
  unfold rowColumns
  generalize ([] : List Value) = columns
  induction rows generalizing columns with
  | nil => trivial
  | cons row rows ih =>
    rw [List.foldlM_cons]
    refine .bind (P := fun _ => True) ?_ fun columns _ => ih columns
    split
    · trivial
    · exact M.fault_of_known (e := .wrongType) rfl

omit hr hs in
theorem meets_rowValues (columns : List Value) {row : Value}
    (h : ∀ es, row = .map es → K .null ∧ ∀ e ∈ es, K e.2) :
    Meets M.fault (fun vs => ∀ v ∈ vs, K v) (rowValues columns row) := by
  unfold rowValues
  split
  · exact nofun
  · split
    · next es =>
      obtain ⟨hnull, hentries⟩ := h es rfl
      split
      · intro v hv
        obtain ⟨c, -, rfl⟩ := List.mem_map.mp hv
        cases hc : Entries.valueAt? es c with
        | none => exact hnull
        | some w =>
          obtain ⟨e, he, rfl⟩ := Option.map_eq_some_iff.mp hc
          exact hentries e (List.mem_of_find?_eq_some he)
      · exact M.fault_of_known (e := .wrongType) rfl
    · exact M.fault_of_known (e := .unsupported) rfl

theorem rows {v : Value}
    (hmaps : ∀ row ∈ v.asItems, ∀ es, row = .map es → K .null ∧ ∀ e ∈ es, K e.2)
    (hlists : ∀ row ∈ v.asItems, row.isMap = false → ∀ w ∈ row.asItems, K w)
    (hmixed : (∃ first ∈ v.asItems.head?, first.isMap = false) →
      ∀ row ∈ v.asItems, row.isMap = true → K row) : M.Holds (rows r s v) := by
  unfold Render.rows
  split
  · exact holds_phrase (by decide)
  · split
    · exact holds_phrase (by decide)
    · next first rest hrows =>
      rw [hrows] at hmaps hlists hmixed
      split
      · refine .bind_lift (meets_rowColumns _) fun columns _ => ?_
        refine .bind (.mapM_all fun w hw => ?_) fun fs hfs =>
          .bind_lift (spelled_names hs _) fun t ht => .pure (good_after ?_ (good_commas hfs))
        · exact .bind_lift (meets_rowValues columns (hmaps w hw)) fun vs hvs => hr.row hs hvs
        · exact word_appendBound (word_append (M.phrase (by decide)) ht) (M.phrase (by decide))
      · next hfirst =>
        refine .bind (.mapM_all fun w hw => hr.row hs ?_) fun fs hfs =>
          .pure (good_after (M.phrase (by decide)) (good_commas hfs))
        cases hmap : w.isMap with
        | false => exact hlists w hw hmap
        | true =>
          have hasItems : w.asItems = [w] := by
            cases w <;> first | rfl | cases hmap
          rw [hasItems]
          simpa using hmixed ⟨first, rfl, by simpa using hfirst⟩ w hw hmap

end Rows

section Conflicts

theorem onConflict {v : Value} (h : ∀ w ∈ v.asItems, K w) : M.Holds (onConflict r s v) := by
  have hitem : ∀ w ∈ if isTrue v then [] else v.asItems, K w := by
    intro w hw
    split at hw
    · simp at hw
    · exact h w hw
  unfold Render.onConflict
  generalize (if isTrue v then [] else v.asItems) = vs at hitem ⊢
  refine .bind (hr.each hs false fun w hw => hitem w (List.mem_of_mem_filter hw)) fun fs hfs => ?_
  refine .bind (.mapM_all (P := M.good) fun es hes => ?_) fun gs hgs => .pure (good_spaced ?_)
  · obtain ⟨w, hw, hes⟩ := List.mem_filterMap.mp hes
    obtain ⟨hw, hclause⟩ := List.mem_filter.mp hw
    obtain rfl : w = .map es := by
      cases w <;> simp_all [Value.entries?]
    exact hr.statement false hs (hitem _ hw) hclause
  · refine List.forall_mem_cons.mpr ⟨M.phrase (by decide), fun f hf => ?_⟩
    rcases List.mem_append.mp hf with hf | hf
    · split at hf
      · simp at hf
      · rw [List.mem_singleton.mp hf]
        exact good_parens (good_commas hfs)
    · exact hgs f hf

/-- The fields of an update on conflict, with their condition. -/
theorem doUpdate (key : String) {v : Value}
    (hfields : ∀ es, (updateParts v).1 = .map es → ∀ e ∈ es, K e.2) (hcondition : K (updateParts v).2) :
    M.Holds (doUpdate r s key v) := by
  have hupdate : M.Holds (updateFields r s key (updateParts v).1) := by
    unfold updateFields
    split
    · exact hr.assignments hs key hfields
    · exact holds_words (M.excluded_ok hs _)
  unfold Render.doUpdate
  refine .bind hupdate fun f hf => ?_
  refine .bind (hr.condition hs (M.phrase (by decide)) hcondition) fun w hw => ?_
  split
  · exact .pure (good_after (M.phrase (by decide)) hf)
  · exact .pure (good_after (M.phrase (by decide)) (good_linked hf (M.phrase (by decide)) hw))

end Conflicts

section Queries

omit hr in
theorem spelled_tableExpressionName (v : Value) :
    M.Spelled .free .bound (tableExpressionName s v) := by
  unfold tableExpressionName
  split
  · refine .bind (spelled_name hs _) fun t ht => ?_
    split
    · refine .bind (spelled_names hs _) fun u hu => ?_
      exact word_appendBound (word_append (word_appendBound ht (M.phrase (by decide))) hu)
        (M.phrase (by decide))
    · exact M.fault_of_known (e := .wrongType) rfl
  · exact M.fault_of_known (e := .wrongCount) rfl
  · exact spelled_name hs v

theorem tableExpressions {key : String} (hkey : M.word .free .bound (Keyword.render key))
    {v : Value} (h : ∀ entry ∈ v.asItems, ∀ label query, entry.items? = some [label, query] → K query) :
    M.Holds (tableExpressions r s key v) := by
  refine .bind (.mapM_all fun entry he => ?_) fun fs hfs =>
    .pure (good_after (word_appendBound hkey (M.phrase (by decide))) (good_commas hfs))
  unfold tableExpression
  split
  · next label query hi =>
    refine .bind_lift (spelled_tableExpressionName hs label) fun t ht => ?_
    exact .bind (hr.nest hs (h entry he label query hi)) fun _ hf =>
      .pure (good_after (word_appendBound ht (M.phrase (by decide))) hf)
  · exact holds_fail rfl

theorem setOperation {key : String}
    (hkey : M.word .free .bound (Keyword.render key)) {v : Value} (h : ∀ w ∈ v.asItems, K w) :
    M.Holds (setOperation r s key v) := by
  refine .bind (.mapM_all fun w hw => ?_) fun fs hfs => .pure (good_joined ?_ hfs)
  · unfold setBranch
    split
    · split
      · next hclause => exact hr.statement _ hs (h _ hw) hclause
      · exact hr.expr false hs (h _ hw)
    · exact hr.expr false hs (h _ hw)
  · exact word_appendBound (word_append (M.phrase (by decide)) hkey) (M.phrase (by decide))

end Queries

section Definitions

omit hr hs in
theorem lock {key : String} (hkey : M.word .free .bound (Keyword.render key)) {v : Value}
    (h : ∀ w ∈ v.asItems, M.Spelled .free .bound (lockWord key w)) :
    M.Spelled .free .bound (lock key v) := by
  refine .bind (.mapM_all h) fun ts hts => ?_
  exact words_joined (M.phrase (by decide)) (List.forall_mem_cons.mpr ⟨hkey, hts⟩)

omit hr in
theorem createTable {v : Value}
    (h : ∀ o ∈ v.asItems.tail, Meets M.fault (fun w => M.word .bound .bound (" " ++ w)) (keyword o)) :
    M.Spelled .free .bound (createTable s v) := by
  unfold Render.createTable
  split
  · exact M.fault_of_known (e := .wrongCount) rfl
  · next table options hv =>
    rw [hv] at h
    refine .bind (.mapM_all (R := M.word .bound .bound) fun o ho => ?_) fun ts hts => ?_
    · exact .bind (h o ho) fun _ hw => hw
    refine .bind (spelled_name hs table) fun t ht => ?_
    have hoptions : ∀ {start : String}, M.word .free .bound start →
        M.word .free .bound (start ++ String.join ts) := by
      intro start hstart
      induction ts generalizing start with
      | nil => simpa using hstart
      | cons u us ih =>
        have hcons := ih (fun t ht => hts t (by simp [ht])) (word_appendBound hstart (hts u (by simp)))
        simpa [String.append_assoc] using hcons
    exact word_append (word_appendBound (hoptions (M.phrase (by decide))) (M.phrase (by decide))) ht

omit hr hs in
theorem withColumns {v : Value} (h : ∀ c ∈ v.asItems, M.Spelled .free .bound (columnSpec s c)) :
    M.Spelled .free .bound (withColumns s v) :=
  .bind (.mapM_all h) fun _ hts =>
    word_appendBound (word_append (M.phrase (by decide)) (words_joined (M.phrase (by decide)) hts))
      (M.phrase (by decide))

omit hr in
theorem dropTable (v : Value) : M.Spelled .free .bound (dropTable s v) := by
  unfold Render.dropTable
  refine .bind (spelled_names hs _) fun t ht => word_append ?_ ht
  split
  · exact M.phrase (by decide)
  · exact M.phrase (by decide)

omit hr hs in
theorem addColumn {v : Value}
    (h : ∀ c ∈ if isColumnSpec v then [v] else v.asItems, M.Spelled .free .bound (columnSpec s c)) :
    M.Spelled .free .bound (addColumn s v) := by
  unfold Render.addColumn
  refine .bind (.mapM_all fun c hc => ?_) fun ts hts => words_joined (M.phrase (by decide)) hts
  exact .bind (h c hc) fun t ht => word_append (M.phrase (by decide)) ht

omit hr in
theorem dropColumn (v : Value) : M.Spelled .free .bound (dropColumn s v) := by
  unfold Render.dropColumn
  refine .bind (.mapM_all fun c _ => ?_) fun ts hts => words_joined (M.phrase (by decide)) hts
  exact .bind (spelled_name hs c) fun t ht => word_append (M.phrase (by decide)) ht

omit hr in
theorem truncate (v : Value) : M.Spelled .free .bound (truncate s v) :=
  .bind (spelled_names hs _) fun _ ht => word_append (M.phrase (by decide)) ht

omit hr in
theorem columnList (v : Value) : M.Spelled .free .bound (columnList s v) := by
  unfold Render.columnList
  split
  · exact M.phrase (by decide)
  · exact spelled_inParens (spelled_names hs _)

omit hr in
theorem onConstraint (v : Value) :
    M.Spelled .free .bound (do return "ON CONSTRAINT " ++ (← name s v)) :=
  .bind (spelled_name hs v) fun _ ht => word_append (M.phrase (by decide)) ht

theorem alterTable {v : Value} (h : ∀ w ∈ v.asItems.tail, K w)
    (hwords : ∀ w ∈ v.asItems.tail, M.Spelled .free .bound (keyword w)) :
    M.Holds (alterTable r s v) := by
  unfold Render.alterTable
  split
  · exact holds_fail rfl
  · next table actions hv =>
    rw [hv] at h hwords
    refine .bind (holds_words (.bind (spelled_name hs table) fun t ht =>
      word_append (M.phrase (by decide)) ht)) fun f hf => ?_
    refine .bind (.mapM_all (P := M.good) fun w hw => ?_) fun fs hfs => .pure ?_
    · unfold alterAction
      split
      · split
        · next hclause => exact hr.statement false hs (h _ hw) hclause
        · exact holds_words (hwords _ hw)
      · exact holds_words (hwords _ hw)
    · split
      · exact hf
      · exact good_linked hf (M.phrase (by decide)) (good_commas hfs)

end Definitions

end SqlTree.Contract.Kept

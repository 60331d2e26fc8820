import SqlTree.Proofs.Contract.Expression

/-!
The special forms under a contract.
-/

namespace SqlTree.Contract.Kept

open Render
open Fragment (ofText joined commas between parens parensIf after)

variable {M : Contract} {K : Value → Prop} {r : Renderer} {s : Settings} (hr : M.Kept K r)
  (hs : M.settings s)

include hr hs

section Cases

theorem branch {test result : Value} (ht : K test) (hv : K result) :
    M.Holds (branch r s test result) := by
  unfold Render.branch
  split
  · exact .bind (hr.expr false hs hv) fun _ h => .pure (good_after (M.phrase (by decide)) h)
  · exact .bind (hr.expr false hs ht) fun _ h => .bind (hr.expr false hs hv) fun _ hf =>
      .pure (good_after (M.phrase (by decide)) (good_linked h (M.phrase (by decide)) hf))

theorem branches (op : String) {pairs : List Value} (h : ∀ v ∈ pairs, K v) :
    M.HoldsAll (branches r s op pairs) := by
  fun_induction Render.branches r s op pairs with
  | case1 => exact .pure (by simp)
  | case2 => exact .fail (M.fault_of_known (e := .unpairedBranches op) rfl)
  | case3 test result rest ih =>
    exact .bind (hr.branch hs (h _ (by simp)) (h _ (by simp))) fun _ hf =>
      .bind (ih fun v hv => h v (by simp [hv])) fun _ hfs =>
        .pure (List.forall_mem_cons.mpr ⟨hf, hfs⟩)

theorem casePairs (op : String) {pairs : List Value} (h : ∀ v ∈ pairs, K v) :
    M.Holds (casePairs r s op pairs) := by
  unfold Render.casePairs
  split
  · exact holds_fail rfl
  · exact .bind (hr.branches hs op h) fun _ hf => .pure (good_spaced hf)

theorem cases (op : String) {pairs : List Value} (h : ∀ v ∈ pairs, K v) :
    M.Holds (special r s .cases op pairs) :=
  .bind (hr.casePairs hs op h) fun _ hf =>
    .pure (good_between (M.phrase (by decide)) (M.phrase (by decide)) hf)

theorem caseOf (op : String) {args : List Value} (h : ∀ v ∈ args, K v) :
    M.Holds (special r s .caseOf op args) := by
  cases args with
  | nil => exact holds_fail (e := .noSubject) rfl
  | cons subject pairs =>
    refine .bind (hr.expr false hs (h _ (by simp))) fun _ hf =>
      .bind (hr.casePairs hs op fun v hv => h v (by simp [hv])) fun _ hp => .pure ?_
    exact good_after (M.phrase (by decide)) (good_linked hf (M.phrase (by decide))
      (good_before hp (M.phrase (by decide))))

end Cases

/-- A type is a text that is spelled as one, or an expression. -/
def TypeWord (M : Contract) (K : Value → Prop) : Value → Prop
  | .text t => M.Spelled .free .bound (Identifier.typeName t)
  | v => K v

theorem cast (op : String) {v type : Value} (hv : K v) (htype : TypeWord M K type) :
    M.Holds (special r s .cast op [v, type]) := by
  have htype : M.Holds (typeOrExpr r s type) := by
    cases type
    case text => exact holds_words htype
    all_goals exact hr.expr false hs htype
  exact .bind (hr.expr false hs hv) fun _ hf => .bind htype fun _ ht =>
    .pure (good_after (M.phrase (by decide)) (good_linked hf (M.phrase (by decide))
      (good_before ht (M.phrase (by decide)))))

theorem between {op : String} (hop : M.registry.form? op = some .between) {x low high : Value}
    (hx : K x) (hlow : K low) (hhigh : K high) :
    M.Holds (special r s .between op [x, low, high]) := by
  refine .bind (hr.expr true hs hx) fun f hf => .bind (hr.expr true hs hlow) fun g hg =>
    .bind (hr.expr true hs hhigh) fun h hh => .pure ?_
  have hright := good_linked hg (M.phrase (t := " AND ") (by decide)) hh
  have hall := good_linked hf (M.between_ok op hop) hright
  simpa using hall

theorem negation (op : String) {x : Value} (hx : K x) : M.Holds (special r s .negation op [x]) :=
  .bind (hr.expr true hs hx) fun _ h => .pure (good_after (M.phrase (by decide)) h)

theorem distinct (op : String) {args : List Value} (h : ∀ v ∈ args, K v) :
    M.Holds (special r s .distinct op args) :=
  .bind (hr.each hs true h) fun _ hf => .pure (good_after (M.phrase (by decide)) (good_commas hf))

theorem filter (op : String) {call test : Value} (hc : K call) (ht : K test) :
    M.Holds (special r s .filter op [call, test]) :=
  .bind (hr.expr false hs hc) fun _ hf => .bind (hr.expr false hs ht) fun _ hg =>
    .pure (good_linked hf (M.phrase (by decide)) (good_before hg (M.phrase (by decide))))

theorem composite (op : String) {args : List Value} (h : ∀ v ∈ args, K v) :
    M.Holds (special r s .composite op args) :=
  .bind (hr.list hs h) fun _ hf => .pure (good_parens hf)

section Arrays

theorem plainArray {args : List Value} (h : ∀ v ∈ args, K v) :
    M.Holds (do return Fragment.between "ARRAY[" "]" (← Render.list r s args)) :=
  .bind (hr.list hs h) fun _ hf =>
    .pure (good_between (M.phrase (by decide)) (M.phrase (by decide)) hf)

theorem arrayItems {items types : List Value} (h : ∀ v ∈ items, K v)
    (htypes : ∀ type ∈ types, M.Spelled .free .bound (typeName type)) :
    M.Holds (arrayItems r s items types) := by
  have hopen : M.word .free .free "ARRAY[" := M.phrase (by decide)
  unfold Render.arrayItems
  refine .bind (hr.list hs h) fun f hf => ?_
  split
  · exact .pure (good_between hopen (M.phrase (by decide)) hf)
  · refine .bind_lift (htypes _ (by simp)) fun t ht => .pure (good_between hopen ?_ hf)
    have hmark : M.word .bound .free ("]" ++ "::") :=
      word_append (M.phrase (by decide)) (M.freeFront M.typeMark)
    exact word_appendBound (word_append hmark ht) (M.phrase (by decide))

/-- An array of items, perhaps with their type, or of the rows of a query. -/
theorem array (op : String) {args : List Value}
    (h : (∀ v ∈ args.head?, v.items? = none) → ∀ v ∈ args, K v)
    (hitems : ∀ v ∈ args.head?, ∀ vs, v.items? = some vs → ∀ w ∈ vs, K w)
    (htypes : ∀ type ∈ args.tail, M.Spelled .free .bound (typeName type)) :
    M.Holds (special r s .array op args) := by
  change M.Holds (Render.array r s op args)
  unfold Render.array
  dsimp only
  split
  · exact hr.plainArray hs (h fun _ hv => by cases hv)
  · next first rest =>
    split
    · have h := h (by simp [Value.items?])
      split
      · next hclause =>
        exact .bind (hr.statement false hs (h _ (by simp)) (Bool.and_eq_true_iff.mp hclause).2)
          fun _ hf => .pure (good_between (M.phrase (by decide)) (M.phrase (by decide)) hf)
      · exact hr.plainArray hs h
    · next hi =>
      split
      · exact hr.arrayItems hs (hitems _ (by simp) _ hi) htypes
      · exact holds_fail rfl
    · next hnone => exact hr.plainArray hs (h (by simpa using hnone))

end Arrays

section Windows

omit hr hs in
theorem windowPart {keyword : String} (hkeyword : M.word .free .free keyword) (v : Value)
    {items : Value → Render (List Fragment)} (h : M.HoldsAll (items v)) :
    M.HoldsAll (windowPart keyword v items) := by
  unfold Render.windowPart
  split
  · refine .bind h fun fs hf => .pure ?_
    simpa using good_after hkeyword (good_commas hf)
  · exact .pure (by simp)

theorem windowFrame {v : Value} (hv : K v) : M.HoldsAll (windowFrame r s v) := by
  unfold Render.windowFrame
  split
  · exact .pure (by simp)
  · exact .bind (hr.expr false hs hv) fun f hf => .pure (by simpa using hf)

/-- The parts of a window. -/
structure WindowParts (M : Contract) (K : Value → Prop) (es : Entries) : Prop where
  groups : ∀ v ∈ ((Entries.field? es "partition-by").getD .null).asItems, K v
  order : ∀ item ∈ ((Entries.field? es "order-by").getD .null).asItems,
    K (orderItem item).1 ∧ OrderWords M item
  frame : K ((Entries.field? es "frame").getD .null)

theorem window {es : Entries} (h : WindowParts M K es) : M.Holds (window r s es) := by
  unfold Render.window
  refine .bind (windowPart (M.phrase (by decide)) _ (hr.each hs false h.groups)) fun gs hg => ?_
  refine .bind (windowPart (M.phrase (by decide)) _ (hr.orderItems hs h.order)) fun os ho => ?_
  refine .bind (hr.windowFrame hs h.frame) fun fs hf => .pure (good_spaced ?_)
  intro f hmem
  rcases List.mem_append.mp hmem with hmem | hmem
  · rcases List.mem_append.mp hmem with hmem | hmem
    · exact hg f hmem
    · exact ho f hmem
  · exact hf f hmem

theorem windowed {call spec : Value} (hcall : K call)
    (hspec : ∀ es, spec = .map es → WindowParts M K es) : M.Holds (windowed r s call spec) := by
  unfold Render.windowed
  refine .bind (hr.expr false hs hcall) fun f hf => ?_
  split
  · exact .pure (good_before hf (M.phrase (by decide)))
  · exact .bind_lift (M.nameText_ok hs _) fun _ ht => .pure (good_linked hf (M.phrase (by decide)) ht)
  · next es =>
    exact .bind (hr.window hs (hspec es rfl)) fun _ hw =>
      .pure (good_linked hf (M.phrase (by decide)) (good_before hw (M.phrase (by decide))))
  · exact holds_fail rfl

end Windows

section Inlined

theorem inlinedArgument {v : Value} (hv : K v) : M.Holds (inlinedArgument r s v) := by
  unfold Render.inlinedArgument
  split
  · exact holds_literal hs (M.value_text _)
  · exact hr.expr false (M.inlined hs) hv

theorem inlinedForm (op : String) {args : List Value} (h : ∀ v ∈ args, K v) :
    M.Holds (special r s .inlined op args) :=
  .bind (.mapM_all fun v hv => hr.inlinedArgument hs (h v hv)) fun _ hf => .pure (good_spaced hf)

theorem interval {v : Value} {units : List Value} (hv : K (unwrapped v)) (hvalue : M.value (unwrapped v))
    (hunits : ∀ u ∈ units, Meets M.fault (fun w => M.word .bound .bound (" " ++ w)) (keyword u)) :
    M.Holds (interval r s v units) := by
  have hquantity : M.Holds (quantity r s (unwrapped v)) := by
    unfold quantity
    split
    · exact holds_literal hs hvalue
    · exact holds_literal hs hvalue
    · exact holds_literal hs hvalue
    · exact hr.expr false (M.inlined hs) hv
  refine .bind hquantity fun f hf => ?_
  refine .bind_lift (S := fun ts => ∀ t ∈ ts, M.word .bound .bound t) ?_ fun ts hts => .pure ?_
  · exact .mapM_all fun u hu => .bind (hunits u hu) fun _ hw => hw
  · exact good_suffixed (good_after (M.phrase (by decide)) hf) hts

theorem atTimeZone (op : String) {v z : Value} (hv : K v) (hz : K (unwrapped z)) :
    M.Holds (special r s .atTimeZone op [v, z]) := by
  have hzone : M.Holds (zone r s z) := by
    unfold zone
    split
    · exact holds_literal hs (M.value_text _)
    · exact hr.expr false (M.inlined hs) hz
  exact .bind (hr.expr true hs hv) fun _ hf => .bind hzone fun _ hg =>
    .pure (good_linked hf (M.phrase (by decide)) hg)

end Inlined

theorem lateral (op : String) {v : Value} (hv : K v) : M.Holds (special r s .lateral op [v]) :=
  .bind (hr.subquery hs false hv) fun _ hf => .pure (good_after (M.phrase (by decide)) hf)

theorem exists_ (op : String) {v : Value} (hv : K v) : M.Holds (special r s .exists op [v]) :=
  .bind (hr.subquery hs true hv) fun _ hf => .pure (good_after (M.phrase (by decide)) hf)

theorem field (op : String) {v first : Value} {rest : List Value} (hv : K v) :
    M.Holds (special r s .field op (v :: first :: rest)) :=
  .bind (hr.expr false hs hv) fun _ hf => .bind_lift (M.fieldPath_ok hs hf (first :: rest))
    fun _ ht => .pure ht

theorem subscript {v index : Value} (hv : K v) (hi : K index) : M.Holds (subscript r s v index) := by
  unfold Render.subscript
  refine .bind (hr.expr false hs hv) fun f hf => .bind (hr.expr false hs hi) fun g hg => .pure ?_
  have hindex := good_before hg (M.phrase (t := "]") (by decide))
  split
  · exact good_linked hf (M.phrase (by decide)) hindex
  · exact good_linked (good_parens hf) (M.phrase (by decide)) hindex

theorem extract (op : String) {field v : Value} (hv : K v)
    (hfield : ∀ t, field = .text t → Identifier.isIdentText t = true →
      M.word .free .bound (Keyword.render t)) :
    M.Holds (special r s .extract op [field, v]) := by
  change M.Holds (Render.extract r s field v)
  unfold Render.extract
  split
  · next t =>
    split
    · next ht =>
      refine .bind (hr.expr false hs hv) fun f hf =>
        .pure (good_between ?_ (M.phrase (by decide)) hf)
      exact word_appendBound (word_append (M.phrase (by decide)) (hfield t rfl ht))
        (M.phrase (by decide))
    · exact holds_fail rfl
  · exact holds_fail rfl

end SqlTree.Contract.Kept

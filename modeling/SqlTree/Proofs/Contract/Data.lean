import SqlTree.Proofs.Contract.Statement
import SqlTree.Proofs.Coupling.Same
import SqlTree.Proofs.Parts

/-!
Data of which every part may be rendered: the words in it that no rendering checks are words of the
contract. The induction over the height of values carries the contract from the parts to the whole.
-/

namespace SqlTree

open Render

section Hereditary

variable {D : Value → Prop} (hD : Hereditary D)

include hD

namespace Render.Hereditary

theorem item {v w : Value} {vs : List Value} (hv : D v) (h : v.items? = some vs) (hw : w ∈ vs) :
    D w := by
  cases v <;> simp only [Value.items?, reduceCtorEq, Option.some.injEq] at h <;> subst h
  · exact hD.element hv rfl hw
  · exact hD.element hv rfl hw

theorem asItem {v w : Value} (hv : D v) (hw : w ∈ v.asItems) : D w := by
  unfold Value.asItems at hw
  cases h : v.items? with
  | none =>
    simp only [h, Option.getD_none, List.mem_singleton] at hw
    exact hw ▸ hv
  | some vs => exact hD.item hv h (by simpa [h] using hw)

theorem valueAt {es : Entries} {key v : Value} (hes : D (.map es))
    (h : Entries.valueAt? es key = some v) : D v := by
  obtain ⟨e, he, rfl⟩ := Option.map_eq_some_iff.mp h
  exact hD.entry hes (List.mem_of_find?_eq_some he)

theorem field {es : Entries} (hes : D (.map es)) (key : String) :
    D ((Entries.field? es key).getD .null) := by
  cases h : Entries.field? es key with
  | none => exact hD.null
  | some v => exact hD.valueAt hes h

theorem ordered {item : Value} (h : D item) : D (orderItem item).1 := by
  unfold orderItem
  split
  · next hi => split <;> [exact hD.item h hi (by simp); exact h]
  · next hi => split <;> [exact hD.item h hi (by simp); exact h]
  · exact h

theorem unwrapped {v : Value} (hv : D v) : D (unwrapped v) := by
  unfold Render.unwrapped
  split
  · split
    · exact hD.entry hv (List.mem_singleton_self _)
    · exact hv
  · exact hv

theorem aliased {s : Settings} {v e : Value} {t : String} (hv : D v)
    (h : aliasPair? s v = some (e, t)) : D e := by
  unfold aliasPair? at h
  split at h
  · next first u hi =>
    obtain ⟨rfl, -⟩ : first = e ∧ u = t := by
      simpa using (Option.ite_none_right_eq_some.mp h).2
    exact hD.item hv hi (by simp)
  · cases h

theorem updateParts {v : Value} (hv : D v) : D (updateParts v).1 ∧ D (updateParts v).2 := by
  unfold Render.updateParts
  split
  · split
    · next h => exact ⟨hD.valueAt hv h, hD.field hv _⟩
    · exact ⟨hv, hD.null⟩
  · exact ⟨hv, hD.null⟩

omit hD in
theorem and {E : Value → Prop} (hD : Hereditary D) (hE : Hereditary E) :
    Hereditary fun v => D v ∧ E v where
  null := ⟨hD.null, hE.null⟩
  element h he hw := ⟨hD.element h.1 he hw, hE.element h.2 he hw⟩
  entry h he := ⟨hD.entry h.1 he, hE.entry h.2 he⟩

omit hD in
theorem every {p : Value → Bool} (hnull : p .null) (hint : ∀ n, p (.int n))
    (hchar : ∀ c, p (.text (String.singleton c))) : Hereditary fun v => v.every p where
  null := hnull
  element := by
    intro v vs w h hvs hw
    cases v <;> simp only [Value.elements?, reduceCtorEq, Option.some.injEq] at hvs <;> subst hvs
    case list => exact Value.everyItem_iff.mp (Bool.and_eq_true_iff.mp h).2 w hw
    case tuple => exact Value.everyItem_iff.mp (Bool.and_eq_true_iff.mp h).2 w hw
    case set => exact Value.everyItem_iff.mp (Bool.and_eq_true_iff.mp h).2 w hw
    case map =>
      obtain ⟨e, he, rfl⟩ := List.mem_map.mp hw
      exact (Value.everyEntry_iff.mp (Bool.and_eq_true_iff.mp h).2 e he).1
    all_goals obtain ⟨c, -, rfl⟩ := List.mem_map.mp hw
    case text => exact hchar c
    all_goals exact hint _
  entry := by
    intro es e h he
    exact (Value.everyEntry_iff.mp (Bool.and_eq_true_iff.mp h).2 e he).2

end Render.Hereditary

end Hereditary

/-- The items at the even places: the kinds among joins in their written order. -/
def kindsAmong : List Value → List Value
  | kind :: _ :: rest => kind :: kindsAmong rest
  | _ => []

namespace Contract

open Kept
open Fragment (after commas between parens)

variable (M : Contract)

/-- Raw text is one text that is a word. -/
def RawWord (v : Value) : Prop := ∃ t, v = .text t ∧ M.word .free .bound t

/-- The words of a special form that are read from its arguments. -/
def FormWords (s : Settings) : SpecialForm → List Value → Prop
  | .raw, args => ∃ v, args = [v] ∧ M.RawWord v
  | .cast, [_, .text type] => M.Spelled .free .bound (Identifier.typeName type)
  | .array, _ :: types => ∀ type ∈ types, M.Spelled .free .bound (typeName type)
  | .interval, _ :: units =>
    ∀ u ∈ units, Meets M.fault (fun w => M.word .bound .bound (" " ++ w)) (keyword u)
  | .extract, [.text field, _] =>
    Identifier.isIdentText field = true → M.word .free .bound (Keyword.render field)
  | .aliasName, [v] => M.Spelled .free .bound (aliasName s v)
  | _, _ => True

/-- The words of a clause that are read from its value. -/
def ClauseWords (s : Settings) (key : String) (v : Value) : ClauseForm → Prop
  | .rawText => M.RawWord v
  | .joinBy => ∀ kind ∈ kindsAmong v.asItems, M.word .free .bound (joinKeyword (joinKey kind))
  | .lock => ∀ w ∈ v.asItems, M.Spelled .free .bound (lockWord key w)
  | .createTable =>
    ∀ o ∈ v.asItems.tail, Meets M.fault (fun w => M.word .bound .bound (" " ++ w)) (keyword o)
  | .alterTable => ∀ w ∈ v.asItems.tail, M.Spelled .free .bound (keyword w)
  | .withColumns => ∀ c ∈ v.asItems, M.Spelled .free .bound (columnSpec s c)
  | .addColumn =>
    ∀ c ∈ if isColumnSpec v then [v] else v.asItems, M.Spelled .free .bound (columnSpec s c)
  | _ => True

/-- Data whose parts are all of one kind `D`, and whose words are words of the contract. -/
structure Admits (D : Value → Prop) : Prop extends Hereditary D where
  unknownHead : ∀ {v head args}, D v → v.items? = some (.text head :: args) →
    isCall M.registry head = true → Identifier.isIdentText head = false →
    Identifier.isCallHead head = false → M.fault (.unknownOperator head)
  keys : ∀ {s es}, M.settings s → D (.map es) → Meets M.fault (fun _ => True) (checkKeys s es)
  value : ∀ {v}, D v → M.value v
  ident : ∀ {s t}, M.settings s → D (.text t) → M.Spelled .free .bound (ident s t)
  aliasText : ∀ {s v e t}, M.settings s → D v → aliasPair? s v = some (e, t) →
    M.Spelled .free .bound (aliasText s t)
  orderWords : ∀ {v}, D v → OrderWords M v
  callWords : ∀ {s v head args}, M.settings s → D v → v.items? = some (.text head :: args) →
    Meets M.fault (fun _ => CallWords M head) (checkHead s head)
  formWords : ∀ {s v head args form}, M.settings s → D v → v.items? = some (.text head :: args) →
    M.registry.form? (Registry.normalize head) = some form → M.FormWords s form args
  rawWord : ∀ {es}, D (.map es) → Form.ofEntries M.registry.clauseKeys es = .raw →
    M.RawWord ((Entries.field? es Form.rawKey).getD .null)
  typeWord : ∀ {type v}, D (.map [(.text type, v)]) →
    M.Spelled .free .bound (Identifier.typeName type)
  clauseWords : ∀ {s es key v form}, M.settings s → D (.map es) → Entries.field? es key = some v →
    M.registry.clause? key = some form → M.ClauseWords s key v form

namespace Admits

variable {M} {D : Value → Prop} {r : Renderer} {s : Settings} (ha : M.Admits D)

include ha

omit ha in
theorem splice_holds {v : Value} (h : M.RawWord v) : M.Holds (splice r s v) := by
  obtain ⟨t, rfl, ht⟩ := h
  exact .pure ht

section Parts

variable (hs : M.settings s)

include hs

theorem itemParts {v : Value} (hv : D v) : ItemParts M D s v where
  aliased _ _ h := ⟨ha.toHereditary.aliased hv h, ha.aliasText hs hv h⟩
  whole _ := hv

theorem joinParts {entry : Value} (h : D entry) : JoinParts M D s entry where
  alone _ hi := ha.itemParts hs (ha.item h hi (by simp))
  table _ _ hi := ha.itemParts hs (ha.item h hi (by simp))
  condition _ _ hi _ := ha.item h hi (by simp)

theorem joinSteps {vs : List Value} (h : ∀ v ∈ vs, D v)
    (hkinds : ∀ kind ∈ kindsAmong vs, M.word .free .bound (joinKeyword (joinKey kind))) :
    JoinSteps M D s vs := by
  fun_induction kindsAmong vs with
  | case1 kind entry rest ih =>
    have hentry : D entry := h entry (by simp)
    exact .step (hkinds kind (by simp)) (fun _ => ha.itemParts hs hentry)
      (fun _ => ha.joinParts hs hentry) (ih (fun v hv => h v (by simp [hv])) fun k hk => hkinds k (by simp [hk]))
  | case2 vs hshort =>
    cases vs with
    | nil => exact .nil
    | cons v vs =>
      cases vs with
      | nil => exact .odd v
      | cons w vs => exact absurd rfl (hshort v w vs)

omit hs

theorem windowParts {es : Entries} (h : D (.map es)) : WindowParts M D es where
  groups _ hv := ha.asItem (ha.field h _) hv
  order _ hi :=
    have hitem := ha.asItem (ha.field h _) hi
    ⟨ha.ordered hitem, ha.orderWords hitem⟩
  frame := ha.field h _

theorem orderedItems {v : Value} (hv : D v) :
    ∀ item ∈ v.asItems, D (orderItem item).1 ∧ OrderWords M item := fun _ hi =>
  have hitem := ha.asItem hv hi
  ⟨ha.ordered hitem, ha.orderWords hitem⟩

end Parts

variable (hr : M.Kept D r) (hs : M.settings s)

include hr hs

theorem special {form : SpecialForm} {op : String} (hop : M.registry.form? op = some form)
    {args : List Value} (h : ∀ v ∈ args, D v) (hwords : M.FormWords s form args) :
    M.Holds (special r s form op args) := by
  cases form
  case cases => exact hr.cases hs op h
  case caseOf => exact hr.caseOf hs op h
  case distinct => exact hr.distinct hs op h
  case composite => exact hr.composite hs op h
  case inlined => exact hr.inlinedForm hs op h
  case raw =>
    obtain ⟨v, rfl, hv⟩ := hwords
    exact splice_holds hv
  case array =>
    refine hr.array hs op (fun _ => h)
      (fun v hv vs hi w hw => ha.item (h v (List.mem_of_mem_head? hv)) hi hw) fun type ht => ?_
    cases args with
    | nil => simp at ht
    | cons v types => exact hwords type ht
  all_goals
    unfold Render.special
    split
  all_goals try first
    | exact holds_fail rfl
    | contradiction
  case h_4 v type _ =>
    refine hr.cast hs op (h v (by simp)) ?_
    cases type
    case text => exact hwords
    all_goals exact h _ (by simp)
  case h_5 => exact hr.between hs hop (h _ (by simp)) (h _ (by simp)) (h _ (by simp))
  case h_6 => exact hr.negation hs op (h _ (by simp))
  case h_8 => exact hr.filter hs op (h _ (by simp)) (h _ (by simp))
  case h_11 => exact hr.nest hs (h _ (by simp))
  case h_15 => exact holds_boundParam hs _
  case h_16 => exact holds_bind hs (ha.value (h _ (by simp)))
  case h_17 => exact hr.lateral hs op (h _ (by simp))
  case h_18 => exact hr.windowed hs (h _ (by simp)) nofun
  case h_19 =>
    exact hr.windowed hs (h _ (by simp)) fun es hes => ha.windowParts (hes ▸ h _ (by simp))
  case h_21 v units _ =>
    have hv := ha.unwrapped (h v (by simp))
    exact hr.interval hs hv (ha.value hv) hwords
  case h_22 => exact holds_words (M.quotedEntity_ok hs _)
  case h_23 => exact holds_words hwords
  case h_24 => exact hr.field hs op (h _ (by simp))
  case h_26 => exact hr.atTimeZone hs op (h _ (by simp)) (ha.unwrapped (h _ (by simp)))
  case h_27 => exact hr.exists_ hs op (h _ (by simp))
  case h_28 => exact hr.subscript hs (h _ (by simp)) (h _ (by simp))
  case h_29 =>
    refine hr.extract hs op (h _ (by simp)) fun t ht => ?_
    subst ht
    exact hwords
  case h_30 => exact holds_phrase (by decide)

theorem clause {form : ClauseForm} {key : String} (hkey : M.registry.clause? key = some form)
    {v : Value} (hv : D v) (hwords : M.ClauseWords s key v form) :
    M.Holds (clause r s form key v) := by
  have hword := M.clause_ok key form hkey
  have hitem : ∀ w ∈ v.asItems, D w := fun w hw => ha.asItem hv hw
  have hparts : ∀ w ∈ v.asItems, ItemParts M D s w := fun w hw => ha.itemParts hs (hitem w hw)
  have htail : ∀ w ∈ v.asItems.tail, D w := fun w hw => hitem w (List.mem_of_mem_tail hw)
  have hhead : ∀ w ∈ v.asItems.head?, D w := fun w hw => hitem w (List.mem_of_mem_head? hw)
  have hentries : ∀ {w es}, D w → w = .map es → ∀ e ∈ es, D e.2 := fun hw h e he =>
    ha.entry (h ▸ hw) he
  cases form
  case alterTable => exact hr.alterTable hs htail hwords
  case addColumn => exact holds_words (addColumn hwords)
  case dropColumn => exact holds_words (dropColumn hs v)
  case createTable => exact holds_words (createTable hs hwords)
  case withColumns => exact holds_words (withColumns hwords)
  case dropTable => exact holds_words (dropTable hs v)
  case rawText => exact splice_holds hwords
  case nested => exact hr.nest hs hv
  case tableExpressions =>
    exact hr.tableExpressions hs hword fun entry he _ _ hi => ha.item (hitem entry he) hi (by simp)
  case setOperation => exact hr.setOperation hs hword hitem
  case insertInto =>
    refine hr.insertInto hs hword (fun _ => ha.itemParts hs hv)
      (fun t ht => ha.itemParts hs (hhead t ht)) (fun w hw _ => htail w (List.mem_of_mem_head? hw))
      fun w hw => htail w (List.mem_of_mem_tail hw)
  case updateTable =>
    exact .bind (hr.item hs true (ha.itemParts hs hv)) fun _ h => guarded (M.phrase (by decide)) h
  case deleteTables =>
    exact .bind (hr.items hs true hparts) fun _ h =>
      guarded (M.phrase (by decide)) (good_commas h)
  case deleteFrom =>
    exact .bind (hr.item hs true (ha.itemParts hs hv)) fun _ h => guarded (M.phrase (by decide)) h
  case truncateTables => exact holds_words (truncate hs v)
  case columnList => exact holds_words (columnList hs v)
  case selection => exact hr.selection hs hword hparts
  case distinctOn =>
    exact hr.distinctOn hs (fun on hon w hw => ha.asItem (hhead on hon) hw) fun w hw =>
      ha.itemParts hs (htail w hw)
  case assignments =>
    exact .bind (hr.assignments hs key fun _ => hentries hv) fun _ h =>
      .pure (good_after (M.phrase (by decide)) h)
  case joinBy => exact hr.joinBy hs (ha.joinSteps hs hitem hwords) ha.null
  case join =>
    refine hr.join hs ?_ (fun entry he => ha.joinParts hs (hitem entry he)) ha.null
    unfold joinKeyword
    split
    · exact M.phrase (by decide)
    · exact hword
  case crossJoin => exact hr.crossJoin hs hparts
  case condition => exact hr.condition hs hword hv
  case grouping => exact hr.grouping hs hitem key
  case ordering => exact hr.ordering hs (ha.orderedItems hv) key
  case rows =>
    exact hr.rows hs (fun row hrow es hes => ⟨ha.null, hentries (hitem row hrow) hes⟩)
      (fun row hrow _ w hw => ha.asItem (hitem row hrow) hw) fun _ row hrow _ => hitem row hrow
  case onConflict => exact hr.onConflict hs hitem
  case onConstraint => exact holds_words (onConstraint hs v)
  case doNothing => exact holds_phrase (by decide)
  case doUpdate =>
    obtain ⟨hfields, hcondition⟩ := ha.updateParts hv
    exact hr.doUpdate hs key (fun _ => hentries hfields) hcondition
  case lock => exact holds_words (lock hword hwords)

theorem statement (nested : Bool) {es : Entries} (hes : D (.map es)) :
    M.Holds (statement r s nested es) := by
  refine Kept.statement_holds nested (ha.keys hs hes) fun key form v hv _ hform => ?_
  have hwithin := M.within es hs
  rw [M.registry_eq hs] at hform
  exact ha.clause hr hwithin hform (ha.valueAt hes hv) (ha.clauseWords hwithin hes hv hform)

theorem expression {stated : Settings → Entries → Render Fragment}
    (hstated : ∀ es, D (.map es) → M.Holds (stated s es)) (nested : Bool) {v : Value} (hv : D v) :
    M.Holds (expression r s stated nested v) := by
  refine Kept.expression hs nested (ha.value hv) (fun t ht _ => ha.ident hs (ht ▸ hv))
    (fun es hes => ?_) fun vs hi => ?_
  · subst hes
    refine mapOf hs (fun h => splice_holds (ha.rawWord hv h)) (fun key _ => ha.value (ha.field hv key))
      (fun type w h _ => ?_) fun _ => hstated es hv
    subst h
    exact ⟨ha.value (ha.entry hv (List.mem_singleton_self _)), ha.typeWord hv⟩
  · have hitem : ∀ w ∈ vs, D w := fun w hw => ha.item hv hi hw
    refine hr.arrayOf hs nested (fun head args h => ?_) fun _ => hitem
    subst h
    have hargs : ∀ w ∈ args, D w := fun w hw => hitem w (by simp [hw])
    exact hr.operation hs nested (ha.unknownHead hv hi) (fun _ => hargs)
      (fun _ w hw us hu x hx => ha.item (hargs w (List.mem_of_mem_tail hw)) hu hx)
      (fun _ => ha.callWords hs hv hi)
      fun form _ hform => ha.special hr hs hform hargs (ha.formWords hs hv hi hform)

end Admits

variable {M} {D : Value → Prop}

/-- The induction over the height of values. -/
theorem Admits.upTo (ha : M.Admits D) (n : Nat) : M.Kept D (upTo n) := by
  induction n with
  | zero => exact ⟨fun _ _ _ => holds_fail rfl, fun _ _ _ _ => holds_fail rfl⟩
  | succ n ih =>
    refine ⟨fun nested hs hv => ?_, fun nested hs hes _ => ha.statement ih hs nested hes⟩
    have hinner := M.inner hs
    exact Kept.deeper nested
      (ha.expression ih hinner (fun es hes => ha.statement ih hinner true hes) nested hv)

theorem Admits.fragment (ha : M.Admits D) {s : Settings} (hs : M.settings s) {data : Value}
    (hdata : D data) : M.Holds (fragment s data) := by
  have hexpr := (ha.upTo (data.height + 1)).expr false hs hdata
  unfold SqlTree.fragment fragmentBy
  split
  · split
    · exact ha.statement (ha.upTo _) hs false hdata
    · exact hexpr
  · exact hexpr

end Contract

end SqlTree

import SqlTree.Proofs.Contract.Data
import SqlTree.Proofs.Same

/-!
Values that the standard registry knows how to render: whatever their rendering comes to, it is not
that an operator or a clause is unknown.
-/

namespace SqlTree

open Render

/-- Nothing is unknown to the standard registry. -/
def Contract.known : Contract where
  settings s := s.registry = .standard
  registry := .standard
  value _ := True
  fault e := e.isUnknown = false
  ok _ _ _ := True
  registry_eq h := h
  within _ h := h
  inner h := h
  inlined h := h
  fault_of_known h := h
  value_text _ := trivial
  value_null := trivial
  param_ok _ _ := ⟨trivial, fun _ _ _ _ => trivial⟩
  nil := trivial
  freeFront _ := trivial
  boundBack _ := trivial
  append _ _ := trivial
  appendBound _ _ := trivial
  merge _ := trivial
  phrase _ := trivial
  blank := trivial
  typeMark := trivial
  slot _ _ := trivial
  literal_ok _ _ := Literal.known_render _ _
  nameText_ok _ t := known_nameText _ t
  quotedEntity_ok _ v := known_quotedEntity _ v
  excluded_ok _ v := known_excluded _ v
  fieldPath_ok _ _ fields := known_fieldPath _ fields
  equality_ok _ _ := trivial
  infix_ok _ _ := trivial
  unary_ok _ _ _ := trivial
  between_ok _ _ := trivial
  clause_ok _ _ _ := trivial

namespace Vocabulary

open Contract (known)
open Contract.Kept

variable {s : Settings} {n : Nat} {v : Value} {vs args : List Value} {es : Entries} {head : String}

/-- Values without parts that are rendered. -/
def isLeaf : Value → Bool
  | .list _ | .tuple _ | .set _ | .map _ => false
  | _ => true

theorem items_of_isLeaf (h : isLeaf v = true) : v.items? = none := by
  cases v <;> first | rfl | cases h

theorem callWords (s : Settings) (head : String) :
    Meets known.fault (fun _ => CallWords known head) (checkHead s head) :=
  (known_checkHead s head).mono fun _ _ => ⟨trivial, trivial⟩

theorem formWords (s : Settings) (form : SpecialForm)
    (hraw : form = .raw → ∃ t, args = [.text t]) : known.FormWords s form args := by
  unfold Contract.FormWords
  split
  · obtain ⟨t, rfl⟩ := hraw rfl
    exact ⟨_, rfl, t, rfl, trivial⟩
  · exact Identifier.known_typeName _
  · exact fun type _ => known_typeName type
  · exact fun u _ => known_keyword u
  · exact fun _ => trivial
  · exact known_aliasName s _
  · trivial

theorem clauseWords (s : Settings) (key : String) (v : Value) (form : ClauseForm)
    (hraw : form = .rawText → ∃ t, v = .text t) : known.ClauseWords s key v form := by
  unfold Contract.ClauseWords
  split
  · obtain ⟨t, rfl⟩ := hraw rfl
    exact ⟨t, rfl, trivial⟩
  · exact fun _ _ => trivial
  · exact fun w _ => known_lockWord key w
  · exact fun o _ => known_keyword o
  · exact fun w _ => known_keyword w
  · exact fun c _ => known_columnSpec s c
  · exact fun c _ => known_columnSpec s c
  · trivial

theorem admits_leaves : known.Admits (isLeaf · = true) where
  null := rfl
  element := by
    intro v vs w h hvs hw
    cases v <;> cases h <;> cases hvs <;> obtain ⟨c, -, rfl⟩ := List.mem_map.mp hw <;> rfl
  entry h := absurd h (by simp [isLeaf])
  unknownHead h hi := absurd (items_of_isLeaf h) (by simp [hi])
  keys _ h := absurd h (by simp [isLeaf])
  value _ := trivial
  ident _ _ := known_ident _ _
  aliasText _ _ _ := known_aliasText _ _
  orderWords _ _ _ := trivial
  callWords _ _ _ := callWords _ _
  formWords _ h hi := absurd (items_of_isLeaf h) (by simp [hi])
  rawWord h := absurd h (by simp [isLeaf])
  typeWord h := absurd h (by simp [isLeaf])
  clauseWords _ h := absurd h (by simp [isLeaf])

/-- The value is rendered at any depth without anything unknown. -/
structure Renders (v : Value) : Prop where
  expr : ∀ n {s} nested, known.settings s → known.Holds ((upTo n).expr s nested v)
  statement : ∀ n {s es} nested, known.settings s → v = .map es → s.isClause v = true →
    known.Holds ((upTo n).statement s nested es)

theorem kept (n : Nat) : known.Kept Renders (upTo n) :=
  ⟨fun nested hs h => h.expr n nested hs, fun nested hs h hc => h.statement n nested hs rfl hc⟩

theorem renders_leaf (h : isLeaf v = true) : Renders v where
  expr n _ nested hs := (admits_leaves.upTo n).expr nested hs h
  statement n _ _ nested hs hv hc := by
    subst hv
    cases h

theorem renders_text (t : String) : Renders (.text t) := renders_leaf rfl

theorem renders_of_expression (hv : v.entries? = none)
    (h : ∀ n {s} nested stated, known.settings s →
      known.Holds (expression (upTo n) s stated nested v)) : Renders v where
  expr n s nested hs := by
    cases n with
    | zero => exact Contract.holds_fail rfl
    | succ n => exact deeper nested (h n nested _ hs)
  statement _ _ es _ _ hes := by
    subst hes
    cases hv

section Arrays

theorem renders_list (hvs : ∀ v ∈ vs, Renders v) (hhead : ∀ head args, vs ≠ .text head :: args) :
    Renders (.list vs) :=
  renders_of_expression rfl fun n _ nested _ hs =>
    (kept n).arrayOf hs nested (fun head args h => absurd h (hhead head args)) fun _ => hvs

theorem renders_headed
    (h : ∀ n {s} nested, known.settings s →
      known.Holds (operation (upTo n) s nested head args)) :
    Renders (.list (.text head :: args)) :=
  renders_of_expression rfl fun n _ nested _ hs =>
    (kept n).arrayOf hs nested (fun _ _ heq => by cases heq; exact h n nested hs) fun htext =>
      absurd rfl (htext head args)

theorem renders_operator (hop : Registry.standard.isBinary (Registry.normalize head) = true)
    (hargs : ∀ v ∈ args, Renders v) : Renders (.list (.text head :: args)) := by
  refine renders_headed fun n _ nested hs => (kept n).operation hs nested (fun hcall => ?_)
    (fun _ => hargs) (fun hmember => ?_) (fun _ => callWords _ _) fun form hbinary _ => ?_
  · simp [isCall, known, hop] at hcall
  · have hneither : ∀ op ∈ Operator.membership, Registry.standard.isBinary op = false := by decide
    exact absurd hop (by simp [hneither _ hmember])
  · exact absurd (show Registry.standard.isBinary _ = false from hbinary) (by simp [hop])

theorem renders_membership (hop : Registry.normalize head ∈ Operator.membership)
    (hargs : ∀ v ∈ args, Renders v)
    (hitems : ∀ v ∈ args.tail, ∀ vs, v.items? = some vs → ∀ w ∈ vs, Renders w) :
    Renders (.list (.text head :: args)) := by
  refine renders_headed fun n _ nested hs => (kept n).operation hs nested (fun hcall => ?_)
    (fun _ => hargs) (fun _ => hitems) (fun _ => callWords _ _) fun form _ hform => ?_
  · simp [isCall, hop] at hcall
  · have hneither : ∀ op ∈ Operator.membership, Registry.standard.form? op = none := by decide
    have hnone : known.registry.form? _ = none := hneither _ hop
    rw [hnone] at hform
    cases hform

/-- Calls: the head is none of the names of the registry, but a name. -/
theorem renders_call (hhead : Identifier.isIdentText head || Identifier.isCallHead head)
    (hform : Registry.standard.form? (Registry.normalize head) = none)
    (hop : Registry.normalize head ∉ Operator.membership)
    (hargs : ∀ v ∈ args, Renders v) : Renders (.list (.text head :: args)) := by
  refine renders_headed fun n _ nested hs => (kept n).operation hs nested (fun _ hident hcall => ?_)
    (fun _ => hargs) (fun hmember => absurd hmember hop) (fun _ => callWords _ _)
    fun form _ hsome => ?_
  · rw [hident, hcall] at hhead
    cases hhead
  · have hnone : known.registry.form? _ = none := hform
    rw [hnone] at hsome
    cases hsome

theorem isBinary_of_mem (h : head ∈ Registry.standard.binary) :
    Registry.standard.isBinary (Registry.normalize head) = true := by
  have hall : ∀ op ∈ Registry.standard.binary,
      Registry.standard.isBinary (Registry.normalize op) = true := by decide +kernel
  exact hall head h

/-- The special form that the head is the name of, unless it is the name of an operator. -/
def formOf? (head : String) : Option SpecialForm :=
  let op := Registry.normalize head
  if Registry.standard.isBinary op || Operator.membership.contains op then none
  else Registry.standard.form? op

theorem renders_form {form : SpecialForm} (hform : formOf? head = some form)
    (h : ∀ n {s} op, known.settings s → Registry.standard.form? op = some form →
      known.Holds (special (upTo n) s form op args)) :
    Renders (.list (.text head :: args)) := by
  obtain ⟨hneither, hform⟩ := Option.ite_none_left_eq_some.mp hform
  rw [Bool.or_eq_true, not_or, Bool.not_eq_true, List.contains_iff_mem] at hneither
  have hcalled : isCall Registry.standard head = false := by
    simp [isCall, hform]
  refine renders_headed fun n _ nested hs => (kept n).operation hs nested (fun hcall => ?_)
    (fun hroles => ?_) (fun hmember => ?_) (fun _ => callWords _ _) fun f _ hf => ?_
  · exact absurd hcall (by simp [known, hcalled])
  · rcases hroles with hbinary | hmember | hcall
    · exact absurd hbinary (by simp [known, hneither.1])
    · exact absurd hmember hneither.2
    · exact absurd hcall (by simp [known, hcalled])
  · exact absurd hmember hneither.2
  · have hsame : some f = some form := hf.symm.trans hform
    cases hsame
    exact h n _ hs hform

theorem renders_special {f : SpecialForm} (hf : (head, f) ∈ SpecialForm.table)
    (h : ∀ n {s} op, known.settings s → Registry.standard.form? op = some f →
      known.Holds (special (upTo n) s f op args)) :
    Renders (.list (.text head :: args)) := by
  have hall : ∀ p ∈ SpecialForm.table, formOf? p.1 = some p.2 := by decide +kernel
  exact renders_form (hall (head, f) hf) h

end Arrays

section Maps

/-- The entry is a clause in which nothing is unknown. The branches of a set operation are known on
their own too, since another set operation may take them in. -/
structure EntryRenders (e : Value × Value) : Prop where
  clause : ∃ key form, e.1 = .text key ∧ Registry.standard.clause? key = some form ∧
    ∀ n {s}, known.settings s → known.Holds (clause (upTo n) s form key e.2)
  branches : ∀ key ∈ Clause.setOperations, e.1 = .text key → ∀ b ∈ e.2.asItems, Renders b

def Spoken (es : Entries) : Prop := ∀ e ∈ es, EntryRenders e

theorem mem_clauseKeys {key : String} {form : ClauseForm}
    (h : Registry.standard.clause? key = some form) : key ∈ Registry.standard.clauseKeys := by
  obtain ⟨l₁, l₂, hl, -⟩ := List.lookup_eq_some_iff.mp h
  simp [Registry.clauseKeys, hl]

theorem meets_checkKeys (hs : known.settings s)
    (h : ∀ e ∈ es, ∃ key ∈ Registry.standard.clauseKeys, e.1 = .text key) :
    Meets known.fault (fun _ => True) (checkKeys s es) := by
  have hnone : unknownKeys s.registry.clauseKeys es = [] := by
    rw [show s.registry = .standard from hs, unknownKeys, List.map_eq_nil_iff,
      List.filter_eq_nil_iff]
    intro e he
    obtain ⟨key, hkey, heq⟩ := h e he
    simpa [heq, Value.text?] using hkey
  simp only [checkKeys, hnone, List.isEmpty_nil, if_true]
  trivial

theorem Spoken.statement_holds (h : Spoken es) (n : Nat) (nested : Bool) (hs : known.settings s) :
    known.Holds (Render.statement (upTo n) s nested es) := by
  refine Contract.Kept.statement_holds nested (meets_checkKeys hs fun e he => ?_) fun key form v hv _ hform => ?_
  · obtain ⟨key, form, hkey, hform, -⟩ := (h e he).clause
    exact ⟨key, mem_clauseKeys hform, hkey⟩
  · obtain ⟨key', form', hkey, hform', hclause⟩ := (h _ (Entries.mem_of_field? hv)).clause
    cases hkey
    rw [show s.registry = .standard from hs, hform'] at hform
    cases hform
    exact hclause n hs

theorem holds_map (h : ∀ n {s}, known.settings s →
      known.Holds (mapOf (upTo n) s (Render.statement (upTo n) · true) es))
    (n : Nat) (nested : Bool) (hs : known.settings s) :
    known.Holds ((upTo n).expr s nested (.map es)) := by
  cases n with
  | zero => exact Contract.holds_fail rfl
  | succ n => exact Contract.Kept.deeper nested (h n (known.inner hs))

/-- A map that is no statement, whose raw text is one text. -/
theorem renders_wrapper (hform : Form.ofEntries Registry.standard.clauseKeys es ≠ .clause)
    (hraw : Form.ofEntries Registry.standard.clauseKeys es = .raw →
      ∃ t, Entries.field? es Form.rawKey = some (.text t)) : Renders (.map es) where
  expr n s nested hs := by
    refine holds_map (fun n s hs => mapOf hs (fun h => ?_) (fun _ _ => trivial)
      (fun type _ _ _ => ⟨trivial, Identifier.known_typeName type⟩) fun h => absurd h hform)
      n nested hs
    obtain ⟨t, ht⟩ := hraw h
    rw [ht]
    exact .pure trivial
  statement n s es nested hs hes hclause := by
    cases hes
    refine absurd ?_ hform
    simpa [Settings.isClause, Form.isClause, Form.of, show s.registry = .standard from hs]
      using hclause

theorem renders_raw (t : String) : Renders (Value.raw (.text t)) :=
  renders_wrapper (fun h => nomatch (h : Form.raw = Form.clause)) fun _ => ⟨t, rfl⟩

theorem Spoken.hasField_eq_false (h : Spoken es) {key : String} (hkey : key ∈ Form.wrapperKeys) :
    Entries.hasField es key = false := by
  by_contra hfield
  obtain ⟨e, he, hkey⟩ := Entries.hasField_iff.mp (by simpa using hfield)
  obtain ⟨key', form, hkey', hform, -⟩ := (h e he).clause
  cases hkey.symm.trans hkey'
  have hnone : ∀ key ∈ Form.wrapperKeys, Registry.standard.clause? key = none := by decide
  rw [hnone key ‹_›] at hform
  cases hform

theorem Spoken.renders (h : Spoken es) : Renders (.map es) where
  expr n s nested hs := by
    refine holds_map (fun n s hs => ?_) n nested hs
    refine mapOf hs (fun hraw => ?_) (fun _ _ => trivial)
      (fun type _ _ _ => ⟨trivial, Identifier.known_typeName type⟩) fun _ =>
        h.statement_holds n true hs
    have hfalse : ∀ key ∈ Form.wrapperKeys, ¬Entries.hasField es key = true := fun key hkey => by
      simp [h.hasField_eq_false hkey]
    rw [Form.ofEntries, if_neg (hfalse _ (by decide)), if_neg (hfalse _ (by decide)),
      if_neg (hfalse _ (by decide)), if_neg (hfalse _ (by decide))] at hraw
    split at hraw <;> cases hraw
  statement n s fs nested hs hfs _ := by
    cases hfs
    cases n with
    | zero => exact Contract.holds_fail rfl
    | succ n => exact h.statement_holds n nested hs

theorem renders_untyped (v : Value) : Renders (Value.typed v Form.valueKey) :=
  renders_wrapper (fun h => nomatch (h : Form.typed = Form.clause)) fun h =>
    nomatch (h : Form.typed = Form.raw)

/-- Two leading underscores are kept for wrappers. -/
def isReserved (type : String) : Bool := "__".toList.isPrefixOf type.toList

theorem entryRenders_text {key : String} {form : ClauseForm}
    (hform : Registry.standard.clause? key = some form) (t : String) :
    EntryRenders (.text key, .text t) where
  clause := ⟨key, form, rfl, hform, fun n _ hs =>
    admits_leaves.clause (admits_leaves.upTo n) hs hform rfl (clauseWords _ _ _ _ fun _ => ⟨t, rfl⟩)⟩
  branches _ _ _ := by simpa [Value.asItems, Value.items?] using renders_text t

/-- A text with a type. The name of a clause makes a statement of it. -/
theorem renders_typed (t : String) {type : String} (htype : isReserved type = false) :
    Renders (Value.typed (.text t) type) := by
  cases hclause : Registry.standard.clause? type with
  | some form =>
    have hspoken : Spoken [(.text type, .text t)] := by
      simpa [Spoken] using entryRenders_text hclause t
    exact hspoken.renders
  | none =>
    have hfalse : ∀ key ∈ Form.wrapperKeys,
        ¬Entries.hasField [(Value.text type, Value.text t)] key = true := by
      intro key hkey hfield
      obtain ⟨e, he, heq⟩ := Entries.hasField_iff.mp hfield
      rw [List.mem_singleton.mp he] at heq
      cases heq
      have hreserved : ∀ key ∈ Form.wrapperKeys, isReserved key = true := by decide
      simp [hreserved type hkey] at htype
    have hunlisted : type ∉ Registry.standard.clauseKeys := by
      rw [Registry.clauseKeys, List.mem_map]
      rintro ⟨c, hc, rfl⟩
      exact absurd (List.lookup_eq_none_iff.mp hclause c hc) (by simp)
    have hform : Form.ofEntries Registry.standard.clauseKeys [(Value.text type, .text t)] =
        .typed := by
      rw [Form.ofEntries, if_neg (hfalse _ (by decide)), if_neg (hfalse _ (by decide)),
        if_neg (hfalse _ (by decide)), if_neg (hfalse _ (by decide)), if_pos]
      simpa [Form.isTypedEntries, hunlisted, isReserved] using Or.inr htype
    change Renders (.map [(.text type, .text t)])
    exact renders_wrapper (by rw [hform]; decide) fun h => absurd (hform.symm.trans h) (by decide)

end Maps

section Items

/-- The value may stand as an item of a selection or among tables. -/
def Itemised (v : Value) : Prop := ∀ {s}, known.settings s → ItemParts known Renders s v

/-- The value may stand wherever an expression may stand. -/
structure Speaks (v : Value) : Prop where
  renders : Renders v
  item : Itemised v
  inner : Renders (unwrapped v)

theorem items_of_aliasPair? {e : Value} {t : String} (h : aliasPair? s v = some (e, t)) :
    v.items? = some [e, .text t] := by
  unfold aliasPair? at h
  split at h
  · next first u hi =>
    obtain ⟨rfl, rfl⟩ : first = e ∧ u = t := by
      simpa using (Option.ite_none_right_eq_some.mp h).2
    exact hi
  · cases h

theorem itemised_of_renders (h : Renders v)
    (hfirst : ∀ first rest, v.items? = some (first :: rest) → Renders first) : Itemised v :=
  fun _ => ⟨fun e _ hpair => ⟨hfirst e _ (items_of_aliasPair? hpair), known_aliasText _ _⟩, fun _ => h⟩

theorem speaks_leaf (h : isLeaf v = true) : Speaks v where
  renders := renders_leaf h
  item := itemised_of_renders (renders_leaf h) (by simp [items_of_isLeaf h])
  inner := by
    cases v <;> first | exact renders_leaf h | cases h

theorem speaks_headed (h : Renders (.list (.text head :: args))) :
    Speaks (.list (.text head :: args)) where
  renders := h
  item := itemised_of_renders h fun _ _ hi => by cases hi; exact renders_text head
  inner := h

theorem speaks_map (h : Renders (.map es))
    (hinner : ∀ v, es = [(.text Form.valueKey, v)] → Renders v) : Speaks (.map es) where
  renders := h
  item := itemised_of_renders h nofun
  inner := by
    unfold unwrapped
    split
    · next hes =>
      split
      · next hkey => exact hinner _ (by rw [← hkey]; exact Value.map.inj hes)
      · exact hes ▸ h
    · exact h

theorem speaks_untyped (h : isLeaf v = true) : Speaks (Value.typed v Form.valueKey) :=
  speaks_map (renders_untyped v) fun w hw => by
    cases hw
    exact renders_leaf h

theorem speaks_typed (t : String) {type : String} (htype : isReserved type = false) :
    Speaks (Value.typed (.text t) type) :=
  speaks_map (renders_typed t htype) fun w hw => by
    obtain ⟨-, rfl⟩ : _ ∧ Value.text t = w := by simpa using hw
    exact renders_text t

theorem speaks_raw (t : String) : Speaks (Value.raw (.text t)) :=
  speaks_map (renders_raw t) fun w hw => by
    have hkey : Form.rawKey = Form.valueKey := Value.text.inj (Prod.mk.inj (List.cons.inj hw).1).1
    exact absurd hkey (by decide)

theorem Spoken.speaks (h : Spoken es) : Speaks (.map es) :=
  speaks_map h.renders fun v hv => by
    obtain ⟨key, form, hkey, hform, -⟩ := (h (.text Form.valueKey, v) (by simp [hv])).clause
    cases hkey
    cases hform

/-- Behind `%` anything is the name of a call; on its own the sign is an operator. -/
theorem isIdentText_percent {cs : List Char} (h : head.toList = '%' :: cs)
    (hop : Registry.standard.isBinary (Registry.normalize head) = false) :
    Identifier.isIdentText head = true := by
  cases cs with
  | nil =>
    have hbinary := isBinary_of_mem (show "%" ∈ Registry.standard.binary by decide)
    have hhead : head = "%" := String.toList_inj.mp h
    rw [hhead, hbinary] at hop
    cases hop
  | cons c cs => simp [Identifier.isIdentText, h]

/-- An array of two texts is an operation or a call if it is no pair. -/
theorem renders_pair {t : String}
    (h : startsWithPercent head = true ∨ Registry.standard.isOperator head = true) :
    Renders (.list [.text head, .text t]) := by
  have hargs : ∀ v ∈ [Value.text t], Renders v := by simpa using renders_text t
  by_cases hbinary : Registry.standard.isBinary (Registry.normalize head) = true
  · exact renders_operator hbinary hargs
  by_cases hmember : Registry.normalize head ∈ Operator.membership
  · exact renders_membership hmember hargs (by simp)
  cases hform : Registry.standard.form? (Registry.normalize head) with
  | some form =>
    have hnamed : formOf? head = some form := by
      simp [formOf?, hbinary, hmember, hform]
    exact renders_form hnamed fun n s op hs hop =>
      admits_leaves.special (admits_leaves.upTo n) hs hop (by simp [isLeaf])
        (formWords s form fun _ => ⟨t, rfl⟩)
  | none =>
    refine renders_call ?_ hform hmember hargs
    have hpercent : startsWithPercent head = true := by
      simpa [Registry.isOperator, hbinary, hmember, hform] using h
    obtain ⟨cs, hcs⟩ := List.head?_eq_some_iff.mp (by simpa [startsWithPercent] using hpercent)
    rw [isIdentText_percent hcs (Bool.eq_false_iff.mpr hbinary), Bool.true_or]

theorem itemised_pair {e : Value} {t : String} (he : Renders e) (ht : isAliasText t = true) :
    Itemised (.list [e, .text t]) := by
  intro s hs
  refine ⟨fun e' _ hpair => ?_, fun hnone => ?_⟩
  · have hitems := items_of_aliasPair? hpair
    cases hitems
    exact ⟨he, known_aliasText _ _⟩
  · by_cases htext : ∃ head, e = .text head
    · obtain ⟨head, rfl⟩ := htext
      refine renders_pair ?_
      simpa [aliasPair?, Value.items?, ht, show s.registry = .standard from hs, or_iff_not_imp_left]
        using hnone
    · refine renders_list (by simpa using ⟨he, renders_text t⟩) fun head args h => htext ⟨head, ?_⟩
      exact (List.cons.inj h).1

end Items

end Vocabulary

end SqlTree

import SqlTree.Proofs.Readings
import SqlTree.Proofs.Regular.Expression
import SqlTree.Proofs.Vocabulary.Values

/-!
Expressions that are read from SQL text hold nothing that the standard registry does not know.
-/

namespace SqlTree.Vocabulary

open Render Syntax
open Contract (known)
open Contract.Kept

variable {v : Value} {vs args : List Value} {es : Entries} {head : String}

/-- What an operand is read as may stand wherever an expression may stand. -/
structure OperandSpeaks (o : Operand) : Prop where
  value : Always o.value Speaks
  operands : ∀ op, Always (o.operands op) fun vs => ∀ v ∈ vs, Speaks v

section Operands

variable {r : Read Value} {o left right : Operand} {parts : List Operand}

theorem operandSpeaks_node (h : Always r Speaks) : OperandSpeaks (.node r) where
  value := h.visit
  operands _ := h.visit.map fun _ hv => by simpa using hv

theorem operandSpeaks_leaf (h : Speaks v) : OperandSpeaks (.leaf v) := operandSpeaks_node (.pure h)

theorem operandSpeaks_leafOr {x : Except Fault Value} (h : ∀ v, x = .ok v → Speaks v) :
    OperandSpeaks (.leafOr x) :=
  operandSpeaks_node fun _ v hv => h v hv

theorem always_values (h : ∀ p ∈ parts, OperandSpeaks p) :
    Always (Operand.values parts) fun vs => ∀ v ∈ vs, Renders v := by
  refine .visitAll fun r hr => ?_
  obtain ⟨p, hp, rfl⟩ := List.mem_map.mp hr
  exact (h p hp).value.mono fun _ hv => hv.renders

/-- The values of a list, which is no node if it is empty. -/
theorem always_listed {α : Type} {f : List Value → Read α} {P : α → Prop}
    (h : ∀ p ∈ parts, OperandSpeaks p) (hf : ∀ vs, (∀ v ∈ vs, Renders v) → Always (f vs) P) :
    Always (if parts.isEmpty then pure [] >>= f else Operand.values parts >>= f) P := by
  split
  · exact hf [] nofun
  · exact (always_values h).bind hf

theorem always_mapM (h : ∀ p ∈ parts, OperandSpeaks p) :
    Always (parts.mapM Operand.value) fun vs =>
      vs.length = parts.length ∧ ∀ v ∈ vs, Speaks v := by
  induction parts with
  | nil => exact .pure ⟨rfl, nofun⟩
  | cons p parts ih =>
    rw [List.mapM_cons]
    refine (h p (by simp)).value.bind fun v hv => ?_
    refine (ih fun q hq => h q (by simp [hq])).bind fun vs hvs => .pure ?_
    exact ⟨congrArg (· + 1) hvs.1, List.forall_mem_cons.mpr ⟨hv, hvs.2⟩⟩

theorem operandSpeaks_headed {r : Read (List Value)} {P : List Value → Prop} (hr : Always r P)
    (h : ∀ vs, P vs → Renders (headed head vs)) :
    OperandSpeaks (.node do return headed head (← r)) :=
  operandSpeaks_node (hr.map fun vs hvs => speaks_headed (h vs hvs))

theorem operandSpeaks_form (hparts : ∀ p ∈ parts, OperandSpeaks p)
    (h : ∀ vs, vs.length = parts.length → (∀ v ∈ vs, Speaks v) → Renders (headed head vs)) :
    OperandSpeaks (.form head parts) :=
  operandSpeaks_headed (always_mapM hparts) fun vs hvs => h vs hvs.1 hvs.2

theorem operandSpeaks_operator (hop : head ∈ Registry.standard.binary)
    (hparts : ∀ p ∈ parts, OperandSpeaks p) : OperandSpeaks (.form head parts) :=
  operandSpeaks_form hparts fun _ _ hvs => renders_operator (isBinary_of_mem hop) fun v hv => (hvs v hv).renders

end Operands

section Readings

variable {e left right : Operand} {items : List Operand} {q : Read Entries}

theorem connected (op : Connective) (hl : OperandSpeaks left) (hr : OperandSpeaks right) :
    OperandSpeaks (Reading.connected op left right) := by
  have hchain : Always (Reading.chainOperands op left right) fun vs => ∀ v ∈ vs, Speaks v :=
    (hl.operands op).bind fun vs hvs => hr.value.map fun v hv =>
      List.forall_mem_append.mpr ⟨hvs, by simpa using hv⟩
  have hop : op.word ∈ Registry.standard.binary := by cases op <;> decide
  have hwhole := operandSpeaks_headed hchain fun vs hvs =>
    renders_operator (isBinary_of_mem hop) fun v hv => (hvs v hv).renders
  refine ⟨hwhole.value, fun op' => ?_⟩
  unfold Reading.connected
  dsimp only
  split
  · exact hchain
  · exact hwhole.operands op

theorem test (negated : Bool) (t : Test) (he : OperandSpeaks e) :
    OperandSpeaks (Reading.test negated t e) := by
  refine operandSpeaks_node (he.value.map fun v hv => speaks_headed (renders_operator (isBinary_of_mem ?_) ?_))
  · cases negated <;> decide
  · have ht : Renders t.operand := by cases t <;> exact renders_leaf rfl
    simpa using ⟨hv.renders, ht⟩

theorem comparison {op : String} (hop : op ∈ comparisonSigns) (hl : OperandSpeaks left)
    (hr : OperandSpeaks right) : OperandSpeaks (Reading.comparison op left right) := by
  have hknown : ∀ op ∈ comparisonSigns,
      (if op = "!=" then "<>" else op) ∈ Registry.standard.binary := by decide
  exact operandSpeaks_operator (hknown op hop) (by simpa using ⟨hl, hr⟩)

theorem binary {op : String} (hop : op ∈ infixSigns) (hl : OperandSpeaks left)
    (hr : OperandSpeaks right) : OperandSpeaks (.form op [left, right]) := by
  have hknown : ∀ op ∈ infixSigns, op ∈ Registry.standard.binary := by decide
  exact operandSpeaks_operator (hknown op hop) (by simpa using ⟨hl, hr⟩)

theorem predicate (negated : Bool) (p : Predicate) (hl : OperandSpeaks left)
    (hr : OperandSpeaks right) : OperandSpeaks (.form (p.word negated) [left, right]) := by
  refine operandSpeaks_operator ?_ (by simpa using ⟨hl, hr⟩)
  cases p <;> cases negated <;> decide

theorem not (he : OperandSpeaks e) : OperandSpeaks (.form "not" [e]) := by
  refine operandSpeaks_form (by simpa using he) fun vs hlen hvs => ?_
  obtain ⟨v, rfl⟩ := List.length_eq_one_iff.mp hlen
  exact renders_special (f := .negation) (by decide) fun n s op hs _ =>
    (kept n).negation hs op (hvs v (by simp)).renders

theorem between (negated : Bool) {low high : Operand} (he : OperandSpeaks e)
    (hlow : OperandSpeaks low) (hhigh : OperandSpeaks high) :
    OperandSpeaks (.form (if negated then "not-between" else "between") [e, low, high]) := by
  refine operandSpeaks_form (by simpa using ⟨he, hlow, hhigh⟩) fun vs hlen hvs => ?_
  obtain ⟨v, l, h, rfl⟩ := List.length_eq_three.mp hlen
  exact renders_special (f := .between) (by cases negated <;> decide) fun n s op hs hop =>
    (kept n).between hs hop (hvs v (by simp)).renders (hvs l (by simp)).renders
      (hvs h (by simp)).renders

theorem atTimeZone {zone : Operand} (he : OperandSpeaks e) (hzone : OperandSpeaks zone) :
    OperandSpeaks (.form "at-time-zone" [e, zone]) := by
  refine operandSpeaks_form (by simpa using ⟨he, hzone⟩) fun vs hlen hvs => ?_
  obtain ⟨v, z, rfl⟩ := List.length_eq_two.mp hlen
  exact renders_special (f := .atTimeZone) (by decide) fun n s op hs _ =>
    (kept n).atTimeZone hs op (hvs v (by simp)).renders (hvs z (by simp)).inner

theorem subscript {index : Operand} (he : OperandSpeaks e) (hindex : OperandSpeaks index) :
    OperandSpeaks (.form "at" [e, index]) := by
  refine operandSpeaks_form (by simpa using ⟨he, hindex⟩) fun vs hlen hvs => ?_
  obtain ⟨v, i, rfl⟩ := List.length_eq_two.mp hlen
  exact renders_special (f := .subscript) (by decide) fun n s op hs _ =>
    (kept n).subscript hs (hvs v (by simp)).renders (hvs i (by simp)).renders

theorem plus (he : OperandSpeaks e) : OperandSpeaks (.form "+" [e]) :=
  operandSpeaks_operator (by decide) (by simpa using he)

section Membership

theorem renders_composite (h : ∀ v ∈ args, Renders v) : Renders (headed "composite" args) :=
  renders_special (f := .composite) (by decide) fun n s op hs _ =>
    (kept n).composite hs op h

theorem renders_members (h : ∀ v ∈ vs, Renders v) :
    Renders (Reading.members vs) ∧
      ∀ ws, (Reading.members vs).items? = some ws → ∀ w ∈ ws, Renders w := by
  have hcomposite : Renders (headed "composite" vs) ∧
      ∀ ws, (headed "composite" vs).items? = some ws → ∀ w ∈ ws, Renders w := by
    refine ⟨renders_composite h, fun ws hws => ?_⟩
    cases hws
    exact List.forall_mem_cons.mpr ⟨renders_text _, h⟩
  unfold Reading.members
  split
  · exact hcomposite
  · exact hcomposite
  · next htext _ =>
    exact ⟨renders_list h fun head args hvs => htext head args hvs, fun ws hws => by cases hws; exact h⟩

theorem renders_in (negated : Bool) {v right : Value} (hv : Renders v) (hright : Renders right)
    (hitems : ∀ ws, right.items? = some ws → ∀ w ∈ ws, Renders w) :
    Renders (headed (if negated then "not-in" else "in") [v, right]) :=
  renders_membership (by cases negated <;> decide +kernel) (by simpa using ⟨hv, hright⟩)
    (by simpa using hitems)

theorem inList (negated : Bool) (he : OperandSpeaks e) (hitems : ∀ p ∈ items, OperandSpeaks p) :
    OperandSpeaks (Reading.inList negated e items) :=
  operandSpeaks_node <| he.value.bind fun _ hv => (always_values hitems).visit.map fun _ hvs =>
    have hmembers := renders_members hvs
    speaks_headed (renders_in negated hv.renders hmembers.1 hmembers.2)

theorem inQuery (negated : Bool) (he : OperandSpeaks e) (hq : Always q Spoken) :
    OperandSpeaks (Reading.inQuery negated e q) :=
  operandSpeaks_node <| he.value.bind fun _ hv => hq.visit.map fun _ hes =>
    speaks_headed (renders_in negated hv.renders hes.renders nofun)

end Membership

section Types

theorem renders_cast (hv : Renders v) (type : String) : Renders (headed "cast" [v, .text type]) :=
  renders_special (f := .cast) (by decide) fun n s op hs _ =>
    (kept n).cast hs op hv (Identifier.known_typeName type)

theorem cast (he : OperandSpeaks e) (type : TypeName) : OperandSpeaks (Reading.cast e type) :=
  operandSpeaks_node <| he.value.bind fun _ hv => Always.mapAny fun _ =>
    speaks_headed (renders_cast hv.renders _)

/-- A type that is read is spelled as it is written. -/
theorem always_type (type : TypeName) : Always type.read fun t => t = type.text :=
  Always.visit (Always.visit (.pure rfl))

theorem typecast (he : OperandSpeaks e) {type : TypeName} (htype : isReserved type.text = false) :
    OperandSpeaks (Reading.typecast e type) := by
  refine operandSpeaks_node <| he.value.bind fun v hv => (always_type type).map fun t ht => ?_
  subst ht
  unfold Literal.cast
  split
  · split
    · exact speaks_headed (renders_cast hv.renders _)
    · exact speaks_typed _ htype
  · exact speaks_headed (renders_cast hv.renders _)

theorem negate (he : OperandSpeaks e) : OperandSpeaks (Reading.negate e) := by
  refine operandSpeaks_node <| he.value.map fun v hv => ?_
  unfold Literal.negated
  split
  · exact speaks_untyped rfl
  · exact speaks_untyped rfl
  · exact speaks_untyped rfl
  · exact speaks_headed (renders_operator (isBinary_of_mem (by decide)) (by simpa using hv.renders))

theorem typed {type : String} (htype : isReserved type = false) (quoted : String) :
    OperandSpeaks (.leaf (Literal.typed type quoted)) := by
  refine operandSpeaks_leaf ?_
  unfold Literal.typed
  dsimp only
  split
  · exact speaks_untyped rfl
  · split
    · refine speaks_headed (renders_special (f := .interval) (by decide) fun n s op hs _ => ?_)
      exact (kept n).interval hs (renders_text _) trivial nofun
    · exact speaks_typed _ htype

end Types

section Queries

theorem subquery (hq : Always q Spoken) : OperandSpeaks (Reading.subquery q) :=
  operandSpeaks_node (hq.map fun _ hes => hes.speaks)

theorem ofQuery (hq : Always q Spoken)
    (h : ∀ es, Spoken es → Renders (headed head [.map es])) :
    OperandSpeaks (Reading.ofQuery head q) :=
  operandSpeaks_node (hq.map fun es hes => speaks_headed (h es hes))

theorem exists_ (hq : Always q Spoken) : OperandSpeaks (Reading.ofQuery "exists" q) :=
  ofQuery hq fun _ hes => renders_special (f := .exists) (by decide) fun n s op hs _ =>
    (kept n).exists_ hs op hes.renders

theorem arrayOf (hq : Always q Spoken) : OperandSpeaks (Reading.ofQuery "array" q) :=
  ofQuery hq fun _ hes => renders_special (f := .array) (by decide) fun n s op hs _ =>
    (kept n).array hs op (fun _ => by simpa using hes.renders) (by simp [Value.items?]) nofun

theorem array (h : ∀ p ∈ items, OperandSpeaks p) : OperandSpeaks (Reading.array items) :=
  operandSpeaks_node <| always_listed h fun vs hvs => .pure <| speaks_headed <|
    renders_special (f := .array) (by decide) fun n s op hs _ =>
      (kept n).array hs op (fun hnone => by simp [Value.items?] at hnone)
        (by simpa [Value.items?] using hvs) nofun

end Queries

section Parts

theorem field (he : OperandSpeaks e) (name : Name) : OperandSpeaks (Reading.field e name) :=
  operandSpeaks_node <| he.value.map fun _ hv => speaks_headed <|
    renders_special (f := .field) (by decide) fun n s op hs _ =>
      (kept n).field hs op hv.renders

theorem extract (part : Name) (he : OperandSpeaks e) : OperandSpeaks (Reading.extract part e) :=
  operandSpeaks_node <| he.value.map fun _ hv => speaks_headed <|
    renders_special (f := .extract) (by decide) fun n s op hs _ =>
      (kept n).extract hs op hv.renders fun _ _ _ => trivial

theorem row {first : Option Operand} (hfirst : ∀ p ∈ first, OperandSpeaks p)
    (hrest : ∀ p ∈ items, OperandSpeaks p) : OperandSpeaks (Reading.row first items) := by
  have hfirst : ∀ p ∈ first.toList, OperandSpeaks p := by simpa using hfirst
  refine operandSpeaks_node <| (always_mapM hfirst).bind fun vs hvs =>
    always_listed hrest fun ws hws => .pure <| speaks_headed <| renders_composite ?_
  exact List.forall_mem_append.mpr ⟨fun v hv => (hvs.2 v hv).renders, hws⟩

theorem param (sign : String) : OperandSpeaks (.leaf (headed "param" [.text sign])) :=
  operandSpeaks_leaf <| speaks_headed <| renders_special (f := .param) (by decide)
    fun _ _ _ hs _ => Contract.holds_boundParam hs _

theorem default_ : OperandSpeaks (.leaf (headed "default" [])) :=
  operandSpeaks_leaf <| speaks_headed <| renders_special (f := .default) (by decide)
    fun _ _ _ _ _ => Contract.holds_phrase (by decide)

theorem column (path : Path) : OperandSpeaks (.leaf (Path.value path)) := by
  refine operandSpeaks_leaf ?_
  unfold Path.value
  split
  · exact speaks_leaf rfl
  · exact speaks_headed <| renders_special (f := .entity) (by decide) fun _ _ _ hs _ =>
      Contract.holds_words (known.quotedEntity_ok hs _)

end Parts

section Cases

variable {bs : List (Read (List Value))} {otherwise : Option Operand}

theorem always_branches (hbs : ∀ b ∈ bs, Always b fun vs => ∀ v ∈ vs, Renders v)
    (ho : ∀ p ∈ otherwise, OperandSpeaks p) :
    Always (Reading.branches bs otherwise) fun vs => ∀ v ∈ vs, Renders v := by
  refine (Always.mapM hbs).bind fun vss hvss => ?_
  have hflat : ∀ v ∈ vss.flatten, Renders v := fun v hv => by
    obtain ⟨vs, hvs, hmem⟩ := List.mem_flatten.mp hv
    exact hvss vs hvs v hmem
  split
  · exact .pure hflat
  · refine (ho _ rfl).value.map fun v hv => List.forall_mem_append.mpr ⟨hflat, ?_⟩
    simpa using ⟨renders_text "else", hv.renders⟩

theorem cases (hbs : ∀ b ∈ bs, Always b fun vs => ∀ v ∈ vs, Renders v)
    (ho : ∀ p ∈ otherwise, OperandSpeaks p) : OperandSpeaks (Reading.cases bs otherwise) :=
  operandSpeaks_headed (always_branches hbs ho) fun _ hvs =>
    renders_special (f := .cases) (by decide) fun n s op hs _ => (kept n).cases hs op hvs

theorem caseOf {subject : Operand} (hsubject : OperandSpeaks subject)
    (hbs : ∀ b ∈ bs, Always b fun vs => ∀ v ∈ vs, Renders v)
    (ho : ∀ p ∈ otherwise, OperandSpeaks p) :
    OperandSpeaks (Reading.caseOf subject bs otherwise) :=
  operandSpeaks_node <| hsubject.value.bind fun _ hv => (always_branches hbs ho).map fun _ hvs =>
    speaks_headed <| renders_special (f := .caseOf) (by decide) fun n s op hs _ =>
      (kept n).caseOf hs op (List.forall_mem_cons.mpr ⟨hv.renders, hvs⟩)

end Cases

section Calls

/-- Behind `%` no name is the name of a form. -/
theorem exists_normalize_percent {cs : List Char} (h : head.toList = '%' :: cs) :
    ∃ ds, (Registry.normalize head).toList = '%' :: ds := by
  obtain ⟨ds, hds⟩ := Text.exists_toList_lower h (by decide) (d := '%') (by decide +kernel)
  have hnone : Operator.aliases.lookup (Text.lower head) = none := by
    refine List.lookup_eq_none_iff.mpr fun p hp => ?_
    have hfirst : ∀ p ∈ Operator.aliases, p.1.toList.head? ≠ some '%' := by decide
    have hne : Text.lower head ≠ p.1 := fun heq => hfirst p hp (by rw [← heq, hds]; rfl)
    simpa using hne
  exact ⟨ds, by rw [Registry.normalize, hnone, Option.getD_none, hds]⟩

theorem renders_percent {cs : List Char} (h : head.toList = '%' :: cs)
    (hargs : ∀ v ∈ args, Renders v) : Renders (headed head args) := by
  by_cases hbinary : Registry.standard.isBinary (Registry.normalize head) = true
  · exact renders_operator hbinary hargs
  · obtain ⟨ds, hds⟩ := exists_normalize_percent h
    have hident := isIdentText_percent h (Bool.eq_false_iff.mpr hbinary)
    refine renders_call (by rw [hident, Bool.true_or]) ?_ (fun hmember => ?_) hargs
    · refine List.lookup_eq_none_iff.mpr fun p hp => ?_
      have hfirst : ∀ p ∈ Registry.standard.forms, p.1.toList.head? ≠ some '%' := by decide
      have hne : Registry.normalize head ≠ p.1 := fun heq => hfirst p hp (by rw [← heq, hds]; rfl)
      simpa using hne
    · have hfirst : ∀ op ∈ Operator.membership, op.toList.head? ≠ some '%' := by decide
      exact hfirst _ hmember (by rw [hds]; rfl)

theorem quantified (q : Quantifier) (he : OperandSpeaks e) :
    OperandSpeaks (.form q.word [e]) := by
  obtain ⟨cs, hcs⟩ : ∃ cs, q.word.toList = '%' :: cs := by cases q <;> exact ⟨_, rfl⟩
  exact operandSpeaks_form (by simpa using he) fun _ _ hvs =>
    renders_percent hcs fun v hv => (hvs v hv).renders

theorem quantifiedQuery (quantifier : Quantifier) (hq : Always q Spoken) :
    OperandSpeaks (Reading.ofQuery quantifier.word q) := by
  obtain ⟨cs, hcs⟩ : ∃ cs, quantifier.word.toList = '%' :: cs := by
    cases quantifier <;> exact ⟨_, rfl⟩
  exact ofQuery hq fun _ hes => renders_percent hcs (by simpa using hes.renders)

/-- A window is a name, or what it consists of. -/
def WindowRenders (w : Value) : Prop :=
  (∃ t, w = .text t) ∨ ∃ es, w = .map es ∧ WindowParts known Renders es

theorem speaks_windowed {call : Value} (hcall : Speaks call) {window : Option (Option Value)}
    (hwindow : ∀ o ∈ window, ∀ w ∈ o, WindowRenders w) :
    Speaks (Reading.windowed call window) := by
  unfold Reading.windowed
  split
  · exact hcall
  · refine speaks_headed <| renders_special (f := .windowed) (by decide) fun n s op hs _ => ?_
    change known.Holds (Render.windowed (upTo n) s call .null)
    exact (kept n).windowed hs hcall.renders nofun
  · next w =>
    refine speaks_headed <| renders_special (f := .windowed) (by decide) fun n s op hs _ =>
      (kept n).windowed hs hcall.renders fun es hes => ?_
    rcases hwindow _ rfl w rfl with ⟨t, rfl⟩ | ⟨fs, rfl, hparts⟩
    · cases hes
    · cases hes
      exact hparts

theorem speaks_filtered {call : Value} (hcall : Speaks call) {filter : Option Value}
    (hfilter : ∀ v ∈ filter, Speaks v) : Speaks (Reading.filtered call filter) := by
  unfold Reading.filtered
  split
  · exact hcall
  · exact hcall
  · exact speaks_headed <| renders_special (f := .filter) (by decide) fun n s op hs _ =>
      (kept n).filter hs op hcall.renders (hfilter _ rfl).renders

theorem always_callItems (marks : Arguments) (hitems : ∀ p ∈ items, OperandSpeaks p) :
    Always (Reading.callItems marks items) fun vs => ∀ v ∈ vs, Renders v := by
  unfold Reading.callItems
  split
  · exact .pure (by simpa using renders_text "*")
  · split
    · exact .pure nofun
    · exact always_values hitems

theorem call (callHead : List String) (marks : Arguments) (hitems : ∀ p ∈ items, OperandSpeaks p)
    {filter : Option Operand} (hfilter : ∀ p ∈ filter, OperandSpeaks p)
    {window : Option (Read (Option Value))}
    (hwindow : ∀ r ∈ window, Always r fun o => ∀ w ∈ o, WindowRenders w) :
    OperandSpeaks (Reading.call callHead marks items filter window) := by
  refine operandSpeaks_node <| (always_callItems marks hitems).bind fun vs hvs =>
    (Always.optionMapM fun p hp => (hfilter p hp).value).bind fun f hf =>
      (Always.optionMapM hwindow).map fun w hw => speaks_windowed (speaks_filtered ?_ hf) hw
  obtain ⟨cs, hcs⟩ : ∃ cs, (Reading.callHead callHead marks).toList = '%' :: cs :=
    ⟨_, by simp [Reading.callHead]; rfl⟩
  exact speaks_headed (renders_percent hcs hvs)

/-- The expression of an ordered item is known. -/
def OrderRenders (item : Value) : Prop := Renders (orderItem item).1

theorem always_orderItem (he : OperandSpeaks e) (descending : Bool) (nulls : Option NullsOrder) :
    Always (Reading.orderItem e descending nulls) OrderRenders := by
  refine .visit <| he.value.map fun v hv => ?_
  have hwords : Text.lower "asc" ∈ orderWords ∧ Text.lower "desc" ∈ orderWords := by
    decide +kernel
  unfold OrderRenders orderItem
  cases descending <;> rcases nulls with _ | _ | _ <;>
    simpa [Value.items?, hwords] using hv.renders

/-- The fields that a window may have. -/
def FieldRenders (f : String × Value) : Prop :=
  (f.1 = "partition-by" ∧ ∀ v ∈ f.2.asItems, Renders v) ∨
    (f.1 = "order-by" ∧ ∀ item ∈ f.2.asItems, OrderRenders item) ∨
    (f.1 = "frame" ∧ Renders f.2)

theorem windowRenders_record {fields : List (String × Value)} (h : ∀ f ∈ fields, FieldRenders f) :
    WindowRenders (.record fields) := by
  refine .inr ⟨_, rfl, ?_⟩
  generalize hes : fields.map (fun f => (Value.text f.1, f.2)) = es
  have hfield : ∀ key, Entries.field? es key = none ∨
      ∃ v, Entries.field? es key = some v ∧ FieldRenders (key, v) := fun key => by
    cases hv : Entries.field? es key with
    | none => exact .inl rfl
    | some v =>
      subst hes
      obtain ⟨f, hf, heq⟩ := List.mem_map.mp (Entries.mem_of_field? hv)
      cases heq
      exact .inr ⟨_, rfl, h f hf⟩
  refine ⟨fun v hv => ?_, fun item hi => ⟨?_, fun _ _ => trivial⟩, ?_⟩
  · rcases hfield "partition-by" with hnone | ⟨w, hw, hparts⟩
    · rw [hnone] at hv
      obtain rfl : v = .null := by simpa [Value.asItems, Value.items?] using hv
      exact renders_leaf rfl
    · rw [hw] at hv
      simp only [FieldRenders, String.reduceEq, false_and, or_false, true_and] at hparts
      exact hparts v hv
  · rcases hfield "order-by" with hnone | ⟨w, hw, hparts⟩
    · rw [hnone] at hi
      obtain rfl : item = .null := by simpa [Value.asItems, Value.items?] using hi
      exact renders_leaf rfl
    · rw [hw] at hi
      simp only [FieldRenders, String.reduceEq, false_and, false_or, or_false, true_and] at hparts
      exact hparts item hi
  · rcases hfield "frame" with hnone | ⟨w, hw, hparts⟩
    · rw [hnone]
      exact renders_leaf rfl
    · rw [hw]
      simpa [FieldRenders] using hparts

theorem always_windowSpec {partition : List Operand} (hp : ∀ p ∈ partition, OperandSpeaks p)
    {order : List (Read Value)} (ho : ∀ r ∈ order, Always r OrderRenders) (frame : Option String) :
    Always (Reading.windowSpec partition order frame) fun o => ∀ w ∈ o, WindowRenders w := by
  have hframe : ∀ f ∈ frame.toList.map fun sql => ("frame", Value.raw (.text sql)),
      FieldRenders f := by
    rintro f hf
    obtain ⟨sql, -, rfl⟩ := List.mem_map.mp hf
    exact .inr (.inr ⟨rfl, renders_raw sql⟩)
  have hend : ∀ fields : List (String × Value), (∀ f ∈ fields, FieldRenders f) →
      Always (pure (if fields.isEmpty then none else some (Value.record fields)))
        fun o => ∀ w ∈ o, WindowRenders w := fun fields h => .pure fun w hw => by
    split at hw
    · cases hw
    · cases hw
      exact windowRenders_record h
  let Fields := fun fields : List (String × Value) => ∀ f ∈ fields, FieldRenders f
  refine .visit (.ite (Always.bind (P := Fields) (.pure nofun) ?_) ((always_values hp).bind
    fun vs hvs => Always.bind (P := Fields) (.pure ?_) ?_))
  case refine_2 => simpa [Fields, FieldRenders, Value.asItems, Value.items?] using hvs
  all_goals
    intro groups hgroups
    refine .ite (Always.bind (P := Fields) (.pure nofun) fun orders horders => hend _ ?_)
      ((Always.visitAll ho).bind fun vs hvs => Always.bind (P := Fields) (.pure ?_)
        fun orders horders => hend _ ?_)
    case refine_2 => simpa [Fields, FieldRenders, Value.asItems, Value.items?] using hvs
    all_goals
      exact List.forall_mem_append.mpr ⟨List.forall_mem_append.mpr ⟨hgroups, horders⟩, hframe⟩

end Calls

end Readings

end SqlTree.Vocabulary

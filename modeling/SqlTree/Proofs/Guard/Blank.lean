import SqlTree.Proofs.Ensures
import SqlTree.Proofs.InlineMode

/-!
The values for which nothing is written, although they are rendered without a fault: empty arrays,
empty raw text, and whatever stands only for such a value.
-/

namespace SqlTree

open Render Fragment

/-- What a raw value is spliced from; a text is spliced as a whole. -/
def Value.spliced? (v : Value) : Option (List Value) :=
  match v with
  | .text t => some [.text t]
  | v => v.elements?

/-- What the arguments of the raw form are spliced from. -/
def rawParts? (args : List Value) : Option (List Value) :=
  match args with
  | [v] => v.spliced?
  | args => some args

namespace Registry

variable (registry : Registry)

/-- The form under which an array that starts with `head` is rendered, unless it is an operation. -/
def formOf? (head : String) : Option SpecialForm :=
  let op := normalize head
  if registry.isBinary op || Operator.membership.contains op then none else registry.form? op

/-- An operation between operands other than a comparison that may become a test for null. -/
def isInfixed (head : String) : Bool :=
  registry.isBinary (normalize head) && !Operator.equality.contains (normalize head)

/-- The operands of an operation that are written. -/
def operandsOf (op : String) (args : List Value) : List Value :=
  if registry.ignoresNil op then args.filter (!isNull ·) else args

end Registry

/-- Nothing is written for the value. The flag says that the value is a part of raw text, where a
text stands for itself. -/
inductive Vanishes (registry : Registry) : Bool → Value → Prop
  | noText : Vanishes registry true (.text "")
  | spliced {v : Value} : v.isText = false → Vanishes registry false v → Vanishes registry true v
  | emptyArray {v : Value} : v.items? = some [] → Vanishes registry false v
  | rawMap {es : Entries} {parts : List Value} :
      Form.ofEntries registry.clauseKeys es = .raw →
      ((Entries.field? es Form.rawKey).getD .null).spliced? = some parts →
      (∀ p ∈ parts, Vanishes registry true p) → Vanishes registry false (.map es)
  | rawForm {v : Value} {head : String} {args parts : List Value} :
      v.items? = some (.text head :: args) → registry.formOf? head = some .raw →
      rawParts? args = some parts → (∀ p ∈ parts, Vanishes registry true p) →
      Vanishes registry false v
  | operand {v x : Value} {head : String} {args : List Value} :
      v.items? = some (.text head :: args) → registry.isInfixed head = true →
      registry.operandsOf (Registry.normalize head) args = [x] →
      registry.isUnary (Registry.normalize head) = false → Vanishes registry false x →
      Vanishes registry false v
  | noneInlined {v : Value} {head : String} :
      v.items? = some [.text head] → registry.formOf? head = some .inlined →
      Vanishes registry false v
  | inlined {v x : Value} {head : String} :
      v.items? = some [.text head, x] → registry.formOf? head = some .inlined →
      x.isText = false → Vanishes registry false x → Vanishes registry false v
  | noAlias {v : Value} {head : String} :
      v.items? = some [.text head, .text "'"] → registry.formOf? head = some .aliasName →
      Vanishes registry false v

section Fragments

variable {f : Fragment} {fs : List Fragment} {t opening closing : String}

namespace Fragment

@[simp] theorem isBlank_nil : isBlank [] = true := rfl

@[simp] theorem isBlank_cons (p : Piece) (f : Fragment) :
    isBlank (p :: f) = (p.isBlank && isBlank f) := rfl

@[simp] theorem isBlank_ofText : (ofText t).isBlank = t.isEmpty := by simp [ofText, Piece.isBlank]

theorem isBlank_after (ht : t ≠ "") : (after t f).isBlank = false := by
  simp [after, Piece.isBlank, ht]

theorem isBlank_between (ht : opening ≠ "") : (between opening closing f).isBlank = false := by
  simp [between, Piece.isBlank, ht]

theorem isBlank_parens : (parens f).isBlank = false := isBlank_between (by decide)

theorem isBlank_append_text (ht : t ≠ "") (g : Fragment) :
    (f ++ .text t :: g).isBlank = false := by
  simp [Piece.isBlank, ht]

theorem isBlank_parensIf {nested : Bool} (hf : f.isBlank = false) :
    (parensIf nested f).isBlank = false := by
  cases nested
  · exact hf
  · exact isBlank_parens

theorem isBlank_joined {f g : Fragment} (ht : t ≠ "") :
    (joined t (f :: g :: fs)).isBlank = false :=
  isBlank_append_text ht _

theorem isBlank_flatten (fs : List Fragment) :
    isBlank fs.flatten = true ↔ ∀ f ∈ fs, isBlank f = true := by
  induction fs with
  | nil => simp
  | cons f fs ih => simp [ih]

end Fragment

end Fragments

namespace Render

/-- Any fault will do. -/
def anyFault (_ : Fault) : Prop := True

section Any

variable {α β : Type} {P : α → Prop} {R : β → Prop}

theorem Ensures.any (x : Render α) : Ensures anyFault (fun _ => True) x :=
  ⟨fun _ => .of_forall (fun _ _ => trivial) fun _ _ => trivial⟩

theorem Ensures.bindAny {x : Render α} {k : α → Render β} (hk : ∀ a, Ensures anyFault R (k a)) :
    Ensures anyFault R (x >>= k) :=
  .bind (.any x) fun a _ => hk a

theorem Ensures.liftAny {e : Except Fault α} {k : α → Render β}
    (hk : ∀ a, e = .ok a → Ensures anyFault R (k a)) : Ensures anyFault R (liftM e >>= k) :=
  .bind_lift (.of_forall (fun _ h => h) fun _ _ => trivial) hk

end Any

section Names

variable {s : Settings} {ts : List String}

theorem intercalate_ne_empty {sep : String} (hts : ts ≠ []) (h : ∀ t ∈ ts, t ≠ "") :
    sep.intercalate ts ≠ "" := by
  cases ts with
  | nil => exact absurd rfl hts
  | cons t ts =>
    have ht := h t (by simp)
    cases ts with
    | nil => simpa using ht
    | cons u us => simp [String.intercalate_cons_cons, ht]

/-- What the parts of a name are written as is not empty, and so neither is the name. -/
theorem path_ne_empty {isSeparator : Char → Bool} {f : String → Except Fault String}
    (hf : ∀ part, Meets anyFault (· ≠ "") (f part)) (name : String) :
    Meets anyFault (· ≠ "")
      (do return ".".intercalate (← (Text.parts isSeparator name).mapM f)) := by
  refine .bind (.and (.mapM fun part _ => hf part) (.mapM_all fun part _ => hf part)) ?_
  rintro ts ⟨hts, hall⟩
  refine intercalate_ne_empty ?_ hall
  rintro rfl
  exact Text.splitAt_ne_nil isSeparator name.toList (by simpa [Text.parts] using hts.length_eq)

theorem quoteIdentifier_ne_empty (d : Dialect) (t : String) : d.quoteIdentifier t ≠ "" := by
  simp [Dialect.quoteIdentifier, Text.enclosed]

theorem check_ne_empty (part : String) (limit : Int) :
    Meets anyFault (fun _ => part ≠ "") (Identifier.check part limit) := by
  unfold Identifier.check
  by_cases hpart : part = ""
  · subst hpart
    trivial
  · exact .of_forall (fun _ _ => hpart) fun _ _ => trivial

theorem namePart_ne_empty (part : String) : Meets anyFault (· ≠ "") (namePart s part) := by
  unfold namePart
  split
  · next h => simp [h, Meets, Pure.pure, Except.pure]
  · refine .bind (check_ne_empty part _) fun _ hpart => ?_
    split
    · exact quoteIdentifier_ne_empty _ _
    · exact hpart

theorem nameText_ne_empty (name : String) : Meets anyFault (· ≠ "") (nameText s name) :=
  path_ne_empty namePart_ne_empty _

theorem quotedEntity_ne_empty (v : Value) : Meets anyFault (· ≠ "") (quotedEntity s v) := by
  unfold quotedEntity
  split
  · refine path_ne_empty (fun part => ?_) _
    exact .bind (check_ne_empty part _) fun _ _ => quoteIdentifier_ne_empty _ _
  all_goals trivial

theorem ident_ne_empty (t : String) : Meets anyFault (· ≠ "") (ident s t) := by
  unfold ident
  split
  · next rest _ =>
    split
    · next h => exact absurd (List.map_eq_nil_iff.mp h) (Text.splitAt_ne_nil _ rest)
    · refine .bind (P := fun _ => True) (.of_forall (fun _ _ => trivial) fun _ _ => trivial) ?_
      simp [Meets, Pure.pure, Except.pure]
  · exact nameText_ne_empty t

theorem name_ne_empty (v : Value) : Meets anyFault (· ≠ "") (name s v) := by
  unfold Render.name
  split
  · split
    · exact nameText_ne_empty _
    · split <;> trivial
  · trivial

/-- An alias is written as nothing if and only if it is a lone apostrophe. -/
theorem aliasName_eq_empty_iff (v : Value) :
    Meets anyFault (fun t => t = "" ↔ v = .text "'") (aliasName s v) := by
  unfold aliasName aliasText
  split
  · next name =>
    have hname : Value.text name = .text "'" ↔ name.toList = ['\''] := by
      simp [← String.toList_inj]
    split
    · next rest hrest =>
      split
      · trivial
      · simp [Meets, hname, hrest]
    · next hquote =>
      refine (namePart_ne_empty _).mono fun t ht => iff_of_false ht ?_
      rw [hname]
      exact hquote []
  · trivial

end Names

section Values

variable {s : Settings}

/-- Something is written. -/
def Visible (f : Fragment) : Prop := f.isBlank = false

theorem Visible.iff_of_not {f : Fragment} (hf : Visible f) {p : Prop} (hp : ¬ p) :
    f.isBlank = true ↔ p :=
  iff_of_false (by rw [hf]; nofun) hp

theorem Visible.piece {p : Piece} (h : p.isBlank = false) : Visible [p] := by
  simpa [Visible] using h

theorem words_visible {t : Except Fault String} (h : Meets anyFault (· ≠ "") t) :
    Ensures anyFault Visible (words t) :=
  .bind_lift h fun t ht => .pure (.piece (by simpa [Piece.isBlank] using ht))

theorem literal_visible (v : Value) : Ensures anyFault Visible (literal s v) :=
  .liftAny fun t ht => .pure (.piece (by simpa [Piece.isBlank] using Literal.render_ne_empty ht))

theorem bind_visible (v : Value) : Ensures anyFault Visible (Render.bind s v) := by
  unfold Render.bind
  split
  · exact literal_visible v
  · exact ⟨fun n => rfl⟩

theorem plain_visible (v : Value) : Ensures anyFault Visible (plain s v) := by
  unfold plain
  split
  · exact literal_visible _
  · exact literal_visible _
  · exact bind_visible _

theorem boundParam_visible (v : Value) : Ensures anyFault Visible (boundParam s v) :=
  .liftAny fun w _ => bind_visible w

theorem typed_visible (type : String) (v : Value) : Ensures anyFault Visible (typed s type v) := by
  unfold typed
  split
  · exact plain_visible v
  · refine .liftAny fun w _ => .bindAny fun f => .liftAny fun t _ => .pure ?_
    exact isBlank_append_text (by decide) _

end Values

/-- Under this registry nothing is written for the values that vanish, and for no others, and
statements in parentheses are written. -/
structure Blanks (registry : Registry) (r : Renderer) : Prop where
  expr : ∀ {s : Settings} (nested : Bool) (v : Value), s.registry = registry →
    Ensures anyFault (fun f => f.isBlank = true ↔ Vanishes registry false v) (r.expr s nested v)
  statement : ∀ {s : Settings} (es : Entries), s.registry = registry →
    Ensures anyFault Visible (r.statement s true es)

namespace Blanks

variable {registry : Registry} {r : Renderer} {s : Settings} (hr : Blanks registry r)
  (hs : s.registry = registry)

include hr hs

section Spliced

theorem splicePart (v : Value) :
    Ensures anyFault (fun f => f.isBlank = true ↔ Vanishes registry true v)
      (splicePart r s v) := by
  cases v
  case text t =>
    refine .pure ?_
    simp only [isBlank_ofText, String.isEmpty_iff]
    constructor
    · rintro rfl
      exact .noText
    · rintro (_ | ⟨h, -⟩)
      · rfl
      · cases h
  all_goals
    refine (hr.expr false _ hs).mono fun f hf => hf.trans ⟨.spliced rfl, ?_⟩
    rintro (_ | ⟨-, h⟩)
    exact h

theorem spliceParts (parts : List Value) :
    Ensures anyFault (fun f => isBlank f = true ↔ ∀ p ∈ parts, Vanishes registry true p)
      (do return (← parts.mapM (Render.splicePart r s)).flatten) := by
  refine .bind (.mapM fun p _ => hr.splicePart hs p) fun fs hfs => .pure ?_
  rw [isBlank_flatten]
  induction hfs with
  | nil => simp
  | cons h _ ih => simp only [List.forall_mem_cons, h, ih]

theorem splice (v : Value) :
    Ensures anyFault
      (fun f => f.isBlank = true ↔
        ∃ parts, v.spliced? = some parts ∧ ∀ p ∈ parts, Vanishes registry true p)
      (splice r s v) := by
  unfold Render.splice
  split
  · next t =>
    refine (hr.splicePart hs (.text t)).mono fun f hf => hf.trans ?_
    simp [Value.spliced?]
  · next hv =>
    have hspliced : v.spliced? = v.elements? := by
      cases v <;> first | rfl | exact absurd rfl (hv _)
    rw [hspliced]
    split
    · next parts h => exact (hr.spliceParts hs parts).mono fun f hf => by simpa [h] using hf
    · exact .fail trivial

end Spliced

section Forms

theorem nest (v : Value) : Ensures anyFault Visible (nest r s v) := by
  unfold Render.nest
  split
  · split
    · exact hr.statement _ hs
    · exact .bindAny fun _ => .pure isBlank_parens
  · exact .bindAny fun _ => .pure isBlank_parens

omit hr hs in
theorem array (op : String) (args : List Value) : Ensures anyFault Visible (array r s op args) := by
  have plain : Ensures anyFault Visible
      (do return between "ARRAY[" "]" (← Render.list r s args)) :=
    .bindAny fun _ => .pure (isBlank_between (by decide))
  unfold Render.array
  dsimp only
  split
  · exact plain
  · split
    · split
      · exact .bindAny fun _ => .pure (isBlank_between (by decide))
      · exact plain
    · split
      · unfold arrayItems
        refine .bindAny fun _ => ?_
        split
        · exact .pure (isBlank_between (by decide))
        · exact .liftAny fun _ _ => .pure (isBlank_between (by decide))
      · exact .fail trivial
    · exact plain

omit hr hs in
theorem windowed (call spec : Value) : Ensures anyFault Visible (windowed r s call spec) := by
  unfold Render.windowed
  refine .bindAny fun f => ?_
  split
  · exact .pure (isBlank_append_text (by decide) _)
  · exact .liftAny fun _ _ => .pure (isBlank_append_text (by decide) _)
  · exact .bindAny fun _ => .pure (isBlank_append_text (by decide) _)
  · exact .fail trivial

omit hr hs in
theorem subscript (v index : Value) : Ensures anyFault Visible (subscript r s v index) :=
  .bindAny fun _ => .bindAny fun _ => .pure (isBlank_append_text (by decide) _)

omit hr hs in
theorem extract (field v : Value) : Ensures anyFault Visible (extract r s field v) := by
  unfold Render.extract
  split
  · split
    · exact .bindAny fun _ => .pure (isBlank_between (by simp))
    · exact .fail trivial
  · exact .fail trivial

/-- Every other special form has words of its own. -/
theorem special (form : SpecialForm) (op : String) (args : List Value) (hraw : form ≠ .raw)
    (hinlined : form ≠ .inlined) (halias : form ≠ .aliasName) :
    Ensures anyFault Visible (special r s form op args) := by
  unfold Render.special
  split
  case h_1 => exact .bindAny fun _ => .pure (isBlank_between (by decide))
  case h_2 => exact .fail trivial
  case h_3 => exact .bindAny fun _ => .bindAny fun _ => .pure (isBlank_after (by decide))
  case h_4 => exact .bindAny fun _ => .bindAny fun _ => .pure (isBlank_after (by decide))
  case h_5 =>
    refine .bindAny fun f => .bindAny fun g => .bindAny fun h => .pure ?_
    simp [Visible, Piece.isBlank]
  case h_6 => exact .bindAny fun _ => .pure (isBlank_after (by decide))
  case h_7 => exact .bindAny fun _ => .pure (isBlank_after (by decide))
  case h_8 => exact .bindAny fun _ => .bindAny fun _ => .pure (isBlank_append_text (by decide) _)
  case h_9 => exact .bindAny fun _ => .pure isBlank_parens
  case h_10 => exact array _ _
  case h_11 => exact hr.nest hs _
  case h_12 => exact absurd rfl hraw
  case h_13 => exact absurd rfl hraw
  case h_14 => exact absurd rfl hinlined
  case h_15 => exact boundParam_visible _
  case h_16 => exact bind_visible _
  case h_17 => exact .bindAny fun _ => .pure (isBlank_after (by decide))
  case h_18 => exact windowed _ _
  case h_19 => exact windowed _ _
  case h_20 => exact .fail trivial
  case h_21 => exact .bindAny fun _ => .liftAny fun _ _ => .pure (isBlank_after (by decide))
  case h_22 => exact words_visible (quotedEntity_ne_empty _)
  case h_23 => exact absurd rfl halias
  case h_24 =>
    refine .bindAny fun f => .liftAny fun _ _ => .pure ?_
    simp [Visible, isBlank_parens]
  case h_25 => exact .fail trivial
  case h_26 => exact .bindAny fun _ => .bindAny fun _ => .pure (isBlank_append_text (by decide) _)
  case h_27 => exact .bindAny fun _ => .pure (isBlank_after (by decide))
  case h_28 => exact subscript _ _
  case h_29 => exact extract _ _
  case h_30 => exact .pure (by simp [Visible])
  all_goals exact .fail trivial

theorem rawForm (op : String) (args : List Value) :
    Ensures anyFault
      (fun f => f.isBlank = true ↔
        ∃ parts, rawParts? args = some parts ∧ ∀ p ∈ parts, Vanishes registry true p)
      (Render.special r s .raw op args) := by
  rcases args with _ | ⟨v, _ | ⟨w, rest⟩⟩
  · exact .pure (by simp [rawParts?])
  · exact hr.splice hs v
  · exact (hr.spliceParts hs _).mono fun f hf => hf.trans (by simp [rawParts?])

theorem inlinedForm (op : String) (args : List Value) :
    Ensures anyFault
      (fun f => f.isBlank = true ↔
        args = [] ∨ ∃ x, args = [x] ∧ x.isText = false ∧ Vanishes registry false x)
      (Render.special r s .inlined op args) := by
  refine .bind (P := fun fs => List.Forall₂ (fun v f => isBlank f = true ↔
    v.isText = false ∧ Vanishes registry false v) args fs) (.mapM fun v _ => ?_) fun fs hfs => ?_
  · unfold inlinedArgument
    split
    · refine (literal_visible _).mono fun f hf => hf.iff_of_not ?_
      rintro ⟨h, -⟩
      cases h
    · next hv =>
      have htext : v.isText = false := by
        cases v <;> first | rfl | exact absurd rfl (hv _)
      exact (hr.expr (s := s.inlined) false v hs).mono fun f hf => by simpa [htext] using hf
  · refine .pure ?_
    rcases hfs with _ | ⟨h, _ | ⟨-, -⟩⟩
    · simp [joined]
    · simpa [joined] using h
    · simp [joined, Piece.isBlank]

omit hr hs in
theorem aliasForm (op : String) (args : List Value) :
    Ensures anyFault (fun f => f.isBlank = true ↔ args = [.text "'"])
      (Render.special r s .aliasName op args) := by
  rcases args with _ | ⟨v, _ | ⟨w, rest⟩⟩
  · exact .fail trivial
  · exact .bind_lift (aliasName_eq_empty_iff v) fun t ht => .pure (by simpa using ht)
  · exact .fail trivial

end Forms

section Operations

theorem infixed (nested : Bool) (op : String) (args : List Value) :
    Ensures anyFault
      (fun f => f.isBlank = true ↔
        ∃ x, registry.operandsOf op args = [x] ∧ registry.isUnary op = false ∧
          Vanishes registry false x)
      (infixed r s nested op args) := by
  unfold Render.infixed
  rw [hs]
  generalize hkept : (if registry.ignoresNil op then args.filter (!isNull ·) else args) = kept
  have hoperands : registry.operandsOf op args = kept := hkept
  rw [hoperands]
  dsimp only
  split
  · split
    · next t ht =>
      have ht : t ≠ "" := by
        unfold Operator.unit? at ht
        split at ht <;> cases ht <;> decide
      have hvisible : Visible (ofText t) := by simpa [Visible] using ht
      exact .pure (hvisible.iff_of_not (by simp))
    · exact .fail trivial
  · split
    · next hunary =>
      refine .bindAny fun f => .pure (Visible.iff_of_not (isBlank_parensIf ?_) (by simp [hunary]))
      simp [Piece.isBlank]
    · next x hunary =>
      exact (hr.expr nested x hs).mono fun f hf => by simpa [hunary] using hf
  · next hnone hone =>
    have hmany : ¬∃ x, kept = [x] ∧ registry.isUnary op = false ∧ Vanishes registry false x := by
      rintro ⟨x, hx, -⟩
      exact hone x hx
    refine .bind (.mapM fun v _ => .any _) fun fs hfs =>
      .pure (Visible.iff_of_not (isBlank_parensIf ?_) hmany)
    rcases hfs with _ | ⟨-, _ | ⟨-, -⟩⟩
    · exact absurd rfl hnone
    · exact absurd rfl (hone _)
    · exact isBlank_joined (by simp)

omit hr hs in
theorem equality (nested : Bool) (op : String) (args : List Value) :
    Ensures anyFault Visible (equality r s nested op args) := by
  unfold Render.equality comparison
  split
  · refine .bind (P := Visible) ?_ fun f hf => .pure (isBlank_parensIf hf)
    split
    · exact .bindAny fun _ => .pure (isBlank_append_text (by simp [nullTest]) _)
    · exact .bindAny fun _ => .pure (isBlank_append_text (by simp [nullTest]) _)
    · exact .bindAny fun _ => .bindAny fun _ => .pure (isBlank_append_text (by simp) _)
  · exact .fail trivial

omit hr hs in
theorem membership (nested : Bool) (op : String) (args : List Value) :
    Ensures anyFault Visible (membership r s nested op args) := by
  unfold Render.membership
  dsimp only
  split
  · exact .bindAny fun _ => .bindAny fun _ =>
      .pure (isBlank_parensIf (isBlank_append_text (by simp) _))
  · exact .fail trivial

omit hr hs in
theorem call (name : String) (args : List Value) : Ensures anyFault Visible (call r s name args) := by
  unfold Render.call
  refine .liftAny fun _ _ => ?_
  dsimp only
  split
  · exact .pure (by simp [Visible])
  · split
    · exact .bindAny fun _ => .pure (isBlank_between (by simp))
    · exact .bindAny fun _ => .pure (isBlank_between (by simp))
  · exact .bindAny fun _ => .pure (isBlank_between (by simp))

end Operations

section Arrays

omit hr hs in
/-- When nothing is written for an array that starts with a text. -/
theorem vanishes_operation_iff {v : Value} {head : String} {args : List Value}
    (hv : v.items? = some (.text head :: args)) :
    Vanishes registry false v ↔
      (registry.isInfixed head = true ∧
        ∃ x, registry.operandsOf (Registry.normalize head) args = [x] ∧
          registry.isUnary (Registry.normalize head) = false ∧ Vanishes registry false x) ∨
      (registry.formOf? head = some .raw ∧
        ∃ parts, rawParts? args = some parts ∧ ∀ p ∈ parts, Vanishes registry true p) ∨
      (registry.formOf? head = some .inlined ∧
        (args = [] ∨ ∃ x, args = [x] ∧ x.isText = false ∧ Vanishes registry false x)) ∨
      (registry.formOf? head = some .aliasName ∧ args = [.text "'"]) := by
  constructor
  · intro h
    cases h with
    | emptyArray h => simp [hv] at h
    | rawMap => cases hv
    | rawForm h hform hparts hall =>
      cases hv.symm.trans h
      exact .inr (.inl ⟨hform, _, hparts, hall⟩)
    | operand h hinfixed hone hunary hx =>
      cases hv.symm.trans h
      exact .inl ⟨hinfixed, _, hone, hunary, hx⟩
    | noneInlined h hform =>
      cases hv.symm.trans h
      exact .inr (.inr (.inl ⟨hform, .inl rfl⟩))
    | inlined h hform htext hx =>
      cases hv.symm.trans h
      exact .inr (.inr (.inl ⟨hform, .inr ⟨_, rfl, htext, hx⟩⟩))
    | noAlias h hform =>
      cases hv.symm.trans h
      exact .inr (.inr (.inr ⟨hform, rfl⟩))
  · rintro (⟨hinfixed, x, hone, hunary, hx⟩ | ⟨hform, parts, hparts, hall⟩ |
      ⟨hform, rfl | ⟨x, rfl, htext, hx⟩⟩ | ⟨hform, rfl⟩)
    · exact .operand hv hinfixed hone hunary hx
    · exact .rawForm hv hform hparts hall
    · exact .noneInlined hv hform
    · exact .inlined hv hform htext hx
    · exact .noAlias hv hform

theorem operation (nested : Bool) {v : Value} {head : String} {args : List Value}
    (hv : v.items? = some (.text head :: args)) :
    Ensures anyFault (fun f => f.isBlank = true ↔ Vanishes registry false v)
      (operation r s nested head args) := by
  rw [vanishes_operation_iff hv]
  unfold Render.operation
  rw [hs]
  dsimp only
  split
  · next h =>
    obtain ⟨hequality, hbinary⟩ := Bool.and_eq_true_iff.mp h
    have hinfixed : registry.isInfixed head = false := by
      rw [Registry.isInfixed, hequality, hbinary]
      rfl
    refine (equality nested _ args).mono fun f hf => hf.iff_of_not ?_
    simp [hinfixed, Registry.formOf?, hbinary]
  · next hequality =>
    split
    · next hbinary =>
      have hinfixed : registry.isInfixed head = true := by
        simpa [Registry.isInfixed, hbinary] using hequality
      refine (hr.infixed hs nested _ args).mono fun f hf => hf.trans ?_
      simp [hinfixed, Registry.formOf?, hbinary]
    · next hbinary =>
      have hinfixed : registry.isInfixed head = false := by simp [Registry.isInfixed, hbinary]
      split
      · next hmember =>
        refine (membership nested _ args).mono fun f hf => hf.iff_of_not ?_
        simp only [Registry.formOf?, hmember]
        simp [hinfixed]
      · next hmember =>
        have hform : registry.formOf? head = registry.form? (Registry.normalize head) := by
          rw [Registry.formOf?, if_neg (by rw [Bool.or_eq_true]; exact not_or.mpr ⟨hbinary, hmember⟩)]
        rw [hform]
        split
        · next form h =>
          by_cases hraw : form = .raw
          · subst hraw
            exact (hr.rawForm hs _ args).mono fun f hf => hf.trans (by simp [h, hinfixed])
          by_cases hinlined : form = .inlined
          · subst hinlined
            exact (hr.inlinedForm hs _ args).mono fun f hf => hf.trans (by simp [h, hinfixed])
          by_cases halias : form = .aliasName
          · subst halias
            exact (aliasForm _ args).mono fun f hf => hf.trans (by simp [h, hinfixed])
          refine (hr.special hs form _ args hraw hinlined halias).mono fun f hf => hf.iff_of_not ?_
          simp [h, hraw, hinlined, halias, hinfixed]
        · next h =>
          split
          · refine (call head args).mono fun f hf => hf.iff_of_not ?_
            simp [h, hinfixed]
          · exact .fail trivial

theorem arrayOf (nested : Bool) {v : Value} {vs : List Value} (hv : v.items? = some vs) :
    Ensures anyFault (fun f => f.isBlank = true ↔ Vanishes registry false v)
      (arrayOf r s nested vs) := by
  unfold Render.arrayOf
  split
  · exact .pure (by simpa using .emptyArray hv)
  · exact hr.operation hs nested hv
  · next hempty htext =>
    refine .bindAny fun f => .pure (Visible.iff_of_not isBlank_parens ?_)
    intro h
    cases h with
    | emptyArray h => exact hempty (Option.some.inj (hv.symm.trans h))
    | rawMap => cases hv
    | rawForm h => exact htext _ _ (Option.some.inj (hv.symm.trans h))
    | operand h => exact htext _ _ (Option.some.inj (hv.symm.trans h))
    | noneInlined h => exact htext _ _ (Option.some.inj (hv.symm.trans h))
    | inlined h => exact htext _ _ (Option.some.inj (hv.symm.trans h))
    | noAlias h => exact htext _ _ (Option.some.inj (hv.symm.trans h))

end Arrays

section Expressions

omit hr hs in
theorem vanishes_map_iff {es : Entries} :
    Vanishes registry false (.map es) ↔ Form.ofEntries registry.clauseKeys es = .raw ∧
      ∃ parts, ((Entries.field? es Form.rawKey).getD .null).spliced? = some parts ∧
        ∀ p ∈ parts, Vanishes registry true p := by
  constructor
  · intro h
    cases h with
    | rawMap hform hparts hall => exact ⟨hform, _, hparts, hall⟩
    | emptyArray h | rawForm h | operand h | noneInlined h | inlined h | noAlias h => cases h
  · rintro ⟨hform, parts, hparts, hall⟩
    exact .rawMap hform hparts hall

omit hr hs in
/-- Something is written for a value that is no container. -/
theorem not_vanishes_of_leaf {v : Value} (hitems : v.items? = none) (hmap : v.isMap = false) :
    ¬ Vanishes registry false v := by
  intro h
  cases h with
  | rawMap => cases hmap
  | emptyArray h | rawForm h | operand h | noneInlined h | inlined h | noAlias h =>
    cases hitems.symm.trans h

variable {stated : Settings → Entries → Render Fragment}
  (hstated : ∀ es, Ensures anyFault Visible (stated s es))

include hstated

theorem mapOf (es : Entries) :
    Ensures anyFault (fun f => f.isBlank = true ↔ Vanishes registry false (.map es))
      (mapOf r s stated es) := by
  rw [vanishes_map_iff]
  unfold Render.mapOf
  dsimp only
  rw [hs]
  generalize hform : Form.ofEntries registry.clauseKeys es = form
  have visible : ∀ {x : Render Fragment}, form ≠ .raw → Ensures anyFault Visible x →
      Ensures anyFault (fun f => f.isBlank = true ↔ form = .raw ∧
        ∃ parts, ((Entries.field? es Form.rawKey).getD .null).spliced? = some parts ∧
          ∀ p ∈ parts, Vanishes registry true p) x :=
    fun hne hx => hx.mono fun f hf => hf.iff_of_not fun h => hne h.1
  split
  · exact (hr.splice hs _).mono fun f hf => hf.trans (by simp)
  · exact visible (by nofun) (boundParam_visible _)
  · exact visible (by nofun) (bind_visible _)
  · exact visible (by nofun) (literal_visible _)
  · refine visible (by nofun) ?_
    split
    · exact typed_visible _ _
    · exact hstated es
  · next hraw _ _ _ _ => exact visible hraw (hstated es)

theorem expression (nested : Bool) (v : Value) :
    Ensures anyFault (fun f => f.isBlank = true ↔ Vanishes registry false v)
      (expression r s stated nested v) := by
  unfold Render.expression
  split
  · have hleaf : ∀ {x : Render Fragment} {t : String}, Ensures anyFault Visible x →
        Ensures anyFault (fun f => f.isBlank = true ↔ Vanishes registry false (.text t)) x :=
      fun hx => hx.mono fun f hf => hf.iff_of_not (not_vanishes_of_leaf rfl rfl)
    split
    · exact hleaf (words_visible (ident_ne_empty _))
    · exact hleaf (bind_visible _)
  · exact hr.mapOf hs hstated _
  · exact hr.arrayOf hs nested rfl
  · exact hr.arrayOf hs nested rfl
  · next htext hmap hlist htuple =>
    refine (plain_visible v).mono fun f hf => hf.iff_of_not (not_vanishes_of_leaf ?_ ?_)
    · cases v <;> first | rfl | exact absurd rfl (hlist _) | exact absurd rfl (htuple _)
    · cases v <;> first | rfl | exact absurd rfl (hmap _)

end Expressions

theorem deeper {stated : Settings → Entries → Render Fragment}
    (hstated : ∀ s es, s.registry = registry → Ensures anyFault Visible (stated s es))
    (nested : Bool) (v : Value) :
    Ensures anyFault (fun f => f.isBlank = true ↔ Vanishes registry false v)
      (deeper r s stated nested v) :=
  .bindAny fun _ => hr.expression (s := s.inner) hs (fun es => hstated _ es hs) nested v

end Blanks

end Render

end SqlTree

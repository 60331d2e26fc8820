import SqlTree.Proofs.Contract.Data
import SqlTree.Proofs.Semicolons.Words
import SqlTree.Proofs.Semicolons.Literals
import SqlTree.Proofs.Same
import SqlTree.Proofs.Placeholders

/-!
Semicolons in rendered SQL. Names and types that hold one are refused, and a literal keeps it in
quotes; some keywords are written as they are given, and raw text is written as it stands.
-/

namespace SqlTree

open Text Render

/-- The name of the function that `%name.a.b` calls. -/
def shorthandName (t : String) : List String :=
  match t.toList with
  | '%' :: rest => ((Text.splitAt (· = '.') rest).map String.ofList).take 1
  | _ => []

/-- The words that a special form writes as they are given. -/
def SpecialForm.looseWords (form : SpecialForm) (args : List Value) : List String :=
  match form with
  | .interval => args.tail.filterMap Value.text?
  | .extract => (args.take 1).filterMap Value.text?
  | _ => []

/-- The words that a clause writes as they are given. -/
def ClauseForm.looseWords (form : ClauseForm) (v : Value) : List String :=
  match form with
  | .joinBy => (kindsAmong v.asItems).map joinKey
  | .lock => v.asItems.filterMap Value.text?
  | .createTable | .alterTable => v.asItems.tail.filterMap Value.text?
  | _ => []

namespace Registry

variable (registry : Registry)

/-- The words at a value that are written as keywords, whatever they are: units of intervals, words
of locks, modifiers of an order, kinds of joins and the like. -/
def looseWords (v : Value) : List String :=
  (orderItem v).2 ++
    match v, v.items? with
    | .text t, _ => shorthandName t
    | .map es, _ =>
      es.flatMap fun e =>
        ((e.1.text?.bind registry.clause?).map (·.looseWords e.2)).getD []
    | _, some (.text head :: args) =>
      ((registry.form? (normalize head)).map (·.looseWords args)).getD []
    | _, _ => []

/-- The value is a raw wrapper, a raw operation, or a statement with a raw clause. -/
def isRaw (v : Value) : Bool :=
  match v, v.items? with
  | .map es, _ =>
    Entries.hasField es Form.rawKey ||
      es.any fun e => e.1.text?.bind registry.clause? = some .rawText
  | _, some (.text head :: _) => registry.form? (normalize head) = some .raw
  | _, _ => false

def hasUnbrokenWords (v : Value) : Bool := (registry.looseWords v).all fun w => Unbroken w

/-- The names of operators, forms and clauses hold no semicolons. -/
def UnbrokenNames : Prop :=
  ∀ name ∈ registry.binary ++ registry.forms.map (·.1) ++ registry.clauseKeys, Unbroken name

instance : Decidable registry.UnbrokenNames :=
  inferInstanceAs (Decidable (∀ _ ∈ _, _))

end Registry

/-- A piece without semicolons, or the literal of a value in which they stand in quotes. -/
def Piece.Unbroken (d : Dialect) : Piece → Prop
  | .text t => Text.Unbroken t
  | .literal t => Sealed t ∧ ∃ v, Literal.render d v = .ok t
  | .slot .. => True

theorem Piece.unbroken_text {d : Dialect} {t : String} :
    (∀ p ∈ [Piece.text t], p.Unbroken d) ↔ Text.Unbroken t := by
  simp [Piece.Unbroken]

theorem unbroken_of_isPhrase {front back : Edge} {t : String} (h : isPhrase front back t = true) :
    Text.Unbroken t := by
  simp only [isPhrase, Bool.and_eq_true, List.all_eq_true] at h
  intro hmem
  have hchar := h.1.1 ';' hmem
  revert hchar
  decide

theorem Render.unbroken_param {s : Settings} (hs : ∀ q ∈ s.params, q.2.BareDecimals)
    {name v : Value} (h : param s name = .ok v) : v.BareDecimals := by
  unfold param at h
  split at h
  · next w hw =>
    cases h
    obtain ⟨l₁, l₂, hl, -⟩ := List.lookup_eq_some_iff.mp hw
    exact hs (name.shown, v) (by simp [hl])
  · cases h

theorem hereditary_bareDecimals : Hereditary Value.BareDecimals :=
  .every rfl (fun _ => rfl) fun _ => rfl

namespace Registry.UnbrokenNames

variable {registry : Registry} (h : registry.UnbrokenNames) {name : String}

include h

theorem binary (hname : registry.isBinary name = true) : Unbroken name :=
  h name (by simp [List.contains_iff_mem.mp hname])

theorem form {form : SpecialForm} (hname : registry.form? name = some form) : Unbroken name := by
  obtain ⟨l₁, l₂, hl, -⟩ := List.lookup_eq_some_iff.mp hname
  exact h name (by simp [hl])

theorem clause {form : ClauseForm} (hname : registry.clause? name = some form) :
    Unbroken name := by
  obtain ⟨l₁, l₂, hl, -⟩ := List.lookup_eq_some_iff.mp hname
  exact h name (by simp [clauseKeys, hl])

end Registry.UnbrokenNames

namespace Contract

/-- No piece is broken by a semicolon. -/
def unbroken {registry : Registry} (hnames : registry.UnbrokenNames) (d : Dialect) : Contract where
  settings s := s.registry = registry ∧ s.dialect = d ∧ ∀ q ∈ s.params, q.2.BareDecimals
  registry := registry
  value := Value.BareDecimals
  fault _ := True
  ok _ _ f := ∀ p ∈ f, p.Unbroken d
  registry_eq hs := hs.1
  within _ hs := hs
  inner hs := hs
  inlined hs := hs
  fault_of_known _ := trivial
  value_text _ := rfl
  value_null := rfl
  param_ok hs h :=
    have hv := unbroken_param hs.2.2 h
    ⟨hv, fun _ hi _ hw => hereditary_bareDecimals.item hv hi hw⟩
  nil := by simp
  freeFront h := h
  boundBack h := h
  append hf hg := List.forall_mem_append.mpr ⟨hf, hg⟩
  appendBound hf hg := List.forall_mem_append.mpr ⟨hf, hg⟩
  merge h := by simpa [Piece.Unbroken] using h
  phrase h := Piece.unbroken_text.mpr (unbroken_of_isPhrase h)
  blank := Piece.unbroken_text.mpr (by decide)
  typeMark := Piece.unbroken_text.mpr (by decide)
  slot _ _ := by simp [Piece.Unbroken]
  literal_ok := by
    rintro s v ⟨-, rfl, -⟩ hv
    refine .of_forall (fun t ht => ?_) fun _ _ => trivial
    simpa [Piece.Unbroken] using ⟨(Literal.sealed_render s.dialect v hv).of_ok ht, v, ht⟩
  nameText_ok _ t := (unbroken_nameText _ t).mono fun _ => Piece.unbroken_text.mpr
  quotedEntity_ok _ v := (unbroken_quotedEntity _ v).mono fun _ => Piece.unbroken_text.mpr
  excluded_ok _ v := (unbroken_excluded _ v).mono fun _ => Piece.unbroken_text.mpr
  fieldPath_ok _ hf fields := (unbroken_fieldPath _ fields).mono fun _ hw =>
    have hopen : Text.Unbroken "(" := by decide
    have hclose : Text.Unbroken ")" := by decide
    List.forall_mem_append.mpr ⟨List.forall_mem_cons.mpr ⟨hopen,
      List.forall_mem_append.mpr ⟨hf, Piece.unbroken_text.mpr hclose⟩⟩, Piece.unbroken_text.mpr hw⟩
  equality_ok op hop := Piece.unbroken_text.mpr (by
    simp only [Operator.equality, List.mem_cons, List.not_mem_nil, or_false] at hop
    rcases hop with rfl | rfl <;> decide)
  infix_ok op hop := Piece.unbroken_text.mpr (unbroken_append.mpr ⟨unbroken_append.mpr
    ⟨by decide, Keyword.unbroken_render (hnames.binary hop)⟩, by decide⟩)
  unary_ok op hop _ := Piece.unbroken_text.mpr (unbroken_append.mpr
    ⟨Keyword.unbroken_render (hnames.binary hop), by decide⟩)
  between_ok op hop := Piece.unbroken_text.mpr (unbroken_append.mpr ⟨unbroken_append.mpr
    ⟨by decide, Keyword.unbroken_render (hnames.form hop)⟩, by decide⟩)
  clause_ok key form hkey :=
    Piece.unbroken_text.mpr (Keyword.unbroken_render (hnames.clause hkey))

end Contract

section Words

variable {registry : Registry}

theorem Registry.looseWords_order {v : Value} {w : String} (h : w ∈ (orderItem v).2) :
    w ∈ registry.looseWords v :=
  List.mem_append_left _ h

theorem Registry.looseWords_shorthand {t w : String} (h : w ∈ shorthandName t) :
    w ∈ registry.looseWords (.text t) :=
  List.mem_append_right _ h

theorem Registry.looseWords_form {v : Value} {head : String} {args : List Value}
    {form : SpecialForm} {w : String} (hi : v.items? = some (.text head :: args))
    (hform : registry.form? (normalize head) = some form) (h : w ∈ form.looseWords args) :
    w ∈ registry.looseWords v := by
  refine List.mem_append_right _ ?_
  cases v <;> simp only [Value.items?, reduceCtorEq, Option.some.injEq] at hi <;> subst hi <;>
    simpa [Value.items?, hform] using h

theorem Registry.looseWords_clause {es : Entries} {key : String} {v : Value}
    {form : ClauseForm} {w : String} (hv : Entries.field? es key = some v)
    (hform : registry.clause? key = some form) (h : w ∈ form.looseWords v) :
    w ∈ registry.looseWords (.map es) := by
  obtain ⟨e, he, rfl⟩ := Option.map_eq_some_iff.mp hv
  have hsame := List.find?_some he
  have hkey : e.1 = .text key := Value.same_text_iff.mp hsame
  refine List.mem_append_right _ (List.mem_flatMap.mpr ⟨e, List.mem_of_find?_eq_some he, ?_⟩)
  simpa [hkey, Value.text?, hform] using h

end Words

/-- Data without raw text, whose loose words hold no semicolons. -/
structure UnbrokenData (registry : Registry) (v : Value) : Prop where
  raw : v.every fun u => !registry.isRaw u
  words : v.every registry.hasUnbrokenWords
  decimals : v.BareDecimals

namespace UnbrokenData

variable {registry : Registry}

theorem hereditary (registry : Registry) : Hereditary (UnbrokenData registry) := by
  have hraw : Hereditary fun v => v.every fun u => !registry.isRaw u :=
    .every rfl (fun _ => rfl) fun _ => rfl
  have hwords : Hereditary fun v => v.every registry.hasUnbrokenWords := by
    refine .every rfl (fun _ => rfl) fun c => List.all_eq_true.mpr fun w hw => ?_
    have hname : w ∈ shorthandName (String.singleton c) := hw
    unfold shorthandName at hname
    split at hname
    · next rest hrest =>
      simp only [String.toList_singleton, List.cons.injEq] at hrest
      obtain ⟨rfl, rfl⟩ := hrest
      rw [List.mem_singleton.mp hname]
      decide
    · cases hname
  have hall := (hraw.and hwords).and hereditary_bareDecimals
  exact
    { null := ⟨hall.null.1.1, hall.null.1.2, hall.null.2⟩
      element := fun h he hw =>
        have h' := hall.element ⟨⟨h.raw, h.words⟩, h.decimals⟩ he hw
        ⟨h'.1.1, h'.1.2, h'.2⟩
      entry := fun h he =>
        have h' := hall.entry ⟨⟨h.raw, h.words⟩, h.decimals⟩ he
        ⟨h'.1.1, h'.1.2, h'.2⟩ }

theorem loose {v : Value} (hv : UnbrokenData registry v) {w : String}
    (h : w ∈ registry.looseWords v) : Unbroken w :=
  of_decide_eq_true (List.all_eq_true.mp (Value.every_self hv.words) w h)

theorem not_isRaw {v : Value} (hv : UnbrokenData registry v) : registry.isRaw v = false := by
  simpa using Value.every_self hv.raw

section Admitted

variable {s : Settings}

theorem ident {t : String} (h : UnbrokenData registry (.text t)) :
    Meets (fun _ => True) Unbroken (ident s t) := by
  unfold Render.ident
  split
  · next rest hrest =>
    split
    · exact (by decide : Unbroken "")
    · next head args hparts =>
      refine .bind (.mapM_all fun a _ => unbroken_nameText s a) fun ts hts => ?_
      have hhead : Unbroken head :=
        h.loose (Registry.looseWords_shorthand (by simp [shorthandName, hrest, hparts]))
      exact unbroken_append.mpr ⟨unbroken_append.mpr ⟨unbroken_append.mpr
        ⟨Keyword.unbroken_function hhead, by decide⟩, unbroken_intercalate (by decide) hts⟩,
        by decide⟩
  · exact unbroken_nameText s t

theorem orderSuffix {m : String} (h : Unbroken m) : Unbroken (orderSuffix m) := by
  unfold Render.orderSuffix
  split
  · decide
  · split
    · exact unbroken_append.mpr ⟨by decide, Keyword.unbroken_render h⟩
    · decide

theorem callHead {head : String} (h : Unbroken head) : Unbroken (Contract.Kept.callHead head) := by
  have hfull := Keyword.unbroken_function h
  rw [Contract.Kept.callHead, Unbroken, String.toList_ofList]
  split
  · exact fun hmem => hfull (List.mem_of_mem_take hmem)
  · exact hfull

theorem keyword {v : Value} (h : ∀ t, v = .text t → Unbroken t) :
    Meets (fun _ => True) Unbroken (keyword v) := by
  unfold Render.keyword
  split
  · exact Keyword.unbroken_render (h _ rfl)
  all_goals trivial

theorem formWords (hnames : registry.UnbrokenNames) (d : Dialect) {v : Value} {head : String}
    {args : List Value} {form : SpecialForm} (hv : UnbrokenData registry v)
    (hi : v.items? = some (.text head :: args))
    (hform : registry.form? (Registry.normalize head) = some form) :
    (Contract.unbroken hnames d).FormWords s form args := by
  have hloose : ∀ {w}, w ∈ form.looseWords args → Unbroken w := fun h =>
    hv.loose (Registry.looseWords_form hi hform h)
  unfold Contract.FormWords
  split
  · have hraw := hv.not_isRaw
    cases v <;> simp_all [Registry.isRaw, Value.items?]
  · exact (Identifier.unbroken_typeName _).mono fun _ => Piece.unbroken_text.mpr
  · exact fun type _ => (unbroken_typeName type).mono fun _ => Piece.unbroken_text.mpr
  · intro u hu
    refine (keyword fun t ht => hloose ?_).mono fun w hw =>
      Piece.unbroken_text.mpr (unbroken_append.mpr ⟨by decide, hw⟩)
    exact List.mem_filterMap.mpr ⟨u, hu, by rw [ht]; rfl⟩
  · exact fun _ => Piece.unbroken_text.mpr (Keyword.unbroken_render (hloose (by simp [SpecialForm.looseWords, Value.text?])))
  · unfold aliasName
    split
    · exact (unbroken_aliasText _ _).mono fun _ => Piece.unbroken_text.mpr
    · trivial
  · trivial

theorem clauseWords (hnames : registry.UnbrokenNames) (d : Dialect) {es : Entries} {key : String}
    {v : Value} {form : ClauseForm} (hes : UnbrokenData registry (.map es))
    (hv : Entries.field? es key = some v) (hform : registry.clause? key = some form) :
    (Contract.unbroken hnames d).ClauseWords s key v form := by
  have hloose : ∀ {w}, w ∈ form.looseWords v → Unbroken w := fun h =>
    hes.loose (Registry.looseWords_clause hv hform h)
  cases form
  case rawText =>
    obtain ⟨e, he, rfl⟩ := Option.map_eq_some_iff.mp hv
    have hsame := List.find?_some he
    have hkey : e.1 = .text key := Value.same_text_iff.mp hsame
    have hraw : es.any (fun e => e.1.text?.bind registry.clause? = some .rawText) = true :=
      List.any_eq_true.mpr ⟨e, List.mem_of_find?_eq_some he, by simp [hkey, Value.text?, hform]⟩
    simpa [Registry.isRaw, hraw] using hes.not_isRaw
  case joinBy =>
    intro kind hk
    refine Piece.unbroken_text.mpr ?_
    unfold joinKeyword
    split
    · decide
    · exact Keyword.unbroken_render (hloose (List.mem_map_of_mem hk))
  case lock =>
    intro w hw
    unfold lockWord
    split
    · next t =>
      split
      · have ht : t ∈ ClauseForm.lock.looseWords v := List.mem_filterMap.mpr ⟨.text t, hw, rfl⟩
        exact Piece.unbroken_text.mpr (Keyword.unbroken_render (hloose ht))
      · trivial
    · trivial
  case createTable =>
    intro o ho
    refine (keyword fun t ht => hloose ?_).mono fun w hw =>
      Piece.unbroken_text.mpr (unbroken_append.mpr ⟨by decide, hw⟩)
    exact List.mem_filterMap.mpr ⟨o, ho, by rw [ht]; rfl⟩
  case alterTable =>
    intro w hw
    refine (keyword fun t ht => hloose ?_).mono fun _ => Piece.unbroken_text.mpr
    exact List.mem_filterMap.mpr ⟨w, hw, by rw [ht]; rfl⟩
  case withColumns =>
    exact fun c _ => (unbroken_columnSpec _ c).mono fun _ => Piece.unbroken_text.mpr
  case addColumn =>
    exact fun c _ => (unbroken_columnSpec _ c).mono fun _ => Piece.unbroken_text.mpr
  all_goals trivial

end Admitted

theorem admits (hnames : registry.UnbrokenNames) (d : Dialect) :
    (Contract.unbroken hnames d).Admits (UnbrokenData registry) where
  toHereditary := hereditary registry
  unknownHead _ _ _ _ _ := trivial
  keys _ _ := .of_forall (fun _ _ => trivial) fun _ _ => trivial
  value hv := hv.decimals
  ident _ h := h.ident.mono fun _ => Piece.unbroken_text.mpr
  aliasText _ _ _ := (unbroken_aliasText _ _).mono fun _ => Piece.unbroken_text.mpr
  orderWords h m hm :=
    Piece.unbroken_text.mpr (orderSuffix (h.loose (Registry.looseWords_order hm)))
  callWords _ _ _ := (unbroken_of_checkHead _ _).mono fun _ h => by
    have hhead := callHead h
    constructor
    · exact Piece.unbroken_text.mpr (unbroken_append.mpr ⟨hhead, by decide⟩)
    · refine Piece.unbroken_text.mpr (unbroken_append.mpr
        ⟨unbroken_append.mpr ⟨hhead, by decide⟩, ?_⟩)
      split <;> decide
  formWords _ hv hi hform := hv.formWords hnames d hi hform
  rawWord {es} := by
    intro h hraw
    have hkey : Entries.hasField es Form.rawKey = true := by
      by_contra hnot
      rw [Form.ofEntries, if_neg hnot] at hraw
      split at hraw <;> [cases hraw; skip]
      split at hraw <;> [cases hraw; skip]
      split at hraw <;> [cases hraw; skip]
      split at hraw <;> cases hraw
    simpa [Registry.isRaw, hkey] using h.not_isRaw
  typeWord _ := (Identifier.unbroken_typeName _).mono fun _ => Piece.unbroken_text.mpr
  clauseWords _ hes hv hform := hes.clauseWords hnames d hv hform

end UnbrokenData

theorem Dialect.unbroken_placeholder (d : Dialect) (index : Nat) (numbered : Bool) :
    Unbroken (d.placeholder index numbered) := by
  unfold placeholder
  split
  · refine unbroken_append.mpr ⟨by decide, fun hmem => ?_⟩
    have hdigits : ';' ∈ Nat.toDigits 10 index := by
      rw [← Nat.toList_repr]
      exact hmem
    exact absurd (bare_toDigits hdigits) (by decide)
  · decide

theorem Settings.params_of_ofOptions {registry : Registry} {o : Options} {s : Settings}
    (h : Settings.ofOptions registry o = .ok s) : s.params = o.params := by
  unfold Settings.ofOptions at h
  cases hd : Dialect.ofName (o.dialect.getD "postgres") <;>
    cases hc : Checking.ofName o.checking <;> rw [hd, hc] at h <;> cases h
  rfl

/-- Where data is given without raw text, and no word that is written unread holds a semicolon, the
only semicolons in the SQL text stand between the apostrophes of literals. -/
theorem format_semicolons {registry : Registry} (hnames : registry.UnbrokenNames) {o : Options}
    (hparams : ∀ q ∈ o.params, q.2.BareDecimals) {data : Value}
    (hdata : UnbrokenData registry data) {out : Formatted}
    (h : format registry o data = .ok out) :
    ∃ (s : Settings) (f : Fragment), Settings.ofOptions registry o = .ok s ∧
      out = ⟨f.sql s.dialect s.numbered, f.values⟩ ∧
      ∀ p ∈ f, Unbroken (p.sql s.dialect s.numbered) ∨
        ∃ v t, p = .literal t ∧ Literal.render s.dialect v = .ok t ∧ Sealed t := by
  obtain ⟨s, f, n, hs, hf, hout⟩ := format_eq_ok_iff.mp h
  have hsettings : (Contract.unbroken hnames s.dialect).settings s :=
    ⟨(Settings.ofOptions_keeps hs).1, rfl, Settings.params_of_ofOptions hs ▸ hparams⟩
  have hheld := ((UnbrokenData.admits hnames s.dialect).fragment hsettings hdata).of_ok hf
  refine ⟨s, f, hs, hout, fun p hp => ?_⟩
  have hpiece : p.Unbroken s.dialect := hheld p hp
  cases p with
  | text t => exact .inl hpiece
  | literal t =>
    obtain ⟨hsealed, v, hv⟩ := hpiece
    exact .inr ⟨v, t, rfl, hv, hsealed⟩
  | slot index v => exact .inl (s.dialect.unbroken_placeholder index s.numbered)

set_option maxRecDepth 10000 in
theorem format_semicolons_text :
    ∃ (s : Settings) (f : Fragment),
      Settings.ofOptions .standard { inline := true } = .ok s ∧
        Formatted.mk "INTERVAL 1 DAYS + 'x; y'" [] = ⟨f.sql s.dialect s.numbered, f.values⟩ ∧
        ∀ p ∈ f, Unbroken (p.sql s.dialect s.numbered) ∨
          ∃ v t, p = .literal t ∧ Literal.render s.dialect v = .ok t ∧ Sealed t :=
  @format_semicolons .standard (by decide) { inline := true } (by simp)
    (.list [.text "+", .list [.text "interval", .int 1, .text "days"], .text "x; y"])
    ⟨by decide, by decide, by decide⟩ _ rfl

/-- The unit of an interval is written as a keyword, whatever it is. -/
theorem interval_unit_semicolon :
    (format .standard {} (.map [(.text "select",
      .list [.list [.text "interval", .int 1, .text "days; DROP TABLE x"]])])).toOption.map
        Formatted.sql = some "SELECT INTERVAL 1 DAYS; DROP TABLE X" := by
  decide +kernel

end SqlTree

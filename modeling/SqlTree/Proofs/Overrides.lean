import SqlTree.Proofs.Guard
import SqlTree.Proofs.Injection
import SqlTree.Proofs.Overrides.Items
import SqlTree.Proofs.Placeholders

/-!
Overrides of selected columns in statements that can be formatted. All clauses but the selections
stay as they are, and each selection has its items in their old order; whether an item keeps its
column depends on the item alone.
-/

namespace SqlTree

open Render

section Rendered

/-- What the parts of a clause are like once the clause has been rendered. -/
def ClauseForm.Rendered (form : ClauseForm) (v : Value) : Prop :=
  match form with
  | .selection => ∀ w ∈ v.asItems, ∀ t, w = .text t → Identifier.isIdentText t = true
  | .distinctOn => ∀ w ∈ v.asItems.drop 1, ∀ t, w = .text t → Identifier.isIdentText t = true
  | .join => ∀ entry ∈ v.asItems, entry.items?.isSome = true
  | _ => True

variable {r : Renderer} {s : Settings} {es : Entries}

theorem name_of_not_ident {t : String} (h : Identifier.isIdentText t = false) :
    Meets anyFault (fun _ => False) (name s (.text t)) := by
  unfold name
  simp only [h, Bool.false_eq_true, if_false]
  split <;> trivial

theorem item_rendered (v : Value) :
    Ensures anyFault (fun _ => ∀ t, v = .text t → Identifier.isIdentText t = true)
      (item r s false v) := by
  cases v with
  | text t =>
    by_cases h : Identifier.isIdentText t = true
    · exact (Ensures.any _).mono fun _ _ u hu => Value.text.inj hu ▸ h
    · have hfails := name_of_not_ident (s := s) (Bool.eq_false_iff.mpr h)
      have hitem : item r s false (.text t) = words (name s (.text t)) := by
        simp [item, aliasPair?, Value.items?, h]
      rw [hitem]
      exact .bind_lift hfails fun _ h => h.elim
  | _ => exact (Ensures.any _).mono fun _ _ _ => Value.noConfusion

theorem items_rendered {vs : List Value} {P : Value → Prop} {f : Value → Render Fragment}
    (h : ∀ v, Ensures anyFault (fun _ => P v) (f v)) :
    Ensures anyFault (fun _ => ∀ v ∈ vs, P v) (vs.mapM f) := by
  refine (Ensures.mapM (P := fun v _ => P v) fun v _ => h v).mono fun fs hfs => ?_
  exact fun v hv => forall_of_forall₂ hfs.flip hv

theorem joinEntry_rendered (keyword : String) (entry : Value) :
    Ensures anyFault (fun _ => entry.items?.isSome = true) (joinEntry r s keyword entry) := by
  unfold joinEntry
  split
  · next h => exact (Ensures.any _).mono fun _ _ => by rw [h]; rfl
  · next h => exact (Ensures.any _).mono fun _ _ => by rw [h]; rfl
  · exact .fail trivial

theorem clause_rendered (form : ClauseForm) (key : String)
    (hkey : form = .selection → Clause.ofTables.contains key = false) (v : Value) :
    Ensures anyFault (fun _ => form.Rendered v) (clause r s form key v) := by
  cases form with
  | selection =>
    change Ensures _ _ (selection r s key v)
    unfold selection items
    rw [hkey rfl]
    exact .bind (items_rendered item_rendered) fun _ h => .pure h
  | distinctOn =>
    change Ensures anyFault (fun _ => ∀ w ∈ v.asItems.drop 1, ∀ t, w = .text t →
      Identifier.isIdentText t = true) (distinctOn r s v)
    unfold distinctOn
    split
    · exact .fail trivial
    · next h =>
      rw [h]
      exact .bindAny fun _ => .bind (items_rendered item_rendered) fun _ h => .pure h
  | join =>
    change Ensures _ _ (join r s key v)
    exact .bind (items_rendered (joinEntry_rendered _)) fun _ h => .pure h
  | _ => exact (Ensures.any _).mono fun _ _ => trivial

/-- All clauses of a statement are rendered. -/
theorem statement_rendered (nested : Bool) : Ensures anyFault (fun _ =>
    ∀ key ∈ s.clauseOrder, ∀ v form, Entries.field? es key = some v → v ≠ .null →
      s.registry.clause? key = some form →
      (form = .selection → Clause.ofTables.contains key = false) → form.Rendered v)
    (statement r s nested es) := by
  unfold statement
  refine .liftAny fun _ _ => ?_
  refine .bind (Ensures.mapM (P := fun key _ => ∀ v form, Entries.field? es key = some v →
    v ≠ .null → s.registry.clause? key = some form →
    (form = .selection → Clause.ofTables.contains key = false) → form.Rendered v) fun key _ => ?_)
    fun fs hfs => .pure fun key hkey => forall_of_forall₂ hfs.flip hkey
  unfold clauseOf
  split
  · next hv => exact .pure fun v form h => by rw [hv] at h; cases h
  · next hv => exact .pure fun v form h hne => by rw [hv] at h; cases h; exact absurd rfl hne
  · next hform => exact .pure fun v form _ _ h => by cases hform.symm.trans h
  · next w form _ hw hform =>
    by_cases hkey : form = .selection → Clause.ofTables.contains key = false
    · refine .bind (clause_rendered form key hkey w) fun f h => .pure fun v form' hv _ hform' _ => ?_
      obtain rfl : w = v := Option.some.inj (hw.symm.trans hv)
      obtain rfl : form = form' := Option.some.inj (hform.symm.trans hform')
      exact h
    · refine .bindAny fun _ => .pure fun v form' _ _ hform' hkey' => absurd ?_ hkey
      obtain rfl : form = form' := Option.some.inj (hform.symm.trans hform')
      exact hkey'

end Rendered

/-- The selections and the joins are those that a registry starts with. -/
structure Registry.Selects (registry : Registry) : Prop where
  forms : ∀ key ∈ Clause.selections ++ Clause.joins,
    registry.clause? key = Registry.base.clause? key
  ordered : ∀ key ∈ Clause.selections ++ Clause.joins, key ∈ registry.clauseOrder

theorem Registry.standard_selects : Registry.standard.Selects where
  forms := by decide
  ordered := by decide

theorem rendered_of_format {registry : Registry} (hregistry : registry.Selects) {o : Options}
    {es : Entries} {out : Formatted} (hstatement : isStatement es = true)
    (hformat : format registry o (.map es) = .ok out) {key : String} {v : Value}
    (hkey : key ∈ Clause.selections ++ Clause.joins) (hv : Entries.field? es key = some v)
    (hne : v ≠ .null) {form : ClauseForm} (hform : Registry.base.clause? key = some form) :
    form.Rendered v := by
  have htables : ∀ key ∈ Clause.selections ++ Clause.joins,
      Clause.ofTables.contains key = false := by decide
  obtain ⟨s, f, n, hs, hf, -⟩ := format_eq_ok_iff.mp hformat
  obtain ⟨hkeeps, -, horder⟩ := Settings.ofOptions_keeps hs
  have hrun : statement (upTo (Value.map es).height) s false es 0 = .ok (f, n) := by
    simp only [fragment, fragmentBy, hstatement, if_true] at hf
    exact hf
  refine (statement_rendered false).of_ok hrun key ?_ v form hv hne ?_ fun _ => htables key hkey
  · rw [horder]
    exact s.dialect.mem_clauseOrder (hregistry.ordered key hkey)
  · rw [hkeeps, hregistry.forms key hkey, hform]

namespace Override

variable {es : Entries} {overrides : Entries} {tables : List (String × String)} {v : Value}
  {key : String}

/-- The expressions in front of the selected items. -/
def leading (key : String) (v : Value) : List Value :=
  if key = "select-distinct-on" then v.asItems.take 1 else []

def selected (key : String) (v : Value) : List Value :=
  if key = "select-distinct-on" then v.asItems.drop 1 else v.asItems

/-- The value of a selection has the items that its formatting finds in it. -/
def IsArray (key : String) (v : Value) : Prop :=
  v.given = true → if key = "select-distinct-on" then v.items?.isSome = true else ∀ vs, v ≠ .tuple vs

theorem aliasTables_ok (h : ∀ key ∈ Clause.joins, ∀ v, Entries.field? es key = some v → v ≠ .null →
    ∀ entry ∈ v.asItems, entry.items?.isSome = true) : ∃ tables, aliasTables es = .ok tables := by
  have hitems : ∀ key ∈ Clause.joins,
      Meets (fun _ => False) (fun _ => True) (itemsOf es key) := by
    intro key hkey
    unfold itemsOf
    split
    · trivial
    · next v hv =>
      split
      · next hgiven =>
        have hne : v ≠ .null := by
          rintro rfl
          cases hgiven
        have hentries := h key hkey v hv hne
        -- a value without items would be its own entry
        cases v with
        | list vs => trivial
        | tuple vs => trivial
        | _ => exact absurd (hentries _ (List.mem_singleton_self _)) Bool.false_ne_true
      · trivial
  have hsources : Meets (fun _ => False) (fun _ => True) (tableItems es) :=
    .bind (Meets.mapM_all hitems) fun _ _ => trivial
  have hall : Meets (fun _ => False) (fun _ => True) (aliasTables es) :=
    .bind hsources fun _ _ => trivial
  cases htables : aliasTables es with
  | ok tables => exact ⟨tables, rfl⟩
  | error e =>
    rw [htables] at hall
    exact hall.elim

theorem leading_append_selected (key : String) (v : Value) :
    leading key v ++ selected key v = v.asItems := by
  unfold leading selected
  split
  · exact List.take_append_drop 1 _
  · rfl

/-- What is not given has no items that an override could match. -/
theorem item_of_not_given (hgiven : v.given = false)
    (hempty : key ≠ "select-distinct-on" → v ≠ .text "") :
    ∀ u ∈ selected key v, item overrides tables u = u := by
  have hatom : v.asItems.length ≤ 1 ∧ (v ≠ .text "" → ∀ u ∈ v.asItems, item overrides tables u = u) := by
    cases v with
    | list vs =>
      obtain rfl : vs = [] := by simpa [Value.given] using hgiven
      exact ⟨Nat.zero_le _, fun _ => List.forall_mem_nil _⟩
    | tuple vs =>
      obtain rfl : vs = [] := by simpa [Value.given] using hgiven
      exact ⟨Nat.zero_le _, fun _ => List.forall_mem_nil _⟩
    | text t =>
      obtain rfl : t = "" := by simpa [Value.given] using hgiven
      exact ⟨Nat.le_refl _, fun h => absurd rfl h⟩
    | _ => exact ⟨Nat.le_refl _, fun _ => List.forall_mem_singleton.mpr rfl⟩
  unfold selected
  split
  · rw [List.drop_eq_nil_of_le hatom.1]
    exact List.forall_mem_nil _
  · next hkey => exact hatom.2 (hempty hkey)

theorem selection_ok (hshape : IsArray key v)
    (hempty : key ≠ "select-distinct-on" → v ≠ .text "") :
    ∃ w, selection overrides tables key v = .ok w ∧ (v.given = true → ∃ vs, w = .list vs) ∧
      w.asItems = leading key v ++ (selected key v).map (item overrides tables) := by
  unfold selection
  by_cases hgiven : v.given = true
  · have hshape := hshape hgiven
    rw [hgiven, Bool.not_true, if_neg Bool.false_ne_true]
    unfold leading selected
    by_cases hon : key = "select-distinct-on"
    · simp only [if_pos hon] at hshape ⊢
      -- what is given is not empty, so there is a list of expressions in front
      obtain ⟨on, vs, hitems, helements⟩ : ∃ on vs, v.items? = some (on :: vs) ∧
          v.elements? = some (on :: vs) := by
        cases v with
        | list us =>
          cases us with
          | nil => cases hgiven
          | cons on vs => exact ⟨on, vs, rfl, rfl⟩
        | tuple us =>
          cases us with
          | nil => cases hgiven
          | cons on vs => exact ⟨on, vs, rfl, rfl⟩
        | _ => cases hshape
      rw [helements]
      have hasItems : v.asItems = on :: vs := by rw [Value.asItems, hitems, Option.getD_some]
      exact ⟨_, rfl, fun _ => ⟨_, rfl⟩, by rw [hasItems]; rfl⟩
    · simp only [if_neg hon] at hshape ⊢
      refine ⟨_, rfl, fun _ => ⟨_, rfl⟩, ?_⟩
      cases v with
      | tuple vs => exact absurd rfl (hshape vs)
      | _ => rfl
  · rw [Bool.eq_false_iff.mpr hgiven]
    refine ⟨v, rfl, fun h => absurd h Bool.false_ne_true, ?_⟩
    have hsame : (selected key v).map (item overrides tables) = selected key v :=
      (List.map_congr_left (item_of_not_given (Bool.eq_false_iff.mpr hgiven) hempty)).trans
        (List.map_id' _)
    rw [hsame, leading_append_selected]

/-- The statement with one field replaced, if it has this field. -/
def replaceField (f : String → Value → Except Fault Value) (es : Entries) (key : String) :
    Except Fault Entries :=
  match Entries.field? es key with
  | none => return es
  | some v => return Entries.putField es key (← f key v)

theorem replaceField_ok {f : String → Value → Except Fault Value}
    (hok : ∀ v, Entries.field? es key = some v → ∃ w, f key v = .ok w) :
    ∃ fs, replaceField f es key = .ok fs ∧
      Option.Rel (fun v w => f key v = .ok w) (Entries.field? es key) (Entries.field? fs key) ∧
      ∀ other, key ≠ other → Entries.field? fs other = Entries.field? es other := by
  unfold replaceField
  cases hv : Entries.field? es key with
  | none => exact ⟨es, rfl, by rw [hv]; exact .none, fun _ _ => rfl⟩
  | some v =>
    obtain ⟨w, hw⟩ := hok v hv
    refine ⟨Entries.putField es key w, ?_, ?_, fun other h => Entries.field_putField_of_ne h⟩
    · change (f key v >>= fun w => .ok (Entries.putField es key w)) = _
      rw [hw]
      rfl
    · rw [Entries.field_putField_self]
      exact .some hw

/-- Fields that are replaced one after the other. -/
theorem replaceFields_ok {f : String → Value → Except Fault Value} {keys : List String}
    (hnodup : keys.Nodup)
    (hok : ∀ key ∈ keys, ∀ v, Entries.field? es key = some v → ∃ w, f key v = .ok w) :
    ∃ fs, keys.foldlM (replaceField f) es = .ok fs ∧
      (∀ key ∉ keys, Entries.field? fs key = Entries.field? es key) ∧
      ∀ key ∈ keys, Option.Rel (fun v w => f key v = .ok w) (Entries.field? es key)
        (Entries.field? fs key) := by
  induction keys generalizing es with
  | nil => exact ⟨es, rfl, fun _ _ => rfl, List.forall_mem_nil _⟩
  | cons key keys ih =>
    obtain ⟨hkey, hnodup⟩ := List.nodup_cons.mp hnodup
    have hne : ∀ other ∈ keys, key ≠ other := fun other h heq => hkey (heq ▸ h)
    obtain ⟨es', hstep, hself, hother⟩ := replaceField_ok (hok key List.mem_cons_self)
    obtain ⟨fs, hrun, hrest, hkeys⟩ := ih hnodup fun other h v hv =>
      hok other (List.mem_cons_of_mem _ h) v ((hother other (hne other h)).symm.trans hv)
    refine ⟨fs, ?_, fun other h => ?_, fun other h => ?_⟩
    · rw [List.foldlM_cons, hstep]
      exact hrun
    · rw [List.mem_cons, not_or] at h
      rw [hrest other h.2, hother other (Ne.symm h.1)]
    · rcases List.mem_cons.mp h with rfl | h
      · rwa [hrest other hkey]
      · rw [← hother other (hne other h)]
        exact hkeys other h

theorem overrideSelects_eq (htables : aliasTables es = .ok tables) :
    overrideSelects overrides (.map es) =
      (Clause.selections.foldlM (replaceField (selection overrides tables)) es).map Value.map := by
  unfold overrideSelects
  dsimp only
  rw [htables]
  rfl

end Override

/-- Whatever is overridden in a statement that can be formatted, all clauses but its selections stay
as they are, and each selection is a list with the items of the old one in their order, each of them
for itself as it was or overridden. By the reading of any settings, an item keeps its column under
all overrides just when the search takes it for what it is formatted as: a column with at most one
name in front of it, an item with an alias, or what has no text in the place of an alias. -/
theorem overrideSelects_keeps_iff {registry : Registry} (hregistry : registry.Selects) {o : Options}
    (s : Settings) {es : Entries} {out : Formatted}
    (hstatement : isStatement es = true) (hformat : format registry o (.map es) = .ok out)
    (harrays : ∀ key ∈ Clause.selections, ∀ v, Entries.field? es key = some v →
      Override.IsArray key v) :
    ∃ tables, Override.aliasTables es = .ok tables ∧
      (∀ overrides, ∃ fs, overrideSelects overrides (.map es) = .ok (.map fs) ∧
        (∀ key ∉ Clause.selections, Entries.field? fs key = Entries.field? es key) ∧
        ∀ key ∈ Clause.selections, Option.Rel
          (fun v w => (v.given = true → ∃ vs, w = .list vs) ∧
            w.asItems = Override.leading key v ++
              (Override.selected key v).map (Override.item overrides tables))
          (Entries.field? es key) (Entries.field? fs key)) ∧
      ∀ key ∈ Clause.selections, ∀ v, Entries.field? es key = some v →
        ∀ item ∈ Override.selected key v,
          (∀ overrides, Override.Fits overrides →
            Override.Keeps s tables overrides item (Override.item overrides tables item)) ↔
          Override.Legible s item := by
  -- what is selected can be read, because it was rendered
  have hnames : ∀ key ∈ Clause.selections, ∀ v, Entries.field? es key = some v →
      ∀ item ∈ Override.selected key v, ∀ t, item = .text t → Identifier.isIdentText t = true := by
    intro key hkey v hv
    have hrendered : ∀ {form}, v ≠ .null → Registry.base.clause? key = some form →
        form.Rendered v := fun hne =>
      rendered_of_format hregistry hstatement hformat (List.mem_append_left _ hkey) hv hne
    by_cases hne : v = .null
    · subst hne
      intro item hitem t ht
      subst ht
      unfold Override.selected at hitem
      split at hitem <;> simp [Value.asItems, Value.items?] at hitem
    · simp only [Clause.selections, List.mem_cons, List.not_mem_nil, or_false] at hkey
      rcases hkey with rfl | rfl | rfl
      · exact @hrendered .selection hne (by decide)
      · exact @hrendered .selection hne (by decide)
      · exact @hrendered .distinctOn hne (by decide)
  obtain ⟨tables, htables⟩ : ∃ tables, Override.aliasTables es = .ok tables := by
    refine Override.aliasTables_ok fun key hkey v hv hne => ?_
    have hforms : ∀ key ∈ Clause.joins, Registry.base.clause? key = some .join := by decide
    exact rendered_of_format hregistry hstatement hformat (List.mem_append_right _ hkey) hv hne
      (hforms key hkey)
  refine ⟨tables, htables, fun overrides => ?_, fun key hkey v hv item hitem =>
    Override.keeps_iff_legible (hnames key hkey v hv item hitem)⟩
  have hok : ∀ key ∈ Clause.selections, ∀ v, Entries.field? es key = some v → ∃ w,
      Override.selection overrides tables key v = .ok w ∧ (v.given = true → ∃ vs, w = .list vs) ∧
        w.asItems = Override.leading key v ++
          (Override.selected key v).map (Override.item overrides tables) := by
    intro key hkey v hv
    refine Override.selection_ok (harrays key hkey v hv) fun hon hempty => ?_
    subst hempty
    have hmem : Value.text "" ∈ Override.selected key (.text "") := by
      rw [Override.selected, if_neg hon]
      exact List.mem_singleton_self _
    exact absurd (hnames key hkey _ hv _ hmem "" rfl) (by decide)
  obtain ⟨fs, hrun, hrest, hkeys⟩ := Override.replaceFields_ok
    (f := Override.selection overrides tables) (by decide : Clause.selections.Nodup)
    fun key hkey v hv => (hok key hkey v hv).imp fun _ => And.left
  refine ⟨fs, ?_, hrest, fun key hkey => ?_⟩
  · rw [Override.overrideSelects_eq htables, hrun]
    rfl
  · have hfield := hkeys key hkey
    generalize hv : Entries.field? es key = before at hfield
    generalize Entries.field? fs key = after at hfield
    cases hfield with
    | none => exact .none
    | some hw =>
      obtain ⟨w, hw', hlist, hitems⟩ := hok key hkey _ hv
      obtain rfl := Except.ok.inj (hw'.symm.trans hw)
      exact .some ⟨hlist, hitems⟩

section Samples

/-- Two columns behind the alias of their table. -/
def userColumns : Entries :=
  [(.text "select", .list [.text "u.email", .text "u.id"]),
    (.text "from", .list [.list [.text "users", .text "u"]])]

def plainSettings : Settings := (Settings.ofOptions .standard {}).toOption.getD default

/-- The address of the user in lower case. -/
def lowerEmail : Entries := [(.text "users.email", .list [.text "%lower", .text "u.email"])]

theorem overrideSelects_keeps_userColumns :
    ∃ fs, overrideSelects lowerEmail (.map userColumns) = .ok (.map fs) ∧
      Entries.field? fs "from" = Entries.field? userColumns "from" ∧
      ∃ tables, Override.Keeps plainSettings tables lowerEmail (.text "u.email")
        (Override.item lowerEmail tables (.text "u.email")) := by
  obtain ⟨out, hout⟩ : ∃ out, format .standard {} (.map userColumns) = .ok out := by
    have hsome : (format .standard {} (.map userColumns)).toOption.isSome = true := by decide +kernel
    cases h : format .standard {} (.map userColumns) with
    | ok out => exact ⟨out, rfl⟩
    | error e =>
      rw [h] at hsome
      cases hsome
  have harrays : ∀ key ∈ Clause.selections, ∀ v, Entries.field? userColumns key = some v →
      Override.IsArray key v := by
    intro key hkey v hv
    simp only [Clause.selections, List.mem_cons, List.not_mem_nil, or_false] at hkey
    rcases hkey with rfl | rfl | rfl
    · cases hv
      exact fun _ => fun _ => Value.noConfusion
    · cases hv
    · cases hv
  obtain ⟨tables, -, hrun, hitems⟩ :=
    overrideSelects_keeps_iff Registry.standard_selects plainSettings rfl hout harrays
  obtain ⟨fs, hfs, hrest, -⟩ := hrun lowerEmail
  have hfits : Override.Fits lowerEmail := by
    intro e he
    rw [List.mem_singleton.mp he]
    exact ⟨⟨_, rfl⟩, fun _ => Value.noConfusion⟩
  have hlegible : Override.Legible plainSettings (.text "u.email") :=
    .column ⟨by decide, "email", Text.forall_mem_of_all (by decide), by decide,
      .inr ⟨"u", by decide, rfl⟩⟩
  refine ⟨fs, hfs, hrest _ (by decide), tables, ?_⟩
  exact (hitems "select" (by decide) _ rfl _ List.mem_cons_self).mpr hlegible lowerEmail hfits

/-- The address is to be hidden. -/
def hiddenEmail : Entries := [(.text "email", .map [(.text "$", .text "hidden")])]

/-- A column with two names in front of it is not found under its own name, and a call of one column
is taken for this column as an alias. -/
theorem qualified_column_not_overridden :
    Override.columnName "public.users.email" = "email" ∧
      (overrideSelects hiddenEmail (.map [(.text "select", .list [.text "public.users.email"]),
        (.text "from", .text "public.users")]) >>= format .standard {}).toOption.map Formatted.sql =
          some "SELECT public.users.email FROM public.users" ∧
      (overrideSelects hiddenEmail (.map [(.text "select",
        .list [.list [.text "%lower", .text "email"]]), (.text "from", .text "users")]) >>=
          format .standard {}).toOption.map Formatted.sql = some "SELECT $1 AS email FROM users" := by
  refine ⟨by decide, ?_, ?_⟩ <;> decide +kernel

end Samples

end SqlTree

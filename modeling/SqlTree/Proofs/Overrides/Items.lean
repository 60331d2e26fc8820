import SqlTree.Proofs.Identifiers.Parts
import SqlTree.Proofs.Same
import SqlTree.Render.Clauses
import SqlTree.Walk.Columns
import Mathlib.Data.List.TakeWhile

/-!
Selected items under overrides. An item that is replaced keeps the name of its column just when the
search for overrides reads the item in the way in which selections are formatted.
-/

namespace SqlTree

open Render

namespace Override

/-- The last name of a path. -/
def columnName (t : String) : String :=
  String.ofList (((Text.splitAt isPathSeparator t.toList).getLast?).getD [])

/-- The name of the column that the item is formatted as, if it has a name. -/
def outputName? (s : Settings) (item : Value) : Option String :=
  match aliasPair? s item, item with
  | some (_, t), _ => some t
  | none, .text t => if startsWithPercent t then none else some (columnName t)
  | none, _ => none

/-- A column with at most one name in front of it. Stars and calls are not columns. -/
structure IsColumn (t : String) : Prop where
  notCall : startsWithPercent t = false
  path : ∃ column, (∀ c ∈ column.toList, isPathSeparator c = false) ∧
    column.toList.head? ≠ some '*' ∧
    (t = column ∨ ∃ table, '.' ∉ table.toList ∧ t = table ++ "." ++ column)

/-- What stands behind the first point, or all of the text. -/
def afterPoint (t : String) : String := ((splitColumn? t).map (·.2)).getD t

section Texts

variable {t table column : String}

theorem splitColumn?_of_not_mem (h : '.' ∉ t.toList) : splitColumn? t = none := by
  have hall : t.toList.dropWhile (· != '.') = [] :=
    List.dropWhile_eq_nil_iff.mpr fun c hc => bne_iff_ne.mpr fun heq => h (heq ▸ hc)
  unfold splitColumn?
  simp only [hall]

theorem splitColumn?_append (h : '.' ∉ table.toList) :
    splitColumn? (table ++ "." ++ column) = some (table, column) := by
  have hall : ∀ c ∈ table.toList, (c != '.') = true :=
    fun c hc => bne_iff_ne.mpr fun heq => h (heq ▸ hc)
  have htext : (table ++ "." ++ column).toList = table.toList ++ '.' :: column.toList := by simp
  have hdrop : (table.toList ++ '.' :: column.toList).dropWhile (· != '.') =
      '.' :: column.toList := by
    rw [List.dropWhile_append_of_pos hall]
    simp
  have htake : (table.toList ++ '.' :: column.toList).takeWhile (· != '.') = table.toList := by
    rw [List.takeWhile_append_of_pos hall]
    simp
  unfold splitColumn?
  simp only [htext, hdrop, htake, String.ofList_toList]

/-- A text has no point, or a first one. -/
theorem exists_first_point (t : String) :
    '.' ∉ t.toList ∨ ∃ table column, '.' ∉ table.toList ∧ t = table ++ "." ++ column := by
  by_cases h : '.' ∈ t.toList
  · obtain ⟨before, after, hsplit, hbefore⟩ := List.eq_append_cons_of_mem h
    refine .inr ⟨String.ofList before, String.ofList after, by simpa using hbefore, ?_⟩
    apply String.toList_inj.mp
    simp [hsplit]
  · exact .inl h

theorem not_separator_columnName : ∀ c ∈ (columnName t).toList, isPathSeparator c = false := by
  unfold columnName
  cases hlast : (Text.splitAt isPathSeparator t.toList).getLast? with
  | none => simp
  | some piece =>
    simpa using Text.not_separator_of_mem (List.mem_of_getLast? hlast)

theorem columnName_of_not_separator (h : ∀ c ∈ t.toList, isPathSeparator c = false) :
    columnName t = t := by
  unfold columnName
  rw [Text.splitAt_of_none h]
  simp

theorem columnName_append (table column : String) :
    columnName (table ++ "." ++ column) = columnName column := by
  have htext : (table ++ "." ++ column).toList = table.toList ++ '.' :: column.toList := by simp
  have hpoint : isPathSeparator '.' = true := rfl
  obtain ⟨piece, pieces, hsplit⟩ :=
    Text.exists_splitAt_append hpoint table.toList column.toList
  unfold columnName
  rw [htext, hsplit, List.getLast?_append_of_ne_nil _ (Text.splitAt_ne_nil _ _)]

theorem isPath_behind_point {b : Bool} {before after : List Char}
    (h : Identifier.isPath b (before ++ '.' :: after) = true) (hbefore : '.' ∉ before)
    (hstar : after.head? ≠ some '*') : Identifier.isPath true after = true := by
  induction before generalizing b with
  | nil =>
    cases b with
    | true => exact absurd (Bool.and_eq_true_iff.mp h).1 (by decide)
    | false =>
      cases after with
      | nil => exact absurd h (by decide)
      | cons c after =>
        have hc : c ≠ '*' := fun heq => hstar (congrArg some heq)
        rwa [List.nil_append, isPath_dot hc] at h
  | cons c before ih =>
    rw [List.mem_cons, not_or] at hbefore
    rw [List.cons_append, Identifier.isPath.eq_def] at h
    cases b with
    | true => exact ih (Bool.and_eq_true_iff.mp h).2 hbefore.2
    | false =>
      dsimp only at h
      split at h
      · exact ih h hbefore.2
      split at h
      · exact ih h hbefore.2
      split at h
      · next hdot => exact absurd hdot.symm hbefore.1
      · simp at h

theorem isAliasText_of_isPath (h : Identifier.isPath true t.toList = true) :
    isAliasText t = true := by
  have hstart : ∃ c cs, t.toList = c :: cs ∧ Identifier.isNameStart c = true := by
    cases hcs : t.toList with
    | nil =>
      rw [hcs] at h
      cases h
    | cons c cs =>
      rw [hcs, Identifier.isPath, Bool.and_eq_true] at h
      exact ⟨c, cs, rfl, h.1⟩
  obtain ⟨c, cs, hcs, hc⟩ := hstart
  have hstar : t ≠ "*" := by
    rintro rfl
    cases hcs
    exact absurd hc (by decide)
  have hpercent : startsWithPercent t = false := by
    rw [startsWithPercent, hcs, decide_eq_false_iff_not]
    rintro ⟨⟩
    exact absurd hc (by decide)
  rw [isAliasText, hpercent, Identifier.isIdentText_eq_isPath hpercent hstar, h]
  simp [hstar]

theorem head?_of_isAliasText (h : isAliasText t = true) : t.toList.head? ≠ some '*' := by
  intro hstar
  obtain ⟨⟨hne, hpercent⟩, hident⟩ : (t ≠ "*" ∧ startsWithPercent t = false) ∧
      (Identifier.isIdentText t = true ∨ t.toList.head? = some '\'') := by
    simpa [isAliasText] using h
  rcases hident with hident | hquote
  · rw [Identifier.isIdentText_eq_isPath hpercent hne] at hident
    cases hcs : t.toList with
    | nil =>
      rw [hcs] at hstar
      cases hstar
    | cons c cs =>
      rw [hcs] at hstar hident
      cases hstar
      exact absurd (Bool.and_eq_true_iff.mp hident).1 (by decide)
  · rw [hstar] at hquote
    cases hquote

theorem isColumn_iff (hident : Identifier.isIdentText t = true) : IsColumn t ↔
    startsWithPercent t = false ∧ columnName t = afterPoint t ∧
      isAliasText (afterPoint t) = true := by
  constructor
  · rintro ⟨hpercent, column, hseparator, hstar, rfl | ⟨table, htable, rfl⟩⟩
    · have hpoint : '.' ∉ t.toList := fun h => absurd (hseparator '.' h) (by decide)
      have hne : t ≠ "*" := by
        rintro rfl
        exact hstar rfl
      rw [afterPoint, splitColumn?_of_not_mem hpoint]
      rw [Identifier.isIdentText_eq_isPath hpercent hne] at hident
      exact ⟨hpercent, columnName_of_not_separator hseparator, isAliasText_of_isPath hident⟩
    · have htext : (table ++ "." ++ column).toList = table.toList ++ '.' :: column.toList := by simp
      have hne : table ++ "." ++ column ≠ "*" := by
        intro heq
        have hmem : '.' ∈ (table ++ "." ++ column).toList := by simp
        rw [heq] at hmem
        exact absurd hmem (by decide)
      rw [Identifier.isIdentText_eq_isPath hpercent hne, htext] at hident
      rw [afterPoint, splitColumn?_append htable, columnName_append]
      exact ⟨hpercent, columnName_of_not_separator hseparator,
        isAliasText_of_isPath (isPath_behind_point hident htable hstar)⟩
  · rintro ⟨hpercent, hname, halias⟩
    refine ⟨hpercent, afterPoint t, ?_, head?_of_isAliasText halias, ?_⟩
    · rw [← hname]
      exact not_separator_columnName
    · rcases exists_first_point t with hpoint | ⟨table, column, htable, rfl⟩
      · left
        rw [afterPoint, splitColumn?_of_not_mem hpoint]
        rfl
      · right
        exact ⟨table, htable, by rw [afterPoint, splitColumn?_append htable]; rfl⟩

end Texts

section Items

variable {s : Settings} {tables : List (String × String)} {overrides : Entries} {v x : Value}

/-- The names under which an override of the item is looked up, first to last. -/
def keys (tables : List (String × String)) (v : Value) : List String :=
  match resolve? tables v with
  | some (name, output) => candidates name output
  | none => []

/-- Names with expressions that are not texts. -/
def Fits (overrides : Entries) : Prop :=
  ∀ e ∈ overrides, (∃ key, e.1 = .text key) ∧ ∀ t, e.2 ≠ .text t

/-- What `v` has become keeps the column: it is the item as it was if no override matches, and else
an expression under the old name of the column; and a column whose own name is overridden does not
stay as it is. -/
structure Keeps (s : Settings) (tables : List (String × String)) (overrides : Entries)
    (v w : Value) : Prop where
  unmatched : (keys tables v).findSome? (Entries.field? overrides) = none → w = v
  matched : ∀ x, (keys tables v).findSome? (Entries.field? overrides) = some x →
    ∃ t, w = .list [x, .text t] ∧ aliasPair? s w = some (x, t) ∧ outputName? s v = some t
  masked : ∀ t, v = .text t → startsWithPercent t = false →
    (Entries.field? overrides (columnName t)).isSome = true → w ≠ v

/-- Items that the search for overrides takes for what they are formatted as. -/
inductive Legible (s : Settings) : Value → Prop
  | column {t : String} : IsColumn t → Legible s (.text t)
  | aliased {v expr : Value} {t : String} : aliasPair? s v = some (expr, t) → Legible s v
  | other {v : Value} : (∀ t, v ≠ .text t) →
      (∀ first t, v.items? = some [first, .text t] → startsWithPercent t = true) → Legible s v

theorem aliasPair?_eq_some {expr : Value} {t : String} (h : aliasPair? s v = some (expr, t)) :
    v.items? = some [expr, .text t] ∧ isAliasText t = true := by
  unfold aliasPair? at h
  split at h
  · next first u hitems =>
    obtain ⟨hcond, hpair⟩ := Option.ite_none_right_eq_some.mp h
    obtain ⟨rfl, rfl⟩ : first = expr ∧ u = t := by simpa using hpair
    exact ⟨hitems, (Bool.and_eq_true_iff.mp hcond).1⟩
  · cases h

theorem aliasPair?_list {t : String} (hx : ∀ t, x ≠ .text t) (ht : isAliasText t = true) :
    aliasPair? s (.list [x, .text t]) = some (x, t) := by
  cases x with
  | text u => exact absurd rfl (hx u)
  | _ => simp [aliasPair?, Value.items?, ht]

theorem resolve?_eq_some {name output : String} (hv : ∀ t, v ≠ .text t)
    (h : resolve? tables v = some (name, output)) :
    ∃ first, v.items? = some [first, .text output] ∧ startsWithPercent output = false := by
  unfold resolve? at h
  split at h
  · next t => exact absurd rfl (hv t)
  · split at h
    · next first t hitems =>
      split at h
      · cases h
      · next hpercent =>
        have houtput : t = output := by
          split at h <;> cases h <;> rfl
        subst houtput
        exact ⟨first, hitems, by simpa [startsWithPercent] using hpercent⟩
    · cases h

theorem exists_resolve? {first : Value} {t : String} (hitems : v.items? = some [first, .text t])
    (hpercent : startsWithPercent t = false) : ∃ name, resolve? tables v = some (name, t) := by
  have hhead : ¬ t.toList.head? = some '%' := by simpa [startsWithPercent] using hpercent
  unfold resolve?
  cases v <;> simp only [Value.items?, reduceCtorEq, Option.some.injEq] at hitems <;> subst hitems
  all_goals
    simp only [Value.items?, if_neg hhead]
    split <;> exact ⟨_, rfl⟩

theorem resolveText_snd (tables : List (String × String)) (t : String) :
    (resolveText tables t).2 = afterPoint t := by
  unfold resolveText afterPoint
  cases splitColumn? t <;> rfl

theorem outputName?_text (t : String) : outputName? s (.text t) =
    if startsWithPercent t then none else some (columnName t) :=
  rfl

theorem outputName?_of_not_text (hv : ∀ t, v ≠ .text t) :
    outputName? s v = (aliasPair? s v).map (·.2) := by
  unfold outputName?
  cases aliasPair? s v with
  | some p => rfl
  | none =>
    cases v with
    | text t => exact absurd rfl (hv t)
    | _ => rfl

theorem legible_text : Legible s (.text column) ↔ IsColumn column := by
  constructor
  · rintro (h | h | ⟨h, -⟩)
    · exact h
    · cases h
    · exact absurd rfl (h column)
  · exact .column

/-- The search finds the name under which the item is formatted, and this may be an alias. -/
theorem legible_iff (hv : ∀ t, v = .text t → Identifier.isIdentText t = true) :
    Legible s v ↔ ∀ name output, resolve? tables v = some (name, output) →
      outputName? s v = some output ∧ isAliasText output = true := by
  by_cases htext : ∃ t, v = .text t
  · obtain ⟨t, rfl⟩ := htext
    have hnames : (∀ name output, resolve? tables (.text t) = some (name, output) →
        outputName? s (.text t) = some output ∧ isAliasText output = true) ↔
        outputName? s (.text t) = some (afterPoint t) ∧ isAliasText (afterPoint t) = true := by
      rw [← resolveText_snd tables t]
      constructor
      · exact fun h => h _ _ rfl
      · rintro h name output hresolve
        obtain rfl : (resolveText tables t).2 = output := congrArg Prod.snd (Option.some.inj hresolve)
        exact h
    rw [hnames, legible_text, isColumn_iff (hv t rfl), outputName?_text, ← and_assoc]
    cases startsWithPercent t <;> simp
  · have hne : ∀ t, v ≠ .text t := fun t h => htext ⟨t, h⟩
    rw [outputName?_of_not_text hne]
    constructor
    · intro h name output hresolve
      obtain ⟨first, hitems, hpercent⟩ := resolve?_eq_some hne hresolve
      cases h with
      | column => exact absurd rfl (hne _)
      | aliased hpair =>
        obtain ⟨hitems', halias⟩ := aliasPair?_eq_some hpair
        obtain ⟨rfl, rfl⟩ := by simpa [hitems] using hitems'
        exact ⟨by rw [hpair]; rfl, halias⟩
      | other _ hother =>
        rw [hother first output hitems] at hpercent
        cases hpercent
    · intro h
      by_cases hitems : ∃ first t, v.items? = some [first, .text t] ∧ startsWithPercent t = false
      · obtain ⟨first, t, hitems, hpercent⟩ := hitems
        obtain ⟨name, hresolve⟩ : ∃ name, resolve? tables v = some (name, t) :=
          exists_resolve? hitems hpercent
        obtain ⟨⟨expr, u⟩, hpair, -⟩ := Option.map_eq_some_iff.mp (h name t hresolve).1
        exact .aliased hpair
      · refine .other hne fun first t h => ?_
        by_contra hpercent
        exact hitems ⟨first, t, h, Bool.eq_false_iff.mpr hpercent⟩

theorem item_of_none (h : (keys tables v).findSome? (Entries.field? overrides) = none) :
    item overrides tables v = v := by
  unfold item
  unfold keys at h
  cases hresolve : resolve? tables v with
  | none => rfl
  | some p => simp only [hresolve] at h ⊢; rw [h]

theorem item_of_some (h : (keys tables v).findSome? (Entries.field? overrides) = some x) :
    ∃ name output, resolve? tables v = some (name, output) ∧
      item overrides tables v = .list [x, .text output] := by
  unfold item
  unfold keys at h
  cases hresolve : resolve? tables v with
  | none => simp [hresolve] at h
  | some p =>
    simp only [hresolve] at h ⊢
    exact ⟨p.1, p.2, rfl, by rw [h]⟩

/-- An override is found in the overrides, so it is no text. -/
theorem Fits.not_text (hfits : Fits overrides) {names : List String}
    (h : names.findSome? (Entries.field? overrides) = some x) : ∀ t, x ≠ .text t := by
  obtain ⟨name, -, hname⟩ := List.exists_of_findSome?_eq_some h
  obtain ⟨e, he, rfl⟩ := Option.map_eq_some_iff.mp hname
  exact (hfits e (List.mem_of_find?_eq_some he)).2

theorem self_mem_candidates (name output : String) :
    name ∈ candidates name output ∧ output ∈ candidates name output := by
  simp [candidates]

theorem Legible.keeps (hv : ∀ t, v = .text t → Identifier.isIdentText t = true)
    (h : Legible s v) (hfits : Fits overrides) :
    Keeps s tables overrides v (item overrides tables v) where
  unmatched := item_of_none
  matched x hx := by
    obtain ⟨name, output, hresolve, hitem⟩ := item_of_some hx
    obtain ⟨houtput, halias⟩ := (legible_iff hv).mp h name output hresolve
    rw [hitem]
    exact ⟨output, rfl, aliasPair?_list (hfits.not_text hx) halias, houtput⟩
  masked t ht hpercent hname := by
    subst ht
    -- the last name is behind the only point, so it is among the names that are looked up
    obtain ⟨-, hcolumn, -⟩ := (isColumn_iff (hv t rfl)).mp (legible_text.mp h)
    have hmem : columnName t ∈ keys tables (.text t) := by
      rw [hcolumn, ← resolveText_snd tables t]
      exact (self_mem_candidates _ _).2
    obtain ⟨x, hx⟩ : ∃ x, (keys tables (.text t)).findSome? (Entries.field? overrides) = some x := by
      rw [← Option.isSome_iff_exists, List.findSome?_isSome_iff]
      exact ⟨_, hmem, hname⟩
    obtain ⟨name, output, -, hitem⟩ := item_of_some hx
    rw [hitem]
    exact Value.noConfusion

/-- Whatever the overrides, an item that can be read keeps its column, and no other item does. -/
theorem keeps_iff_legible (hv : ∀ t, v = .text t → Identifier.isIdentText t = true) :
    (∀ overrides, Fits overrides → Keeps s tables overrides v (item overrides tables v)) ↔
      Legible s v := by
  have hlegible : Legible s v ↔ ∀ name output, resolve? tables v = some (name, output) →
      outputName? s v = some output ∧ isAliasText output = true := legible_iff hv
  refine ⟨fun h => hlegible.mpr fun name output hresolve => ?_, fun h _ => h.keeps hv⟩
  -- the first name that is looked up is overridden
  have hfits : Fits [(.text name, .null)] := by
    intro e he
    rw [List.mem_singleton.mp he]
    exact ⟨⟨name, rfl⟩, fun _ => Value.noConfusion⟩
  have hfound : (keys tables v).findSome? (Entries.field? [(.text name, .null)]) = some .null := by
    have hfield : Entries.field? [(.text name, .null)] name = some .null := by
      simp [Entries.field?, Entries.valueAt?, Value.same_text_self]
    unfold keys
    simp [hresolve, candidates, hfield]
  obtain ⟨t, hitem, hpair, hname⟩ := (h _ hfits).matched _ hfound
  obtain ⟨name', output', hresolve', hitem'⟩ := item_of_some hfound
  obtain ⟨rfl, rfl⟩ : name = name' ∧ output = output' := by
    simpa using hresolve.symm.trans hresolve'
  obtain rfl : output = t := by simpa using hitem'.symm.trans hitem
  rw [hitem] at hpair
  exact ⟨hname, (aliasPair?_eq_some hpair).2⟩

end Items

end Override

end SqlTree

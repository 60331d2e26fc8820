import SqlTree.Proofs.Ensures
import SqlTree.Render.Name
import SqlTree.Render.Special
import SqlTree.Render.Clauses

/-!
Words without semicolons. A name or a type that holds one is refused, and no other character turns
into one; a keyword holds one only where its name does.
-/

namespace SqlTree

namespace Text

/-- The text holds no semicolon. -/
def Unbroken (t : String) : Prop := ';' ∉ t.toList

instance (t : String) : Decidable (Unbroken t) := inferInstanceAs (Decidable (';' ∉ t.toList))

variable {t u : String} {ts : List String}

@[simp] theorem unbroken_append : Unbroken (t ++ u) ↔ Unbroken t ∧ Unbroken u := by
  simp [Unbroken]

theorem unbroken_intercalate {sep : String} (hsep : Unbroken sep) (h : ∀ t ∈ ts, Unbroken t) :
    Unbroken (sep.intercalate ts) := by
  induction ts with
  | nil => simp [Unbroken]
  | cons t ts ih =>
    cases ts with
    | nil => simpa using h t (by simp)
    | cons u us =>
      rw [String.intercalate_cons_cons, unbroken_append, unbroken_append]
      exact ⟨⟨h t (by simp), hsep⟩, ih fun v hv => h v (by simp [hv])⟩

theorem exists_mem_splitAt {isSeparator : Char → Bool} {c : Char} (hc : isSeparator c = false)
    {cs : List Char} (h : c ∈ cs) : ∃ piece ∈ splitAt isSeparator cs, c ∈ piece := by
  induction cs with
  | nil => cases h
  | cons d cs ih =>
    unfold splitAt
    split
    · next hd =>
      have hcs : c ∈ cs := by
        refine (List.mem_cons.mp h).resolve_left fun heq => ?_
        rw [heq, hd] at hc
        cases hc
      obtain ⟨piece, hp, hcp⟩ := ih hcs
      exact ⟨piece, List.mem_cons_of_mem _ hp, hcp⟩
    · rcases List.mem_cons.mp h with rfl | hcs
      · split
        · exact ⟨[c], by simp, by simp⟩
        · next piece pieces _ => exact ⟨c :: piece, by simp, by simp⟩
      · obtain ⟨piece, hp, hcp⟩ := ih hcs
        split
        · next hnone => simp [hnone] at hp
        · next first pieces hpieces =>
          rw [hpieces] at hp
          rcases List.mem_cons.mp hp with rfl | hp
          · exact ⟨d :: piece, by simp, List.mem_cons_of_mem _ hcp⟩
          · exact ⟨piece, List.mem_cons_of_mem _ hp, hcp⟩

theorem unbroken_of_parts {isSeparator : Char → Bool} (hsep : isSeparator ';' = false)
    (h : ∀ part ∈ parts isSeparator t, Unbroken part) : Unbroken t := by
  intro hmem
  obtain ⟨piece, hp, hpiece⟩ := exists_mem_splitAt hsep hmem
  refine h (String.ofList piece) (List.mem_map_of_mem hp) ?_
  rwa [String.toList_ofList]

theorem unbroken_trimEnd (h : Unbroken t) : Unbroken (trimEnd t) := by
  rw [trimEnd, Unbroken, String.toList_ofList, List.mem_reverse]
  exact fun hmem => h (List.mem_reverse.mp (List.dropWhile_subset _ hmem))

theorem mem_of_mem_doubleQuote {quote c : Char} {cs : List Char}
    (h : c ∈ doubleQuote [quote] cs) : c ∈ cs := by
  induction cs with
  | nil => exact h
  | cons d cs ih =>
    by_cases hd : d = quote
    · subst hd
      rw [doubleQuote_cons_self] at h
      simp only [List.mem_cons] at h ⊢
      rcases h with h | h | h
      · exact .inl h
      · exact .inl h
      · exact .inr (ih h)
    · rw [doubleQuote_cons_of_ne hd] at h
      simp only [List.mem_cons] at h ⊢
      exact h.imp_right ih

end Text

open Text

namespace Keyword

theorem mem_of_mem_spaceHyphens {cs : List Char} {before : Option Char} {c : Char} (hc : c ≠ ' ')
    (h : c ∈ spaceHyphens before cs) : c ∈ cs := by
  induction cs generalizing before with
  | nil => exact h
  | cons d cs ih =>
    simp only [spaceHyphens, List.mem_cons] at h ⊢
    rcases h with h | h
    · split at h
      · exact absurd h hc
      · exact .inl h
    · exact .inr (ih h)

theorem mem_of_mem_dropPercent {cs : List Char} {c : Char} (h : c ∈ dropPercent cs) : c ∈ cs := by
  unfold dropPercent at h
  split at h
  · exact List.mem_cons_of_mem _ h
  · exact h

variable {name : String}

theorem unbroken_render (h : Unbroken name) : Unbroken (render name) := by
  unfold render
  split
  · next rest hrest =>
    rw [Unbroken, hrest] at h
    rw [Unbroken, String.toList_ofList]
    exact fun hmem => h (List.mem_cons_of_mem _ hmem)
  · rw [Unbroken, String.toList_ofList]
    intro hmem
    obtain ⟨d, hd, hupper⟩ := List.mem_flatMap.mp hmem
    obtain rfl := eq_of_mem_upperChar hupper (by decide) (by decide)
    exact h (mem_of_mem_dropPercent (mem_of_mem_spaceHyphens (by decide) hd))

theorem unbroken_function (h : Unbroken name) : Unbroken (function name) := by
  rw [function, Unbroken, String.toList_ofList]
  intro hmem
  obtain ⟨d, hd, hd'⟩ := List.mem_map.mp hmem
  split at hd'
  · cases hd'
  · subst hd'
    exact unbroken_render h hd

end Keyword

namespace Identifier

theorem unbroken_check (part : String) (limit : Int) :
    Meets (fun _ => True) (fun _ => Unbroken part) (check part limit) := by
  refine .of_forall (fun _ h => ?_) fun _ _ => trivial
  unfold check at h
  by_cases hempty : part.isEmpty = true
  · rw [if_pos hempty] at h
    cases h
  rw [if_neg hempty] at h
  by_cases hsemicolon : part.toList.contains ';' = true
  · rw [if_pos hsemicolon] at h
    cases h
  · simpa [Unbroken] using hsemicolon

theorem unbroken_typeName (type : String) :
    Meets (fun _ => True) Unbroken (typeName type) := by
  unfold typeName
  by_cases hbad : (type.toList.contains ';' || hasComment type.toList) = true
  · rw [if_pos hbad]
    trivial
  · rw [if_neg hbad]
    refine .bind (P := fun _ => True) ?_ fun _ _ => Keyword.unbroken_render ?_
    · exact .of_forall (fun _ _ => trivial) fun _ _ => trivial
    · rw [Bool.or_eq_true, not_or] at hbad
      simpa [Unbroken] using hbad.1

theorem unbroken_of_snakeCase {name : String} (h : Unbroken (snakeCase name)) : Unbroken name := by
  rw [snakeCase, Unbroken, String.toList_ofList] at h
  exact fun hmem => h (List.mem_map.mpr ⟨';', hmem, rfl⟩)

end Identifier

theorem Dialect.unbroken_quoteIdentifier (d : Dialect) {part : String} (h : Unbroken part) :
    Unbroken (d.quoteIdentifier part) := by
  have hopening : d.openingQuote ≠ ';' := by cases d <;> decide
  have hclosing : d.closingQuote ≠ ';' := by cases d <;> decide
  rw [quoteIdentifier, enclosed, Unbroken, String.toList_ofList]
  simp only [String.toList_singleton, List.mem_append, List.mem_singleton, not_or]
  exact ⟨⟨hopening.symm, fun hmem => h (mem_of_mem_doubleQuote hmem)⟩, hclosing.symm⟩

namespace Render

variable (s : Settings)

theorem unbroken_namePart (part : String) :
    Meets (fun _ => True) Unbroken (namePart s part) := by
  unfold namePart
  split
  · next h =>
    show Unbroken part
    exact h ▸ by decide
  · refine .bind (Identifier.unbroken_check part _) fun _ h => ?_
    show Unbroken _
    split
    · exact s.dialect.unbroken_quoteIdentifier h
    · exact h

theorem unbroken_nameText (t : String) : Meets (fun _ => True) Unbroken (nameText s t) :=
  .bind (.mapM_all fun part _ => unbroken_namePart s part) fun _ h =>
    unbroken_intercalate (by decide) h

theorem unbroken_aliasText (t : String) : Meets (fun _ => True) Unbroken (aliasText s t) := by
  unfold aliasText
  split
  · next rest _ =>
    split
    · trivial
    · next h =>
      show Unbroken _
      rw [Unbroken, String.toList_ofList]
      simpa using h
  · exact unbroken_namePart s _

theorem unbroken_name (v : Value) : Meets (fun _ => True) Unbroken (name s v) := by
  unfold Render.name
  split
  · split
    · exact unbroken_nameText s _
    · split <;> trivial
  · trivial

theorem unbroken_quotedEntity (v : Value) :
    Meets (fun _ => True) Unbroken (quotedEntity s v) := by
  unfold quotedEntity
  split
  · refine .bind (.mapM_all (R := Unbroken) fun part _ => ?_) fun _ h =>
      unbroken_intercalate (by decide) h
    exact .bind (Identifier.unbroken_check part _) fun _ h => s.dialect.unbroken_quoteIdentifier h
  all_goals trivial

theorem unbroken_excluded (v : Value) : Meets (fun _ => True) Unbroken (excluded s v) := by
  refine .bind (.mapM_all fun c _ => unbroken_name s c) fun cs hcs =>
    unbroken_intercalate (by decide) fun t ht => ?_
  obtain ⟨c, hc, rfl⟩ := List.mem_map.mp ht
  exact unbroken_append.mpr ⟨unbroken_append.mpr ⟨hcs c hc, by decide⟩, hcs c hc⟩

theorem unbroken_fieldPath (fields : List Value) :
    Meets (fun _ => True) Unbroken (Render.fieldPath s fields) := by
  have hentity : ∀ v, Meets (fun _ => True) Unbroken (entity s v) := by
    intro v
    unfold entity
    split
    · exact unbroken_nameText s _
    · trivial
  exact .bind (.mapM_all fun v _ => hentity v) fun _ h =>
    unbroken_append.mpr ⟨by decide, unbroken_intercalate (by decide) h⟩

omit s in
theorem unbroken_typeName (v : Value) : Meets (fun _ => True) Unbroken (typeName v) := by
  unfold Render.typeName
  split
  · exact Identifier.unbroken_typeName _
  iterate 4
    · dsimp only
      split <;> [trivial; (split <;> trivial)]
  · trivial

theorem unbroken_columnSpec (v : Value) : Meets (fun _ => True) Unbroken (columnSpec s v) := by
  unfold columnSpec
  split
  · exact unbroken_name s _
  · split
    · trivial
    · trivial
    · refine .bind (P := fun _ => True) (.of_forall (fun _ _ => trivial) fun _ _ => trivial)
        fun types _ => .bind (.mapM_all fun t _ => Identifier.unbroken_typeName t) fun us hus =>
          .bind (unbroken_name s _) fun t ht => unbroken_trimEnd ?_
      exact unbroken_append.mpr ⟨unbroken_append.mpr ⟨ht, by decide⟩,
        unbroken_intercalate (by decide) hus⟩

/-- A head of a call whose parts are names. -/
theorem unbroken_of_checkHead (head : String) :
    Meets (fun _ => True) (fun _ => Unbroken head) (checkHead s head) := by
  have hparts : ∀ parts : List String,
      Meets (fun _ => True) (fun _ => ∀ part ∈ parts, Unbroken part)
        (parts.forM fun part => Identifier.check part s.dialect.maxIdentifierLength) := by
    intro parts
    induction parts with
    | nil => exact nofun
    | cons part parts ih =>
      exact .bind (Identifier.unbroken_check part _) fun _ h =>
        ih.mono fun _ hs => List.forall_mem_cons.mpr ⟨h, hs⟩
  refine (hparts _).mono fun _ h => ?_
  have hdropped := unbroken_of_parts (by decide) h
  rw [Unbroken, String.toList_ofList] at hdropped
  unfold Keyword.dropPercent at hdropped
  intro hmem
  split at hdropped
  · next rest hrest =>
    rw [hrest] at hmem
    exact hdropped ((List.mem_cons.mp hmem).resolve_left (by decide))
  · exact hdropped hmem

end Render

end SqlTree

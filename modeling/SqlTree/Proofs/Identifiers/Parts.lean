import SqlTree.Proofs.Conditions.Columns

/-!
The parts of an identifier, and how each of them is written. A part may end in a line break, because
a pattern that reaches to the end of a text also holds before one. It is then still taken for plain.
-/

namespace SqlTree

open Syntax (Name)

/-- A text that is neither a star nor a call is an identifier if it is a path. -/
theorem Identifier.isIdentText_eq_isPath {t : String}
    (hpercent : Render.startsWithPercent t = false) (hstar : t ≠ "*") :
    Identifier.isIdentText t = Identifier.isPath true t.toList := by
  unfold Identifier.isIdentText
  split
  · next h => exact absurd (String.toList_inj.mp h) hstar
  · next h => simp [Render.startsWithPercent, h] at hpercent
  · rfl

section Parts

/-- The characters of a part. Where a name has to start, the first one starts it. -/
def IsPart (start : Bool) (cs : List Char) : Prop :=
  (∀ c ∈ cs, Identifier.isNameChar c = true) ∧
    (start = true → ∃ c ∈ cs.head?, Identifier.isNameStart c = true)

/-- The parts of an identifier that does not end in a star. The last one may hold a line break. -/
inductive IdentParts : Bool → List (List Char) → Prop
  | last {b : Bool} {w : List Char} : IsPart b w → IdentParts b [w]
  | broken {b : Bool} {w : List Char} : IsPart b w → IdentParts b [w ++ ['\n']]
  | brokenStar {b : Bool} {w : List Char} : IsPart b w → IdentParts b [w, ['*', '\n']]
  | cons {b : Bool} {w : List Char} {ps : List (List Char)} : IsPart b w → IdentParts true ps →
      IdentParts b (w :: ps)

theorem isPart_nil : IsPart false [] := ⟨List.forall_mem_nil _, fun h => by cases h⟩

theorem IsPart.cons {c : Char} {w : List Char} {b : Bool} (hc : Identifier.isNameChar c = true)
    (hb : b = true → Identifier.isNameStart c = true) (h : IsPart false w) : IsPart b (c :: w) :=
  ⟨List.forall_mem_cons.mpr ⟨hc, h.1⟩, fun ht => ⟨c, rfl, hb ht⟩⟩

theorem IdentParts.prepend {c : Char} {b : Bool} {ps : List (List Char)} (h : IdentParts false ps)
    (hc : Identifier.isNameChar c = true) (hb : b = true → Identifier.isNameStart c = true) :
    ∃ w qs, ps = w :: qs ∧ IdentParts b ((c :: w) :: qs) := by
  cases h with
  | last hw => exact ⟨_, [], rfl, .last (hw.cons hc hb)⟩
  | broken hw => exact ⟨_, [], rfl, .broken (hw.cons hc hb)⟩
  | brokenStar hw => exact ⟨_, _, rfl, .brokenStar (hw.cons hc hb)⟩
  | cons hw hps => exact ⟨_, _, rfl, .cons (hw.cons hc hb) hps⟩

/-- A character of a name goes to the front of the first part. -/
theorem identParts_nameChar {c : Char} {b : Bool} {cs : List Char}
    (hc : Identifier.isNameChar c = true) (hb : b = true → Identifier.isNameStart c = true)
    (h : IdentParts false (Text.splitAt Render.isPathSeparator cs)) :
    IdentParts b (Text.splitAt Render.isPathSeparator (c :: cs)) := by
  obtain ⟨w, qs, hsplit, hparts⟩ := h.prepend hc hb
  rw [Text.splitAt, (isNameChar_classes hc).2, hsplit]
  exact hparts

theorem identParts_of_isPath {b : Bool} {cs : List Char} (h : Identifier.isPath b cs = true)
    (hstar : ¬ ['.', '*'] <:+ cs) : IdentParts b (Text.splitAt Render.isPathSeparator cs) := by
  induction cs generalizing b with
  | nil =>
    cases b with
    | true => cases h
    | false => exact .last isPart_nil
  | cons c cs ih =>
    have hrest : ¬ ['.', '*'] <:+ cs := fun hs => hstar (hs.trans (List.suffix_cons c cs))
    cases b with
    | true =>
      rw [Identifier.isPath, Bool.and_eq_true] at h
      exact identParts_nameChar (isNameStart_classes h.1).1 (fun _ => h.1) (ih h.2 hrest)
    | false =>
      rw [Identifier.isPath.eq_def] at h
      dsimp only at h
      split at h
      · next hc => exact identParts_nameChar hc (fun hb => by cases hb) (ih h hrest)
      split at h
      · next hslash =>
        subst hslash
        exact .cons isPart_nil (ih h hrest)
      split at h
      · next hdot =>
        subst hdot
        split at h
        · next more =>
          -- a star ends the identifier, behind which only a line break may stand
          rw [Identifier.atEnd, Bool.or_eq_true, List.isEmpty_iff, beq_iff_eq] at h
          rcases h with rfl | rfl
          · exact absurd (List.suffix_refl _) hstar
          · exact .brokenStar isPart_nil
        · exact .cons isPart_nil (ih h hrest)
      · rw [Bool.and_eq_true, decide_eq_true_eq, List.isEmpty_iff] at h
        obtain ⟨rfl, rfl⟩ := h
        exact .broken isPart_nil

/-- Either the last part is a word with a line break behind it, or there is no such part. -/
theorem IdentParts.cases {b : Bool} {ps : List (List Char)} (h : IdentParts b ps) (hb : b = true) :
    (∀ q ∈ ps, IsPart true q ∨ q = ['*', '\n']) ∨
      ∃ ws w, ps = ws ++ [w ++ ['\n']] ∧ (∀ q ∈ ws, IsPart true q) ∧ IsPart true w := by
  induction h with
  | last hw => exact .inl (List.forall_mem_singleton.mpr (.inl (hb ▸ hw)))
  | broken hw => exact .inr ⟨[], _, rfl, List.forall_mem_nil _, hb ▸ hw⟩
  | brokenStar hw =>
    exact .inl (List.forall_mem_cons.mpr ⟨.inl (hb ▸ hw), List.forall_mem_singleton.mpr (.inr rfl)⟩)
  | cons hw _ ih =>
    rcases ih rfl with hall | ⟨ws, w, rfl, hws, hw'⟩
    · exact .inl (List.forall_mem_cons.mpr ⟨.inl (hb ▸ hw), hall⟩)
    · exact .inr ⟨_ :: ws, w, rfl, List.forall_mem_cons.mpr ⟨hb ▸ hw, hws⟩, hw'⟩

end Parts

section Writing

open Render (namePart)

variable {s : Settings} {q w : String}

/-- A text is one token that is a name, and names the part. -/
def PartRead (w q : String) : Prop :=
  ∃ t n, NameSpells w t ∧ Syntax.Parser.nameOf? t = some n ∧ n.content = q

theorem partRead_quoted (h : q ≠ "") : PartRead (quotedText q) q :=
  ⟨_, inQuotes q, nameSpells_quoted h, nameOf?_quotedText q, Text.unquoted_enclosed '"' q⟩

theorem namePart_eq (hs : s.dialect = .postgres) (hstar : q ≠ "*") (h : namePart s q = .ok w) :
    q ≠ "" ∧ w = if s.quoted || Identifier.needsQuoting q then quotedText q else q := by
  rw [namePart, if_neg hstar] at h
  cases hcheck : Identifier.check q s.dialect.maxIdentifierLength with
  | error e =>
    rw [hcheck] at h
    cases h
  | ok u =>
    rw [hcheck, hs] at h
    refine ⟨?_, (Except.ok.inj h).symm⟩
    rintro rfl
    cases hcheck

theorem partRead_of_quoted (hs : s.dialect = .postgres) (hquoted : s.quoted = true)
    (hstar : q ≠ "*") (h : namePart s q = .ok w) : PartRead w q := by
  obtain ⟨hne, rfl⟩ := namePart_eq hs hstar h
  rw [hquoted, Bool.true_or, if_pos rfl]
  exact partRead_quoted hne

theorem partRead_brokenStar (hs : s.dialect = .postgres) (h : namePart s "*\n" = .ok w) :
    PartRead w "*\n" := by
  have hneeds : Identifier.needsQuoting "*\n" = true := by decide
  obtain ⟨hne, rfl⟩ := namePart_eq hs (by decide) h
  rw [hneeds, Bool.or_true, if_pos rfl]
  exact partRead_quoted hne

theorem IsPart.plainWord (h : IsPart true q.toList) : IsPlainWord q := by
  obtain ⟨c, hc, hstart⟩ := h.2 rfl
  obtain ⟨cs, hcs⟩ := List.head?_eq_some_iff.mp hc
  exact ⟨c, cs, hcs, hstart, fun d hd => h.1 d (hcs ▸ List.mem_cons_of_mem _ hd)⟩

/-- A word is written as it is, or in quotes if it is reserved. -/
theorem IsPlainWord.partRead (hq : IsPlainWord q) (hs : s.dialect = .postgres)
    (h : namePart s q = .ok w) : PartRead w q := by
  obtain ⟨hne, rfl⟩ := namePart_eq hs hq.ne_star h
  split
  · exact partRead_quoted hne
  · next hbare =>
    have hreserved : Text.lower q ∉ Identifier.reservedWords := by
      intro hmem
      simp [Identifier.needsQuoting, hq.ne_star, hmem] at hbare
    exact ⟨_, ⟨q, false⟩, hq.nameSpells, hq.nameOf?_nameToken hreserved, rfl⟩

/-- A word with a line break behind it. -/
def brokenPart (w : List Char) : String := String.ofList (w ++ ['\n'])

/-- The break is not a character of the word, but the pattern of plain names lets it pass. -/
theorem namePart_broken {cs : List Char} (hcs : IsPart true cs) (hs : s.dialect = .postgres)
    (hquoted : s.quoted = false) (h : namePart s (brokenPart cs) = .ok w) : w = brokenPart cs := by
  obtain ⟨c, hc, hstart⟩ := hcs.2 rfl
  obtain ⟨ds, rfl⟩ := List.head?_eq_some_iff.mp hc
  have hlist : (brokenPart (c :: ds)).toList = c :: (ds ++ ['\n']) := by simp [brokenPart]
  have hchars : ∀ d ∈ (brokenPart (c :: ds)).toList,
      d ≠ 'Σ' ∧ Text.lowerChar d = [Lexer.foldLetter d] := by
    intro d hd
    rw [hlist, ← List.cons_append, List.mem_append, List.mem_singleton] at hd
    rcases hd with hd | rfl
    · exact (isNameChar_classes (hcs.1 d hd)).1.2
    · decide
  have hrest : (ds ++ ['\n']).dropWhile Identifier.isNameChar = ['\n'] := by
    rw [List.dropWhile_append_of_pos fun d hd => hcs.1 d (List.mem_cons_of_mem _ hd)]
    rfl
  have hplain : Identifier.isPlain (brokenPart (c :: ds)) = true := by
    simp [Identifier.isPlain, Identifier.isWord, hlist, hstart, hrest, Identifier.atEnd]
  have hreserved : Text.lower (brokenPart (c :: ds)) ∉ Identifier.reservedWords := by
    have hbreaks : ∀ r ∈ Identifier.reservedWords, '\n' ∉ r.toList := by decide +kernel
    refine fun hmem => hbreaks _ hmem ?_
    rw [Text.lower_eq_map hchars, String.toList_ofList, hlist]
    exact List.mem_map.mpr ⟨'\n', by simp, by decide⟩
  have hstar : brokenPart (c :: ds) ≠ "*" := by
    intro heq
    rw [heq] at hlist
    have hlen := congrArg List.length hlist
    simp at hlen
  obtain ⟨-, rfl⟩ := namePart_eq hs hstar h
  simp [hquoted, Identifier.needsQuoting, hplain, hreserved]

end Writing

end SqlTree

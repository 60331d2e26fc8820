import SqlTree.Proofs.RoundTrip.Operands
import SqlTree.Proofs.RoundTrip.Operations

/-! Columns in every spelling that the grammar has, and which of them are still the same columns
after they were formatted. -/

namespace SqlTree

open Lexer (Lexed Spells nameToken)
open Syntax (Name Path headed)

section Names

/-- The name that a database sees. The case of letters counts in quotes only. -/
def Syntax.Name.folded (n : Name) : String := if n.quoted then n.content else Text.lower n.content

/-- What a part of a path may be. -/
structure IsPathPart (t : String) : Prop where
  ne_empty : t ≠ ""
  length_le : t.length ≤ 63
  no_dot : '.' ∉ t.toList
  no_semicolon : ';' ∉ t.toList
  no_null : '\x00' ∉ t.toList
  -- a pattern that reaches to the end of a name stops before its last line break
  no_break : t.toList.getLast? ≠ some '\n'

/-- Paths that formatting keeps. It puts reserved words in quotes, and all parts of a path that is
not plain, so that the case of their letters counts from then on. -/
structure Syntax.Path.IsStable (p : Path) : Prop where
  ne_nil : p ≠ []
  parts : ∀ n ∈ p, IsPathPart n.content
  cased : ∀ n ∈ p, n.quoted = false → Text.lower n.content = n.content ∨
    p.all Name.isPlain = true ∧ Text.lower n.content ∉ Identifier.reservedWords

/-- The tokens of a path: names with points between them. -/
inductive PathSpelled : Path → List Token → Prop
  | mk {n : Name} {ns : Path} {t : Token} {us : List Token} : Syntax.Parser.nameOf? t = some n →
      List.Forall₂ (fun n u => Syntax.Parser.nameOf? u = some n) ns us →
      PathSpelled (n :: ns) (t :: (us.map ([·])).flatMap (.symbol "." :: ·))

end Names

section Chars

theorem isNameChar_lt {c : Char} (h : Identifier.isNameChar c = true) : c.toNat < 128 := by
  simp only [Identifier.isNameChar, Text.isAsciiLetter, Text.isAsciiDigit, Bool.or_eq_true,
    Bool.and_eq_true, decide_eq_true_eq, Char.le_def, UInt32.le_iff_toNat_le] at h
  have hz : 'z'.val.toNat < 128 := by decide
  have hZ : 'Z'.val.toNat < 128 := by decide
  have h9 : '9'.val.toNat < 128 := by decide
  simp only [Char.toNat]
  rcases h with ((h | h) | h) | rfl
  · omega
  · omega
  · omega
  · decide

theorem isNameChar_classes {c : Char} (h : Identifier.isNameChar c = true) :
    (Lexer.isNameChar c = true ∧ c ≠ 'Σ' ∧ Text.lowerChar c = [Lexer.foldLetter c]) ∧
      Render.isPathSeparator c = false :=
  Text.of_ascii (P := fun c => Identifier.isNameChar c = true →
    (Lexer.isNameChar c = true ∧ c ≠ 'Σ' ∧ Text.lowerChar c = [Lexer.foldLetter c]) ∧
      Render.isPathSeparator c = false) (by decide) (isNameChar_lt h) h

theorem isNameStart_classes {c : Char} (h : Identifier.isNameStart c = true) :
    Identifier.isNameChar c = true ∧ Lexer.isNameStart c = true ∧ Text.isDigit c = false ∧
      Lexer.isSpace c = false ∧ c ≠ '.' ∧ c ≠ '*' ∧ c ≠ '%' := by
  have hchar : Identifier.isNameChar c = true := by
    simp only [Identifier.isNameStart, Bool.or_eq_true] at h
    simp only [Identifier.isNameChar, Bool.or_eq_true]
    exact h.imp_left .inl
  exact Text.of_ascii (P := fun c => Identifier.isNameStart c = true →
    Identifier.isNameChar c = true ∧ Lexer.isNameStart c = true ∧ Text.isDigit c = false ∧
      Lexer.isSpace c = false ∧ c ≠ '.' ∧ c ≠ '*' ∧ c ≠ '%') (by decide) (isNameChar_lt hchar) h

theorem isNameChar_lower {c : Char} (h : Identifier.isNameChar c = true)
    (hlower : Lexer.foldLetter c = c) :
    (Identifier.isNameStart c = true → Identifier.isLowerStart c = true) ∧
      (Identifier.isLowerStart c || Text.isAsciiDigit c) = true :=
  Text.of_ascii (P := fun c => Identifier.isNameChar c = true → Lexer.foldLetter c = c →
    (Identifier.isNameStart c = true → Identifier.isLowerStart c = true) ∧
      (Identifier.isLowerStart c || Text.isAsciiDigit c) = true)
    (by decide) (isNameChar_lt h) h hlower

end Chars

section Plain

/-- A name of letters, digits and underscores. -/
structure IsPlainWord (t : String) : Prop where
  form : ∃ c cs, t.toList = c :: cs ∧ Identifier.isNameStart c = true ∧
    ∀ d ∈ cs, Identifier.isNameChar d = true

/-- A name has the form of its pattern up to its end. -/
theorem exists_of_isWord {start next : Char → Bool} {t : String} (ht : IsPathPart t)
    (h : Identifier.isWord start next t = true) :
    ∃ c cs, t.toList = c :: cs ∧ start c = true ∧ ∀ d ∈ cs, next d = true := by
  rw [Identifier.isWord] at h
  cases hcs : t.toList with
  | nil => simp [hcs] at h
  | cons c cs =>
    simp only [hcs, Bool.and_eq_true] at h
    obtain ⟨hc, hend⟩ := h
    refine ⟨c, cs, rfl, hc, ?_⟩
    -- a rest behind the name would be one line break, and then the last character
    have hrest : cs.dropWhile next = [] := by
      rw [Identifier.atEnd, Bool.or_eq_true, List.isEmpty_iff, beq_iff_eq] at hend
      rcases hend with hend | hend
      · exact hend
      · refine absurd ?_ ht.no_break
        have hsplit := List.takeWhile_append_dropWhile (p := next) (l := cs)
        rw [hend] at hsplit
        rw [hcs, ← hsplit, ← List.cons_append, List.getLast?_concat]
    exact List.dropWhile_eq_nil_iff.mp hrest

/-- A plain name is a word, and in lower case if it stands in quotes. -/
theorem Syntax.Name.word_of_isPlain {n : Name} (hn : IsPathPart n.content) (h : n.isPlain = true) :
    IsPlainWord n.content ∧ (n.quoted = true → Text.lower n.content = n.content) := by
  rw [Name.isPlain] at h
  split at h
  · next hquoted =>
    obtain ⟨c, cs, hcs, hc, hrest⟩ := exists_of_isWord hn h
    have hall : ∀ d ∈ n.content.toList, isPlainChar d = true := by
      intro d hd
      rw [hcs] at hd
      rcases List.mem_cons.mp hd with rfl | hd
      · exact isPlainChar_of_isLowerStart hc
      · exact hrest d hd
    refine ⟨⟨c, cs, hcs, (isLowerStart_classes hc).2.1, fun d hd => ?_⟩, fun _ => ?_⟩
    · exact (isPlainChar_classes (hrest d hd)).1.2.2
    · exact Text.lower_eq_self fun d hd => (isPlainChar_classes (hall d hd)).2.2.2
  · next hquoted =>
    exact ⟨⟨exists_of_isWord hn h⟩, fun h => absurd h hquoted⟩

namespace IsPlainWord

variable {t : String}

theorem isNameChar_of_mem (h : IsPlainWord t) {c : Char} (hc : c ∈ t.toList) :
    Identifier.isNameChar c = true := by
  obtain ⟨d, ds, ht, hd, hds⟩ := h.form
  rw [ht] at hc
  rcases List.mem_cons.mp hc with rfl | hc
  · exact (isNameStart_classes hd).1
  · exact hds c hc

theorem isWord (h : IsPlainWord t) : Lexer.isWord t = true := by
  obtain ⟨c, cs, ht, hc, hcs⟩ := h.form
  obtain ⟨-, hn, hd, hs, hp, -⟩ := isNameStart_classes hc
  have hall : cs.all Lexer.isNameChar = true :=
    List.all_eq_true.mpr fun d hd => (isNameChar_classes (hcs d hd)).1.1
  simp [Lexer.isWord, ht, hn, hd, hs, hp, hall]

theorem lower_eq (h : IsPlainWord t) :
    Text.lower t = String.ofList (t.toList.map Lexer.foldLetter) :=
  Text.lower_eq_map fun _ hc => (isNameChar_classes (h.isNameChar_of_mem hc)).1.2

theorem not_separator (h : IsPlainWord t) {c : Char} (hc : c ∈ t.toList) :
    Render.isPathSeparator c = false :=
  (isNameChar_classes (h.isNameChar_of_mem hc)).2

/-- A word that is not reserved is read as a name. -/
theorem nameOf?_nameToken (h : IsPlainWord t)
    (hreserved : Text.lower t ∉ Identifier.reservedWords) :
    Syntax.Parser.nameOf? (nameToken t) = some ⟨t, false⟩ := by
  have hwords : ∀ w ∈ Token.keywords, w ∈ Identifier.reservedWords ∨ w ∈ Token.unreserved := by
    decide +kernel
  unfold nameToken
  rw [← h.lower_eq]
  dsimp only
  split
  · next hkey =>
    have hfree := (hwords _ (List.contains_iff_mem.mp hkey)).resolve_left hreserved
    simp [Syntax.Parser.nameOf?, hfree]
  · rfl

theorem ne_star (h : IsPlainWord t) : t ≠ "*" := by
  rintro rfl
  obtain ⟨c, cs, hcs, hc, -⟩ := h.form
  cases hcs
  cases hc

theorem isPlain (h : IsPlainWord t) : Identifier.isPlain t = true := by
  obtain ⟨c, cs, ht, hc, hcs⟩ := h.form
  have hend : cs.dropWhile Identifier.isNameChar = [] := List.dropWhile_eq_nil_iff.mpr hcs
  simp [Identifier.isPlain, Identifier.isWord, ht, hc, hend, Identifier.atEnd]

theorem isLowerPlain (h : IsPlainWord t) (hlower : Text.lower t = t) :
    Identifier.isLowerPlain t = true := by
  have hmap : t.toList.map Lexer.foldLetter = t.toList := by
    have hlist := congrArg String.toList (h.lower_eq.symm.trans hlower)
    rwa [String.toList_ofList] at hlist
  have hlow : ∀ c ∈ t.toList, (Identifier.isNameStart c = true → Identifier.isLowerStart c = true) ∧
      (Identifier.isLowerStart c || Text.isAsciiDigit c) = true := fun c hc =>
    isNameChar_lower (h.isNameChar_of_mem hc) (List.map_inj_left.mp (hmap.trans (List.map_id _).symm) c hc)
  obtain ⟨c, cs, ht, hc, hcs⟩ := h.form
  rw [ht] at hlow
  have hend : cs.dropWhile (fun c => Identifier.isLowerStart c || Text.isAsciiDigit c) = [] :=
    List.dropWhile_eq_nil_iff.mpr fun d hd => (hlow d (by simp [hd])).2
  simp [Identifier.isLowerPlain, Identifier.isWord, ht, (hlow c (by simp)).1 hc, hend,
    Identifier.atEnd]

theorem isPath_append (h : IsPlainWord t) (rest : List Char) :
    Identifier.isPath true (t.toList ++ rest) = Identifier.isPath false rest := by
  obtain ⟨c, cs, ht, hc, hcs⟩ := h.form
  have hgo : ∀ ds : List Char, (∀ d ∈ ds, Identifier.isNameChar d = true) →
      Identifier.isPath false (ds ++ rest) = Identifier.isPath false rest := by
    intro ds hds
    induction ds with
    | nil => rfl
    | cons d ds ih =>
      rw [List.cons_append, Identifier.isPath.eq_def]
      simp [hds d (by simp), ih fun e he => hds e (by simp [he])]
  rw [ht, List.cons_append, Identifier.isPath, hc, Bool.true_and, hgo cs hcs]

end IsPlainWord

theorem exists_toList_words {t : String} (ts : List String) (ht : IsPlainWord t) :
    ∃ c cs, (dotted (t :: ts)).toList = c :: cs ∧ Identifier.isNameStart c = true := by
  obtain ⟨c, cs, hcs, hc, -⟩ := ht.form
  cases ts with
  | nil => exact ⟨c, cs, by simp [dotted, hcs], hc⟩
  | cons u us => exact ⟨c, _, by rw [toList_dotted_cons_cons, hcs, List.cons_append], hc⟩

theorem isPath_words {t : String} {ts : List String} (ht : IsPlainWord t)
    (hts : ∀ u ∈ ts, IsPlainWord u) : Identifier.isPath true (dotted (t :: ts)).toList = true := by
  induction ts generalizing t with
  | nil =>
    have h : Identifier.isPath true t.toList = true := by
      rw [← List.append_nil t.toList, ht.isPath_append]
      rfl
    simpa [dotted] using h
  | cons u us ih =>
    have hu := hts u (by simp)
    obtain ⟨c, cs, hcs, hc⟩ := exists_toList_words us hu
    rw [toList_dotted_cons_cons, ht.isPath_append, hcs,
      isPath_dot (isNameStart_classes hc).2.2.2.2.2.1, ← hcs]
    exact ih hu fun v hv => hts v (by simp [hv])

/-- A path of words is a name, and no call. -/
theorem isIdentText_words {t : String} {ts : List String} (ht : IsPlainWord t)
    (hts : ∀ u ∈ ts, IsPlainWord u) :
    Identifier.isIdentText (dotted (t :: ts)) = true ∧
      ∀ rest, (dotted (t :: ts)).toList ≠ '%' :: rest := by
  obtain ⟨c, cs, hcs, hc⟩ := exists_toList_words ts ht
  obtain ⟨-, -, -, -, -, hstar, hpercent⟩ := isNameStart_classes hc
  have hpath := isPath_words ht hts
  refine ⟨?_, fun rest h => hpercent (List.cons.inj (hcs.symm.trans h)).1⟩
  rw [Identifier.isIdentText]
  split
  · next heq => exact absurd (List.cons.inj (hcs.symm.trans heq)).1 hstar
  · next heq => exact absurd (List.cons.inj (hcs.symm.trans heq)).1 hpercent
  · exact hpath

end Plain

section Spelling

/-- A name as it is written, wherever no name goes on behind it. -/
structure NameSpells (s : String) (t : Token) : Prop where
  starts : ∃ c cs, s.toList = c :: cs ∧ Text.isDigit c = false ∧ Lexer.isSpace c = false
  lexed : ∀ rest us, (∀ c ∈ rest.head?, Lexer.isNameChar c = false ∧ c ≠ '"') → Lexed rest us →
    Lexed (s.toList ++ rest) (t :: us)

theorem IsPlainWord.nameSpells {t : String} (h : IsPlainWord t) : NameSpells t (nameToken t) where
  starts := by
    obtain ⟨c, cs, ht, hc, -⟩ := h.form
    obtain ⟨-, -, hd, hs, -⟩ := isNameStart_classes hc
    exact ⟨c, cs, ht, hd, hs⟩
  lexed _ _ hr hl := hl.word h.isWord fun c hc => (hr c hc).1

/-- A name in double quotes. -/
def quotedText (t : String) : String := Text.enclosed "\"" t "\""

theorem toList_quotedText (t : String) :
    (quotedText t).toList = '"' :: (Text.doubleQuote ['"'] t.toList ++ ['"']) := by
  simp [quotedText, Text.enclosed]

theorem nameSpells_quoted {t : String} (h : t ≠ "") :
    NameSpells (quotedText t) (.quotedName (quotedText t)) where
  starts := ⟨'"', _, toList_quotedText t, rfl, rfl⟩
  lexed rest us hr hl := by
    have hmatch := Lexer.firstMatch_quotedName h fun c hc => (hr c hc).2
    have htoken := hl.token (by simp [Text.enclosed]) hmatch
    rwa [String.ofList_toList] at htoken

/-- A name that is written in double quotes. -/
def inQuotes (t : String) : Name := ⟨quotedText t, true⟩

theorem nameOf?_quotedText (t : String) :
    Syntax.Parser.nameOf? (.quotedName (quotedText t)) = some (inQuotes t) := rfl

theorem folded_inQuotes (t : String) : (inQuotes t).folded = t := by
  rw [Name.folded, inQuotes, if_pos rfl]
  exact Text.unquoted_enclosed '"' t

theorem content_inQuotes (t : String) : (inQuotes t).content = t := Text.unquoted_enclosed '"' t

theorem isPlain_inQuotes (t : String) : (inQuotes t).isPlain = Identifier.isLowerPlain t := by
  rw [Name.isPlain, content_inQuotes]
  rfl

theorem pathSpelled_inQuotes (t : String) (ts : List String) :
    PathSpelled ((t :: ts).map inQuotes) (.quotedName (quotedText t) ::
      ((ts.map fun u => Token.quotedName (quotedText u)).map ([·])).flatMap (.symbol "." :: ·)) := by
  have hts : ∀ us : List String,
      List.Forall₂ (fun n u => Syntax.Parser.nameOf? u = some n) (us.map inQuotes)
        (us.map fun u => Token.quotedName (quotedText u)) := by
    intro us
    induction us with
    | nil => exact .nil
    | cons u us ih => exact .cons (nameOf?_quotedText u) ih
  exact .mk (nameOf?_quotedText t) (hts ts)

/-- Names with points between them, wherever no name goes on behind them. -/
theorem lexed_namePath {s : String} {ss : List String} {t : Token} {us vs : List Token}
    {rest : List Char} (hs : NameSpells s t) (hss : List.Forall₂ NameSpells ss us)
    (hr : ∀ c ∈ rest.head?, Lexer.isNameChar c = false ∧ c ≠ '"') (hl : Lexed rest vs) :
    Lexed ((dotted (s :: ss)).toList ++ rest)
      (t :: (us.map ([·])).flatMap (.symbol "." :: ·) ++ vs) := by
  induction hss generalizing s t with
  | nil =>
    have h := hs.lexed rest vs hr hl
    simpa [dotted] using h
  | @cons r u rs us hu _ ih =>
    have htail := ih hu
    obtain ⟨c, cs, hcs, hdigit⟩ : ∃ c cs, (dotted (r :: rs)).toList = c :: cs ∧
        Text.isDigit c = false := by
      obtain ⟨c, cs, hcs, hdigit, -⟩ := hu.starts
      cases rs with
      | nil => exact ⟨c, cs, by simp [dotted, hcs], hdigit⟩
      | cons => exact ⟨c, _, by rw [toList_dotted_cons_cons, hcs, List.cons_append], hdigit⟩
    have hdot : Lexed (['.'] ++ ((dotted (r :: rs)).toList ++ rest))
        (.symbol "." :: (u :: (us.map ([·])).flatMap (.symbol "." :: ·) ++ vs)) := by
      refine htail.token (by simp) ?_
      rw [hcs]
      exact firstMatch_dot hdigit _
    have h := hs.lexed _ _ (by simp; decide) hdot
    simpa [toList_dotted_cons_cons] using h

theorem spells_namePath {s : String} {ss : List String} {t : Token} {us : List Token}
    (hs : NameSpells s t) (hss : List.Forall₂ NameSpells ss us) :
    Spells (dotted (s :: ss)) (t :: (us.map ([·])).flatMap (.symbol "." :: ·)) where
  starts := by
    obtain ⟨c, cs, hcs, -, hspace⟩ := hs.starts
    refine ⟨c, ?_, hspace⟩
    cases ss with
    | nil => simp [dotted, hcs]
    | cons => simp [toList_dotted_cons_cons, hcs]
  lexed rest vs hb hl := by
    refine lexed_namePath hs hss (fun c hc => ?_) hl
    rcases hb c hc with rfl | rfl | rfl <;> decide

end Spelling

section Writing

open Render (Writes namePart)

theorem IsPathPart.check_ok {t : String} (h : IsPathPart t) : Identifier.check t 63 = .ok () := by
  have hlen : ¬ ((t.length : Int) > 63) := by
    have := h.length_le
    omega
  simp [Identifier.check, Identifier.checkNullBytes, h.ne_empty, h.no_semicolon, h.no_null, hlen,
    bind, Except.bind, pure, Except.pure]

/-- A part of a path among plain names is written, and read again as the name of the column. -/
theorem exists_writtenPart {n : Name} (hpart : IsPathPart n.content) (hplain : n.isPlain = true)
    (hcased : n.quoted = false → Text.lower n.content = n.content ∨
      Text.lower n.content ∉ Identifier.reservedWords) :
    ∃ w t n', (∀ m d st, namePart (.inlining m d st) n.content = .ok w) ∧ NameSpells w t ∧
      Syntax.Parser.nameOf? t = some n' ∧ n'.folded = n.folded ∧ n'.content = n.content ∧
      n'.isPlain = true := by
  obtain ⟨hword, hquoted⟩ := Name.word_of_isPlain hpart hplain
  have hneeds : Identifier.needsQuoting n.content =
      Identifier.reservedWords.contains (Text.lower n.content) := by
    simp [Identifier.needsQuoting, hword.ne_star, hword.isPlain]
  have hname : ∀ m d st, namePart (.inlining m d st) n.content =
      .ok (if Identifier.needsQuoting n.content then quotedText n.content else n.content) := by
    intro m d st
    have hcheck : Identifier.check n.content
      (Settings.inlining m d st).dialect.maxIdentifierLength = .ok () := hpart.check_ok
    rw [namePart, if_neg hword.ne_star, hcheck]
    rfl
  by_cases hreserved : Text.lower n.content ∈ Identifier.reservedWords
  · rw [List.contains_iff_mem.mpr hreserved] at hneeds
    simp only [hneeds, if_true] at hname
    have hlower : n.folded = n.content ∧ Text.lower n.content = n.content := by
      rw [Name.folded]
      split
      · next hq => exact ⟨rfl, hquoted hq⟩
      · next hq =>
        have h := (hcased (by simpa using hq)).resolve_right fun h => h hreserved
        exact ⟨h, h⟩
    refine ⟨_, _, _, hname, nameSpells_quoted hpart.ne_empty, nameOf?_quotedText _, ?_,
      content_inQuotes _, ?_⟩
    · rw [folded_inQuotes, hlower.1]
    · rw [isPlain_inQuotes]
      exact hword.isLowerPlain hlower.2
  · have hcontains : Identifier.reservedWords.contains (Text.lower n.content) = false := by
      simpa using hreserved
    rw [hcontains] at hneeds
    simp only [hneeds, Bool.false_eq_true, if_false] at hname
    refine ⟨_, _, _, hname, hword.nameSpells, hword.nameOf?_nameToken hreserved, ?_, rfl,
      hword.isPlain⟩
    have hfolded : Name.folded ⟨n.content, false⟩ = Text.lower n.content := rfl
    rw [hfolded, Name.folded]
    split
    · next hq => exact hquoted hq
    · rfl

/-- A path of plain names is written part by part. -/
theorem exists_writtenParts {ns : Path} (hparts : ∀ n ∈ ns, IsPathPart n.content)
    (hplain : ∀ n ∈ ns, n.isPlain = true)
    (hcased : ∀ n ∈ ns, n.quoted = false → Text.lower n.content = n.content ∨
      Text.lower n.content ∉ Identifier.reservedWords) :
    ∃ ws ts ns', (∀ m d st, List.Forall₂ (fun q w => namePart (.inlining m d st) q = .ok w)
        (ns.map Name.content) ws) ∧ List.Forall₂ NameSpells ws ts ∧
      List.Forall₂ (fun n t => Syntax.Parser.nameOf? t = some n) ns' ts ∧
      ns'.map Name.folded = ns.map Name.folded ∧ ns'.map Name.content = ns.map Name.content ∧
      ns'.all Name.isPlain = true := by
  induction ns with
  | nil => exact ⟨[], [], [], fun _ _ _ => .nil, .nil, .nil, rfl, rfl, rfl⟩
  | cons n ns ih =>
    obtain ⟨w, t, n', hw, hs, ht, hfolded, hcontent, hn⟩ :=
      exists_writtenPart (hparts n (by simp)) (hplain n (by simp)) (hcased n (by simp))
    obtain ⟨ws, ts, ns', hws, hss, hts, hfoldeds, hcontents, hns⟩ :=
      ih (fun k hk => hparts k (by simp [hk])) (fun k hk => hplain k (by simp [hk]))
        fun k hk => hcased k (by simp [hk])
    refine ⟨w :: ws, t :: ts, n' :: ns', fun m d st => .cons (hw m d st) (hws m d st),
      .cons hs hss, .cons ht hts, ?_, ?_, ?_⟩
    · rw [List.map_cons, List.map_cons, hfolded, hfoldeds]
    · rw [List.map_cons, List.map_cons, hcontent, hcontents]
    · rw [List.all_cons, hn, hns, Bool.and_self]

theorem writes_entity {t : String} {ts : List String} (ht : IsPathPart t)
    (hts : ∀ u ∈ ts, IsPathPart u) (nested : Bool) :
    Writes nested (headed "entity" [.text (dotted (t :: ts))])
      (.quotedName (quotedText t) ::
        ((ts.map fun u => .quotedName (quotedText u)).map ([·])).flatMap (.symbol "." :: ·)) := by
  have hquoted : List.Forall₂ NameSpells (ts.map quotedText)
      (ts.map fun u => .quotedName (quotedText u)) := by
    rw [List.forall₂_map_left_iff, List.forall₂_map_right_iff, List.forall₂_same]
    exact fun u hu => nameSpells_quoted (hts u hu).ne_empty
  have hspells : Spells (dotted (quotedText t :: ts.map quotedText)) _ :=
    spells_namePath (nameSpells_quoted ht.ne_empty) hquoted
  have hall : ∀ u ∈ t :: ts, IsPathPart u := List.forall_mem_cons.mpr ⟨ht, hts⟩
  have hentity : ∀ m d st, Render.quotedEntity (.inlining m d st) (.text (dotted (t :: ts))) =
      .ok (dotted ((t :: ts).map quotedText)) := by
    intro m d st
    have hsplit : Text.parts (· = '.') (dotted (t :: ts)) = t :: ts := by
      refine parts_intercalate rfl fun u hu c hc => ?_
      rw [decide_eq_false_iff_not]
      rintro rfl
      exact (hall u hu).no_dot hc
    have hquoted : ∀ us : List String, (∀ u ∈ us, IsPathPart u) → (us.mapM fun part => do
        Identifier.check part (Settings.inlining m d st).dialect.maxIdentifierLength
        return (Settings.inlining m d st).dialect.quoteIdentifier part : Except Fault (List String)) =
        .ok (us.map quotedText) := by
      intro us hus
      induction us with
      | nil => rfl
      | cons u us ih =>
        have hcheck : Identifier.check u
          (Settings.inlining m d st).dialect.maxIdentifierLength = .ok () :=
          (hus u (by simp)).check_ok
        rw [List.mapM_cons, ih fun v hv => hus v (by simp [hv]), hcheck]
        rfl
    simp only [Render.quotedEntity]
    rw [hsplit, hquoted _ hall]
    rfl
  refine ⟨.ofText (dotted ((t :: ts).map quotedText)), .deeper ?_, ?_⟩
  · refine (Render.Gives.words
      (t := fun s => Render.quotedEntity s (.text (dotted (t :: ts)))) hentity).congr
        fun r m d st => ?_
    change Render.operation r (.inlining m d st) nested "entity" [.text (dotted (t :: ts))] = _
    rfl
  · rw [Fragment.inlineSql_ofText]
    exact hspells

/-- A path that is not plain stays so with all its parts in quotes. -/
theorem value_inQuotes {p : Path} (hparts : ∀ n ∈ p, IsPathPart n.content)
    (h : ¬ p.all Name.isPlain = true) :
    Path.value ((p.map Name.content).map inQuotes) = p.value := by
  have hplain : ¬ ((p.map Name.content).map inQuotes).all Name.isPlain = true := by
    simp only [List.all_eq_true, List.mem_map, not_forall] at h ⊢
    obtain ⟨n, hn, hnot⟩ := h
    refine ⟨inQuotes n.content, ⟨n.content, ⟨n, hn, rfl⟩, rfl⟩, fun hlow => hnot ?_⟩
    have hpart : IsPathPart (inQuotes n.content).content := by
      rw [content_inQuotes]
      exact hparts n hn
    have hword := (Name.word_of_isPlain hpart hlow).1
    rw [content_inQuotes] at hword
    rw [isPlain_inQuotes] at hlow
    rw [Name.isPlain]
    split
    · exact hlow
    · exact hword.isPlain
  have hcontents : ((p.map Name.content).map inQuotes).map Name.content = p.map Name.content := by
    rw [List.map_map]
    exact (List.map_congr_left fun t _ => content_inQuotes t).trans (List.map_id _)
  rw [Path.value, Path.value, if_neg hplain, if_neg h, Path.text, Path.text, hcontents]

/-- A path that is kept is written as the same column. -/
theorem Syntax.Path.IsStable.exists_written {p : Path} (h : p.IsStable) :
    ∃ p' ts, (∀ nested, Writes nested p.value ts) ∧ PathSpelled p' ts ∧
      p'.map Name.folded = p.map Name.folded ∧ p'.value = p.value := by
  obtain ⟨n, ns, rfl⟩ := List.exists_cons_of_ne_nil h.ne_nil
  by_cases hplain : (n :: ns).all Name.isPlain = true
  · have hall := List.all_eq_true.mp hplain
    obtain ⟨ws, ts, ns', hws, hss, hts, hns, hcontents, hplains⟩ :=
      exists_writtenParts h.parts hall fun k hk hq => (h.cased k hk hq).imp_right And.right
    obtain ⟨w, ws, rfl⟩ : ∃ w us, ws = w :: us := by
      have hfirst := hws 0 0 []
      cases hfirst with
      | cons => exact ⟨_, _, rfl⟩
    cases hss with
    | @cons _ t _ ts hs hss =>
    cases hts with
    | @cons n' _ ns' _ ht hts =>
    have hword : ∀ k ∈ n :: ns, IsPlainWord k.content := fun k hk =>
      (Name.word_of_isPlain (h.parts k hk) (hall k hk)).1
    have hwords : ∀ u ∈ ns.map Name.content, IsPlainWord u := by
      intro u hu
      obtain ⟨k, hk, rfl⟩ := List.mem_map.mp hu
      exact hword k (List.mem_cons_of_mem _ hk)
    obtain ⟨hident, hpercent⟩ := isIdentText_words (hword n (by simp)) hwords
    have hvalue : Path.value (n :: ns) = .text (dotted (n.content :: ns.map Name.content)) := by
      rw [Path.value, if_pos hplain]
      rfl
    have hsame : Path.value (n' :: ns') = Path.value (n :: ns) := by
      rw [Path.value, Path.value, if_pos hplains, if_pos hplain, Path.text, Path.text, hcontents]
    refine ⟨n' :: ns', _, fun nested => ?_, .mk ht hts, hns, hsame⟩
    rw [hvalue]
    refine Render.writes_ident hident (fun m d st => ?_) (spells_namePath hs hss) nested
    rw [Render.ident_of_not_percent hpercent]
    refine Render.nameText_parts (fun q hq c hc => ?_) (hws m d st)
    rw [← List.map_cons] at hq
    obtain ⟨k, hk, rfl⟩ := List.mem_map.mp hq
    exact (hword k hk).not_separator hc
  · have hvalue : Path.value (n :: ns) =
        headed "entity" [.text (dotted (n.content :: ns.map Name.content))] := by
      rw [Path.value, if_neg hplain]
      rfl
    have hparts : ∀ u ∈ ns.map Name.content, IsPathPart u := by
      intro u hu
      obtain ⟨k, hk, rfl⟩ := List.mem_map.mp hu
      exact h.parts k (List.mem_cons_of_mem _ hk)
    have hsame : Path.value ((n.content :: ns.map Name.content).map inQuotes) =
        Path.value (n :: ns) := by
      rw [← List.map_cons (f := Name.content)]
      exact value_inQuotes h.parts hplain
    refine ⟨_, _, fun nested => ?_, pathSpelled_inQuotes n.content (ns.map Name.content), ?_, hsame⟩
    · rw [hvalue]
      exact writes_entity (h.parts n (by simp)) hparts nested
    · rw [← List.map_cons (f := Name.content), List.map_map, List.map_map]
      refine List.map_congr_left fun k hk => ?_
      change Name.folded (inQuotes k.content) = _
      rw [folded_inQuotes, Name.folded]
      split
      · rfl
      · next hq =>
        exact ((h.cased k hk (by simpa using hq)).resolve_right fun h => hplain h.1).symm

end Writing

namespace Syntax.Parser

variable {t : Token} {p : Nested} {follow : Option Token → Prop}

theorem name_takes_token {n : Name} (h : nameOf? t = some n) : Takes name [t] follow (· = n) := by
  refine .peek_cons ?_
  rw [Option.bind_some, h]
  exact .skip (.pure rfl)

theorem path_takes_spelled {path : Path} {ts : List Token} (h : PathSpelled path ts)
    (hdot : ∀ o, follow o → isSymbol "." o = false) : Takes Parser.path ts follow (· = path) := by
  cases h with
  | @mk n ns t us ht hus =>
  have hnames : List.Forall₂ (fun n ts => Takes name ts (OrSign "." follow) (· = n)) ns
      (us.map ([·])) :=
    List.forall₂_map_right_iff.mpr (hus.imp fun _ _ h => name_takes_token h)
  refine (name_takes_token ht).bind (fun m hm => ?_) fun _ ho => OrSign.ahead ho _
  have hone : List.Forall₂ (fun n m : Name => m = n) [n] [m] := .cons hm .nil
  refine (more_takes hdot hnames hone).mono (fun _ ho => ho) fun ms hms => ?_
  rw [← List.forall₂_eq_eq_eq]
  exact hms.flip

/-- A token that is a name starts an operand. -/
theorem primary_takes_name {n : Name} {ts : List Token} {post : Expr → Prop}
    (h : nameOf? t = some n) (hn : Takes (named p) (t :: ts) follow post) :
    Takes (primary p) (t :: ts) follow post := by
  refine .peek_cons ?_
  cases t with
  | name _ => exact hn
  | quotedName _ => exact hn
  | keyword w text =>
    have hfree : w ∈ Token.unreserved := by
      by_contra hw
      simp [nameOf?, hw] at h
    have hword : exprWords.contains w = false := by
      have hall : ∀ w ∈ Token.unreserved, exprWords.contains w = false := by decide
      exact hall w hfree
    have hstart : isCallStart (some (.keyword w text)) = true := by
      simp [isCallStart, isName, h]
    simp only [hword, hstart, if_true, Bool.false_eq_true, if_false]
    exact hn
  | _ => cases h

theorem sign?_of_name {n : Name} (h : nameOf? t = some n) :
    sign? (some t) = none ∧ isCallWord (some t) = false := by
  cases t with
  | name _ => exact ⟨rfl, rfl⟩
  | quotedName _ => exact ⟨rfl, rfl⟩
  | keyword w text =>
    have hfree : w ∈ Token.unreserved := by
      by_contra hw
      simp [nameOf?, hw] at h
    have hall : ∀ w ∈ Token.unreserved, ¬ (w = "left" ∨ w = "right") := by decide
    have hne := hall w hfree
    refine ⟨rfl, ?_⟩
    simpa [isCallWord, isKeyword] using hne
  | _ => cases h

/-- A path that neither a string nor a parenthesis follows is a column. -/
theorem column_takes_spelled {path : Path} {ts : List Token} (h : PathSpelled path ts) :
    Takes (unary p) ts (Ends 0) (· = .column path) := by
  have hpath := path_takes_spelled h fun _ (ho : Ends 0 _) => ho.isSymbol (by decide)
  cases h with
  | @mk n ns t us ht hus =>
  obtain ⟨hsign, hcall⟩ := sign?_of_name ht
  refine unary_takes p hsign (primary_takes_name ht ?_)
  refine typedLiteral?_bind (fun o ho quoted => ?_) ?_
  · cases us with
    | nil => rintro rfl; exact absurd (ho _ rfl) (Nat.lt_irrefl 0)
    | cons => rintro ⟨⟩
  · refine .peek_cons ?_
    rw [hcall]
    refine .get fun ls => hpath.andThen (fun m hm => ?_) fun _ ho => ho
    subst hm
    refine .notAtSymbol (fun o ho => ho.isSymbol (by decide)) ?_
    rw [Bool.and_false]
    exact .pure rfl

end Syntax.Parser

end SqlTree

import SqlTree.Proofs.RoundTrip.Spelling
import SqlTree.Render.Name
import SqlTree.Syntax.Reading.Name
import Mathlib.Data.List.TakeWhile

/-!
Plain names: those that are written without quotes, are one token, and are read as they were.
-/

namespace SqlTree

/-- What a plain name may hold behind its first character. -/
def isPlainChar (c : Char) : Bool := Identifier.isLowerStart c || Text.isAsciiDigit c

/-- A part of a plain name. -/
structure PlainPart (t : String) : Prop where
  form : ∃ c cs, t.toList = c :: cs ∧ Identifier.isLowerStart c = true ∧ cs.all isPlainChar = true
  length_le : t.length ≤ 63
  not_keyword : t ∉ Token.keywords
  not_reserved : t ∉ Identifier.reservedWords

/-- A plain name that is no operator either, so that it may head an array. -/
structure PlainName (t : String) : Prop extends PlainPart t where
  not_operator : Registry.standard.isOperator t = false

def isPlainPart (t : String) : Bool :=
  match t.toList with
  | [] => false
  | c :: cs => Identifier.isLowerStart c && cs.all isPlainChar

theorem plainPart_iff {t : String} : PlainPart t ↔
    isPlainPart t = true ∧ t.length ≤ 63 ∧ t ∉ Token.keywords ∧ t ∉ Identifier.reservedWords := by
  have hform : isPlainPart t = true ↔ ∃ c cs, t.toList = c :: cs ∧
      Identifier.isLowerStart c = true ∧ cs.all isPlainChar = true := by
    unfold isPlainPart
    cases t.toList with
    | nil => simp
    | cons c cs =>
      rw [Bool.and_eq_true]
      exact ⟨fun h => ⟨c, cs, rfl, h⟩, by rintro ⟨_, _, ⟨⟩, h⟩; exact h⟩
  exact ⟨fun h => ⟨hform.mpr h.form, h.length_le, h.not_keyword, h.not_reserved⟩,
    fun ⟨h, hlen, hkey, hres⟩ => ⟨hform.mp h, hlen, hkey, hres⟩⟩

instance (t : String) : Decidable (PlainPart t) := decidable_of_iff _ plainPart_iff.symm

instance (t : String) : Decidable (PlainName t) :=
  decidable_of_iff (PlainPart t ∧ Registry.standard.isOperator t = false)
    ⟨fun h => ⟨h.1, h.2⟩, fun h => ⟨h.toPlainPart, h.not_operator⟩⟩

/-- Parts with points between them. -/
def dotted (parts : List String) : String := ".".intercalate parts

/-- Plain names with points between them. -/
def DottedName (t : String) : Prop := ∃ p ps, (∀ q ∈ p :: ps, PlainName q) ∧ t = dotted (p :: ps)

/-- A name without quotes. -/
def bare (t : String) : Syntax.Name := ⟨t, false⟩

section Chars

theorem isPlainChar_of_isLowerStart {c : Char} (h : Identifier.isLowerStart c = true) :
    isPlainChar c = true := by
  simp [isPlainChar, h]

theorem toNat_lt_of_isPlainChar {c : Char} (h : isPlainChar c = true) : c.toNat < 128 := by
  simp only [isPlainChar, Identifier.isLowerStart, Text.isAsciiDigit, Bool.or_eq_true,
    Bool.and_eq_true, decide_eq_true_eq, Char.le_def, UInt32.le_iff_toNat_le] at h
  simp only [Char.toNat]
  rcases h with (h | rfl) | h
  · have := h.2
    exact Nat.lt_of_le_of_lt this (by decide)
  · decide
  · have := h.2
    exact Nat.lt_of_le_of_lt this (by decide)

/-- A plain character is in every class of name characters and is no separator. -/
theorem isPlainChar_classes {c : Char} (h : isPlainChar c = true) :
    (Lexer.isNameChar c = true ∧ Lexer.foldLetter c = c ∧ Identifier.isNameChar c = true) ∧
      Render.isPathSeparator c = false ∧ (c ≠ ';' ∧ c ≠ '\x00') ∧
      c ≠ 'Σ' ∧ Text.lowerChar c = [c] :=
  Text.of_ascii (P := fun c => isPlainChar c = true →
    (Lexer.isNameChar c = true ∧ Lexer.foldLetter c = c ∧ Identifier.isNameChar c = true) ∧
      Render.isPathSeparator c = false ∧ (c ≠ ';' ∧ c ≠ '\x00') ∧
      c ≠ 'Σ' ∧ Text.lowerChar c = [c]) (by decide) (toNat_lt_of_isPlainChar h) h

theorem isLowerStart_classes {c : Char} (h : Identifier.isLowerStart c = true) :
    (Lexer.isNameStart c = true ∧ Text.isDigit c = false ∧ Lexer.isSpace c = false) ∧
      Identifier.isNameStart c = true ∧ c ≠ '*' ∧ c ≠ '%' ∧ c ≠ '\'' ∧ c ≠ '.' :=
  Text.of_ascii (P := fun c => Identifier.isLowerStart c = true →
    (Lexer.isNameStart c = true ∧ Text.isDigit c = false ∧ Lexer.isSpace c = false) ∧
      Identifier.isNameStart c = true ∧ c ≠ '*' ∧ c ≠ '%' ∧ c ≠ '\'' ∧ c ≠ '.')
    (by decide) (toNat_lt_of_isPlainChar (isPlainChar_of_isLowerStart h)) h

end Chars

namespace PlainPart

variable {t : String}

theorem isPlainChar_of_mem (h : PlainPart t) {c : Char} (hc : c ∈ t.toList) :
    isPlainChar c = true := by
  obtain ⟨d, ds, ht, hd, hds⟩ := h.form
  rw [ht] at hc
  rcases List.mem_cons.mp hc with rfl | hc
  · exact isPlainChar_of_isLowerStart hd
  · exact List.all_eq_true.mp hds c hc

theorem ne_star (h : PlainPart t) : t ≠ "*" := by
  rintro rfl
  obtain ⟨c, cs, ht, hc, -⟩ := h.form
  cases ht
  cases hc

theorem lower_eq (h : PlainPart t) : Text.lower t = t :=
  Text.lower_eq_self fun _ hc => (isPlainChar_classes (h.isPlainChar_of_mem hc)).2.2.2

theorem isPlain (h : PlainPart t) : Identifier.isPlain t = true := by
  obtain ⟨c, cs, ht, hc, hcs⟩ := h.form
  have hrun : cs.dropWhile Identifier.isNameChar = [] :=
    List.dropWhile_eq_nil_iff.mpr fun d hd =>
      (isPlainChar_classes (List.all_eq_true.mp hcs d hd)).1.2.2
  simp [Identifier.isPlain, Identifier.isWord, ht, (isLowerStart_classes hc).2.1, hrun,
    Identifier.atEnd]

theorem needsQuoting_eq_false (h : PlainPart t) : Identifier.needsQuoting t = false := by
  simp [Identifier.needsQuoting, h.isPlain, h.lower_eq, h.not_reserved]

theorem check_ok (h : PlainPart t) : Identifier.check t 63 = .ok () := by
  have hne : t ≠ "" := by
    rintro rfl
    obtain ⟨c, cs, ht, -⟩ := h.form
    cases ht
  have hsemi : ';' ∉ t.toList := fun hc =>
    (isPlainChar_classes (h.isPlainChar_of_mem hc)).2.2.1.1 rfl
  have hnull : '\x00' ∉ t.toList := fun hc =>
    (isPlainChar_classes (h.isPlainChar_of_mem hc)).2.2.1.2 rfl
  have hlen : ¬ ((t.length : Int) > 63) := by
    have := h.length_le
    omega
  simp [Identifier.check, Identifier.checkNullBytes, hne, hsemi, hnull, hlen, bind, Except.bind,
    pure, Except.pure]

theorem isWord (h : PlainPart t) : Lexer.isWord t = true := by
  obtain ⟨c, cs, ht, hc, hcs⟩ := h.form
  obtain ⟨⟨hn, hd, hs⟩, -, -, -, -, hp⟩ := isLowerStart_classes hc
  have hall : cs.all Lexer.isNameChar = true :=
    List.all_eq_true.mpr fun d hd => (isPlainChar_classes (List.all_eq_true.mp hcs d hd)).1.1
  simp [Lexer.isWord, ht, hn, hd, hs, hp, hall]

theorem nameToken_eq (h : PlainPart t) : Lexer.nameToken t = .name t := by
  have hmap : t.toList.map Lexer.foldLetter = t.toList :=
    (List.map_congr_left fun c hc =>
      (isPlainChar_classes (h.isPlainChar_of_mem hc)).1.2.1).trans (List.map_id' _)
  simp [Lexer.nameToken, hmap, h.not_keyword]

theorem spells (h : PlainPart t) : Lexer.Spells t [.name t] :=
  h.nameToken_eq ▸ Lexer.spells_word h.isWord

theorem isPath_append (h : PlainPart t) (rest : List Char) :
    Identifier.isPath true (t.toList ++ rest) = Identifier.isPath false rest := by
  obtain ⟨c, cs, ht, hc, hcs⟩ := h.form
  have hgo : ∀ ds : List Char, ds.all isPlainChar = true →
      Identifier.isPath false (ds ++ rest) = Identifier.isPath false rest := by
    intro ds hds
    induction ds with
    | nil => rfl
    | cons d ds ih =>
      rw [List.all_cons, Bool.and_eq_true] at hds
      rw [List.cons_append, Identifier.isPath.eq_def]
      simp [(isPlainChar_classes hds.1).1.2.2, ih hds.2]
  rw [ht, List.cons_append, Identifier.isPath, (isLowerStart_classes hc).2.1, Bool.true_and,
    hgo cs hcs]

end PlainPart

section Dotted

variable {p : String} {ps : List String}

theorem dotted_cons_cons (p q : String) (ps : List String) :
    dotted (p :: q :: ps) = p ++ "." ++ dotted (q :: ps) :=
  String.intercalate_cons_cons

theorem toList_dotted_cons_cons (p q : String) (ps : List String) :
    (dotted (p :: q :: ps)).toList = p.toList ++ '.' :: (dotted (q :: ps)).toList := by
  simp [dotted_cons_cons]

/-- The tokens of a path. -/
def pathTokens : List String → List Token
  | [] => []
  | p :: ps => .name p :: (ps.map fun q => [.name q]).flatMap (.symbol "." :: ·)

theorem pathTokens_cons_cons (p q : String) (ps : List String) :
    pathTokens (p :: q :: ps) = .name p :: .symbol "." :: pathTokens (q :: ps) := rfl

theorem exists_toList_dotted (ps : List String) (hp : PlainPart p) :
    ∃ c cs, (dotted (p :: ps)).toList = c :: cs ∧ Identifier.isLowerStart c = true := by
  obtain ⟨c, cs, ht, hc, -⟩ := hp.form
  cases ps with
  | nil => exact ⟨c, cs, by simp [dotted, ht], hc⟩
  | cons q ps => exact ⟨c, _, by rw [toList_dotted_cons_cons, ht, List.cons_append], hc⟩

theorem firstMatch_dot {c : Char} (h : Text.isDigit c = false) (cs : List Char) :
    Lexer.firstMatch ('.' :: c :: cs) = some (1, some .symbol) := by
  have hrun : Lexer.digitRun (c :: cs) = 0 := by
    rw [Lexer.digitRun, List.takeWhile_cons_of_neg (by simp [h])]
    rfl
  have hnone : Lexer.number ('.' :: c :: cs) = none := by
    have hm : Lexer.mantissaRun ('.' :: c :: cs) = 0 := by
      change (if (0 : Nat) = 0 ∧ Lexer.digitRun (c :: cs) = 0 then 0
        else 0 + 1 + Lexer.digitRun (c :: cs)) = 0
      rw [hrun]
      rfl
    rw [Lexer.number, hm]
    rfl
  have hclass : ((Lexer.classes.drop 1).findSome? fun k =>
      (k.1 ('.' :: c :: cs)).map fun n => (n, k.2)) = some (1, some .symbol) := rfl
  simp only [Lexer.firstMatch, Lexer.classes, List.findSome?_cons, hnone, Option.map_none]
  exact hclass

theorem lexed_dotted {rest : List Char} {us : List Token} (hp : PlainPart p)
    (hps : ∀ q ∈ ps, PlainPart q) (hr : ∀ c ∈ rest.head?, Lexer.isNameChar c = false)
    (h : Lexer.Lexed rest us) :
    Lexer.Lexed ((dotted (p :: ps)).toList ++ rest) (pathTokens (p :: ps) ++ us) := by
  induction ps generalizing p with
  | nil =>
    have hw := h.word hp.isWord hr
    rw [hp.nameToken_eq] at hw
    simpa [dotted, pathTokens] using hw
  | cons q ps ih =>
    have hq := hps q (by simp)
    obtain ⟨c, cs, hc, hlow⟩ := exists_toList_dotted ps hq
    have hdot : Lexer.Lexed (['.'] ++ ((dotted (q :: ps)).toList ++ rest))
        (.symbol "." :: (pathTokens (q :: ps) ++ us)) := by
      refine (ih hq fun x hx => hps x (by simp [hx])).token (by simp) ?_
      rw [hc]
      exact firstMatch_dot (isLowerStart_classes hlow).1.2.1 _
    have hw := hdot.word hp.isWord (by simp; rfl)
    rw [hp.nameToken_eq] at hw
    simpa [toList_dotted_cons_cons, pathTokens] using hw

theorem spells_dotted (hp : PlainPart p) (hps : ∀ q ∈ ps, PlainPart q) :
    Lexer.Spells (dotted (p :: ps)) (pathTokens (p :: ps)) where
  starts := by
    obtain ⟨c, cs, hc, hlow⟩ := exists_toList_dotted ps hp
    exact ⟨c, by simp [hc], (isLowerStart_classes hlow).1.2.2⟩
  lexed _ _ hb hl := lexed_dotted hp hps (Lexer.isNameChar_of_bounded hb) hl

/-- The star of a table. -/
theorem spells_dotted_star (hp : PlainPart p) (hps : ∀ q ∈ ps, PlainPart q) :
    Lexer.Spells (dotted (p :: ps) ++ ".*") (pathTokens (p :: ps) ++ [.symbol ".", .symbol "*"]) where
  starts := (spells_dotted hp hps).starts_append _
  lexed rest us hb hl := by
    have hstar : Lexer.Lexed (['.'] ++ (['*'] ++ rest)) (.symbol "." :: .symbol "*" :: us) := by
      refine Lexer.Lexed.token (by simp) (firstMatch_dot rfl _) (hl.token (by simp) ?_)
      obtain rfl | ⟨c, more, rfl, rfl | rfl | rfl⟩ := hb.cases <;> rfl
    have h := lexed_dotted hp hps (by simp; rfl) hstar
    simpa using h

theorem isPath_dot {c : Char} (h : c ≠ '*') (cs : List Char) :
    Identifier.isPath false ('.' :: c :: cs) = Identifier.isPath true (c :: cs) := by
  have hdot : Identifier.isNameChar '.' = false := rfl
  rw [Identifier.isPath.eq_def false]
  simp [hdot]
  split
  · next heq => exact absurd (List.cons.inj heq).1 h
  · rfl

theorem isPath_dotted (hp : PlainPart p) (hps : ∀ q ∈ ps, PlainPart q) (rest : List Char) :
    Identifier.isPath true ((dotted (p :: ps)).toList ++ rest) = Identifier.isPath false rest := by
  induction ps generalizing p with
  | nil => simpa [dotted] using hp.isPath_append rest
  | cons q ps ih =>
    have hq := hps q (by simp)
    obtain ⟨c, cs, hc, hlow⟩ := exists_toList_dotted ps hq
    have hq' := ih hq fun x hx => hps x (by simp [hx])
    rw [toList_dotted_cons_cons, List.append_assoc, hp.isPath_append, List.cons_append, ← hq', hc]
    have hne := (isLowerStart_classes hlow).2.2.1
    exact isPath_dot hne _

theorem isIdentText_of_isPath {s : String} {c : Char} {cs : List Char} (hs : s.toList = c :: cs)
    (hc : Identifier.isLowerStart c = true) (h : Identifier.isPath true s.toList = true) :
    Identifier.isIdentText s = true := by
  obtain ⟨-, -, hstar, hpercent, -⟩ := isLowerStart_classes hc
  rw [Identifier.isIdentText]
  split
  · next heq => exact absurd (List.cons.inj (hs.symm.trans heq)).1 hstar
  · next heq => exact absurd (List.cons.inj (hs.symm.trans heq)).1 hpercent
  · exact h

theorem isIdentText_dotted (hp : PlainPart p) (hps : ∀ q ∈ ps, PlainPart q) :
    Identifier.isIdentText (dotted (p :: ps)) = true := by
  obtain ⟨c, cs, hc, hlow⟩ := exists_toList_dotted ps hp
  have hpath := isPath_dotted hp hps []
  rw [List.append_nil] at hpath
  exact isIdentText_of_isPath hc hlow hpath

theorem isIdentText_dotted_star (hp : PlainPart p) (hps : ∀ q ∈ ps, PlainPart q) :
    Identifier.isIdentText (dotted (p :: ps) ++ ".*") = true := by
  obtain ⟨c, cs, hc, hlow⟩ := exists_toList_dotted ps hp
  have hpath := isPath_dotted hp hps ['.', '*']
  have hstar : (dotted (p :: ps) ++ ".*").toList = c :: (cs ++ ['.', '*']) := by simp [hc]
  exact isIdentText_of_isPath hstar hlow
    (by rw [String.toList_append]; exact hpath)

theorem parts_intercalate {isSeparator : Char → Bool} (hdot : isSeparator '.' = true)
    (h : ∀ q ∈ p :: ps, ∀ c ∈ q.toList, isSeparator c = false) :
    Text.parts isSeparator (dotted (p :: ps)) = p :: ps := by
  suffices hs : Text.splitAt isSeparator (dotted (p :: ps)).toList =
      (p :: ps).map String.toList by
    simp [Text.parts, hs, Function.comp_def]
  induction ps generalizing p with
  | nil => simpa [dotted] using Text.splitAt_of_none (h p (by simp))
  | cons q ps ih =>
    rw [toList_dotted_cons_cons, Text.splitAt_append_cons (h p (by simp)) hdot,
      ih fun x hx => h x (List.mem_cons_of_mem p hx)]
    rfl

theorem PlainPart.not_separator (hp : PlainPart p) {c : Char} (hc : c ∈ p.toList) :
    Render.isPathSeparator c = false :=
  (isPlainChar_classes (hp.isPlainChar_of_mem hc)).2.1

theorem dotted_star (p : String) (ps : List String) :
    dotted (p :: (ps ++ ["*"])) = dotted (p :: ps) ++ ".*" := by
  induction ps generalizing p with
  | nil =>
    rw [List.nil_append, dotted_cons_cons, dotted, String.intercalate_singleton, dotted,
      String.intercalate_singleton, String.append_assoc]
    rfl
  | cons q ps ih =>
    rw [List.cons_append, dotted_cons_cons, ih, dotted_cons_cons]
    simp only [String.append_assoc]

end Dotted

end SqlTree

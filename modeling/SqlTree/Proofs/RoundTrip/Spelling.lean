import SqlTree.Proofs.RoundTrip.Lexing
import SqlTree.Text.Doubled

/-!
How the tokens of rendered SQL are spelled: words, signs, operators, numbers and strings.
-/

namespace SqlTree

theorem Text.of_ascii {P : Char → Prop} (h : ∀ n < 128, P (Char.ofNat n)) {c : Char}
    (hc : c.toNat < 128) : P c := by
  simpa only [Char.ofNat_toNat] using h c.toNat hc

/-- What can be evaluated for the characters of a text, one by one. -/
theorem Text.forall_mem_of_all {P : Char → Prop} [DecidablePred P] {cs : List Char}
    (h : (cs.all fun c => decide (P c)) = true) : ∀ c ∈ cs, P c :=
  fun c hc => of_decide_eq_true (List.all_eq_true.mp h c hc)

namespace Lexer

section Words

/-- Text that is one keyword or one name without quotes. -/
def isWord (t : String) : Bool :=
  match t.toList with
  | [] => false
  | c :: cs => isNameStart c && !Text.isDigit c && c != '.' && !isSpace c && cs.all isNameChar

theorem number_eq_none {c : Char} {cs : List Char} (hd : Text.isDigit c = false) (hp : c ≠ '.') :
    number (c :: cs) = none := by
  have hrun : digitRun (c :: cs) = 0 := by
    rw [digitRun, List.takeWhile_cons_of_neg (by simp [hd])]
    rfl
  have hm : mantissaRun (c :: cs) = 0 := by
    rw [mantissaRun, hrun]
    split
    · next h => exact absurd (List.cons.inj h).1 hp
    · rfl
  simp [number, hm]

theorem firstMatch_name {c : Char} (cs : List Char) (hn : isNameStart c = true)
    (hd : Text.isDigit c = false) (hp : c ≠ '.') :
    firstMatch (c :: cs) = some (1 + (cs.takeWhile isNameChar).length, some nameToken) := by
  simp [firstMatch, classes, number_eq_none hd hp, name, hn]

/-- A word ends where no name goes on. -/
theorem Lexed.word {t : String} {rest : List Char} {us : List Token} (ht : isWord t = true)
    (hr : ∀ c ∈ rest.head?, isNameChar c = false) (h : Lexed rest us) :
    Lexed (t.toList ++ rest) (nameToken t :: us) := by
  have hend : rest.takeWhile isNameChar = [] := by
    cases rest with
    | nil => rfl
    | cons c rest => exact List.takeWhile_cons_of_neg (by simp [hr c rfl])
  cases hcs : t.toList with
  | nil => simp [isWord, hcs] at ht
  | cons c cs =>
    simp only [isWord, hcs, Bool.and_eq_true, Bool.not_eq_true', bne_iff_ne] at ht
    have hrun : (cs ++ rest).takeWhile isNameChar = cs := by
      rw [List.takeWhile_append_of_pos (List.all_eq_true.mp ht.2), hend, List.append_nil]
    have hm := firstMatch_name (cs ++ rest) ht.1.1.1.1 ht.1.1.1.2 ht.1.1.2
    rw [hrun] at hm
    have hl := h.token (List.cons_ne_nil c cs) (by simpa [Nat.add_comm] using hm)
    rwa [← hcs, String.ofList_toList, hcs] at hl

theorem isNameChar_of_bounded {rest : List Char} (h : Bounded rest) :
    ∀ c ∈ rest.head?, isNameChar c = false := by
  intro c hc
  rcases h c hc with rfl | rfl | rfl <;> rfl

theorem spells_word {t : String} (h : isWord t = true) : Spells t [nameToken t] where
  starts := by
    cases hcs : t.toList with
    | nil => simp [isWord, hcs] at h
    | cons c cs =>
      simp only [isWord, hcs, Bool.and_eq_true, Bool.not_eq_true'] at h
      exact ⟨c, rfl, h.1.2⟩
  lexed _ _ hb hl := hl.word h (isNameChar_of_bounded hb)

theorem spells_words (w : String) (ws : List String) (hw : isWord w = true)
    (h : ∀ x ∈ ws, isWord x = true) :
    Spells (" ".intercalate (w :: ws)) ((w :: ws).map nameToken) := by
  induction ws generalizing w with
  | nil => simpa using spells_word hw
  | cons x ws ih =>
    rw [String.intercalate_cons_cons]
    exact (spells_word hw).space (ih x (h x (by simp)) fun y hy => h y (by simp [hy]))

end Words

section Signs

/-- The signs of the grammar that stand between spaces. -/
def signs : List String := ["<>", ">=", "<=", "^", "=", ">", "<", "-", "+", "*", "/"]

theorem spells_of_firstMatch {t : String} {make : String → Token}
    (hs : ∃ c ∈ t.toList.head?, isSpace c = false)
    (hm : ∀ rest, Bounded rest → firstMatch (t.toList ++ rest) = some (t.toList.length, some make)) :
    Spells t [make t] where
  starts := hs
  lexed rest us hb hl := by
    have hne : t.toList ≠ [] := by
      obtain ⟨c, hc, -⟩ := hs
      rintro h
      simp [h] at hc
    have h := hl.token hne (hm rest hb)
    rwa [String.ofList_toList] at h

theorem spells_sign {t : String} (h : t ∈ signs) : Spells t [.symbol t] := by
  simp only [signs, List.mem_cons, List.not_mem_nil, or_false] at h
  refine spells_of_firstMatch ?_ fun rest hb => ?_
  · rcases h with rfl | rfl | rfl | rfl | rfl | rfl | rfl | rfl | rfl | rfl | rfl <;>
      exact ⟨_, rfl, rfl⟩
  · obtain rfl | ⟨c, more, rfl, rfl | rfl | rfl⟩ := hb.cases <;>
      rcases h with rfl | rfl | rfl | rfl | rfl | rfl | rfl | rfl | rfl | rfl | rfl <;> rfl

theorem spells_operator {t : String} (h : t ∈ operators) : Spells t [.operator t] := by
  simp only [operators, List.mem_cons, List.not_mem_nil, or_false] at h
  refine spells_of_firstMatch ?_ fun rest hb => ?_
  · rcases h with rfl | rfl | rfl | rfl | rfl | rfl | rfl | rfl | rfl | rfl | rfl | rfl | rfl |
      rfl | rfl | rfl | rfl | rfl | rfl | rfl | rfl | rfl | rfl <;> exact ⟨_, rfl, rfl⟩
  · obtain rfl | ⟨c, more, rfl, rfl | rfl | rfl⟩ := hb.cases <;>
      rcases h with rfl | rfl | rfl | rfl | rfl | rfl | rfl | rfl | rfl | rfl | rfl | rfl | rfl |
        rfl | rfl | rfl | rfl | rfl | rfl | rfl | rfl | rfl | rfl <;> rfl

end Signs

section Numbers

/-- A digit of a decimal numeral. -/
theorem isDigit_classes {c : Char} (h : c.isDigit = true) :
    Text.digitValue? c = some (c.toNat - '0'.toNat) ∧ isSpace c = false ∧
      c ∈ ['0', '1', '2', '3', '4', '5', '6', '7', '8', '9'] := by
  have hlt : c.toNat < 128 := by
    simp only [Char.isDigit, Bool.and_eq_true, decide_eq_true_eq] at h
    exact Nat.lt_of_le_of_lt (UInt32.le_iff_toNat_le.mp h.2) (by decide)
  exact Text.of_ascii (P := fun c => c.isDigit = true →
    Text.digitValue? c = some (c.toNat - '0'.toNat) ∧ isSpace c = false ∧
      c ∈ ['0', '1', '2', '3', '4', '5', '6', '7', '8', '9']) (by decide) hlt h

theorem digitsValue_eq_ofDigitChars {cs : List Char} (h : ∀ c ∈ cs, c.isDigit = true) :
    Text.digitsValue cs = Nat.ofDigitChars 10 cs 0 := by
  rw [Text.digitsValue, Nat.ofDigitChars_eq_foldl]
  suffices hn : ∀ n, cs.foldl (fun n c => 10 * n + (Text.digitValue? c).getD 0) n =
      cs.foldl (fun n c => 10 * n + (c.toNat - '0'.toNat)) n from hn 0
  induction cs with
  | nil => exact fun _ => rfl
  | cons c cs ih =>
    intro n
    rw [List.foldl_cons, List.foldl_cons, (isDigit_classes (h c (by simp))).1, Option.getD_some]
    exact ih (fun d hd => h d (by simp [hd])) _

theorem digitsValue_repr (n : Nat) : Text.digitsValue n.repr.toList = n := by
  rw [Nat.toList_repr, digitsValue_eq_ofDigitChars, Nat.ofDigitChars_ten_toDigits]
  exact fun c hc => Nat.isDigit_of_mem_toDigits (by decide) (by decide) hc

theorem number_digits {cs rest : List Char} (hne : cs ≠ []) (h : ∀ c ∈ cs, c.isDigit = true)
    (hr : Bounded rest) : number (cs ++ rest) = some cs.length := by
  have hend : rest.takeWhile Text.isDigit = [] := by
    obtain rfl | ⟨c, more, rfl, rfl | rfl | rfl⟩ := hr.cases <;> rfl
  have hrun : digitRun (cs ++ rest) = cs.length := by
    rw [digitRun, List.takeWhile_append_of_pos, hend, List.append_nil]
    intro c hc
    simp [Text.isDigit, (isDigit_classes (h c hc)).1]
  have hm : mantissaRun (cs ++ rest) = cs.length := by
    rw [mantissaRun, hrun, List.drop_left]
    obtain rfl | ⟨c, more, rfl, rfl | rfl | rfl⟩ := hr.cases <;> rfl
  have hx : exponentRun rest = 0 := by
    obtain rfl | ⟨c, more, rfl, rfl | rfl | rfl⟩ := hr.cases <;> rfl
  simp [number, hm, hx, hne]

theorem spells_nat (n : Nat) : Spells n.repr [.number n.repr] := by
  have hdigit : ∀ c ∈ n.repr.toList, c.isDigit = true := by
    rw [Nat.toList_repr]
    exact fun c hc => Nat.isDigit_of_mem_toDigits (by decide) (by decide) hc
  have hne : n.repr.toList ≠ [] := by
    rw [Nat.toList_repr]
    exact Nat.toDigits_ne_nil
  refine spells_of_firstMatch ?_ fun rest hb => ?_
  · obtain ⟨c, cs, hcs⟩ := List.exists_cons_of_ne_nil hne
    exact ⟨c, by simp [hcs], (isDigit_classes (hdigit c (by simp [hcs]))).2.1⟩
  · have hn := number_digits hne hdigit hb
    simp only [firstMatch, classes, List.findSome?_cons, hn, Option.map_some]

theorem firstMatch_minus {c : Char} (h : c.isDigit = true) (cs : List Char) :
    firstMatch ('-' :: c :: cs) = some (1, some .symbol) := by
  have hmem : c ∈ ['0', '1', '2', '3', '4', '5', '6', '7', '8', '9'] := (isDigit_classes h).2.2
  simp only [List.mem_cons, List.not_mem_nil, or_false] at hmem
  rcases hmem with rfl | rfl | rfl | rfl | rfl | rfl | rfl | rfl | rfl | rfl <;> rfl

/-- The sign in front of a number is a token of its own. -/
theorem spells_minus {t : String} {ts : List Token} {c : Char} {cs : List Char}
    (ht : t.toList = c :: cs) (hc : c.isDigit = true) (h : Spells t ts) :
    Spells ("-" ++ t) (.symbol "-" :: ts) where
  starts := ⟨'-', by simp, rfl⟩
  lexed rest us hb hl := by
    have hall := h.lexed rest us hb hl
    rw [ht] at hall
    have hsign := hall.token (List.cons_ne_nil '-' []) (firstMatch_minus hc _)
    simpa [ht] using hsign

theorem spells_neg (n : Nat) : Spells ("-" ++ n.repr) [.symbol "-", .number n.repr] := by
  obtain ⟨c, cs, hcs⟩ := List.exists_cons_of_ne_nil (l := n.repr.toList) (by
    rw [Nat.toList_repr]
    exact Nat.toDigits_ne_nil)
  have hc : c ∈ Nat.toDigits 10 n := by
    rw [← Nat.toList_repr, hcs]
    simp
  exact spells_minus hcs (Nat.isDigit_of_mem_toDigits (by decide) (by decide) hc) (spells_nat n)

end Numbers

section Strings

theorem quoteEnd_cons_of_ne {quote c : Char} {n : Nat} {fallback : Option Nat} {cs : List Char}
    (hc : c ≠ quote) (hcs : cs ≠ []) :
    quoteEnd quote n fallback (c :: cs) = quoteEnd quote (n + 1) fallback cs := by
  cases cs with
  | nil => contradiction
  | cons d cs => rw [quoteEnd, if_neg hc]

/-- The closing quote of a text is the first one that is not doubled. -/
theorem quoteEnd_doubleQuote {quote : Char} {rest : List Char} (hr : ∀ c ∈ rest.head?, c ≠ quote)
    (cs : List Char) (n : Nat) (fallback : Option Nat) :
    quoteEnd quote n fallback (Text.doubleQuote [quote] cs ++ quote :: rest) =
      some (n + (Text.doubleQuote [quote] cs).length + 1) := by
  induction cs generalizing n fallback with
  | nil =>
    cases rest with
    | nil => simp [Text.doubleQuote, Text.replaceFrom, quoteEnd]
    | cons c rest => simp [Text.doubleQuote, Text.replaceFrom, quoteEnd, hr c rfl]
  | cons c cs ih =>
    by_cases hc : c = quote
    · subst hc
      rw [Text.doubleQuote_cons_self, List.cons_append, List.cons_append, quoteEnd, if_pos rfl,
        if_pos rfl, ih]
      simp only [List.length_cons, Option.some.injEq]
      omega
    · rw [Text.doubleQuote_cons_of_ne hc, List.cons_append, quoteEnd_cons_of_ne hc (by simp), ih]
      simp only [List.length_cons, Option.some.injEq]
      omega

/-- A text in quotes ends where no further quote follows. -/
theorem string_enclosed (s : String) {rest : List Char} (hr : ∀ c ∈ rest.head?, c ≠ '\'') :
    string ((Text.enclosed "'" s "'").toList ++ rest) =
      some (Text.enclosed "'" s "'").toList.length := by
  have hend := quoteEnd_doubleQuote hr s.toList 1 none
  have hlist : (Text.enclosed "'" s "'").toList ++ rest =
      '\'' :: (Text.doubleQuote ['\''] s.toList ++ '\'' :: rest) := by
    simp [Text.enclosed]
  rw [hlist, string, hend]
  simp [Text.enclosed]
  omega

theorem firstMatch_string (s : String) {rest : List Char} (hr : ∀ c ∈ rest.head?, c ≠ '\'') :
    firstMatch ((Text.enclosed "'" s "'").toList ++ rest) =
      some ((Text.enclosed "'" s "'").toList.length, some .string) := by
  have hlist : (Text.enclosed "'" s "'").toList ++ rest =
      '\'' :: (Text.doubleQuote ['\''] s.toList ++ '\'' :: rest) := by
    simp [Text.enclosed]
  have hclass : firstMatch ((Text.enclosed "'" s "'").toList ++ rest) =
      (classes.drop 4).findSome? fun k =>
        (k.1 ((Text.enclosed "'" s "'").toList ++ rest)).map fun n => (n, k.2) := by
    rw [hlist]
    rfl
  simp [hclass, classes, string_enclosed s hr]

/-- A quoted name has a character between its quotes. -/
theorem quotedName_enclosed {t : String} (ht : t ≠ "") {rest : List Char}
    (hr : ∀ c ∈ rest.head?, c ≠ '"') :
    quotedName ((Text.enclosed "\"" t "\"").toList ++ rest) =
      some (Text.enclosed "\"" t "\"").toList.length := by
  have hend := quoteEnd_doubleQuote hr t.toList 1 none
  have hne : Text.doubleQuote ['"'] t.toList ≠ [] := by
    intro hnil
    have hhalf := Text.halveQuote_doubleQuote '"' t.toList
    rw [hnil] at hhalf
    exact ht (String.toList_eq_nil_iff.mp hhalf.symm)
  have hlen := List.length_pos_iff.mpr hne
  have hlist : (Text.enclosed "\"" t "\"").toList ++ rest =
      '"' :: (Text.doubleQuote ['"'] t.toList ++ '"' :: rest) := by
    simp [Text.enclosed]
  have hcount : (Text.enclosed "\"" t "\"").toList.length =
      1 + (Text.doubleQuote ['"'] t.toList).length + 1 := by
    simp [Text.enclosed]
    omega
  rw [hlist, quotedName, hend, hcount, Option.filter, if_pos (by simpa using by omega)]

theorem firstMatch_quotedName {t : String} (ht : t ≠ "") {rest : List Char}
    (hr : ∀ c ∈ rest.head?, c ≠ '"') :
    firstMatch ((Text.enclosed "\"" t "\"").toList ++ rest) =
      some ((Text.enclosed "\"" t "\"").toList.length, some .quotedName) := by
  have hlist : (Text.enclosed "\"" t "\"").toList ++ rest =
      '"' :: (Text.doubleQuote ['"'] t.toList ++ '"' :: rest) := by
    simp [Text.enclosed]
  have hclass : firstMatch ((Text.enclosed "\"" t "\"").toList ++ rest) =
      (classes.drop 3).findSome? fun k =>
        (k.1 ((Text.enclosed "\"" t "\"").toList ++ rest)).map fun n => (n, k.2) := by
    rw [hlist]
    rfl
  simp [hclass, classes, quotedName_enclosed ht hr]

theorem spells_string (s : String) :
    Spells (Text.enclosed "'" s "'") [.string (Text.enclosed "'" s "'")] := by
  refine spells_of_firstMatch ⟨'\'', by simp [Text.enclosed], rfl⟩ fun rest hb => ?_
  refine firstMatch_string s fun c hc => ?_
  rcases hb c hc with rfl | rfl | rfl <;> decide

end Strings

end Lexer

end SqlTree

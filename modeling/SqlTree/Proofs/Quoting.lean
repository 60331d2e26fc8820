import SqlTree.Proofs.RoundTrip.Spelling
import SqlTree.Dialect
import SqlTree.Syntax.Reading.Literal

/-!
Quoted text ends by itself: whatever follows, a reader from the opening quote stops behind the
closing one and has the text again. The lexer's two quoted classes are the patterns that are
usually written for them.
-/

namespace SqlTree

namespace Text

section Scanning

/-- Reads behind an opening quote. A doubled closing quote is a character of the text, a single one
its end. -/
def scanQuoted (closing : Char) : List Char → Option (List Char × List Char)
  | [] => none
  | [c] => if c = closing then some ([], []) else none
  | c :: d :: rest =>
    if c = closing then
      if d = closing then (scanQuoted closing rest).map fun (text, behind) => (c :: text, behind)
      else some ([], d :: rest)
    else (scanQuoted closing (d :: rest)).map fun (text, behind) => (c :: text, behind)

/-- Reads quoted text: what it says and what stands behind it. -/
def scan (opening closing : Char) : List Char → Option (String × List Char)
  | [] => none
  | c :: rest =>
    if c = opening then
      (scanQuoted closing rest).map fun (text, behind) => (String.ofList text, behind)
    else none

variable {opening closing : Char} {rest : List Char}

theorem scanQuoted_cons_of_ne {c : Char} {cs : List Char} (hc : c ≠ closing) :
    scanQuoted closing (c :: cs) =
      (scanQuoted closing cs).map fun (text, behind) => (c :: text, behind) := by
  cases cs with
  | nil => simp [scanQuoted, hc]
  | cons d cs => rw [scanQuoted, if_neg hc]

theorem scanQuoted_doubleQuote (hr : ∀ c ∈ rest.head?, c ≠ closing) (cs : List Char) :
    scanQuoted closing (doubleQuote [closing] cs ++ closing :: rest) = some (cs, rest) := by
  induction cs with
  | nil =>
    cases rest with
    | nil => simp [doubleQuote, replaceFrom, scanQuoted]
    | cons c rest => simp [doubleQuote, replaceFrom, scanQuoted, hr c rfl]
  | cons c cs ih =>
    by_cases hc : c = closing
    · subst hc
      rw [doubleQuote_cons_self, List.cons_append, List.cons_append, scanQuoted, if_pos rfl,
        if_pos rfl, ih]
      rfl
    · rw [doubleQuote_cons_of_ne hc, List.cons_append, scanQuoted_cons_of_ne hc, ih]
      rfl

theorem scan_enclosed (hr : ∀ c ∈ rest.head?, c ≠ closing) (s : String) :
    scan opening closing
        ((enclosed (String.singleton opening) s (String.singleton closing)).toList ++ rest) =
      some (s, rest) := by
  have hlist : (enclosed (String.singleton opening) s (String.singleton closing)).toList ++ rest =
      opening :: (doubleQuote [closing] s.toList ++ closing :: rest) := by
    simp [enclosed]
  rw [hlist, scan, if_pos rfl, scanQuoted_doubleQuote hr]
  simp

end Scanning

end Text

namespace Lexer

section Expressions

/-- A pattern that backtracks. -/
inductive Expression where
  | one (p : Char → Bool)
  | seq (a b : Expression)
  | alt (a b : Expression)
  | star (a : Expression)

namespace Expression

/-- At most `n` rounds, more of them before fewer. -/
def rounds (round : List Char → List Nat) : Nat → List Char → List Nat
  | 0, _ => [0]
  | n + 1, cs =>
    ((round cs).flatMap fun k => (rounds round n (cs.drop k)).map (k + ·)) ++ [0]

/-- How many characters a pattern can take from the front of a text, in the order in which it is
tried. A round that takes nothing is not repeated, so there are no more rounds than characters. -/
def tries : Expression → List Char → List Nat
  | one p, cs => if cs.head?.any p then [1] else []
  | seq a b, cs => (tries a cs).flatMap fun k => (tries b (cs.drop k)).map (k + ·)
  | alt a b, cs => tries a cs ++ tries b cs
  | star a, cs => rounds (tries a) cs.length cs

/-- The first try that succeeds counts. -/
def pattern (e : Expression) : Pattern := fun cs => (e.tries cs).head?

/-- One character between quotes: any other one, or the quote twice. -/
def between (quote : Char) : Expression :=
  .alt (.one (· != quote)) (.seq (.one (· == quote)) (.one (· == quote)))

/-- Any number of characters between two quotes. -/
def quoted (quote : Char) : Expression :=
  .seq (.one (· == quote)) (.seq (.star (between quote)) (.one (· == quote)))

/-- At least one character between two quotes. -/
def quotedSome (quote : Char) : Expression :=
  .seq (.one (· == quote))
    (.seq (between quote) (.seq (.star (between quote)) (.one (· == quote))))

variable {quote : Char}

/-- What follows the rounds is tried behind each further round before it is tried at once. -/
theorem flatMap_rounds (round last : List Char → List Nat) (n : Nat) (cs : List Char) :
    ((rounds round (n + 1) cs).flatMap fun k => (last (cs.drop k)).map (k + ·)) =
      ((round cs).flatMap fun j =>
        ((rounds round n (cs.drop j)).flatMap fun k =>
          (last ((cs.drop j).drop k)).map (k + ·)).map (j + ·)) ++ last cs := by
  simp [rounds, List.flatMap_append, List.flatMap_assoc, List.flatMap_map, List.map_flatMap,
    Function.comp_def, Nat.add_assoc]

theorem between_of_ne {c : Char} (hc : c ≠ quote) (cs : List Char) :
    (between quote).tries (c :: cs) = [1] := by
  simp [between, tries, hc]

theorem between_twice (cs : List Char) :
    (between quote).tries (quote :: quote :: cs) = [2] := by
  simp [between, tries]

theorem between_once {d : Char} (hd : d ≠ quote) (cs : List Char) :
    (between quote).tries (quote :: d :: cs) = [] := by
  simp [between, tries, hd]

theorem between_last : (between quote).tries [quote] = [] := by
  simp [between, tries]

/-- The ways to the closing quote of a text with at most `m` characters. -/
def closings (quote : Char) (m : Nat) (cs : List Char) : List Nat :=
  (rounds (between quote).tries m cs).flatMap fun k =>
    ((one (· == quote)).tries (cs.drop k)).map (k + ·)

theorem closings_nil (m : Nat) : closings quote m [] = [] := by
  cases m <;> simp [closings, rounds, between, tries]

theorem closings_succ (m : Nat) (cs : List Char) :
    closings quote (m + 1) cs =
      ((between quote).tries cs).flatMap (fun j => (closings quote m (cs.drop j)).map (j + ·)) ++
        (one (· == quote)).tries cs :=
  flatMap_rounds _ (one (· == quote)).tries m cs

/-- The end of the quote is the first closing that is come to, going back from the last one. -/
theorem quoteEnd_eq {cs : List Char} {m : Nat} (hm : cs.length ≤ m) (n : Nat)
    (fallback : Option Nat) :
    quoteEnd quote n fallback cs = ((closings quote m cs).head?.map (n + ·)).or fallback := by
  fun_induction quoteEnd quote n fallback cs generalizing m with
  | case1 n fallback => simp [closings_nil]
  | case2 n fallback =>
    obtain ⟨m, rfl⟩ : ∃ k, m = k + 1 := ⟨m - 1, by simp at hm; omega⟩
    simp [closings_succ, between_last, tries]
  | case3 n fallback c hc =>
    obtain ⟨m, rfl⟩ : ∃ k, m = k + 1 := ⟨m - 1, by simp at hm; omega⟩
    simp [closings_succ, between_of_ne hc, closings_nil, tries, hc]
  | case4 n fallback rest ih =>
    obtain ⟨m, rfl⟩ : ∃ k, m = k + 1 := ⟨m - 1, by simp at hm; omega⟩
    rw [ih (m := m) (by simp at hm; omega), closings_succ, between_twice]
    cases hrest : (closings quote m rest) <;> simp [hrest, tries, Nat.add_assoc]
  | case5 n fallback d rest hd =>
    obtain ⟨m, rfl⟩ : ∃ k, m = k + 1 := ⟨m - 1, by simp at hm; omega⟩
    simp [closings_succ, between_once hd, tries]
  | case6 n fallback c d rest hc ih =>
    obtain ⟨m, rfl⟩ : ∃ k, m = k + 1 := ⟨m - 1, by simp at hm; omega⟩
    rw [ih (m := m) (by simp at hm ⊢; omega), closings_succ, between_of_ne hc]
    cases hrest : (closings quote m (d :: rest)) <;> simp [hrest, tries, hc, Nat.add_assoc]

theorem closings_pos {m k : Nat} {cs : List Char} (h : k ∈ closings quote m cs) : 0 < k := by
  obtain ⟨j, -, hk⟩ := List.mem_flatMap.mp h
  obtain ⟨i, hi, rfl⟩ := List.mem_map.mp hk
  have hone : i = 1 := by
    rw [tries] at hi
    split at hi <;> simp_all
  omega

theorem pattern_quote (e : Expression) (cs : List Char) :
    (seq (one (· == quote)) e).pattern (quote :: cs) = (e.pattern cs).map (1 + ·) := by
  simp [pattern, tries]

theorem pattern_of_ne {c : Char} (hc : c ≠ quote) (e : Expression) (cs : List Char) :
    (seq (one (· == quote)) e).pattern (c :: cs) = none := by
  simp [pattern, tries, hc]

theorem pattern_quoted (cs : List Char) :
    (quoted quote).pattern (quote :: cs) = quoteEnd quote 1 none cs := by
  rw [quoteEnd_eq Nat.le.refl, Option.or_none]
  exact pattern_quote _ cs

/-- The first character stands between the quotes: an end that is come to before it is no match. -/
theorem pattern_quotedSome (cs : List Char) :
    (quotedSome quote).pattern (quote :: cs) = (quoteEnd quote 1 none cs).filter (2 < ·) := by
  rw [quotedSome, pattern_quote, pattern, tries]
  change ((((between quote).tries cs).flatMap fun k =>
    (closings quote (cs.drop k).length (cs.drop k)).map (k + ·)).head?).map (1 + ·) = _
  match cs with
  | [] => simp [between, tries, quoteEnd]
  | [c] =>
    by_cases hc : c = quote
    · subst hc
      simp [between_last, quoteEnd, Option.filter]
    · simp [between_of_ne hc, closings_nil, quoteEnd, hc]
  | c :: d :: rest =>
    by_cases hc : c = quote
    · subst hc
      by_cases hd : d = c
      · subst hd
        rw [between_twice, quoteEnd, if_pos rfl, if_pos rfl, quoteEnd_eq Nat.le.refl]
        cases hrest : closings d rest.length rest with
        | nil => simp [hrest, Option.filter]
        | cons k ks =>
          have hk : 2 < 3 + k := by omega
          simp [hrest, Option.filter, ← Nat.add_assoc, hk]
      · simp [between_once hd, quoteEnd, hd, Option.filter]
    · rw [between_of_ne hc, quoteEnd, if_neg hc, quoteEnd_eq Nat.le.refl, List.flatMap_singleton,
        List.drop_succ_cons, List.drop_zero]
      cases hrest : closings quote (d :: rest).length (d :: rest) with
      | nil => rfl
      | cons k ks =>
        have hk : 2 < 2 + k := by
          have hpos : 0 < k := closings_pos (by rw [hrest]; simp)
          omega
        simp [Option.filter, ← Nat.add_assoc, hk]

/-- The lexer's strings are what the expression with any number of characters matches. -/
theorem string_eq_pattern : string = (quoted '\'').pattern := by
  funext cs
  cases cs with
  | nil => simp [string, quoted, pattern, tries]
  | cons c cs =>
    by_cases hc : c = '\''
    · subst hc
      exact (pattern_quoted cs).symm
    · rw [quoted, pattern_of_ne hc, string]
      simpa using hc

/-- The lexer's quoted names are what the expression with at least one character matches. -/
theorem quotedName_eq_pattern : quotedName = (quotedSome '"').pattern := by
  funext cs
  cases cs with
  | nil => simp [quotedName, quotedSome, pattern, tries]
  | cons c cs =>
    by_cases hc : c = '"'
    · subst hc
      exact (pattern_quotedSome cs).symm
    · rw [quotedSome, pattern_of_ne hc, quotedName]
      simpa using hc

end Expression

end Expressions

end Lexer

section Quoting

variable {d : Dialect} {s : String}

theorem Dialect.quoteIdentifier_eq_enclosed (h : d.closingQuote = '"') :
    d.quoteIdentifier s = Text.enclosed "\"" s "\"" := by
  have hopening : d.openingQuote = '"' := by
    revert h
    cases d <;> decide
  rw [quoteIdentifier, h, hopening]
  rfl

/-- Whatever follows a literal or a quoted identifier of any dialect, unless it is one more closing
quote, a reader stops behind it and has the text. Strings and names in double quotes are such for
the lexer too, and come back without their quotes. -/
theorem quoting_selfDelimiting (d : Dialect) (s : String) :
    (∀ rest : List Char, rest.head? ≠ some '\'' →
      Text.scan '\'' '\'' ((d.stringLiteral s).toList ++ rest) = some (s, rest) ∧
      Lexer.string ((d.stringLiteral s).toList ++ rest) = some (d.stringLiteral s).toList.length ∧
      Lexer.firstMatch ((d.stringLiteral s).toList ++ rest) =
        some ((d.stringLiteral s).toList.length, some .string)) ∧
    Syntax.Literal.unquoted (d.stringLiteral s) = s ∧
    (∀ rest : List Char, rest.head? ≠ some d.closingQuote →
      Text.scan d.openingQuote d.closingQuote ((d.quoteIdentifier s).toList ++ rest) =
        some (s, rest)) ∧
    (d.closingQuote = '"' → s ≠ "" →
      (∀ rest : List Char, rest.head? ≠ some '"' →
        Lexer.quotedName ((d.quoteIdentifier s).toList ++ rest) =
          some (d.quoteIdentifier s).toList.length ∧
        Lexer.firstMatch ((d.quoteIdentifier s).toList ++ rest) =
          some ((d.quoteIdentifier s).toList.length, some .quotedName)) ∧
      (Syntax.Name.mk (d.quoteIdentifier s) true).content = s) := by
  have hhead : ∀ {q : Char} {rest : List Char}, rest.head? ≠ some q → ∀ c ∈ rest.head?, c ≠ q := by
    rintro q rest h c hc rfl
    exact h hc
  refine ⟨fun rest h => ⟨Text.scan_enclosed (hhead h) s, Lexer.string_enclosed s (hhead h),
    Lexer.firstMatch_string s (hhead h)⟩, Text.unquoted_enclosed '\'' s,
    fun rest h => Text.scan_enclosed (hhead h) s, fun hquote hs => ?_⟩
  rw [d.quoteIdentifier_eq_enclosed hquote]
  exact ⟨fun rest h => ⟨Lexer.quotedName_enclosed hs (hhead h),
    Lexer.firstMatch_quotedName hs (hhead h)⟩, Text.unquoted_enclosed '"' s⟩

/-- Texts that end in quotes, in front of texts with quotes of their own. -/
theorem quoting_trailing_quotes :
    (Dialect.oracle.stringLiteral "a''").toList = "'a'''''".toList ∧
      Lexer.string ((Dialect.oracle.stringLiteral "a''").toList ++ ", 'b'".toList) =
        some (Dialect.oracle.stringLiteral "a''").toList.length ∧
      Text.scan '[' ']' ((Dialect.sqlserver.quoteIdentifier "a]").toList ++ ".[b]".toList) =
        some ("a]", ".[b]".toList) ∧
      Lexer.quotedName ((Dialect.ansi.quoteIdentifier "a\"").toList ++ ".\"b\"".toList) =
        some (Dialect.ansi.quoteIdentifier "a\"").toList.length ∧
      (Syntax.Name.mk (Dialect.ansi.quoteIdentifier "a\"") true).content = "a\"" := by
  have hstring := (quoting_selfDelimiting .oracle "a''").1 ", 'b'".toList (by decide)
  have hbrackets := (quoting_selfDelimiting .sqlserver "a]").2.2.1 ".[b]".toList (by decide)
  have hname := (quoting_selfDelimiting .ansi "a\"").2.2.2 rfl (by decide)
  exact ⟨by decide, hstring.2.1, hbrackets, (hname.1 ".\"b\"".toList (by decide)).1, hname.2⟩

end Quoting

end SqlTree

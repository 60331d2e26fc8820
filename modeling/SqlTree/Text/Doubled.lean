/-!
Quoting by doubling: text between two quotes in which each closing quote is written twice.
-/

namespace SqlTree.Text

/-- Each occurrence of `old`, from the left and without overlap, becomes `new`. An empty `old`
occurs nowhere. -/
def replaceFrom (old new : List Char) (skip : Nat) : List Char → List Char
  | [] => []
  | c :: rest =>
    match skip with
    | n + 1 => replaceFrom old new n rest
    | 0 =>
      if !old.isEmpty && old.isPrefixOf (c :: rest) then
        new ++ replaceFrom old new (old.length - 1) rest
      else c :: replaceFrom old new 0 rest

def doubleQuote (quote : List Char) (cs : List Char) : List Char :=
  replaceFrom quote (quote ++ quote) 0 cs

/-- The text between its quotes. -/
def enclosed (opening text closing : String) : String :=
  String.ofList (opening.toList ++ doubleQuote closing.toList text.toList ++ closing.toList)

/-- Undoes the doubling of one quote character. -/
def halveQuote (quote : Char) : List Char → List Char
  | [] => []
  | [c] => [c]
  | c :: d :: rest =>
    if c = quote ∧ d = quote then quote :: halveQuote quote rest
    else c :: halveQuote quote (d :: rest)

theorem doubleQuote_cons_self (quote : Char) (cs : List Char) :
    doubleQuote [quote] (quote :: cs) = quote :: quote :: doubleQuote [quote] cs := by
  simp [doubleQuote, replaceFrom]

theorem doubleQuote_cons_of_ne {quote c : Char} (h : c ≠ quote) (cs : List Char) :
    doubleQuote [quote] (c :: cs) = c :: doubleQuote [quote] cs := by
  simp [doubleQuote, replaceFrom, h.symm]

theorem halveQuote_cons_of_ne {quote c : Char} (h : c ≠ quote) (cs : List Char) :
    halveQuote quote (c :: cs) = c :: halveQuote quote cs := by
  cases cs with
  | nil => rfl
  | cons d cs => rw [halveQuote, if_neg fun hh => h hh.1]

theorem halveQuote_doubleQuote (quote : Char) (cs : List Char) :
    halveQuote quote (doubleQuote [quote] cs) = cs := by
  induction cs with
  | nil => rfl
  | cons c cs ih =>
    by_cases h : c = quote
    · subst h
      rw [doubleQuote_cons_self, halveQuote, if_pos ⟨rfl, rfl⟩, ih]
    · rw [doubleQuote_cons_of_ne h, halveQuote_cons_of_ne h, ih]

/-- What stands between the first and the last character, with doubled quotes halved. -/
def unquoted (quote : Char) (s : String) : String :=
  String.ofList (halveQuote quote (s.toList.drop 1).dropLast)

theorem unquoted_enclosed (quote : Char) (s : String) :
    unquoted quote (enclosed (String.singleton quote) s (String.singleton quote)) = s := by
  simp [unquoted, enclosed, halveQuote_doubleQuote]

end SqlTree.Text

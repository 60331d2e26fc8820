import SqlTree.Token.Lexer

/-!
Texts that have the tokens one expects, whatever is written behind them after a space, a comma or a
closing parenthesis.
-/

namespace SqlTree.Lexer

/-- The whole text is cut into these tokens. -/
def Lexed (cs : List Char) (ts : List Token) : Prop :=
  ∀ gap n, cs.length ≤ n → ∃ ls, lexUpTo n gap cs = (ls, []) ∧ ls.map Lexeme.token = ts

theorem Lexed.nil : Lexed [] [] := fun _ _ _ => ⟨[], by rw [lexUpTo], rfl⟩

theorem Lexed.lex {cs : List Char} {ts : List Token} (h : Lexed cs ts) :
    ∃ ls, lex cs = (ls, []) ∧ ls.map Lexeme.token = ts :=
  h [] cs.length (Nat.le_refl _)

theorem Lexed.token {taken rest : List Char} {make : String → Token} {ts : List Token}
    (hne : taken ≠ []) (hm : firstMatch (taken ++ rest) = some (taken.length, some make))
    (h : Lexed rest ts) : Lexed (taken ++ rest) (make (String.ofList taken) :: ts) := by
  intro gap n hn
  obtain ⟨c, cs, rfl⟩ := List.exists_cons_of_ne_nil hne
  cases n with
  | zero => simp at hn
  | succ n =>
    obtain ⟨ls, hls, hts⟩ := h [] n (by simp at hn; omega)
    rw [List.cons_append] at hm ⊢
    refine ⟨⟨gap, make (String.ofList (c :: cs))⟩ :: ls, ?_, by simp [hts]⟩
    simp [lexUpTo, hm, hls]

section Texts

theorem lexUpTo_cons_none {n : Nat} {gap cs : List Char} {c : Char} (h : firstMatch (c :: cs) = none) :
    lexUpTo (n + 1) gap (c :: cs) = ([], c :: cs) := by
  simp only [lexUpTo, h]

theorem lexUpTo_cons_skip {n k : Nat} {gap cs : List Char} {c : Char}
    (h : firstMatch (c :: cs) = some (k, none)) : lexUpTo (n + 1) gap (c :: cs) =
      lexUpTo n (gap ++ (c :: cs).take k) (cs.drop (k - 1)) := by
  simp only [lexUpTo, h]

theorem lexUpTo_cons_token {n k : Nat} {gap cs : List Char} {c : Char} {make : String → Token}
    (h : firstMatch (c :: cs) = some (k, some make)) : lexUpTo (n + 1) gap (c :: cs) =
      (⟨gap, make (String.ofList ((c :: cs).take k))⟩ :: (lexUpTo n [] (cs.drop (k - 1))).1,
        (lexUpTo n [] (cs.drop (k - 1))).2) := by
  simp only [lexUpTo, h]

/-- Neither the gap before a text nor more steps than it has characters change its tokens. -/
theorem lexUpTo_tokens {m n : Nat} {cs : List Char} (hm : cs.length ≤ m) (hn : cs.length ≤ n)
    (gap gap' : List Char) :
    (lexUpTo m gap cs).1.map Lexeme.token = (lexUpTo n gap' cs).1.map Lexeme.token ∧
      (lexUpTo m gap cs).2 = (lexUpTo n gap' cs).2 := by
  induction m generalizing n cs gap gap' with
  | zero =>
    obtain rfl := List.length_eq_zero_iff.mp (Nat.le_zero.mp hm)
    rw [lexUpTo, lexUpTo]
    exact ⟨rfl, rfl⟩
  | succ m ih =>
    cases cs with
    | nil =>
      rw [lexUpTo, lexUpTo]
      exact ⟨rfl, rfl⟩
    | cons c cs =>
      obtain ⟨n, rfl⟩ : ∃ k, n = k + 1 := ⟨n - 1, by rw [List.length_cons] at hn; omega⟩
      have hlen : ∀ k, (cs.drop (k - 1)).length ≤ m ∧ (cs.drop (k - 1)).length ≤ n := by
        intro k
        rw [List.length_cons] at hm hn
        rw [List.length_drop]
        omega
      match h : firstMatch (c :: cs) with
      | none =>
        rw [lexUpTo_cons_none h, lexUpTo_cons_none h]
        exact ⟨rfl, rfl⟩
      | some (k, none) =>
        rw [lexUpTo_cons_skip h, lexUpTo_cons_skip h]
        exact ih (hlen k).1 (hlen k).2 _ _
      | some (k, some make) =>
        obtain ⟨htokens, hstuck⟩ := ih (hlen k).1 (hlen k).2 [] []
        rw [lexUpTo_cons_token h, lexUpTo_cons_token h]
        exact ⟨by rw [List.map_cons, List.map_cons, htokens], hstuck⟩

theorem Lexed.of_lex {cs : List Char} {ls : List Lexeme} (h : Lexer.lex cs = (ls, [])) :
    Lexed cs (ls.map Lexeme.token) := by
  intro gap n hn
  obtain ⟨htokens, hstuck⟩ := lexUpTo_tokens hn (Nat.le_refl cs.length) gap []
  rw [Lexer.lex] at h
  rw [h] at htokens hstuck
  exact ⟨_, Prod.ext rfl hstuck, htokens⟩

/-- A run of spaces is skipped as a whole. -/
theorem firstMatch_spaces {c : Char} (hc : isSpace c = true) (cs : List Char) :
    firstMatch (c :: cs) = some (1 + (cs.takeWhile isSpace).length, none) := by
  have hspace : space (c :: cs) = some (1 + (cs.takeWhile isSpace).length) := by
    simp [space, hc, Nat.add_comm]
  have hclass : firstMatch (c :: cs) =
      (classes.drop 5).findSome? fun k => (k.1 (c :: cs)).map fun n => (n, k.2) := by
    simp only [isSpace, Bool.or_eq_true, decide_eq_true_eq] at hc
    rcases hc with (((rfl | rfl) | rfl) | rfl) | rfl <;> rfl
  simp [hclass, classes, hspace]

/-- A space before a text changes no tokens. -/
theorem Lexed.space {cs : List Char} {ts : List Token} (h : Lexed cs ts) : Lexed (' ' :: cs) ts := by
  have hrest : Lexed (cs.drop (cs.takeWhile isSpace).length) ts := by
    match cs with
    | [] => exact h
    | c :: cs =>
      by_cases hc : isSpace c = true
      · have hrun : (c :: cs).takeWhile isSpace = c :: cs.takeWhile isSpace :=
          List.takeWhile_cons_of_pos hc
        intro gap n hn
        obtain ⟨ls, hls, hts⟩ := h [] (c :: cs).length (Nat.le_refl _)
        rw [List.length_cons, lexUpTo_cons_skip (firstMatch_spaces hc cs), Nat.add_sub_cancel_left] at hls
        rw [hrun, List.length_cons, List.drop_succ_cons] at hn ⊢
        have hlen : (cs.drop (cs.takeWhile isSpace).length).length ≤ cs.length := by
          rw [List.length_drop]
          exact Nat.sub_le _ _
        obtain ⟨htokens, hstuck⟩ := lexUpTo_tokens hn hlen gap _
        rw [hls] at htokens hstuck
        exact ⟨_, Prod.ext rfl hstuck, htokens.trans hts⟩
      · rw [List.takeWhile_cons_of_neg hc]
        exact h
  intro gap n hn
  obtain ⟨n, rfl⟩ : ∃ k, n = k + 1 := ⟨n - 1, by rw [List.length_cons] at hn; omega⟩
  rw [lexUpTo_cons_skip (firstMatch_spaces rfl cs), Nat.add_sub_cancel_left]
  refine hrest _ n ?_
  rw [List.length_cons] at hn
  rw [List.length_drop]
  omega

end Texts

/-- What may follow the text of a token without being drawn into it. -/
def Bounded (rest : List Char) : Prop := ∀ c ∈ rest.head?, c = ' ' ∨ c = ')' ∨ c = ','

theorem Bounded.cases {rest : List Char} (h : Bounded rest) :
    rest = [] ∨ ∃ c more, rest = c :: more ∧ (c = ' ' ∨ c = ')' ∨ c = ',') := by
  cases rest with
  | nil => exact .inl rfl
  | cons c more => exact .inr ⟨c, more, rfl, h c rfl⟩

/-- A text that starts with no space and has these tokens wherever it is bounded. -/
structure Spells (s : String) (ts : List Token) : Prop where
  starts : ∃ c ∈ s.toList.head?, isSpace c = false
  lexed : ∀ rest us, Bounded rest → Lexed rest us → Lexed (s.toList ++ rest) (ts ++ us)

namespace Spells

variable {s t : String} {ts us : List Token}

theorem lex (h : Spells s ts) : ∃ ls, lex s.toList = (ls, []) ∧ ls.map Lexeme.token = ts := by
  have hl := h.lexed [] [] (by simp [Bounded]) .nil
  rw [List.append_nil, List.append_nil] at hl
  exact hl.lex

theorem exists_cons (h : Spells s ts) : ∃ c cs, s.toList = c :: cs ∧ isSpace c = false := by
  obtain ⟨c, hc, hs⟩ := h.starts
  obtain ⟨cs, hcs⟩ := List.head?_eq_some_iff.mp hc
  exact ⟨c, cs, hcs, hs⟩

theorem ne_empty (h : Spells s ts) : s ≠ "" := by
  rintro rfl
  obtain ⟨c, hc, -⟩ := h.starts
  cases hc

theorem starts_append (h : Spells s ts) (t : String) :
    ∃ c ∈ (s ++ t).toList.head?, isSpace c = false := by
  obtain ⟨c, cs, hc, hs⟩ := h.exists_cons
  exact ⟨c, by simp [hc], hs⟩

/-- Words with a space between them. -/
theorem space (hs : Spells s ts) (ht : Spells t us) : Spells (s ++ " " ++ t) (ts ++ us) where
  starts := by
    rw [String.append_assoc]
    exact hs.starts_append _
  lexed rest vs hb hl := by
    have hskip : Lexed (' ' :: (t.toList ++ rest)) (us ++ vs) := (ht.lexed rest vs hb hl).space
    have hall := hs.lexed _ _ (by simp [Bounded]) hskip
    simpa [List.append_assoc] using hall

/-- Items with a comma between them. -/
theorem comma (hs : Spells s ts) (ht : Spells t us) :
    Spells (s ++ ", " ++ t) (ts ++ .symbol "," :: us) where
  starts := by
    rw [String.append_assoc]
    exact hs.starts_append _
  lexed rest vs hb hl := by
    have hskip : Lexed (' ' :: (t.toList ++ rest)) (us ++ vs) := (ht.lexed rest vs hb hl).space
    have hcomma : Lexed ([','] ++ ' ' :: (t.toList ++ rest)) (.symbol "," :: (us ++ vs)) :=
      hskip.token (by simp) rfl
    have hall := hs.lexed _ _ (by simp [Bounded]) hcomma
    simpa [List.append_assoc] using hall

theorem parens (hs : Spells s ts) :
    Spells ("(" ++ s ++ ")") (.symbol "(" :: ts ++ [.symbol ")"]) where
  starts := ⟨'(', by simp, rfl⟩
  lexed rest vs hb hl := by
    have hclose : Lexed ([')'] ++ rest) (.symbol ")" :: vs) := hl.token (by simp) rfl
    have hin := hs.lexed _ _ (by simp [Bounded]) hclose
    have hopen : Lexed (['('] ++ (s.toList ++ ([')'] ++ rest)))
        (.symbol "(" :: (ts ++ .symbol ")" :: vs)) := hin.token (by simp) rfl
    simpa [List.append_assoc] using hopen

end Spells

end SqlTree.Lexer

import Mathlib.Data.List.Chain
import SqlTree.Proofs.Lexing
import SqlTree.Proofs.RoundTrip.Spelling

/-!
The lexemes of a text when more text follows it behind a line break. What the patterns take stays
the same, but for spaces at the end and for the mark of a comment that only the further text closes.
-/

namespace SqlTree.Lexer

/-- The pattern takes the same from the text when a line break and more text follow. -/
def Stable (p : Pattern) (cs : List Char) : Prop := ∀ more, p (cs ++ '\n' :: more) = p cs

section Runs

theorem takeWhile_append_break {p : Char → Bool} (hp : p '\n' = false) (cs more : List Char) :
    (cs ++ '\n' :: more).takeWhile p = cs.takeWhile p := by
  induction cs with
  | nil => exact List.takeWhile_cons_of_neg (by simp [hp])
  | cons c cs ih => simp only [List.cons_append, List.takeWhile_cons, ih]

theorem digitRun_le (cs : List Char) : digitRun cs ≤ cs.length :=
  (List.takeWhile_prefix _).length_le

theorem digitRun_append (cs more : List Char) : digitRun (cs ++ '\n' :: more) = digitRun cs := by
  rw [digitRun, digitRun, takeWhile_append_break (by decide)]

theorem exponentRun_append (cs more : List Char) :
    exponentRun (cs ++ '\n' :: more) = exponentRun cs := by
  have hdigits (cs : List Char) : digitRun (cs ++ '\n' :: more) = digitRun cs :=
    digitRun_append cs more
  match cs with
  | [] => rfl
  | [c] =>
    have hnone : digitRun ('\n' :: more) = digitRun [] := hdigits []
    simp [exponentRun, hnone]
  | c :: d :: rest =>
    by_cases hd : d = '+' ∨ d = '-'
    · simp [exponentRun, hd, hdigits]
    · have hcons := hdigits (d :: rest)
      rw [List.cons_append] at hcons
      simp [exponentRun, hd, hcons]

theorem mantissaRun_le (cs : List Char) : mantissaRun cs ≤ cs.length := by
  have hwhole := digitRun_le cs
  rw [mantissaRun]
  split
  · next rest hrest =>
    have hplaces := digitRun_le rest
    have hlength := congrArg List.length hrest
    rw [List.length_drop, List.length_cons] at hlength
    dsimp only
    split <;> omega
  · exact hwhole

theorem mantissaRun_append (cs more : List Char) :
    mantissaRun (cs ++ '\n' :: more) = mantissaRun cs := by
  rw [mantissaRun, mantissaRun, digitRun_append, List.drop_append_of_le_length (digitRun_le cs)]
  cases cs.drop (digitRun cs) with
  | nil => rfl
  | cons c rest =>
    by_cases hc : c = '.'
    · subst hc
      simp only [List.cons_append, digitRun_append]
    · simp [hc]

theorem stable_number (cs : List Char) : Stable number cs := by
  intro more
  rw [number, number, mantissaRun_append, List.drop_append_of_le_length (mantissaRun_le cs),
    exponentRun_append]

theorem stable_name (cs : List Char) : Stable name cs := by
  intro more
  cases cs with
  | nil => rfl
  | cons c rest => simp only [List.cons_append, name, takeWhile_append_break (p := isNameChar) rfl]

theorem lineComment_of_ne {c d : Char} (h : ¬ (c = '-' ∧ d = '-')) (rest : List Char) :
    lineComment (c :: d :: rest) = none := by
  unfold lineComment
  split
  · next heq => exact absurd ⟨(List.cons.inj heq).1, (List.cons.inj (List.cons.inj heq).2).1⟩ h
  · rfl

theorem stable_lineComment (cs : List Char) : Stable lineComment cs := by
  intro more
  match cs with
  | [] => rfl
  | [c] => simp [lineComment]
  | c :: d :: rest =>
    by_cases hmark : c = '-' ∧ d = '-'
    · obtain ⟨rfl, rfl⟩ := hmark
      simp only [List.cons_append, lineComment, takeWhile_append_break (p := (· != '\n')) rfl]
    · exact (lineComment_of_ne hmark _).trans (lineComment_of_ne hmark _).symm

theorem stable_param (cs : List Char) : Stable param cs := by
  intro more
  cases cs with
  | nil => rfl
  | cons c rest =>
    by_cases hc : c = '$'
    · subst hc
      simp only [List.cons_append, param, digitRun_append]
    · simp [param, hc]

theorem isPrefixOf_append_break {s : List Char} (hs : '\n' ∉ s) (cs more : List Char) :
    s.isPrefixOf (cs ++ '\n' :: more) = s.isPrefixOf cs := by
  induction s generalizing cs with
  | nil => simp
  | cons c s ih =>
    obtain ⟨hc, hs⟩ := not_or.mp (mt List.mem_cons.mpr hs)
    cases cs with
    | nil => simp [List.isPrefixOf, Ne.symm hc]
    | cons d cs => simp only [List.cons_append, List.isPrefixOf_cons_cons, ih hs]

theorem stable_oneOf {spellings : List String} (hs : ∀ s ∈ spellings, '\n' ∉ s.toList)
    (cs : List Char) : Stable (oneOf spellings) cs := by
  intro more
  rw [oneOf, oneOf]
  congr 1
  induction spellings with
  | nil => rfl
  | cons s spellings ih =>
    obtain ⟨hs, hrest⟩ := List.forall_mem_cons.mp hs
    rw [List.find?_cons, List.find?_cons, isPrefixOf_append_break hs, ih hrest]

theorem stable_space {cs : List Char} (h : ∃ c ∈ cs, isSpace c = false) : Stable space cs := by
  intro more
  have hrun : (cs ++ '\n' :: more).takeWhile isSpace = cs.takeWhile isSpace := by
    induction cs with
    | nil => simp at h
    | cons c cs ih =>
      by_cases hc : isSpace c = true
      · obtain ⟨d, hd, hdark⟩ := h
        have hne : d ≠ c := by
          rintro rfl
          exact absurd (hc.symm.trans hdark) nofun
        rw [List.cons_append, List.takeWhile_cons_of_pos hc, List.takeWhile_cons_of_pos hc,
          ih ⟨d, (List.mem_cons.mp hd).resolve_left hne, hdark⟩]
      · rw [List.cons_append, List.takeWhile_cons_of_neg hc, List.takeWhile_cons_of_neg hc]
  rw [space, space, hrun]

end Runs

section Marks

/-- The text opens a comment that does not end in it. -/
def OpensComment (cs : List Char) : Prop := ∃ rest, cs = '/' :: '*' :: rest ∧ blockEnd 2 rest = none

theorem blockEnd_append {cs : List Char} {n k : Nat} (h : blockEnd n cs = some k)
    (more : List Char) : blockEnd n (cs ++ more) = some k := by
  fun_induction blockEnd n cs with
  | case1 => exact h
  | case2 n c rest hne ih =>
    have hne' : ∀ rest', c = '*' → rest ++ more = '/' :: rest' → False := by
      intro rest' hc hrest
      cases rest with
      | nil => simp [blockEnd] at h
      | cons d rest =>
        exact hne rest hc (by rw [(List.cons.inj hrest).1])
    rw [List.cons_append, blockEnd, ih h]
    exact hne'
  | case3 => cases h

theorem blockComment_of_ne {c d : Char} (h : ¬ (c = '/' ∧ d = '*')) (rest : List Char) :
    blockComment (c :: d :: rest) = none := by
  unfold blockComment
  split
  · next heq => exact absurd ⟨(List.cons.inj heq).1, (List.cons.inj (List.cons.inj heq).2).1⟩ h
  · rfl

theorem stable_blockComment {cs : List Char} (h : ¬ OpensComment cs) : Stable blockComment cs := by
  intro more
  match cs with
  | [] => rfl
  | [c] => simp [blockComment]
  | c :: d :: rest =>
    by_cases hmark : c = '/' ∧ d = '*'
    · obtain ⟨rfl, rfl⟩ := hmark
      cases hend : blockEnd 2 rest with
      | none => exact absurd ⟨rest, rfl, hend⟩ h
      | some k => simp only [List.cons_append, blockComment, hend, blockEnd_append hend]
    · exact (blockComment_of_ne hmark _).trans (blockComment_of_ne hmark _).symm

/-- Where a quoted text ends does not change, unless the end was found for want of a closing quote:
then no quote is closed behind it. -/
theorem quoteEnd_append {quote : Char} (hquote : quote ≠ '\n') (n : Nat) (fallback : Option Nat)
    (cs : List Char) :
    (∀ more, quoteEnd quote n fallback (cs ++ '\n' :: more) = quoteEnd quote n fallback cs) ∨
    (quoteEnd quote n fallback cs = fallback ∧ quote ∉ cs) ∨
    ∃ us vs, cs = us ++ quote :: vs ∧ quote ∉ vs ∧
      quoteEnd quote n fallback cs = some (n + us.length) := by
  fun_induction quoteEnd quote n fallback cs with
  | case1 n fallback => exact .inr (.inl ⟨rfl, List.not_mem_nil⟩)
  | case2 n fallback => exact .inl fun more => by simp [quoteEnd, Ne.symm hquote]
  | case3 n fallback c hc => exact .inr (.inl ⟨rfl, by simpa using Ne.symm hc⟩)
  | case4 n fallback rest ih =>
    rcases ih with hsame | ⟨hend, hnone⟩ | ⟨us, vs, rfl, hnone, hend⟩
    · exact .inl fun more => by simpa [quoteEnd] using hsame more
    · exact .inr (.inr ⟨[quote], rest, rfl, hnone, hend⟩)
    · refine .inr (.inr ⟨quote :: quote :: us, vs, rfl, hnone, hend.trans (congrArg some ?_)⟩)
      simp only [List.length_cons]
      omega
  | case5 n fallback d rest hd => exact .inl fun more => by simp [quoteEnd, hd]
  | case6 n fallback c d rest hc ih =>
    rcases ih with hsame | ⟨hend, hnone⟩ | ⟨us, vs, hsplit, hnone, hend⟩
    · exact .inl fun more => by simpa [quoteEnd, hc] using hsame more
    · exact .inr (.inl ⟨hend, by simpa [Ne.symm hc] using hnone⟩)
    · refine .inr (.inr ⟨c :: us, vs, by rw [hsplit, List.cons_append], hnone, hend.trans (congrArg some ?_)⟩)
      simp only [List.length_cons]
      omega

theorem quoteEnd_of_not_mem {quote : Char} {n : Nat} {cs : List Char} (h : quote ∉ cs) :
    quoteEnd quote n none cs = none := by
  induction cs generalizing n with
  | nil => rfl
  | cons c cs ih =>
    obtain ⟨hc, hcs⟩ := not_or.mp (mt List.mem_cons.mpr h)
    cases cs with
    | nil => simp [quoteEnd, Ne.symm hc]
    | cons d cs => rw [quoteEnd, if_neg (Ne.symm hc), ih hcs]

theorem firstMatch_doubleQuote (rest : List Char) : firstMatch ('"' :: rest) =
    (quotedName ('"' :: rest)).map fun n => (n, some Token.quotedName) := by
  have hclass : firstMatch ('"' :: rest) =
      (classes.drop 3).findSome? fun k => (k.1 ('"' :: rest)).map fun n => (n, k.2) := rfl
  rw [hclass]
  cases hname : quotedName ('"' :: rest) with
  | none =>
    have hother : ((classes.drop 4).findSome? fun k =>
        (k.1 ('"' :: rest)).map fun n => (n, k.2)) = none := rfl
    simpa [classes, hname] using hother
  | some n => simp [classes, hname]

theorem firstMatch_quote (rest : List Char) : firstMatch ('\'' :: rest) =
    (string ('\'' :: rest)).map fun n => (n, some Token.string) := by
  have hclass : firstMatch ('\'' :: rest) =
      (classes.drop 4).findSome? fun k => (k.1 ('\'' :: rest)).map fun n => (n, k.2) := rfl
  rw [hclass]
  cases hstring : string ('\'' :: rest) with
  | none =>
    have hother : ((classes.drop 5).findSome? fun k =>
        (k.1 ('\'' :: rest)).map fun n => (n, k.2)) = none := rfl
    simpa [classes, hstring] using hother
  | some n => simp [classes, hstring]

/-- A quoted text that lexemes start with ends where it ends, whatever follows the lexemes: behind a
quote that was split no lexeme starts. -/
theorem stable_quoted {quote : Char} {p : Pattern} {f : Nat → Bool} {make : String → Token}
    {rest gap : List Char} {ls : List Lexeme} (hquote : quote ≠ '\n')
    (hp : ∀ rest, p (quote :: rest) = (quoteEnd quote 1 none rest).filter f)
    (hm : ∀ rest, firstMatch (quote :: rest) = (p (quote :: rest)).map fun n => (n, some make))
    (h : Cuts gap (quote :: rest) ls) : Stable p (quote :: rest) := by
  have hstuck {gap : List Char} {ls : List Lexeme} {rest : List Char} (hnone : p (quote :: rest) = none) :
      ¬ Cuts gap (quote :: rest) ls := not_cuts (by rw [hm, hnone, Option.map_none])
  rcases quoteEnd_append hquote 1 none rest with hsame | ⟨hend, -⟩ | ⟨us, vs, rfl, hnone, hend⟩
  · exact fun more => by rw [List.cons_append, hp, hp, hsame]
  · exact absurd h (hstuck (by rw [hp, hend, Option.filter_none]))
  · by_cases hf : f (1 + us.length) = true
    · have htake : firstMatch (quote :: (us ++ quote :: vs)) = some (1 + us.length, some make) := by
        rw [hm, hp, hend, Option.filter_some, if_pos hf, Option.map_some]
      have hdrop : (quote :: (us ++ quote :: vs)).drop (1 + us.length) = quote :: vs := by
        rw [Nat.add_comm, List.drop_succ_cons, List.drop_left]
      obtain ⟨ms, hms, -⟩ := (cuts_take htake).mp h
      rw [hdrop] at hms
      exact absurd hms (hstuck (by rw [hp, quoteEnd_of_not_mem hnone, Option.filter_none]))
    · exact absurd h (hstuck (by rw [hp, hend, Option.filter_some, if_neg hf]))

theorem stable_quotedName {gap cs : List Char} {ls : List Lexeme} (h : Cuts gap cs ls) :
    Stable quotedName cs := by
  cases cs with
  | nil => exact fun _ => rfl
  | cons c rest =>
    by_cases hc : c = '"'
    · subst hc
      exact stable_quoted (by decide) (fun _ => rfl) firstMatch_doubleQuote h
    · exact fun more => by simp [quotedName, hc]

theorem stable_string {gap cs : List Char} {ls : List Lexeme} (h : Cuts gap cs ls) :
    Stable string cs := by
  cases cs with
  | nil => exact fun _ => rfl
  | cons c rest =>
    by_cases hc : c = '\''
    · subst hc
      have hstring (rest : List Char) :
          string ('\'' :: rest) = (quoteEnd '\'' 1 none rest).filter fun _ => true := by
        cases h : quoteEnd '\'' 1 none rest <;> simp [string, h, Option.filter_some]
      exact stable_quoted (f := fun _ => true) (by decide) hstring firstMatch_quote h
    · exact fun more => by simp [string, hc]

end Marks

section Lengths

/-- The pattern takes no more than there is. -/
def Fits (p : Pattern) : Prop := ∀ cs n, p cs = some n → n ≤ cs.length

theorem exponentRun_le (cs : List Char) : exponentRun cs ≤ cs.length := by
  match cs with
  | [] => exact Nat.le_refl _
  | [c] => simp [exponentRun, digitRun]
  | c :: d :: rest =>
    have hunsigned := digitRun_le (d :: rest)
    have hsigned := digitRun_le rest
    simp only [exponentRun, List.length_cons] at hunsigned ⊢
    by_cases hd : d = '+' ∨ d = '-'
    · rw [if_pos hd, List.drop_succ_cons, List.drop_zero]
      split
      · split <;> omega
      · omega
    · rw [if_neg hd, List.drop_zero]
      split
      · split <;> omega
      · omega

theorem fits_number : Fits number := fun cs n h => by
  simp only [number, Option.ite_none_left_eq_some, Option.some.injEq] at h
  have hmantissa := mantissaRun_le cs
  have hexponent := exponentRun_le (cs.drop (mantissaRun cs))
  rw [List.length_drop] at hexponent
  omega

theorem fits_name : Fits name := fun cs n h => by
  unfold name at h
  split at h
  · next c rest =>
    have hrun := (List.takeWhile_prefix (l := rest) isNameChar).length_le
    simp only [Option.ite_none_right_eq_some, Option.some.injEq] at h
    rw [List.length_cons]
    omega
  · cases h

theorem le_of_blockEnd {cs : List Char} {n k : Nat} (h : blockEnd n cs = some k) :
    k ≤ n + cs.length := by
  fun_induction blockEnd n cs with
  | case1 =>
    cases h
    simp only [List.length_cons]
    omega
  | case2 n c rest _ ih =>
    rw [List.length_cons]
    have := ih h
    omega
  | case3 => cases h

theorem fits_blockComment : Fits blockComment := fun cs n h => by
  unfold blockComment at h
  split at h
  · have := le_of_blockEnd h
    simp only [List.length_cons]
    omega
  · cases h

theorem le_of_quoteEnd {quote : Char} {cs : List Char} {n k : Nat} {fallback : Option Nat}
    (h : quoteEnd quote n fallback cs = some k) (hf : ∀ m ∈ fallback, m ≤ n) :
    k ≤ n + cs.length := by
  fun_induction quoteEnd quote n fallback cs with
  | case1 => exact hf k h
  | case2 => cases h; exact Nat.le_refl _
  | case3 => exact Nat.le_trans (hf k h) (Nat.le_add_right _ _)
  | case4 _ _ _ ih =>
    have := ih h (by simp)
    simp only [List.length_cons]
    omega
  | case5 =>
    cases h
    simp only [List.length_cons]
    omega
  | case6 _ _ _ _ _ _ ih =>
    have := ih h fun m hm => Nat.le_succ_of_le (hf m hm)
    simp only [List.length_cons] at this ⊢
    omega

theorem fits_quotedName : Fits quotedName := fun cs n h => by
  unfold quotedName at h
  split at h
  · have := le_of_quoteEnd (Option.filter_eq_some_iff.mp h).1 nofun
    rw [List.length_cons]
    omega
  · cases h

theorem fits_string : Fits string := fun cs n h => by
  unfold string at h
  split at h
  · have := le_of_quoteEnd h nofun
    rw [List.length_cons]
    omega
  · cases h

theorem fits_space : Fits space := fun cs n h => by
  simp only [space, Option.ite_none_left_eq_some, Option.some.injEq] at h
  exact h.2 ▸ (List.takeWhile_prefix _).length_le

theorem fits_lineComment : Fits lineComment := fun cs n h => by
  unfold lineComment at h
  split at h
  · next rest =>
    have hrun := (List.takeWhile_prefix (l := rest) (· != '\n')).length_le
    cases h
    simp only [List.length_cons]
    omega
  · cases h

theorem fits_param : Fits param := fun cs n h => by
  unfold param at h
  split at h
  · next rest =>
    have hrun := digitRun_le rest
    simp only [Option.ite_none_left_eq_some, Option.some.injEq] at h
    rw [List.length_cons]
    omega
  · cases h

theorem fits_oneOf (spellings : List String) : Fits (oneOf spellings) := fun cs n h => by
  obtain ⟨t, ht, rfl⟩ := Option.map_eq_some_iff.mp h
  have hfits := List.find?_some (p := fun s : String => s.toList.isPrefixOf cs) ht
  exact (List.isPrefixOf_iff_prefix.mp hfits).length_le

theorem fits_classes : ∀ c ∈ classes, Fits c.1 := by
  simp only [classes, List.forall_mem_cons]
  exact ⟨fits_number, fits_name, fits_blockComment, fits_quotedName, fits_string, fits_space,
    fits_lineComment, fits_param, fits_oneOf _, fits_oneOf _, List.forall_mem_nil _⟩

theorem firstMatch_le {cs : List Char} {n : Nat} {kind : Option (String → Token)}
    (h : firstMatch cs = some (n, kind)) : n ≤ cs.length := by
  obtain ⟨c, hc, hmatch⟩ := List.exists_of_findSome?_eq_some h
  obtain ⟨m, hm, ⟨⟩⟩ := Option.map_eq_some_iff.mp hmatch
  exact fits_classes c hc cs n hm

end Lengths

section Cuts

variable {gap cs : List Char} {ls ms : List Lexeme}

theorem firstMatch_append (h : Cuts gap cs ls) (hdark : ∃ c ∈ cs, isSpace c = false)
    (hopen : ¬ OpensComment cs) (more : List Char) :
    firstMatch (cs ++ '\n' :: more) = firstMatch cs := by
  have hoperators : ∀ s ∈ operators, '\n' ∉ s.toList := by decide
  have hsymbols : ∀ s ∈ symbols, '\n' ∉ s.toList := by decide
  simp only [firstMatch, classes, List.findSome?_cons, stable_number cs more, stable_name cs more,
    stable_blockComment hopen more, stable_quotedName h more, stable_string h more,
    stable_space hdark more, stable_lineComment cs more, stable_param cs more,
    stable_oneOf hoperators cs more, stable_oneOf hsymbols cs more, List.findSome?_nil]

/-- A slash and a star that are not the mark of a comment only because no text follows. -/
theorem cuts_of_opensComment (hopen : OpensComment cs) (h : Cuts gap cs ls) :
    ∃ ms, ls.map Lexeme.token = .symbol "/" :: .symbol "*" :: ms := by
  obtain ⟨rest, rfl, hend⟩ := hopen
  have hslash : firstMatch ('/' :: '*' :: rest) = some (1, some .symbol) := by
    have hclass : firstMatch ('/' :: '*' :: rest) =
        (classes.drop 2).findSome? fun k => (k.1 ('/' :: '*' :: rest)).map fun n => (n, k.2) := rfl
    have hother : ((classes.drop 3).findSome? fun k =>
        (k.1 ('/' :: '*' :: rest)).map fun n => (n, k.2)) = some (1, some .symbol) := rfl
    rw [hclass]
    simpa [classes, blockComment, hend] using hother
  have hstar : firstMatch ('*' :: rest) = some (1, some .symbol) := rfl
  obtain ⟨ms, hms, rfl⟩ := (cuts_take hslash).mp h
  obtain ⟨ns, -, rfl⟩ := (cuts_take hstar).mp hms
  exact ⟨ns.map Lexeme.token, rfl⟩

/-- What stands before a text is in the gap before its first lexeme. -/
theorem Cuts.exists_gap (h : Cuts gap cs ls) (gap' : List Char) : ∃ ms, Cuts gap' cs ms ∧
    ls.map Lexeme.token = ms.map Lexeme.token ∧ ls.tail = ms.tail := by
  induction h generalizing gap' with
  | done => exact ⟨[], .done, rfl, rfl⟩
  | skip hm _ ih =>
    obtain ⟨ms, hms, hsame⟩ := ih _
    exact ⟨ms, .skip hm hms, hsame⟩
  | take hm h => exact ⟨_, .take hm h, rfl, rfl⟩

/-- A line break in front changes only the gap before the first lexeme. -/
theorem Cuts.exists_break (h : Cuts gap cs ls) : ∃ ms, Cuts [] ('\n' :: cs) ms ∧
    ls.map Lexeme.token = ms.map Lexeme.token ∧ ls.tail = ms.tail := by
  have hbreak := firstMatch_spaces (c := '\n') rfl cs
  have hrest : ∃ gap', Cuts gap' (cs.drop (cs.takeWhile isSpace).length) ls := by
    cases cs with
    | nil => exact ⟨gap, h⟩
    | cons c rest =>
      by_cases hc : isSpace c = true
      · rw [List.takeWhile_cons_of_pos hc, List.length_cons, Nat.add_comm]
        exact ⟨_, (cuts_skip (firstMatch_spaces hc rest)).mp h⟩
      · rw [List.takeWhile_cons_of_neg hc]
        exact ⟨gap, h⟩
  obtain ⟨gap', hrest⟩ := hrest
  obtain ⟨ms, hms, hsame⟩ := hrest.exists_gap _
  refine ⟨ms, .skip hbreak ?_, hsame⟩
  rw [Nat.add_comm, List.drop_succ_cons]
  exact hms

theorem eq_nil_of_spaces (hspaces : ∀ c ∈ cs, isSpace c = true) (h : Cuts gap cs ls) : ls = [] := by
  cases cs with
  | nil => exact cuts_nil.mp h
  | cons c cs =>
    obtain ⟨hc, hcs⟩ := List.forall_mem_cons.mp hspaces
    have hrest := (cuts_skip (firstMatch_spaces hc cs)).mp h
    have hall : (cs ++ []).takeWhile isSpace = cs ++ [] := List.takeWhile_append_of_pos hcs
    rw [List.append_nil] at hall
    rw [hall, Nat.add_comm, List.drop_succ_cons, List.drop_length] at hrest
    exact cuts_nil.mp hrest

theorem cuts_semicolon {rest : List Char} (hspaces : ∀ c ∈ cs, isSpace c = true)
    (hrest : Cuts [] rest ms) :
    ∃ gap', Cuts gap (cs ++ '\n' :: ';' :: rest) (⟨gap', .symbol ";"⟩ :: ms) := by
  have hmatch : firstMatch (';' :: rest) = some (1, some .symbol) := rfl
  have hsemi (gap : List Char) : Cuts gap (';' :: rest) (⟨gap, .symbol ";"⟩ :: ms) :=
    (cuts_take hmatch).mpr ⟨ms, hrest, rfl⟩
  cases cs with
  | nil => exact ⟨_, (cuts_skip (firstMatch_spaces rfl _)).mpr (hsemi _)⟩
  | cons c cs =>
    obtain ⟨hc, hcs⟩ := List.forall_mem_cons.mp hspaces
    have hrun : (cs ++ '\n' :: ';' :: rest).takeWhile isSpace = cs ++ ['\n'] := by
      rw [List.takeWhile_append_of_pos hcs]
      rfl
    have hdrop : (c :: (cs ++ '\n' :: ';' :: rest)).drop (1 + (cs ++ ['\n']).length) = ';' :: rest := by
      rw [Nat.add_comm, List.drop_succ_cons, List.append_cons cs '\n' (';' :: rest), List.drop_left]
    have hskip := firstMatch_spaces hc (cs ++ '\n' :: ';' :: rest)
    rw [hrun] at hskip
    exact ⟨_, (cuts_skip hskip).mpr (hdrop.symm ▸ hsemi _)⟩

/-- A slash is not followed by a star. -/
def Apart (t u : Token) : Prop := ¬ (t = .symbol "/" ∧ u = .symbol "*")

theorem not_opensComment (h : Cuts gap cs ls) (hapart : (ls.map Lexeme.token).IsChain Apart) :
    ¬ OpensComment cs := by
  intro hopen
  obtain ⟨ts, hts⟩ := cuts_of_opensComment hopen h
  rw [hts] at hapart
  exact (List.isChain_cons_cons.mp hapart).1 ⟨rfl, rfl⟩

/-- The lexemes of a text stay when a line break, a semicolon and further lexemes follow, unless the
further text may close a comment that was none before. -/
theorem Cuts.exists_append (h : Cuts gap cs ls) (hapart : (ls.map Lexeme.token).IsChain Apart)
    {rest : List Char} (hrest : Cuts [] rest ms) :
    ∃ gap', Cuts gap (cs ++ '\n' :: ';' :: rest) (ls ++ ⟨gap', .symbol ";"⟩ :: ms) := by
  induction h with
  | done => exact cuts_semicolon nofun hrest
  | @skip _ cs _ _ hm h ih =>
    have hall := Cuts.skip hm h
    by_cases hspaces : ∀ c ∈ cs, isSpace c = true
    · rw [eq_nil_of_spaces hspaces hall]
      exact cuts_semicolon hspaces hrest
    · obtain ⟨gap', hmore⟩ := ih hapart
      have hmatch := firstMatch_append hall (by simpa using hspaces) (not_opensComment hall hapart)
        (';' :: rest)
      refine ⟨gap', .skip (hmatch.trans hm) ?_⟩
      rwa [List.take_append_of_le_length (firstMatch_le hm),
        List.drop_append_of_le_length (firstMatch_le hm)]
  | @take gap cs _ _ _ hm h ih =>
    have hall : Cuts gap cs _ := .take hm h
    have hspaces : ¬ ∀ c ∈ cs, isSpace c = true := fun hspaces =>
      absurd (eq_nil_of_spaces hspaces hall) nofun
    obtain ⟨gap', hmore⟩ := ih hapart.tail
    have hmatch := firstMatch_append hall (by simpa using hspaces) (not_opensComment hall hapart)
      (';' :: rest)
    rw [← List.drop_append_of_le_length (firstMatch_le hm)] at hmore
    refine ⟨gap', ?_⟩
    rw [← List.take_append_of_le_length (firstMatch_le hm)]
    exact .take (hmatch.trans hm) hmore

end Cuts

end SqlTree.Lexer

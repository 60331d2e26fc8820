import SqlTree.Proofs.RoundTrip.Lexing

/-!
How a text is cut into lexemes, as a relation: at each place the first class that matches decides,
and a class without a token adds what it takes to the gap before the next lexeme.
-/

namespace SqlTree.Lexer

/-- Behind the gap, the whole text is cut into the lexemes. -/
inductive Cuts : List Char → List Char → List Lexeme → Prop
  | done {gap : List Char} : Cuts gap [] []
  | skip {gap cs : List Char} {n : Nat} {ls : List Lexeme} (hm : firstMatch cs = some (n, none))
      (h : Cuts (gap ++ cs.take n) (cs.drop n) ls) : Cuts gap cs ls
  | take {gap cs : List Char} {n : Nat} {make : String → Token} {ls : List Lexeme}
      (hm : firstMatch cs = some (n, some make)) (h : Cuts [] (cs.drop n) ls) :
      Cuts gap cs (⟨gap, make (String.ofList (cs.take n))⟩ :: ls)

section Progress

theorem lt_of_blockEnd {cs : List Char} {n k : Nat} (h : blockEnd n cs = some k) : n < k := by
  fun_induction blockEnd n cs with
  | case1 => cases h; omega
  | case2 n c rest _ ih => exact Nat.lt_of_succ_lt (ih h)
  | case3 => cases h

theorem lt_of_quoteEnd {quote : Char} {cs : List Char} {n k : Nat} {fallback : Option Nat}
    (h : quoteEnd quote n fallback cs = some k) (hn : 0 < n) (hf : ∀ m ∈ fallback, 0 < m) :
    0 < k := by
  fun_induction quoteEnd quote n fallback cs with
  | case1 => exact hf k h
  | case2 => cases h; omega
  | case3 => exact hf k h
  | case4 _ _ _ ih =>
    exact ih h (Nat.succ_pos _) fun m hm => Option.mem_some.mp hm ▸ Nat.succ_pos _
  | case5 => cases h; omega
  | case6 _ _ _ _ _ _ ih => exact ih h (Nat.succ_pos _) hf

/-- What the pattern takes is not empty. -/
def Advances (p : Pattern) : Prop := ∀ cs n, p cs = some n → 0 < n

theorem advances_number : Advances number := fun cs n h => by
  simp only [number, Option.ite_none_left_eq_some, Option.some.injEq] at h
  omega

theorem advances_name : Advances name := fun cs n h => by
  unfold name at h
  split at h
  · simp only [Option.ite_none_right_eq_some, Option.some.injEq] at h
    omega
  · cases h

theorem advances_blockComment : Advances blockComment := fun cs n h => by
  unfold blockComment at h
  split at h
  · exact Nat.lt_trans Nat.two_pos (lt_of_blockEnd h)
  · cases h

theorem advances_quotedName : Advances quotedName := fun cs n h => by
  unfold quotedName at h
  split at h
  · exact lt_of_quoteEnd (Option.filter_eq_some_iff.mp h).1 Nat.one_pos nofun
  · cases h

theorem advances_string : Advances string := fun cs n h => by
  unfold string at h
  split at h
  · exact lt_of_quoteEnd h Nat.one_pos nofun
  · cases h

theorem advances_space : Advances space := fun cs n h => by
  simp only [space, Option.ite_none_left_eq_some, Option.some.injEq] at h
  omega

theorem advances_lineComment : Advances lineComment := fun cs n h => by
  unfold lineComment at h
  split at h
  · cases h
    omega
  · cases h

theorem advances_param : Advances param := fun cs n h => by
  unfold param at h
  split at h
  · simp only [Option.ite_none_left_eq_some, Option.some.injEq] at h
    omega
  · cases h

theorem advances_oneOf {spellings : List String} (hs : "" ∉ spellings) :
    Advances (oneOf spellings) := fun cs n h => by
  obtain ⟨t, ht, rfl⟩ := Option.map_eq_some_iff.mp h
  rw [List.length_pos_iff, ne_eq, String.toList_eq_nil_iff]
  rintro rfl
  exact hs (List.mem_of_find?_eq_some ht)

theorem advances_classes : ∀ c ∈ classes, Advances c.1 := by
  simp only [classes, List.forall_mem_cons]
  exact ⟨advances_number, advances_name, advances_blockComment, advances_quotedName,
    advances_string, advances_space, advances_lineComment, advances_param,
    advances_oneOf (by decide), advances_oneOf (by decide), List.forall_mem_nil _⟩

theorem firstMatch_pos {cs : List Char} {n : Nat} {kind : Option (String → Token)}
    (h : firstMatch cs = some (n, kind)) : 0 < n := by
  obtain ⟨c, hc, hmatch⟩ := List.exists_of_findSome?_eq_some h
  obtain ⟨m, hm, ⟨⟩⟩ := Option.map_eq_some_iff.mp hmatch
  exact advances_classes c hc cs n hm

theorem firstMatch_nil : firstMatch [] = none := by decide

end Progress

section Cuts

variable {gap cs : List Char} {n : Nat} {make : String → Token} {ls : List Lexeme}

theorem cuts_nil : Cuts gap [] ls ↔ ls = [] := by
  constructor
  · rintro (_ | hm | hm)
    · rfl
    all_goals cases firstMatch_nil.symm.trans hm
  · rintro rfl
    exact .done

theorem not_cuts {c : Char} (h : firstMatch (c :: cs) = none) : ¬ Cuts gap (c :: cs) ls := by
  rintro (_ | hm | hm) <;> cases h.symm.trans hm

theorem cuts_skip (h : firstMatch cs = some (n, none)) :
    Cuts gap cs ls ↔ Cuts (gap ++ cs.take n) (cs.drop n) ls := by
  refine ⟨?_, .skip h⟩
  rintro (_ | hm | hm)
  · cases h
  · obtain ⟨rfl, -⟩ := Prod.mk.inj (Option.some.inj (h.symm.trans hm))
    assumption
  · cases h.symm.trans hm

theorem cuts_take (h : firstMatch cs = some (n, some make)) : Cuts gap cs ls ↔
    ∃ ms, Cuts [] (cs.drop n) ms ∧ ls = ⟨gap, make (String.ofList (cs.take n))⟩ :: ms := by
  constructor
  · rintro (_ | hm | hm)
    · cases h
    · cases h.symm.trans hm
    · obtain ⟨rfl, heq⟩ := Prod.mk.inj (Option.some.inj (h.symm.trans hm))
      obtain rfl := Option.some.inj heq
      exact ⟨_, by assumption, rfl⟩
  · rintro ⟨ms, hms, rfl⟩
    exact .take h hms

/-- The relation describes the lexer. -/
theorem cuts_iff_lexUpTo {fuel : Nat} (hfuel : cs.length ≤ fuel) :
    Cuts gap cs ls ↔ lexUpTo fuel gap cs = (ls, []) := by
  induction fuel generalizing gap cs ls with
  | zero =>
    obtain rfl := List.length_eq_zero_iff.mp (Nat.le_zero.mp hfuel)
    simp [cuts_nil, lexUpTo, eq_comm]
  | succ fuel ih =>
    cases cs with
    | nil => simp [cuts_nil, lexUpTo, eq_comm]
    | cons c cs =>
      rcases hm : firstMatch (c :: cs) with _ | ⟨n, kind⟩
      · simp [not_cuts hm, lexUpTo_cons_none hm]
      · obtain ⟨n, rfl⟩ := Nat.exists_eq_succ_of_ne_zero (Nat.ne_of_gt (firstMatch_pos hm))
        have hlen : (cs.drop n).length ≤ fuel := by
          rw [List.length_cons] at hfuel
          rw [List.length_drop]
          omega
        cases kind with
        | none => rw [cuts_skip hm, lexUpTo_cons_skip hm, List.drop_succ_cons, ih hlen]; rfl
        | some make =>
          rw [cuts_take hm, lexUpTo_cons_token hm, List.drop_succ_cons]
          simp only [ih hlen, Nat.succ_sub_one, Prod.mk.injEq]
          constructor
          · rintro ⟨ms, hms, rfl⟩
            simp [hms]
          · rintro ⟨rfl, hstuck⟩
            exact ⟨_, Prod.ext rfl hstuck, rfl⟩

theorem cuts_iff_lex : Cuts [] cs ls ↔ lex cs = (ls, []) := cuts_iff_lexUpTo (Nat.le_refl _)

theorem Cuts.unique {ms : List Lexeme} (h : Cuts gap cs ls) (h' : Cuts gap cs ms) : ls = ms :=
  (Prod.mk.inj (((cuts_iff_lexUpTo (Nat.le_refl _)).mp h).symm.trans
    ((cuts_iff_lexUpTo (Nat.le_refl _)).mp h'))).1

end Cuts

end SqlTree.Lexer

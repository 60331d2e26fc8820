import SqlTree.Proofs.RoundTrip.Spelling
import SqlTree.Proofs.Yields

/-!
The words that may stand in front of a string as its type. They are spelled in lower case, which
never makes a keyword of another word.
-/

namespace SqlTree

namespace Lexer

/-- Besides ASCII characters, names hold the four letters that have the case of one. -/
theorem isNameChar_cases {c : Char} (h : isNameChar c = true) :
    c.toNat < 128 ∨ c = 'ſ' ∨ c = Char.ofNat 0x212A ∨ c = 'İ' ∨ c = 'ı' := by
  have hle : ∀ {d e : Char}, d ≤ e → d.toNat ≤ e.toNat := fun h => UInt32.le_iff_toNat_le.mp h
  have hfold : foldLetter c = c → c.toNat < 128 := by
    intro hsame
    simp only [isNameChar, isNameStart, hsame, Bool.or_eq_true, Bool.and_eq_true,
      decide_eq_true_eq] at h
    rcases h with ((h | rfl) | h) | rfl
    · exact Nat.lt_of_le_of_lt (hle h.2) (by decide)
    · decide
    · exact Nat.lt_of_le_of_lt (hle h.2) (by decide)
    · decide
  unfold foldLetter at hfold
  split at hfold
  · next hupper => exact .inl (Nat.lt_of_le_of_lt (hle hupper.2) (by decide))
  · split at hfold
    · next hs => exact .inr (.inl hs)
    · split at hfold
      · next hk => exact .inr (.inr (.inl (by rw [← hk, Char.ofNat_toNat])))
      · split at hfold
        · next hi => exact .inr (.inr (.inr hi))
        · exact .inl (hfold rfl)

/-- The lower case of a letter is the letter that keywords see, or else no ASCII text. -/
theorem lowerChar_cases {c : Char} (h : isNameChar c = true) :
    c ≠ 'Σ' ∧ '-' ∉ Text.lowerChar c ∧ (Text.lowerChar c = [foldLetter c] ∨
      (Text.lowerChar c).all (fun d => d.toNat < 128) = false) := by
  rcases isNameChar_cases h with hascii | rfl | rfl | rfl | rfl
  · exact Text.of_ascii (P := fun c => isNameChar c = true → c ≠ 'Σ' ∧ '-' ∉ Text.lowerChar c ∧
      (Text.lowerChar c = [foldLetter c] ∨
        (Text.lowerChar c).all (fun d => d.toNat < 128) = false)) (by decide) hascii h
  all_goals decide +kernel

theorem of_name {cs : List Char} {n : Nat} (h : name cs = some n) :
    ∀ c ∈ cs.take n, isNameChar c = true := by
  unfold name at h
  split at h
  · next c rest =>
    obtain ⟨hstart, hn⟩ := Option.ite_none_right_eq_some.mp h
    cases hn
    have hrun : rest.take (rest.takeWhile isNameChar).length = rest.takeWhile isNameChar :=
      (List.prefix_iff_eq_take.mp (List.takeWhile_prefix _)).symm
    rw [Nat.add_comm, List.take_succ_cons, hrun]
    refine List.forall_mem_cons.mpr ⟨by simp [isNameChar, hstart], fun d hd => ?_⟩
    exact List.all_eq_true.mp List.all_takeWhile d hd
  · cases h

end Lexer

namespace Syntax

/-- In lower case a name is a keyword only if it is one to the lexer. -/
theorem isLiteralType_lower {t : String} (hname : ∀ c ∈ t.toList, Lexer.isNameChar c = true)
    (hword : ∀ word, Lexer.nameToken t = .keyword word t → word = "time") :
    isLiteralType (Text.lower t) = true := by
  have hlower := Text.lower_eq_flatMap fun c hc => (Lexer.lowerChar_cases (hname c hc)).1
  have hhyphen : '-' ∉ (Text.lower t).toList := by
    rw [hlower, String.toList_ofList, List.mem_flatMap]
    rintro ⟨c, hc, hmem⟩
    exact (Lexer.lowerChar_cases (hname c hc)).2.1 hmem
  have hkeyword : Text.lower t ∈ Token.keywords → Text.lower t = "time" := by
    intro hmem
    have hascii : (Token.keywords.all fun w => w.toList.all fun c => c.toNat < 128) = true := by
      decide
    have hall := List.all_eq_true.mp hascii _ hmem
    have hfold : Text.lower t = String.ofList (t.toList.map Lexer.foldLetter) := by
      refine Text.lower_eq_map fun c hc => ?_
      obtain ⟨hsigma, -, hfold | hother⟩ := Lexer.lowerChar_cases (hname c hc)
      · exact ⟨hsigma, hfold⟩
      · rw [← Bool.not_eq_true] at hother
        refine absurd (List.all_eq_true.mpr fun d hd => List.all_eq_true.mp hall d ?_) hother
        rw [hlower, String.toList_ofList]
        exact List.mem_flatMap.mpr ⟨c, hc, hd⟩
    refine hfold ▸ hword _ ?_
    rw [hfold] at hmem
    simp [Lexer.nameToken, hmem]
  simp only [isLiteralType, Bool.and_eq_true, Bool.or_eq_true, decide_eq_true_eq,
    Bool.not_eq_true', List.contains_eq_mem, decide_eq_false_iff_not]
  refine ⟨?_, hhyphen⟩
  by_cases hmem : Text.lower t ∈ Token.keywords
  · exact .inl (hkeyword hmem)
  · exact .inr hmem

theorem typeWord_of_firstMatch {cs : List Char} {n : Nat} {make : String → Token} {word : String}
    (h : Lexer.firstMatch cs = some (n, some make))
    (hword : Parser.typeWord? (make (String.ofList (cs.take n))) = some word) :
    isLiteralType (Text.lower word) = true := by
  obtain ⟨c, hc, hmatch⟩ := List.exists_of_findSome?_eq_some h
  obtain ⟨m, hm, heq⟩ := Option.map_eq_some_iff.mp hmatch
  obtain ⟨rfl, hmake⟩ := Prod.mk.inj heq
  simp only [Lexer.classes, List.mem_cons, List.not_mem_nil, or_false] at hc
  rcases hc with rfl | rfl | rfl | rfl | rfl | rfl | rfl | rfl | rfl | rfl <;> cases hmake
  case inr.inl =>
    have hname : ∀ c ∈ (String.ofList (cs.take m)).toList, Lexer.isNameChar c = true := by
      rw [String.toList_ofList]
      exact Lexer.of_name hm
    generalize String.ofList (cs.take m) = t at hname hword
    have hparts : word = t ∧ ∀ w, Lexer.nameToken t = .keyword w t → w = "time" := by
      unfold Lexer.nameToken at hword ⊢
      dsimp only at hword ⊢
      split at hword
      · next hkeyword =>
        obtain ⟨htime, heq⟩ := Option.ite_none_right_eq_some.mp hword
        refine ⟨(Option.some.inj heq).symm, fun w hw => ?_⟩
        rw [if_pos hkeyword] at hw
        exact (Token.keyword.inj hw).1 ▸ htime
      · next hkeyword =>
        refine ⟨(Option.some.inj hword).symm, fun w hw => ?_⟩
        rw [if_neg hkeyword] at hw
        cases hw
    obtain ⟨rfl, htime⟩ := hparts
    exact isLiteralType_lower hname htime
  all_goals cases hword

end Syntax

end SqlTree

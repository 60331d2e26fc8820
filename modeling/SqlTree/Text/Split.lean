/-!
Cutting a text at separators.
-/

namespace SqlTree.Text

/-- The pieces between the separators; there is one more piece than separators. -/
def splitAt (isSeparator : Char → Bool) : List Char → List (List Char)
  | [] => [[]]
  | c :: rest =>
    if isSeparator c then [] :: splitAt isSeparator rest
    else match splitAt isSeparator rest with
      | [] => [[c]]
      | piece :: pieces => (c :: piece) :: pieces

theorem splitAt_of_none {isSeparator : Char → Bool} {cs : List Char}
    (h : ∀ c ∈ cs, isSeparator c = false) : splitAt isSeparator cs = [cs] := by
  induction cs with
  | nil => rfl
  | cons c cs ih => simp [splitAt, h c (by simp), ih fun d hd => h d (by simp [hd])]

theorem splitAt_append_cons {isSeparator : Char → Bool} {cs rest : List Char} {c : Char}
    (h : ∀ d ∈ cs, isSeparator d = false) (hc : isSeparator c = true) :
    splitAt isSeparator (cs ++ c :: rest) = cs :: splitAt isSeparator rest := by
  induction cs with
  | nil => simp [splitAt, hc]
  | cons d cs ih => simp [splitAt, h d (by simp), ih fun e he => h e (by simp [he])]

theorem splitAt_ne_nil (isSeparator : Char → Bool) (cs : List Char) :
    splitAt isSeparator cs ≠ [] := by
  cases cs with
  | nil => simp [splitAt]
  | cons c cs =>
    rw [splitAt]
    split
    · simp
    · split <;> simp

/-- Each separator ends a piece. -/
theorem exists_splitAt_append {isSeparator : Char → Bool} {c : Char} (hc : isSeparator c = true)
    (cs rest : List Char) : ∃ piece pieces,
      splitAt isSeparator (cs ++ c :: rest) = piece :: pieces ++ splitAt isSeparator rest := by
  induction cs with
  | nil => exact ⟨[], [], by simp [splitAt, hc]⟩
  | cons d cs ih =>
    obtain ⟨piece, pieces, h⟩ := ih
    by_cases hd : isSeparator d = true
    · exact ⟨[], piece :: pieces, by simp [splitAt, hd, h]⟩
    · exact ⟨d :: piece, pieces, by simp [splitAt, hd, h]⟩

/-- The pieces of a text hold no separators. -/
theorem not_separator_of_mem {isSeparator : Char → Bool} {cs piece : List Char}
    (h : piece ∈ splitAt isSeparator cs) : ∀ c ∈ piece, isSeparator c = false := by
  induction cs generalizing piece with
  | nil =>
    rw [List.mem_singleton.mp h]
    exact fun _ hc => absurd hc List.not_mem_nil
  | cons d cs ih =>
    by_cases hd : isSeparator d = true
    · rw [splitAt, if_pos hd] at h
      rcases List.mem_cons.mp h with rfl | h
      · exact fun _ hc => absurd hc List.not_mem_nil
      · exact ih h
    · obtain ⟨first, pieces, hsplit⟩ := List.exists_cons_of_ne_nil (splitAt_ne_nil isSeparator cs)
      rw [splitAt, if_neg hd, hsplit] at h
      rw [hsplit] at ih
      rcases List.mem_cons.mp h with rfl | h
      · rintro c hc
        rcases List.mem_cons.mp hc with rfl | hc
        · simpa using hd
        · exact ih List.mem_cons_self c hc
      · exact ih (List.mem_cons_of_mem _ h)

def parts (isSeparator : Char → Bool) (s : String) : List String :=
  (splitAt isSeparator s.toList).map String.ofList

end SqlTree.Text

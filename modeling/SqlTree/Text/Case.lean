import SqlTree.Text.CaseTable

/-!
Upper and lower case of text. A character may change into several, and the lower case of a
capital sigma depends on whether it ends a word.
-/

namespace SqlTree.Text

private def asciiUpper (c : Char) : Char :=
  if 'a' ≤ c && c ≤ 'z' then Char.ofNat (c.toNat - 32) else c

private def asciiLower (c : Char) : Char :=
  if 'A' ≤ c && c ≤ 'Z' then Char.ofNat (c.toNat + 32) else c

private def changeCase (runs : List CaseRun) (expansions : List (Nat × List Nat)) (c : Char) :
    List Char :=
  match expansions.lookup c.toNat with
  | some cs => cs.map Char.ofNat
  | none => [(runs.findSome? (·.move c.toNat)).elim c Char.ofNat]

def upperChar (c : Char) : List Char :=
  if c.toNat < 128 then [asciiUpper c] else changeCase upperRuns upperExpansions c

def lowerChar (c : Char) : List Char :=
  if c.toNat < 128 then [asciiLower c] else changeCase lowerRuns lowerExpansions c

theorem toNat_ofNat_of_pos {n : Nat} (h : 0 < (Char.ofNat n).toNat) : (Char.ofNat n).toNat = n := by
  by_cases hn : n.isValidChar
  · rw [Char.ofNat, dif_pos hn]
    rfl
  · rw [Char.ofNat, dif_neg hn] at h
    cases h

/-- Below the capital letters no character comes from another one. -/
theorem eq_of_mem_upperChar {c d : Char} (h : c ∈ upperChar d) (hpos : 0 < c.toNat)
    (hlow : c.toNat < 65) : c = d := by
  have hexpansions : ∀ e ∈ upperExpansions, ∀ n ∈ e.2, 65 ≤ n := by decide +kernel
  have hruns : ∀ r ∈ upperRuns, (65 : Int) ≤ r.first + r.shift := by decide +kernel
  unfold upperChar at h
  split at h
  · rw [List.mem_singleton] at h
    subst h
    unfold asciiUpper at hlow hpos ⊢
    split
    · next hletter =>
      rw [if_pos hletter] at hlow hpos
      rw [toNat_ofNat_of_pos hpos] at hlow
      rw [Bool.and_eq_true, decide_eq_true_eq, decide_eq_true_eq] at hletter
      have hle : 'a'.toNat ≤ d.toNat := UInt32.le_iff_toNat_le.mp hletter.1
      simp only [Char.reduceToNat] at hle
      omega
    · rfl
  · unfold changeCase at h
    split at h
    · next cs hcs =>
      obtain ⟨n, hn, rfl⟩ := List.mem_map.mp h
      obtain ⟨l₁, l₂, hl, -⟩ := List.lookup_eq_some_iff.mp hcs
      have := hexpansions (d.toNat, cs) (by simp [hl]) n hn
      rw [toNat_ofNat_of_pos hpos] at hlow
      omega
    · rw [List.mem_singleton] at h
      subst h
      cases hmove : upperRuns.findSome? (·.move d.toNat) with
      | none => rfl
      | some n =>
        rw [hmove, Option.elim_some] at hpos hlow
        obtain ⟨r, hr, hrn⟩ := List.exists_of_findSome?_eq_some hmove
        have hfirst := hruns r hr
        unfold CaseRun.move at hrn
        obtain ⟨hrange, hn⟩ := Option.ite_none_right_eq_some.mp hrn
        simp only [Bool.and_eq_true, decide_eq_true_eq] at hrange
        cases hn
        rw [toNat_ofNat_of_pos hpos] at hlow
        omega

def isCaseIgnorable (c : Char) : Bool := inRanges caseIgnorableRanges c

def isCased (c : Char) : Bool := inRanges casedRanges c

/-- The nearest character that counts has a case. -/
private def nextIsCased (cs : List Char) : Bool :=
  (cs.find? fun c => !isCaseIgnorable c).any isCased

/-- Lower case of the text that follows `before`, which is kept reversed. -/
private def lowerAfter (before : List Char) : List Char → List Char
  | [] => []
  | c :: rest =>
    let low :=
      if c = 'Σ' then
        [if nextIsCased before && !nextIsCased rest then 'ς' else 'σ']
      else lowerChar c
    low ++ lowerAfter (c :: before) rest

def upper (s : String) : String := String.ofList (s.toList.flatMap upperChar)

def lower (s : String) : String := String.ofList (lowerAfter [] s.toList)

theorem exists_toList_lower {c d : Char} {s : String} {cs : List Char} (hs : s.toList = c :: cs)
    (hsigma : c ≠ 'Σ') (hd : lowerChar c = [d]) : ∃ ds, (lower s).toList = d :: ds := by
  refine ⟨lowerAfter [c] cs, ?_⟩
  rw [lower, String.toList_ofList, hs, lowerAfter]
  simp [hsigma, hd]

/-- Without a capital sigma every character has its lower case on its own. -/
theorem lower_eq_flatMap {s : String} (h : ∀ c ∈ s.toList, c ≠ 'Σ') :
    lower s = String.ofList (s.toList.flatMap lowerChar) := by
  have hafter : ∀ cs : List Char, (∀ c ∈ cs, c ≠ 'Σ') →
      ∀ before, lowerAfter before cs = cs.flatMap lowerChar := by
    intro cs
    induction cs with
    | nil => intros; rfl
    | cons c cs ih =>
      intro h before
      rw [lowerAfter, if_neg (h c (by simp)), ih (fun d hd => h d (by simp [hd]))]
      rfl
  rw [lower, hafter _ h]

theorem lower_eq_map {f : Char → Char} {s : String}
    (h : ∀ c ∈ s.toList, c ≠ 'Σ' ∧ lowerChar c = [f c]) :
    lower s = String.ofList (s.toList.map f) := by
  have hmap : ∀ cs : List Char, (∀ c ∈ cs, c ≠ 'Σ' ∧ lowerChar c = [f c]) →
      cs.flatMap lowerChar = cs.map f := by
    intro cs
    induction cs with
    | nil => intros; rfl
    | cons c cs ih =>
      intro h
      rw [List.flatMap_cons, (h c (by simp)).2, ih (fun d hd => h d (by simp [hd]))]
      rfl
  rw [lower_eq_flatMap fun c hc => (h c hc).1, hmap _ h]

theorem lower_eq_self {s : String} (h : ∀ c ∈ s.toList, c ≠ 'Σ' ∧ lowerChar c = [c]) :
    lower s = s := by
  rw [lower_eq_map h, List.map_id', String.ofList_toList]

end SqlTree.Text

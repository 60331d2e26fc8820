import SqlTree.Proofs.RoundTrip.Levels

/-! The tokens that end the clauses of a query. The clauses come in a fixed order, so in front of
the first word of one of them all earlier ones are finished. -/

namespace SqlTree

/-- The first words of the clauses behind the items of a selection, or the changes of rows. -/
def clauseRanks : List (String × Nat) :=
  [("from", 1), ("inner", 2), ("left", 2), ("right", 2), ("full", 2), ("cross", 2), ("where", 3),
   ("group", 4), ("having", 5), ("intersect", 6), ("union", 7), ("except", 7), ("order", 8),
   ("limit", 9), ("offset", 10), ("returning", 11)]

/-- The clause that a token starts; 11 for what ends every query. -/
def Token.rank : Token → Nat
  | .keyword w _ => (clauseRanks.lookup w).getD 0
  | .symbol t => if t = ")" then 11 else 0
  | _ => 0

namespace Syntax.Parser

/-- All clauses up to `k` are finished in front of the token. -/
def Closes (k : Nat) (o : Option Token) : Prop := ∀ t ∈ o, k < t.rank

theorem Closes.mono {j k : Nat} {o : Option Token} (h : Closes k o) (hjk : j ≤ k) : Closes j o :=
  fun t ht => Nat.lt_of_le_of_lt hjk (h t ht)

theorem clauseRanks_words : ∀ e ∈ clauseRanks,
    wordLevels.lookup e.1 = none ∧ e.1 ∉ Token.unreserved := by
  decide

theorem mem_clauseRanks {w : String} (h : 0 < (clauseRanks.lookup w).getD 0) :
    ∃ k, (w, k) ∈ clauseRanks := by
  cases hl : clauseRanks.lookup w with
  | none => simp [hl] at h
  | some k =>
    obtain ⟨xs, ys, hxs, -⟩ := List.lookup_eq_some_iff.mp hl
    exact ⟨k, by simp [hxs]⟩

theorem rank_pos {t : Token} (h : 0 < t.rank) : isName (some t) = false ∧ 10 < t.level := by
  cases t with
  | keyword w text =>
    obtain ⟨k, hk⟩ := mem_clauseRanks h
    obtain ⟨hlookup, hun⟩ := clauseRanks_words _ hk
    have hun : w ∉ Token.unreserved := hun
    have hlookup : wordLevels.lookup w = none := hlookup
    simp [isName, nameOf?, Token.level, hun, hlookup]
  | symbol s =>
    obtain rfl : s = ")" := by
      by_contra hs
      simp [Token.rank, hs] at h
    decide
  | _ => cases h

namespace Closes

variable {k : Nat} {o : Option Token}

theorem ends (h : Closes k o) : Ends 10 o :=
  fun t ht => (rank_pos (Nat.lt_of_le_of_lt (Nat.zero_le k) (h t ht))).2

theorem isName (h : Closes k o) : isName o = false := by
  cases o with
  | none => rfl
  | some t => exact (rank_pos (Nat.lt_of_le_of_lt (Nat.zero_le k) (h t rfl))).1

theorem isKeyword {w : String} (h : Closes k o) (hw : (clauseRanks.lookup w).getD 0 ≤ k) :
    isKeyword w o = false := by
  match o with
  | none => rfl
  | some t =>
    have ht := h t rfl
    cases t with
    | keyword v text =>
      by_cases hv : v = w
      · subst hv
        simp only [Token.rank] at ht
        omega
      · simp [Parser.isKeyword, hv]
    | _ => rfl

theorem isSymbol {s : String} (h : Closes k o) (hs : s ≠ ")") : isSymbol s o = false := by
  match o with
  | none => rfl
  | some t =>
    have ht := h t rfl
    cases t with
    | symbol v =>
      by_cases hv : v = ")"
      · subst hv
        simpa [Parser.isSymbol] using fun h => hs h.symm
      · simp [Token.rank, hv] at ht
    | _ => rfl

/-- Tokens that start a clause after the `k`-th, or none, come before what ends the `k`-th. -/
theorem ahead {ts : List Token} (h : Closes k o) (hts : ∀ t ∈ ts.head?, k < t.rank) :
    Closes k (ahead ts o) := by
  cases ts with
  | nil => exact h
  | cons t ts =>
    rintro _ ⟨⟩
    exact hts t rfl

theorem close : Closes 10 (some (.symbol ")")) := by
  rintro _ ⟨⟩
  decide

end Closes

theorem ahead_append (ts us : List Token) (o : Option Token) :
    ahead (ts ++ us) o = ahead ts (ahead us o) := by
  cases ts <;> rfl

section Items

variable {k : Nat} {o : Option Token}

theorem OrSign.ends (h : OrSign "," (Closes k) o) : Ends 10 o := by
  rcases h with rfl | h
  · rintro _ ⟨⟩
    decide
  · exact h.ends

theorem OrSign.isName (h : OrSign "," (Closes k) o) : isName o = false := by
  rcases h with rfl | h
  · rfl
  · exact h.isName

theorem OrSign.isKeyword {w : String} (h : OrSign "," (Closes k) o)
    (hw : (clauseRanks.lookup w).getD 0 ≤ k) : isKeyword w o = false := by
  rcases h with rfl | h
  · rfl
  · exact h.isKeyword hw

theorem OrSign.isSymbol {s : String} (h : OrSign "," (Closes k) o) (hs : s ≠ ")")
    (hcomma : s ≠ ",") : isSymbol s o = false := by
  rcases h with rfl | h
  · simpa [Parser.isSymbol] using fun h => hcomma h.symm
  · exact h.isSymbol hs

end Items

end Syntax.Parser

end SqlTree

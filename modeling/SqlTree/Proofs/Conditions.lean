import SqlTree.Proofs.Conditions.Selection

/-! Conditions that are parsed and formatted again. A null literal that is an operand of `AND` or
`OR` is dropped, so their truth values stay the same only where the other operands decide. -/

namespace SqlTree

open Syntax.Parser

namespace Condition

variable {w : String} {ls : List Lexeme} {c : Condition}

theorem not_blank_query (w : String) : isBlankText ("SELECT * FROM t WHERE " ++ w) = false := by
  simp [isBlankText]

/-- The query for a condition is parsed as its clauses. -/
theorem Written.parse_query (hlex : Lexer.lex w.toList = (ls, []))
    (hc : Written .whole c (ls.map Lexeme.token)) :
    ∃ levels : Nat, ∀ maxDepth : Int, levels ≤ maxDepth →
      parse maxDepth ("SELECT * FROM t WHERE " ++ w) =
        .ok (.map (blockEntries (clauses c.meaning.value))) := by
  obtain ⟨ls', hls', htokens⟩ := lex_query hlex
  have hlen : (ls.map Lexeme.token).length < ls'.length := by
    have h := congrArg List.length htokens
    simp only [queryTokens, rowTokens, List.length_map, List.length_append, List.length_cons] at h ⊢
    omega
  have htake := commands_of_command (fun _ => rfl) (command_takes hc hlen)
  obtain ⟨_, hcs, _, rfl, rfl⟩ := htake ls' [] htokens rfl
  rw [List.append_nil] at hcs
  exact parse_of_reads (not_blank_query w) (commandsOf_of_lex hls' hcs) c.statement_reads

/-- The query for a condition is formatted with a condition that has the truth values of the first
one without its null operands. It has the truth values of the first one itself if these are the
same, as they are where no operand is a null literal. -/
theorem truth_of_formatted (hlex : Lexer.lex w.toList = (ls, []))
    (hc : Written .whole c (ls.map Lexeme.token)) (hstable : c.IsStable) :
    ∃ levels : Nat, ∀ renderDepth parseDepth : Int, levels ≤ renderDepth → levels ≤ parseDepth →
      ∃ v out d, parse parseDepth ("SELECT * FROM t WHERE " ++ w) = .ok v ∧
        format .standard { inline := true, maxDepth := some renderDepth } v = .ok out ∧
        Selects out.sql d ∧
        (∀ ρ, rowTruth ρ d = if c.isNull then some true else c.keptEval ρ) ∧
        ((∀ ρ, rowTruth ρ d = c.eval ρ) ↔ c.isNull = false ∧ ∀ ρ, c.keptEval ρ = c.eval ρ) ∧
        (c.isNull = false → c.NullsApart → ∀ ρ, rowTruth ρ d = c.eval ρ) := by
  obtain ⟨f, d, hf, hd, htruth⟩ := exists_selects hstable
  obtain ⟨j, hj⟩ := hc.parse_query hlex
  obtain ⟨k, hk⟩ := format_of_gives (form_of_known (fun _ hk => hk) block_known) hf
  have hsame : (∀ ρ, rowTruth ρ d = c.eval ρ) ↔
      c.isNull = false ∧ ∀ ρ, c.keptEval ρ = c.eval ρ := by
    cases hnull : c.isNull with
    | false =>
      simp only [htruth, hnull, Bool.false_eq_true, if_false, true_and]
    | true =>
      have hunknown := eval_of_isNull hnull fun _ => none
      simp only [htruth, hnull, if_true, reduceCtorEq, false_and, iff_false, not_forall]
      exact ⟨fun _ => none, by rw [hunknown]; exact nofun⟩
  refine ⟨max j k, fun renderDepth parseDepth hrender hparse =>
    ⟨_, _, d, hj parseDepth (by omega), hk renderDepth (by omega), hd, htruth, hsame, ?_⟩⟩
  exact fun hnull happart => hsame.mpr ⟨hnull, fun ρ => keptEval_eq happart ρ⟩

section Samples

/-- `NOT a OR b` -/
def plainSample : Condition := .connected .or (.not (.column [⟨"a", false⟩])) (.column [⟨"b", false⟩])

theorem truth_of_plainSample :
    ∃ levels : Nat, ∀ renderDepth parseDepth : Int, levels ≤ renderDepth → levels ≤ parseDepth →
      ∃ v out d, parse parseDepth ("SELECT * FROM t WHERE " ++ "NOT a OR b") = .ok v ∧
        format .standard { inline := true, maxDepth := some renderDepth } v = .ok out ∧
        Selects out.sql d ∧
        (∀ ρ, rowTruth ρ d = if plainSample.isNull then some true else plainSample.keptEval ρ) ∧
        ((∀ ρ, rowTruth ρ d = plainSample.eval ρ) ↔
          plainSample.isNull = false ∧ ∀ ρ, plainSample.keptEval ρ = plainSample.eval ρ) ∧
        (plainSample.isNull = false → plainSample.NullsApart →
          ∀ ρ, rowTruth ρ d = plainSample.eval ρ) := by
  have hlex : Lexer.lex "NOT a OR b".toList = (_, []) := rfl
  have hcolumn : ∀ t : String, Written .operand (.column [⟨t, false⟩]) [.name t] := fun t =>
    .column (.mk rfl .nil)
  have hstable : ∀ t ∈ ["a", "b"], Syntax.Path.IsStable [⟨t, false⟩] := by
    intro t ht
    have hpart : IsPathPart t := by
      constructor <;> revert t <;> decide
    have hlower : ∀ t ∈ ["a", "b"], Text.lower t = t := by decide
    exact ⟨List.cons_ne_nil _ _, List.forall_mem_singleton.mpr hpart,
      List.forall_mem_singleton.mpr fun _ => .inl (hlower t ht)⟩
  refine truth_of_formatted (c := plainSample) hlex ?_ ⟨hstable "a" (by decide), hstable "b" (by decide)⟩
  exact .or (.whole (.term (.not rfl (.factor (hcolumn "a"))))) rfl (.term (.factor (hcolumn "b")))

/-- `a AND NULL` is unknown where `a` is true, and is formatted as `a`. -/
theorem null_operand_dropped :
    ((parse defaultParseDepth "SELECT * FROM t WHERE a AND NULL").bind
      (format .standard { inline := true })).toOption.map Formatted.sql =
        some "SELECT * FROM t WHERE a" ∧
    Selects "SELECT * FROM t WHERE a AND NULL"
      (some (.connected .and (.column [⟨"a", false⟩]) .null)) ∧
    Selects "SELECT * FROM t WHERE a" (some (.column [⟨"a", false⟩])) ∧
    eval (fun _ => some true) (.connected .and (.column [⟨"a", false⟩]) .null) = none ∧
    eval (fun _ => some true) (.column [⟨"a", false⟩]) = some true := by
  have hcolumn : Written .factor (.column [⟨"a", false⟩]) [.name "a"] :=
    .factor (.column (.mk rfl .nil))
  refine ⟨by decide +kernel, ?_, ?_, rfl, rfl⟩
  · obtain ⟨ls, hls, htokens⟩ := lex_query (w := "a AND NULL") rfl
    exact .only hls htokens (.whole (.and (.term hcolumn) rfl (.factor (.null rfl))))
  · obtain ⟨ls, hls, htokens⟩ := lex_query (w := "a") rfl
    exact .only hls htokens (.whole (.term hcolumn))

end Samples

end Condition

end SqlTree

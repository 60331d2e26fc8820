import SqlTree.Proofs.Nesting
import SqlTree.Proofs.Placeholders
import SqlTree.Proofs.SetOperations.Queries

/-!
Set operations keep their value, whatever they stand for: the tree of a text, the clause map that is
made of it, and the text that is formatted from that have the same one.
-/

namespace SqlTree.SetOperations

open Nesting (column orderByA parse_of_commands)
open Syntax.Parser (commandsOf_of_lex)
open Syntax (Command Query Tree)

/-- A combination of `SELECT`s becomes a clause map that is formatted as a text of marks, which is read
by the grammar. In every interpretation that ignores tails for which nothing is written, the tree, the
map and the marks have one value. -/
theorem value_of_formatted (R : Type) {sql : String} {maxDepth : Int} {q : Query}
    {cs : List Command} {v : Value} {o : Options} {s : Settings} {out : Formatted}
    (hcommands : Syntax.commandsOf sql = .ok (.statement (.queryStatement q) :: cs))
    (hq : Combination q) (hparse : parse maxDepth sql = .ok v)
    (hs : Settings.ofOptions .standard o = .ok s) (hformat : format .standard o v = .ok out) :
    ∃ ms f, TextOf s ms f ∧ out.sql = f.sql s.dialect s.numbered ∧
      (∀ tss, Spelled ms tss → Grammar.Derives Grammar.Rule.query tss.flatten) ∧
      ∀ I : Interpretation R, I.Ignores s →
        ∃ x, I.value q ⟨maxDepth, 1⟩ = .ok x ∧ I.ofMap v = some x ∧
          ∀ y, Reads I .query ms y ↔ y = x := by
  obtain ⟨c, cs', es, hfirst, hes, rfl⟩ := Syntax.exists_read_of_parse hparse
  rw [hcommands] at hfirst
  cases hfirst
  have hvalue : ∀ {S : Type} (I : Interpretation S), ∃ x, I.value q ⟨maxDepth, 1⟩ = .ok x ∧
      Combined I es x := by
    intro S I
    have hregular := Syntax.regular_of_commandsOf (N := fun _ => true) hcommands (fun _ _ _ _ => rfl)
      _ List.mem_cons_self
    cases q with
    | query ctes body order limits lock =>
      have hbody := (of_node (of_node (of_node (of_node hregular).2).1).1).2
      exact exists_of_query I (fun h hes => exists_of_body I body h hbody hes) hq hes
  obtain ⟨s', f, n, hs', hf, rfl⟩ := format_eq_ok_iff.mp hformat
  rw [hs] at hs'
  cases hs'
  obtain ⟨hregistry, -, horder⟩ := Settings.ofOptions_keeps hs
  obtain ⟨x, -, hcombined⟩ := hvalue (.pointwise fun I : Interpretation R => I.Ignores s)
  have hclause : isStatement es = true := isStatement_of_clause hcombined.form
  rw [fragment, fragmentBy, if_pos hclause] at hf
  have hstatement : Render.statement (Render.upTo _) (s.within s.statement) false es 0 = .ok (f, n) := hf
  obtain ⟨g, hwritten, hg⟩ := writtenAs_of_statement hstatement
  obtain rfl : f = g := hg
  obtain ⟨ms, hms, hreads⟩ := marks_of_query hregistry horder Interpretation.ignores_pointwise hcombined
    hwritten
  refine ⟨ms, f, hms, rfl, fun tss => hreads.derives, fun I hI => ?_⟩
  obtain ⟨y, hy, hmap⟩ := hvalue I
  have hsame : some (x ⟨I, hI⟩) = some y :=
    (ofMap_of_combined (hcombined.at ⟨I, hI⟩)).symm.trans (ofMap_of_combined hmap)
  rw [Option.some.injEq] at hsame
  refine ⟨y, hy, ofMap_of_combined hmap, fun z => ⟨fun hz => ?_, ?_⟩⟩
  · exact hsame ▸ hz.unique (hreads.at ⟨I, hI⟩)
  · rintro rfl
    exact hsame ▸ hreads.at ⟨I, hI⟩

section Samples

def selection (name : String) : Tree .body :=
  .selectBody (.select .absent (.cons (.item (column name)) .nil) .nil .absent .nil .absent)

def mixedText : String := "(SELECT a ORDER BY a) UNION SELECT b INTERSECT SELECT c EXCEPT SELECT d"

def mixed : Query :=
  .query .absent (.operation .except
    (.operation .union (.nested (.query .absent (selection "a") orderByA .nil none))
      (.operation .intersect (selection "b") (selection "c")))
    (selection "d")) .nil .nil none

theorem commandsOf_mixed :
    Syntax.commandsOf mixedText = .ok [.statement (.queryStatement mixed)] := by
  have hlex : Lexer.lex mixedText.toList =
      ([⟨[], .symbol "("⟩, ⟨[], .keyword "select" "SELECT"⟩, ⟨[' '], .name "a"⟩,
        ⟨[' '], .keyword "order" "ORDER"⟩, ⟨[' '], .keyword "by" "BY"⟩, ⟨[' '], .name "a"⟩,
        ⟨[], .symbol ")"⟩, ⟨[' '], .keyword "union" "UNION"⟩, ⟨[' '], .keyword "select" "SELECT"⟩,
        ⟨[' '], .name "b"⟩, ⟨[' '], .keyword "intersect" "INTERSECT"⟩,
        ⟨[' '], .keyword "select" "SELECT"⟩, ⟨[' '], .name "c"⟩,
        ⟨[' '], .keyword "except" "EXCEPT"⟩, ⟨[' '], .keyword "select" "SELECT"⟩,
        ⟨[' '], .name "d"⟩], []) := by
    decide +kernel
  exact commandsOf_of_lex hlex rfl

theorem combination_mixed : Combination mixed :=
  .plain (.operation (.operation (.nested (.query nofun (.select _)))
    (.operation (.select _) (.select _))) (.select _))

/-- Spells out how the operands are grouped and what is ordered. -/
def grouped : Interpretation String where
  select es :=
    match Entries.field? es "select" with
    | some (.list [.text name]) => name
    | _ => ""
  operation op x y := "(" ++ x ++ " " ++ op.clause ++ " " ++ y ++ ")"
  tail t x := if (t .order).isSome then "ordered " ++ x else x
  withs _ x := "with " ++ x

theorem ignores_grouped (s : Settings) : grouped.Ignores s := by
  have htailed : ∀ t : Tail, grouped.tailed t = fun x =>
      if (t .order).isSome then "ordered " ++ x else x := by
    intro t
    funext x
    unfold Interpretation.tailed
    split
    · next hempty =>
      have hnone := List.all_eq_true.mp hempty .order (by decide)
      rw [Option.isNone_iff_eq_none] at hnone
      simp [hnone]
    · rfl
  intro t e v he _ _
  rw [htailed, htailed, Function.update_of_ne he.symm]

/-- The groups of a text are kept, by flat branches where that is enough and else by parentheses. -/
theorem value_of_mixed : ∃ v out s ms f, parse defaultParseDepth mixedText = .ok v ∧
    Settings.ofOptions .standard {} = .ok s ∧ format .standard {} v = .ok out ∧
    out.sql = "((SELECT a ORDER BY a) UNION (SELECT b INTERSECT SELECT c)) EXCEPT SELECT d" ∧
    TextOf s ms f ∧ out.sql = f.sql s.dialect s.numbered ∧
    grouped.ofMap v = some "((ordered a union (b intersect c)) except d)" ∧
    ∀ y, Reads grouped .query ms y ↔ y = "((ordered a union (b intersect c)) except d)" := by
  have htext : ((parse defaultParseDepth mixedText).bind (format .standard {})).toOption.map
      Formatted.sql =
        some "((SELECT a ORDER BY a) UNION (SELECT b INTERSECT SELECT c)) EXCEPT SELECT d" := by
    decide +kernel
  have hvalue : (grouped.value mixed ⟨defaultParseDepth, 1⟩).toOption =
      some "((ordered a union (b intersect c)) except d)" := by
    decide +kernel
  obtain ⟨s, hs⟩ : ∃ s, Settings.ofOptions .standard {} = .ok s := ⟨_, rfl⟩
  cases hparse : parse defaultParseDepth mixedText with
  | error e =>
    rw [hparse] at htext
    cases htext
  | ok v =>
    rw [hparse] at htext
    cases hformat : format .standard {} v with
    | error e =>
      simp [Except.bind, hformat, Except.toOption] at htext
    | ok out =>
      obtain ⟨ms, f, hms, hsql, -, hreads⟩ :=
        value_of_formatted String commandsOf_mixed combination_mixed hparse hs hformat
      obtain ⟨x, hx, hmap, hreads⟩ := hreads grouped (ignores_grouped s)
      rw [hx] at hvalue
      obtain rfl := Option.some.inj hvalue
      simp only [Except.bind, hformat, Except.toOption, Option.map_some, Option.some.injEq] at htext
      exact ⟨v, out, s, ms, f, rfl, hs, hformat, htext, hms, hsql, hmap, hreads⟩

def limited : Query :=
  .query .absent (.operation .union
    (.nested (.query .absent (selection "a") .nil (.cons (.limit .null) .nil) none))
    (selection "b")) .nil .nil none

def unlimited : Query :=
  .query .absent (.operation .union
    (.nested (.query .absent (selection "a") .nil .nil none)) (selection "b")) .nil .nil none

/-- The number of tails. -/
def counted : Interpretation Nat where
  select _ := 0
  operation _ x y := x + y
  tail _ x := x + 1
  withs _ x := x

/-- A limit of `NULL` is in the clause map but nothing is written for it. -/
theorem value_of_null_limit_not_written :
    Syntax.commandsOf "(SELECT a LIMIT NULL) UNION SELECT b" =
      .ok [.statement (.queryStatement limited)] ∧
    Combination limited ∧
    ((parse defaultParseDepth "(SELECT a LIMIT NULL) UNION SELECT b").bind
      (format .standard {})).toOption.map Formatted.sql = some "(SELECT a) UNION SELECT b" ∧
    Syntax.commandsOf "(SELECT a) UNION SELECT b" = .ok [.statement (.queryStatement unlimited)] ∧
    (counted.value limited ⟨defaultParseDepth, 1⟩).toOption = some 1 ∧
    (counted.value unlimited ⟨defaultParseDepth, 1⟩).toOption = some 0 := by
  have hlimited : Lexer.lex "(SELECT a LIMIT NULL) UNION SELECT b".toList =
      ([⟨[], .symbol "("⟩, ⟨[], .keyword "select" "SELECT"⟩, ⟨[' '], .name "a"⟩,
        ⟨[' '], .keyword "limit" "LIMIT"⟩, ⟨[' '], .keyword "null" "NULL"⟩, ⟨[], .symbol ")"⟩,
        ⟨[' '], .keyword "union" "UNION"⟩, ⟨[' '], .keyword "select" "SELECT"⟩,
        ⟨[' '], .name "b"⟩], []) := by
    decide +kernel
  have hunlimited : Lexer.lex "(SELECT a) UNION SELECT b".toList =
      ([⟨[], .symbol "("⟩, ⟨[], .keyword "select" "SELECT"⟩, ⟨[' '], .name "a"⟩, ⟨[], .symbol ")"⟩,
        ⟨[' '], .keyword "union" "UNION"⟩, ⟨[' '], .keyword "select" "SELECT"⟩,
        ⟨[' '], .name "b"⟩], []) := by
    decide +kernel
  refine ⟨commandsOf_of_lex hlimited rfl, ?_, by decide +kernel, commandsOf_of_lex hunlimited rfl,
    by decide +kernel, by decide +kernel⟩
  exact .plain (.operation (.nested (.query nofun (.select _))) (.select _))

end Samples

end SqlTree.SetOperations

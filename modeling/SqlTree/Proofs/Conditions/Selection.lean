import SqlTree.Proofs.Conditions.Rendering
import SqlTree.Proofs.RoundTrip

/-! The rows of a table for which a condition is true: how the query is parsed, and how it is
rendered. -/

namespace SqlTree

open Syntax (Reads Expr Tree Query Statement Command Nested)
open Lexer (Spells nameToken Lexed)
open Render (Writes)
open Syntax.Parser

namespace Syntax.Parser

variable {n : Nat} {ts : List Token} {post : Tree .select → Prop}

/-- The list that holds the table `t` alone. -/
theorem loneTable_takes {p : Nested} : Takes (table p) [nameToken "t"] TableEnd
    (· = .relation [⟨"t", false⟩] none) := by
  have halias : Takes (aliasName >>= fun name => pure (Tree.relation (["t"].map bare) name)) []
      TableEnd (· = .relation [⟨"t", false⟩] none) := by
    refine (aliasName_absent fun o ho => ⟨ho.name, ho.keyword⟩).map ?_
    rintro _ rfl
    rfl
  exact namedTable_takes (fun o ho => ⟨ho.dot, ho.paren⟩) halias

theorem loneSource_takes : Takes (source (nested n)) [nameToken "t"] (OrSign "," (Closes 2))
    (.source (.relation [⟨"t", false⟩] none) .nil = ·) := by
  have hnone : ∀ j ∈ ([] : List JoinEntry),
      JoinedBy j.kind j.value j.tokens ∧ j.tokens.length < n := nofun
  refine loneTable_takes.andThen ?_ fun _ ho => ho.tableEnd
  rintro _ rfl
  refine (joins_take hnone).map ?_
  rintro _ (_ | _)
  rfl

theorem fromLone_takes : Takes (fromClause (nested n)) [nameToken "FROM", nameToken "t"] (Closes 2)
    (· = some [.source (.relation [⟨"t", false⟩] none) .nil]) := by
  refine optional_takes rfl ((commas_takes (fun o (ho : Closes 2 o) => ho.isSymbol (by decide))
    (List.cons_ne_nil _ []) (.cons loneSource_takes .nil)).mono (fun _ => id) ?_)
  rintro _ (_ | ⟨rfl, _ | _⟩)
  rfl

/-- A selection that nothing stands around is a query. -/
theorem queryRest_takes_select (h : Takes (select (nested n)) ts (Closes 5) post) :
    Takes (queryRest (nested n) none) (nameToken "SELECT" :: ts) (Closes 10)
      fun q => ∃ s, post s ∧ q = .query .absent (.selectBody s) .nil .nil none := by
  have heq : queryRest (nested n) none = (bodyPrimary (nested n) >>= bodyFrom (nested n)) >>=
      fun body => do
        let order ← orderClause (nested n)
        let limits ← limits (nested n)
        return .query (.ofOption none) body (.ofList (order.getD [])) (.ofList limits) (← lock) := by
    rw [bind_assoc]
    rfl
  rw [heq]
  have hbody : Takes (bodyPrimary (nested n) >>= bodyFrom (nested n)) (nameToken "SELECT" :: ts)
      (Closes 7) fun b => ∃ s, post s ∧ b = .selectBody s := by
    have hselect : Takes (bodyPrimary (nested n)) (nameToken "SELECT" :: ts) (Closes 5)
        fun b => ∃ s, post s ∧ b = .selectBody s :=
      .withKeyword rfl (h.map fun s hs => ⟨s, hs, rfl⟩)
    exact hselect.andThen (fun b hb => bodyFrom_absent hb) fun _ ho => ho.mono (by decide)
  refine hbody.andThen ?_ fun _ ho => ho.mono (by decide)
  rintro _ ⟨s, hs, rfl⟩
  refine (optional_none fun o (ho : Closes 10 o) => ho.isKeyword (by decide)).andThen ?_
    fun _ ho => ho
  rintro _ rfl
  have hlimits : Takes (limits (nested n)) [] (Closes 10) (· = []) := by
    refine .noKeyword (fun o ho => ho.isKeyword (by decide)) ?_
    refine .noKeyword (fun o ho => ho.isKeyword (by decide)) (fetch_absent.map ?_)
    rintro _ rfl
    rfl
  refine hlimits.andThen ?_ fun _ ho => ho
  rintro _ rfl
  refine (optional_none fun o (ho : Closes 10 o) => ho.isKeyword (by decide)).map ?_
  rintro _ rfl
  exact ⟨s, hs, rfl⟩

/-- A selection is read as the one command of its text. -/
theorem command_takes_select (h : Takes (select (nested n)) ts (Closes 5) post) :
    Takes (command (nested n)) (nameToken "SELECT" :: ts) (· = none) fun c => ∃ s, post s ∧
      c = .statement (.queryStatement (.query .absent (.selectBody s) .nil .nil none)) := by
  have hend : ∀ o : Option Token, o = none → Closes 10 o := by
    rintro _ rfl _ ⟨⟩
  refine .noKeyword (fun _ _ => rfl) ?_
  refine .noKeyword (fun _ _ => rfl) ?_
  refine .noKeyword (fun _ _ => rfl) ?_
  refine .noKeyword (fun _ _ => rfl) ?_
  have hstatement : Takes (statement (nested n)) (nameToken "SELECT" :: ts) (· = none) fun q =>
      ∃ s, post s ∧ q = .queryStatement (.query .absent (.selectBody s) .nil .nil none) := by
    refine ctes_absent.nothing_bind ?_ fun _ _ => .inl rfl
    rintro _ rfl
    refine .noKeyword (fun _ _ => rfl) ?_
    refine .noKeyword (fun _ _ => rfl) ?_
    refine .noKeyword (fun _ _ => rfl) ?_
    refine (queryRest_takes_select h).andThen ?_ hend
    rintro _ ⟨s, hs, rfl⟩
    exact .pure ⟨s, hs, rfl⟩
  refine hstatement.map ?_
  rintro _ ⟨s, hs, rfl⟩
  exact ⟨s, hs, rfl⟩

end Syntax.Parser

theorem fromLone_reads : Reads (Syntax.Reading.fromClause
    [Syntax.Reading.source (Syntax.Reading.relation [⟨"t", false⟩] none) []])
    [(.text "from", .text "t")] := by
  have htable : Reads (Syntax.Reading.relation [⟨"t", false⟩] none) (.text "t") :=
    ((Reads.pure _).visit.map (f := id)).visit
  have hsource : Reads (Syntax.Reading.source (Syntax.Reading.relation [⟨"t", false⟩] none) [])
      ⟨.text "t", []⟩ := htable.bind (Reads.mapM .nil).map
  exact (Reads.mapM (.cons hsource .nil)).map.visit

namespace Condition

/-- `SELECT * FROM t` -/
def rowTokens : List Token :=
  [nameToken "SELECT", .symbol "*", nameToken "FROM", nameToken "t"]

/-- The tokens of the query for the rows of `t` that a condition is true of, or for all its rows. -/
def queryTokens : Option (List Token) → List Token
  | none => rowTokens
  | some ts => rowTokens ++ nameToken "WHERE" :: ts

/-- A text is the query for the rows that a condition is true of, or for all rows. -/
inductive Selects (s : String) : Option Condition → Prop
  | all {ls : List Lexeme} : Lexer.lex s.toList = (ls, []) →
      ls.map Lexeme.token = queryTokens none → Selects s none
  | only {ls : List Lexeme} {c : Condition} {ts : List Token} : Lexer.lex s.toList = (ls, []) →
      ls.map Lexeme.token = queryTokens (some ts) → Written .whole c ts → Selects s (some c)

theorem queryTokens_injective {ts us : Option (List Token)} (h : queryTokens ts = queryTokens us) :
    ts = us := by
  cases ts <;> cases us <;> simp_all [queryTokens, rowTokens]

/-- A text is the query of one condition at most. -/
theorem Selects.unique {s : String} {c d : Option Condition} (hc : Selects s c) (hd : Selects s d) :
    c = d := by
  cases hc with
  | all hlex hts =>
    cases hd with
    | all => rfl
    | only hlex' hus =>
      rw [hlex, Prod.mk.injEq] at hlex'
      obtain ⟨rfl, -⟩ := hlex'
      cases queryTokens_injective (hts.symm.trans hus)
  | only hlex hts hc =>
    cases hd with
    | all hlex' hus =>
      rw [hlex, Prod.mk.injEq] at hlex'
      obtain ⟨rfl, -⟩ := hlex'
      cases queryTokens_injective (hts.symm.trans hus)
    | only hlex' hus hd =>
      rw [hlex, Prod.mk.injEq] at hlex'
      obtain ⟨rfl, -⟩ := hlex'
      obtain rfl := Option.some.inj (queryTokens_injective (hts.symm.trans hus))
      rw [hc.unique hd]

theorem spells_where :
    Spells "SELECT * FROM t WHERE" (rowTokens ++ [nameToken "WHERE"]) :=
  (((Lexer.spells_word (t := "SELECT") rfl).space (Lexer.spells_sign (t := "*") (by decide))).space
    (Lexer.spells_word (t := "FROM") rfl)).space (Lexer.spells_word (t := "t") rfl) |>.space
    (Lexer.spells_word (t := "WHERE") rfl)

/-- The text of a condition behind the start of the query. -/
theorem lex_query {w : String} {ls : List Lexeme} (h : Lexer.lex w.toList = (ls, [])) :
    ∃ ls', Lexer.lex ("SELECT * FROM t WHERE " ++ w).toList = (ls', []) ∧
      ls'.map Lexeme.token = queryTokens (some (ls.map Lexeme.token)) := by
  have hrest := (Lexed.of_lex h).space
  have hall := spells_where.lexed _ _ (by simp [Lexer.Bounded]) hrest
  have htext : ("SELECT * FROM t WHERE " ++ w).toList =
      "SELECT * FROM t WHERE".toList ++ ' ' :: w.toList := by
    rw [String.toList_append]
    rfl
  rw [htext]
  simpa [queryTokens] using hall.lex

section Parsing

variable {c : Condition} {ts : List Token} {n : Nat}

/-- The syntax tree of the query. -/
def statementTree (c : Condition) : Statement :=
  .queryStatement (.query .absent
    (.selectBody (.select .absent (.ofList [.star])
      (.ofList [.source (.relation [⟨"t", false⟩] none) .nil]) (.present c.tree) .nil .absent))
    .nil .nil none)

theorem where_takes (h : Written .whole c ts) (hn : ts.length < n) :
    Takes (whereClause (nested n)) (nameToken "WHERE" :: ts) (Closes 5) (· = some c.tree) := by
  obtain ⟨m, rfl⟩ : ∃ m, n = m + 1 := ⟨n - 1, by omega⟩
  refine optional_takes rfl ((h.takes m (by omega)).mono (fun _ ho => ho.ends) ?_)
  rintro _ rfl
  rfl

/-- The rest of the query behind its keyword. -/
theorem select_takes (h : Written .whole c ts) (hn : ts.length < n) :
    Takes (select (nested n))
      (.symbol "*" :: nameToken "FROM" :: nameToken "t" :: nameToken "WHERE" :: ts) (Closes 5)
      (· = .select .absent (.ofList [.star])
        (.ofList [.source (.relation [⟨"t", false⟩] none) .nil]) (.present c.tree) .nil .absent) := by
  refine (distinct_takes false).nothing_bind ?_ fun o _ w _ => rfl
  rintro _ rfl
  have hitem : Takes (selectItem (nested n)) [.symbol "*"] (OrSign "," (Closes 0)) (.star = ·) :=
    .withSymbol rfl (.pure rfl)
  have hstar : Takes (selectItems (nested n)) [.symbol "*"] (Closes 0) (List.Forall₂ Eq [.star]) :=
    commas_takes (fun o (ho : Closes 0 o) => ho.isSymbol (by decide)) (List.cons_ne_nil _ [])
      (.cons hitem .nil)
  have hclose : ∀ o, Closes 5 o →
      Closes 0 (ahead (nameToken "FROM" :: nameToken "t" :: nameToken "WHERE" :: ts) o) := by
    rintro o _ _ ⟨⟩
    decide
  refine hstar.bind ?_ hclose
  rintro _ (_ | ⟨rfl, _ | _⟩)
  have hclose : ∀ o, Closes 5 o → Closes 2 (ahead (nameToken "WHERE" :: ts) o) := by
    rintro o _ _ ⟨⟩
    decide
  refine fromLone_takes.bind ?_ hclose
  rintro _ rfl
  refine (where_takes h hn).andThen ?_ fun _ ho => ho
  rintro _ rfl
  refine (optional_none fun o (ho : Closes 5 o) => ho.isKeyword (by decide)).andThen ?_ fun _ ho => ho
  rintro _ rfl
  refine (optional_none fun o (ho : Closes 5 o) => ho.isKeyword (by decide)).map ?_
  rintro _ rfl
  rfl

/-- The query is read as the one command of its text. -/
theorem command_takes (h : Written .whole c ts) (hn : ts.length < n) :
    Takes (command (nested n)) (queryTokens (some ts)) (· = none)
      (· = .statement c.statementTree) := by
  refine (command_takes_select (select_takes h hn)).mono (fun _ => id) ?_
  rintro _ ⟨_, rfl, rfl⟩
  rfl

end Parsing

section Reading

/-- The clauses of the query. -/
def clauses (v : Value) : List (QueryClause × Value) :=
  [(.select false, .list [.text "*"]), (.tables, .text "t"), (.filter, v)]

theorem statement_reads (c : Condition) :
    Reads c.statementTree.read (blockEntries (clauses c.meaning.value)) := by
  have hitems : Reads (Syntax.visitAll [Syntax.visit (pure (Value.text "*"))]) [.text "*"] :=
    .visitAll (.cons (Reads.pure _).visit .nil)
  have hwhere : Reads (Syntax.Reading.condition "where" (some c.tree.read))
      [(.text "where", c.meaning.value)] := c.reads.1.visit.map
  have hnone : ∀ {α : Type} (a : α), Reads (pure a : Syntax.Read α) a := fun a => .pure a
  have hselect : Reads (Syntax.Reading.select none [Syntax.visit (pure (.text "*"))]
      [Syntax.Reading.source (Syntax.Reading.relation [⟨"t", false⟩] none) []]
      (some c.tree.read) [] none) (blockEntries (clauses c.meaning.value)) :=
    ((hnone ("select", [])).bind (hitems.bind (fromLone_reads.bind (hwhere.bind
      ((hnone []).bind (hnone []).map))))).visit
  exact ((hnone []).bind (hselect.bind ((hnone []).bind ((Reads.mapM .nil).bind (hnone []).map)))).visit

end Reading

section Rendering

theorem meaning_not_empty (c : Condition) : Render.isEmptyArray c.meaning.value = false := by
  induction c with
  | column path =>
    change Render.isEmptyArray path.value = false
    rw [Syntax.Path.value]
    split <;> rfl
  | paren c ih => exact ih
  | _ => rfl

/-- The tokens of the clauses of the query, with those of its last one. -/
def clauseTokens (us : List Token) : QueryClause → List Token
  | .select false => [nameToken "SELECT", .symbol "*"]
  | .tables => [nameToken "FROM", nameToken "t"]
  | .filter => us
  | _ => []

theorem flatMap_clauseTokens (us : List Token) :
    QueryClause.all.flatMap (clauseTokens us) = rowTokens ++ us := by
  change rowTokens ++ (us ++ []) = rowTokens ++ us
  rw [List.append_nil]

theorem placed_clauses {v : Value} {us : List Token} (h : Placed .filter (some v) us)
    (c : QueryClause) : Placed c (blockValue (clauses v) c) (clauseTokens us c) := by
  have hselect : Stated (.select false) (.list [.text "*"]) _ :=
    .select false (List.cons_ne_nil _ _) (.cons selected_star .nil)
  have hname : ∀ x ∈ ["t"], PlainName x := by
    rintro x hx
    obtain rfl := List.mem_singleton.mp hx
    exact plainName_letter (by decide)
  have htables : Stated .tables (.text "t") _ :=
    Stated.tables (List.cons_ne_nil _ _) (.cons (tabled_name hname) .nil)
  cases c with
  | select d =>
    cases d with
    | false => exact (Stands.present hselect).placed
    | true => exact .absent
  | tables => exact (Stands.present htables).placed
  | filter => exact h
  | _ => exact .absent

theorem placed_filter {v : Value} {ts : List Token} (hne : v ≠ .null)
    (hempty : Render.isEmptyArray v = false) (h : Writes false v ts) :
    Placed .filter (some v) (nameToken "WHERE" :: ts) := by
  obtain ⟨f, hf, hs⟩ := condition_writes "where" hne hempty h
    (spells_keyword "WHERE" [] (by decide) (by decide))
  exact .written hne hf hs

/-- The truth value of the condition of a query, which is true where there is none. -/
def rowTruth (ρ : List String → Truth) : Option Condition → Truth
  | none => some true
  | some c => c.eval ρ

/-- The query is written with what its condition is rendered to, and without one where it is null. -/
theorem exists_selects {c : Condition} (h : c.IsStable) : ∃ f d,
    Render.Gives (Value.map (blockEntries (clauses c.meaning.value))).height
      (fun r s => Render.statement r s false (blockEntries (clauses c.meaning.value))) f ∧
    Selects f.inlineSql d ∧
    ∀ ρ, rowTruth ρ d = if c.isNull then some true else c.keptEval ρ := by
  by_cases hnull : c.isNull = true
  · have hplaced : Placed .filter (some c.meaning.value) [] := by
      rw [c.value_eq_null_iff.mpr hnull]
      exact .null
    obtain ⟨f, hf, hs⟩ := statement_writes (placed_clauses hplaced) (List.cons_ne_nil _ _) false
    obtain ⟨ls, hls, htokens⟩ := hs.lex
    exact ⟨f, none, hf, .all hls htokens, fun ρ => (if_pos hnull).symm⟩
  · obtain ⟨ts, d, hw, hd, heval⟩ := (shown h).1 false
    have hplaced := placed_filter (mt c.value_eq_null_iff.mp hnull) c.meaning_not_empty hw
    obtain ⟨f, hf, hs⟩ := statement_writes (placed_clauses hplaced) (List.cons_ne_nil _ _) false
    obtain ⟨ls, hls, htokens⟩ := hs.lex
    rw [flatMap_clauseTokens] at htokens
    refine ⟨f, some d, hf, .only hls htokens hd, fun ρ => ?_⟩
    rw [if_neg hnull]
    exact heval ρ

end Rendering

end Condition

end SqlTree

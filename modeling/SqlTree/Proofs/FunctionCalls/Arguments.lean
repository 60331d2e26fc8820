import SqlTree.Proofs.Conditions.Columns
import SqlTree.Proofs.RoundTrip.Blocks

/-!
The arguments of a function: columns, literals and queries in parentheses. Each is written to tokens
from which the same argument is read, whatever stands beside it.
-/

namespace SqlTree

open Syntax (Reads Expr Name Path Query)
open Lexer (nameToken)
open Render (Gives Writes parenTokens)
open Syntax.Parser

namespace Syntax.Parser

variable {p : Nested} {t : Token} {ts : List Token} {follow : Option Token → Prop}
  {post : Expr → Prop}

section Operands

theorem unary_of_primary (ht : sign? (some t) = none) (hf : ∀ o, follow o → Ends 0 o)
    (h : Takes (primary p) (t :: ts) follow post) : Takes (unary p) (t :: ts) follow post := by
  have hs : Takes signs [] (· = some t) (· = []) :=
    Iterates.takes (.stop (.peek (by rintro _ rfl; rw [ahead_nil, ht]; exact .pure rfl)) rfl)
  refine hs.nothing_bind ?_ fun _ _ => rfl
  rintro _ rfl
  refine h.andThen (fun _ he => ?_) fun _ ho => ho
  exact ((postfixFrom_passes p he).before hf).map fun _ => id

/-- An operand is an expression in front of what goes on with none. -/
theorem expression_of_unary (hb : Begins ts) (hf : ∀ o, follow o → Ends 10 o)
    (h : Takes (unary p) ts follow post) : Takes (expression p) ts follow post := by
  have hpass : ∀ {q : Parser Expr} {step : Expr → Parser Expr} (k : Nat), k ≤ 10 →
      (∀ e, post e → Takes (step e) [] (Ends k) post) → Takes q ts follow post →
        Takes (q >>= step) ts follow post := fun _ hk hstep hq =>
    hq.andThen (fun e he => (hstep e he).before fun o ho => (hf o ho).mono hk) fun _ => id
  have hzone : Takes (zoneLevel p) ts follow post :=
    hpass 1 (by decide) (fun _ he => zoneFrom_passes _ he) h
  have hpower : Takes (powerLevel p) ts follow post :=
    hpass 2 (by decide) (fun _ he => powerFrom_passes p he) hzone
  have hproduct : Takes (productLevel p) ts follow post :=
    hpass 3 (by decide) (fun _ he => productFrom_passes p he) hpower
  have hsum : Takes (sumLevel p) ts follow post :=
    hpass 4 (by decide) (fun _ he => sumFrom_passes p he) hproduct
  have hother : Takes (otherLevel p) ts follow post :=
    hpass 5 (by decide) (fun _ he => otherFrom_passes p he) hsum
  have hpredicate : Takes (predicateLevel p) ts follow post :=
    hpass 6 (by decide) (fun _ he => predicateFrom_passes p he) hother
  have hcomparison : Takes (comparisonLevel p) ts follow post :=
    hpass 7 (by decide) (fun _ he => comparisonFrom_passes p he) hpredicate
  have htest : Takes (testLevel p) ts follow post :=
    hpass 8 (by decide) (fun _ he => testFrom_passes p he) hcomparison
  have hnot : Takes (notLevel p) ts follow post := by
    obtain ⟨t, ts, rfl, ht⟩ := hb
    have hn : Takes negations [] (· = some t) (· = 0) :=
      Iterates.takes (.stop (.noKeyword (by rintro _ rfl; exact ht) (.pure rfl)) rfl)
    refine hn.nothing_bind ?_ fun _ _ => rfl
    rintro _ rfl
    exact htest.map fun _ => id
  have hand : Takes (andLevel p) ts follow post :=
    hpass 9 (by decide) (fun _ he => connectedFrom_passes _ _ (by decide) he) hnot
  exact hpass 10 (by decide) (fun _ he => connectedFrom_passes _ _ (by decide) he) hand

/-- No expression starts with a closing parenthesis. -/
theorem Takes.not_close (h : Takes (expression p) (t :: ts) follow post) (hf : follow none) :
    isSymbol ")" (some t) = false := by
  by_contra hclose
  obtain rfl : t = .symbol ")" := by
    cases t with
    | symbol s =>
      obtain rfl : s = ")" := by simpa [isSymbol] using hclose
      rfl
    | _ => simp [isSymbol] at hclose
  have htokens : ((.symbol ")" :: ts).map (Lexeme.mk [])).map Lexeme.token = .symbol ")" :: ts := by
    rw [List.map_map]
    exact List.map_id' _
  obtain ⟨e, he, -⟩ := h _ [] htokens hf
  cases he

end Operands

end Syntax.Parser

section Arguments

variable {e e' : Expr} {v : Value} {ts : List Token}

/-- An argument that is read where one with this value was written. A column is the same column. -/
structure Returned (e : Expr) (v : Value) (e' : Expr) : Prop where
  agrees : Agrees e'.read.value v
  column : ∀ p, e = .column p → ∃ q, e' = .column q ∧ q.map Name.folded = p.map Name.folded

/-- The arguments mean the same, and are the same column if they are columns. -/
def SameArgument (e e' : Expr) : Prop := ∃ v, Syntax.Means e v ∧ Returned e v e'

/-- What stands behind an argument. -/
def ArgumentEnd : Option Token → Prop := OrSign "," (· = some (.symbol ")"))

theorem ArgumentEnd.ends {o : Option Token} (h : ArgumentEnd o) : Ends 10 o := by
  rcases h with rfl | rfl <;> rintro _ ⟨⟩ <;> decide

/-- A token that neither closes the arguments nor says what is done with them. -/
def StartsArgument (t : Token) : Prop :=
  isSymbol ")" (some t) = false ∧ isSymbol "*" (some t) = false ∧
    isKeyword "distinct" (some t) = false ∧ isKeyword "all" (some t) = false

/-- The value of an argument, and the tokens that it is written to and read from. -/
structure Argued (e : Expr) (v : Value) (ts : List Token) : Prop where
  means : Syntax.Means e v
  writes : Writes false v ts
  takes : ∀ n, ts.length ≤ n → Takes (expression (nested n)) ts ArgumentEnd (Returned e v)
  starts : ∃ t us, ts = t :: us ∧ StartsArgument t
  -- a query that is no argument of its own loses its parentheses
  bare : (∀ q, e ≠ .subquery q) → ∀ es, v = .map es →
    Form.ofEntries Registry.standard.clauseOrder es ≠ .clause

theorem Syntax.Path.IsStable.exists_argued {p : Path} (h : p.IsStable) :
    ∃ ts, Argued (.column p) p.value ts := by
  obtain ⟨q, ts, hwrites, hspelled, hfolded, hvalue⟩ := h.exists_written
  have hstart : ∃ t us, ts = t :: us ∧ ∃ n, nameOf? t = some n := by
    cases hspelled with
    | mk ht _ => exact ⟨_, _, rfl, _, ht⟩
  obtain ⟨t, us, rfl, n, ht⟩ := hstart
  have hfree : ∀ w, w ∉ Token.unreserved → isKeyword w (some t) = false := by
    intro w hw
    cases t with
    | keyword v text =>
      have hv : v ∈ Token.unreserved := by
        by_contra hv
        simp [nameOf?, hv] at ht
      exact decide_eq_false fun hvw => hw (hvw ▸ hv)
    | _ => rfl
  have hsign : ∀ s, isSymbol s (some t) = false := by
    cases t <;> first | exact fun _ => rfl | cases ht
  refine ⟨t :: us, (Reads.pure _).visit, hwrites false, fun m _ => ?_, ⟨t, us, rfl, hsign ")", hsign "*",
    hfree "distinct" (by decide), hfree "all" (by decide)⟩, fun _ es hes => ?_⟩
  · have hcolumn := (column_takes_spelled (p := nested m) hspelled).before
      fun o (ho : ArgumentEnd o) => ho.ends.mono (Nat.zero_le _)
    refine (expression_of_unary ⟨t, us, rfl, hfree "not" (by decide)⟩ (fun _ ho => ho.ends)
      hcolumn).mono (fun _ => id) ?_
    rintro _ rfl
    refine ⟨.of_reads (v := p.value) ?_ ?_, ?_⟩
    · rw [← hvalue]
      exact (Reads.pure _).visit
    · rw [Path.value]
      split
      · exact Value.same_text_self _
      · exact same_headed (.cons (Value.same_text_self _) .nil)
    · rintro _ ⟨⟩
      exact ⟨q, rfl, hfolded⟩
  · rw [Path.value] at hes
    split at hes <;> cases hes

/-- An expression that comes back by itself comes back as an argument. -/
theorem Expressible.exists_argued (h : Expressible v) (hmeans : Syntax.Means e v)
    (hcolumn : ∀ p, e ≠ .column p) : ∃ ts, Argued e v ts := by
  obtain ⟨⟨ts, hts⟩, -⟩ := h.exists_tokens
  have hopens := hts.opens ts.length (Nat.le_refl _)
  obtain ⟨t, us, rfl, -⟩ := hopens.begins
  refine ⟨t :: us, hmeans, hts.writes, fun n hn => ?_, ⟨t, us, rfl, ?_, ?_, ?_, ?_⟩, fun _ es hes => ?_⟩
  · refine (hts.takes n hn).mono (fun _ ho => ho.ends) fun e' he' => ⟨.of_reads he' h.same_self, ?_⟩
    exact fun p hp => absurd hp (hcolumn p)
  · exact (hts.takes _ (Nat.le_refl _)).not_close (by rintro _ ⟨⟩)
  · exact hopens.not_star none
  · exact hopens.isKeyword (w := "distinct") (by decide) none
  · exact hopens.isKeyword (w := "all") (by decide) none
  · subst hes
    have htyped : ∀ w, Form.ofEntries Registry.standard.clauseOrder [(.text Form.valueKey, w)] =
        .typed := fun _ => rfl
    cases h <;> exact fun hclause => absurd ((htyped _).symm.trans hclause) (by decide)

theorem argued_null : Argued .null .null [nameToken "NULL"] where
  means := (Reads.pure _).visit
  writes := Render.writes_null false
  takes n _ := by
    have hunary : Takes (unary (nested n)) [nameToken "NULL"] ArgumentEnd (· = .null) :=
      unary_of_primary rfl (fun _ ho => ho.ends.mono (Nat.zero_le _)) (.peek_cons (.skip (.pure rfl)))
    refine (expression_of_unary ⟨_, _, rfl, rfl⟩ (fun _ ho => ho.ends) hunary).mono (fun _ => id) ?_
    rintro _ rfl
    exact ⟨.of_reads (Reads.pure _).visit rfl, nofun⟩
  starts := ⟨_, _, rfl, rfl, rfl, rfl, rfl⟩
  bare _ _ := nofun

/-- A query in parentheses that its first word tells from an expression. -/
theorem Syntax.Parser.Queried.argued {q : Query} {es : Entries} (h : Queried es ts) (hq : Reads q.read es)
    (hstart : ∀ o, isKeyword "select" (ahead ts o) = true ∨ isKeyword "with" (ahead ts o) = true) :
    Argued (.subquery q) (.map es) (parenTokens true ts) where
  means := hq.toMap.visit
  writes := by
    obtain ⟨f, hf, hs⟩ := h.writes true
    refine ⟨f, .deeper (hf.congr fun r m d st => ?_), hs⟩
    have hform : Form.ofEntries (Settings.inlining m d st).registry.clauseKeys es = .clause := h.form
    simp only [Render.expression, Render.mapOf, hform]
  takes n hn := by
    obtain ⟨m, rfl⟩ : ∃ m, n = m + 1 := ⟨n - 1, by simp [parenTokens] at hn; omega⟩
    have hm : ts.length ≤ m := by
      simp only [parenTokens, if_true, List.length_cons, List.length_append, List.length_nil] at hn
      omega
    have hgroup : Takes (group (nested m)) ts (· = some (.symbol ")")) fun g =>
        ∃ q, g = .query q ∧ AgreesMap q.read es := by
      refine .peek fun o ho => ?_
      have hword : (isKeyword "select" (ahead ts o) || isKeyword "with" (ahead ts o)) = true := by
        simpa using hstart o
      rw [hword, if_pos rfl]
      refine ((h.query m hm).before ?_).map fun q hq => ⟨q, rfl, hq⟩
      rintro _ rfl
      subst ho
      exact .close
    have hprimary : Takes (primary (nested (m + 1))) (parenTokens true ts) ArgumentEnd fun e =>
        ∃ q, e = .subquery q ∧ AgreesMap q.read es := by
      refine .peek_cons (.skip ?_)
      refine Takes.bind (p := group (nested m)) hgroup (fun g hg => ?_) fun _ _ => rfl
      obtain ⟨q, rfl, hq⟩ := hg
      exact .symbol rfl (.pure ⟨q, rfl, hq⟩)
    have hunary := unary_of_primary rfl (fun _ ho => ho.ends.mono (Nat.zero_le _)) hprimary
    refine (expression_of_unary ⟨_, _, rfl, rfl⟩ (fun _ ho => ho.ends) hunary).mono (fun _ => id) ?_
    rintro _ ⟨q, rfl, hq⟩
    exact ⟨hq.agrees.visit, by rintro _ ⟨⟩⟩
  starts := ⟨_, _, rfl, rfl, rfl, rfl, rfl⟩
  bare hnot := absurd rfl (hnot q)

/-- A selection starts with its word, or with that of its common table expressions. -/
theorem selection_start {val : QueryClause → Option Value} {T : QueryClause → List Token}
    (h : Laid val T) {d : Bool} (hd : (val (.select d)).isSome = true) (o : Option Token) :
    isKeyword "select" (ahead (QueryClause.all.flatMap T) o) = true ∨
      isKeyword "with" (ahead (QueryClause.all.flatMap T) o) = true := by
  rcases with_or_rest h o with hwith | hrest
  · exact .inr hwith
  · refine .inl ?_
    rcases h.body with ⟨d, hd, hother, hop, -⟩ | ⟨op, -, hother⟩
    · obtain ⟨v, hv⟩ := Option.isSome_iff_exists.mp hd
      have hselect := h.stands (.select d)
      rw [hv] at hselect
      rw [hrest, List.flatMap_append, ahead_append,
        ← flatMap_of_present h.stands (present_selection hother hop), List.flatMap_cons]
      cases hselect with
      | present hstated =>
        generalize T (.select d) = ts at hstated
        cases hstated
        rfl
    · rw [hother (.select d) (by rintro ⟨⟩) rfl] at hd
      cases hd

end Arguments

end SqlTree

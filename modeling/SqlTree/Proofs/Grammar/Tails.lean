import SqlTree.Proofs.Grammar.Queries

/-!
The parsers of what follows the body of a query, and of whole queries, take what the grammar says.
-/

namespace SqlTree.Syntax.Parser

open Grammar Terminal Rule Rhs

variable {m : Nat}

section Limits

def limitTail : Rhs := alt ALL Rule.expr

def offsetTail : Rhs := seq Rule.expr (opt (alt ROW ROWS))

/-- How a limitation by `FETCH` ends. -/
def fetchEnd : Rhs := seq (alts [ROW, ROWS]) ONLY

def fetchTail : Rhs := seq (alt FIRST NEXT) (alt fetchEnd (seq Rule.expr fetchEnd))

theorem lang_limits : lang (alt (seq LIMIT (seq limitTail (opt (seq OFFSET offsetTail))))
    (alt (seq OFFSET (seq offsetTail (alt (seq LIMIT limitTail) (opt (seq FETCH fetchTail)))))
      (opt (seq FETCH fetchTail)))) = lang (opt limitOffset) := by
  have hlimit : lang LIMIT * lang limitTail = lang limitPart := by
    simp [lang_rule limitPart, rhs, limitTail, mul_add, add_comm]
  have hoffset : lang OFFSET * lang offsetTail = lang offsetPart := by
    simp [lang_rule offsetPart, rhs, offsetTail]
  have hfetch : lang FETCH * lang fetchTail = lang fetchPart := by
    simp [lang_rule fetchPart, rhs, fetchTail, fetchEnd, mul_add, add_mul]
    ac_rfl
  simp only [lang_alt, lang_seq, lang_opt, ← mul_assoc, hlimit, hoffset, hfetch]
  simp [lang_rule limitOffset, rhs, mul_add, add_mul]
  ac_rfl

/-- Behind the quantifier stands a parenthesis. -/
theorem paren_of_all {l : Lexeme} {us : List Lexeme} (hl : ALL.Matches l.token)
    (hx : Derives Rule.expr ((l :: us).map Lexeme.token)) (rest : List Lexeme) :
    Meets [LPAR] (us ++ rest) := by
  have htail : Derives (seq quantifiedTail exprTail) (us.map Lexeme.token) :=
    (derives_expr_iff hl rfl (by decide)).mp hx
  have hstart : Starts [LPAR] (seq quantifiedTail exprTail) := by decide
  exact hstart.meets htail (.refl us)

theorem Meets.isSymbol {c : Terminal} {w : String} (hc : c.signs = [w]) {ls : List Lexeme}
    (h : Meets [c] ls) : isSymbol w (next ls) = true :=
  (spots_symbol hc _).mpr h

theorem keyword_eq_skip {w : String} {ls : List Lexeme} (h : isKeyword w (next ls) = true) :
    keyword w ls = skip ls := by
  rw [keyword, bind_run (takeKeyword_run w ls), h]
  cases ls with
  | nil => cases h
  | cons => rfl

def limitsAll (ls : List Lexeme) : Bool :=
  isKeyword "all" (next ls) && !isSymbol "(" (next (ls.drop 1))

theorem limitRest_run {p : Nested} {ls : List Lexeme} : limitRest p ls =
    if limitsAll ls = true then (do
      keyword "all"
      return Tree.limitAll) ls
    else (do return Tree.limit (← p.expr)) ls := by
  change (if limitsAll ls = true then (do
      skip
      return Tree.limitAll)
    else (do return Tree.limit (← p.expr)) : Parser (Tree .limit)) ls = _
  split
  case isTrue hall =>
    have hword : keyword "all" ls = skip ls := keyword_eq_skip (Bool.and_eq_true _ _ ▸ hall).1
    change (skip ls).bind _ = (keyword "all" ls).bind _
    rw [hword]
  case isFalse => rfl

/-- A number of rows is not told apart from the end of `FETCH` by its first token. -/
def fetchesOne (ls : List Lexeme) : Bool :=
  (isKeyword "row" (next ls) && !isSymbol "(" (next (ls.drop 1))) ||
    (isKeyword "rows" (next ls) && isKeyword "only" (next (ls.drop 1)))

theorem fetchesOne_end {ls ls' : List Lexeme} (hx : Derives fetchEnd (ls.map Lexeme.token))
    (hls : Alike ls ls') (rest : List Lexeme) : fetchesOne (ls' ++ rest) = true := by
  obtain ⟨us, vs, rfl, hus, hvs⟩ := hx.split
  have hends : Derives (alts ([ROW, ROWS].map token)) (us.map Lexeme.token) := hus
  obtain ⟨t, hts, c, hc, ht⟩ := derives_alts_iff.mp hends
  obtain ⟨l, rfl, rfl⟩ := List.map_eq_singleton_iff.mp hts
  rw [List.singleton_append] at hls
  obtain ⟨l', rfl, hl⟩ := hls.cons
  have hstart : Starts [ONLY] ONLY := by decide
  have honly : isKeyword "only" (next (vs ++ rest)) = true :=
    (spots_keyword (c := .ONLY) rfl _).mpr (hstart.meets hvs (.refl vs))
  have hfit : Fits ONLY [LPAR] [] := by decide
  have hparen : isSymbol "(" (next (vs ++ rest)) = false :=
    (hfit.clear hvs (.refl vs) nofun).isSymbol (c := .LPAR) rfl (by decide)
  have hword : isKeyword "row" (some l'.token) = true ∨
      isKeyword "rows" (some l'.token) = true := by
    rw [← hl, isKeyword_iff (c := .ROW) rfl, isKeyword_iff (c := .ROWS) rfl]
    simp only [List.mem_cons, List.not_mem_nil, or_false] at hc
    rcases hc with rfl | rfl
    · exact .inl ht
    · exact .inr ht
  rcases hword with hword | hword
  · simp [fetchesOne, hword, hparen]
  · simp [fetchesOne, hword, honly]

theorem not_fetchesOne {ls ls' : List Lexeme}
    (hx : Derives (seq Rule.expr fetchEnd) (ls.map Lexeme.token)) (hls : Alike ls ls')
    (rest : List Lexeme) : fetchesOne (ls' ++ rest) = false := by
  obtain ⟨es, vs, rfl, hes, hvs⟩ := hx.split
  cases es with
  | nil => exact absurd (hes.nullable rfl) (by decide)
  | cons l es =>
    rw [List.cons_append] at hls
    obtain ⟨l', rfl, hl⟩ := hls.cons
    have hrow : isKeyword "row" (some l'.token) = true →
        isSymbol "(" (next (es ++ vs ++ rest)) = true := fun hword => by
      have hmatch : ROW.Matches l.token := hl ▸ (isKeyword_iff rfl).mp hword
      have htail : Derives (seq rowTail exprTail) (es.map Lexeme.token) :=
        (derives_expr_iff hmatch rfl (by decide)).mp hes
      have hstart : Starts [LPAR] (seq rowTail exprTail) := by decide
      have hparen : Meets [LPAR] (es ++ (vs ++ rest)) := hstart.meets htail (.refl es)
      simpa using hparen.isSymbol (c := .LPAR) rfl
    have hrows : isKeyword "rows" (some l'.token) = true →
        isKeyword "only" (next (es ++ vs ++ rest)) = false := fun hword => by
      have hmatch : ROWS.Matches l.token := hl ▸ (isKeyword_iff rfl).mp hword
      have htail : Derives (seq nameTail exprTail) (es.map Lexeme.token) :=
        derives_expr_name (by decide) hmatch hes
      have hfit : Fits (seq (seq nameTail exprTail) fetchEnd) [ONLY] [] := by decide
      exact (hfit.clear (htail.append hvs) (.refl _) nofun).isKeyword (c := .ONLY) rfl (by decide)
    simp only [fetchesOne, List.cons_append, next_cons, List.drop_one, List.tail_cons,
      Bool.or_eq_false_iff, Bool.and_eq_false_iff, Bool.not_eq_false']
    exact ⟨(Bool.eq_false_or_eq_true _).symm.imp id hrow, (Bool.eq_false_or_eq_true _).symm.imp id hrows⟩

variable (h : Inner m)

include h

theorem parses_limitRest : Parses m m (fun n => limitRest (nested n)) limitTail exprFollow := by
  have hall : Parses m m (fun _ => do
      keyword "all"
      return Tree.limitAll) ALL exprFollow :=
    (Parses.keyword (c := .ALL) (y := empty) (Nat.le_succ m) rfl .pure).of_lang (by simp)
  refine .choose hall (h.expr.map (g := Tree.limit)) (fun _ _ => limitRest_run) ?_ ?_
  · intro ls ls' rest hx hls hr
    obtain ⟨t, hts, ht⟩ := Parses.derives_token_iff.mp hx
    obtain ⟨l, rfl, rfl⟩ := List.map_eq_singleton_iff.mp hts
    obtain ⟨l', rfl, hl⟩ := hls.cons
    have hword : isKeyword "all" (some l'.token) = true := (isKeyword_iff rfl).mpr (hl ▸ ht)
    have hparen : isSymbol "(" (next rest) = false := hr.isSymbol (c := .LPAR) rfl (by decide)
    simp [limitsAll, hword, hparen]
  · intro ls ls' rest hx hls _
    cases ls with
    | nil => exact absurd (hx.nullable rfl) (by decide)
    | cons l us =>
      obtain ⟨l', rfl, hl⟩ := hls.cons
      cases hword : isKeyword "all" (some l'.token) with
      | false => simp [limitsAll, hword]
      | true =>
        have hall : ALL.Matches l.token := hl ▸ (isKeyword_iff rfl).mp hword
        have hparen := (paren_of_all hall hx rest).isSymbol (c := .LPAR) rfl
        simp [limitsAll, hparen]

theorem parses_offsetRest : Parses m m (fun n => offsetRest (nested n)) offsetTail
    (.ROW :: .ROWS :: exprFollow) := by
  have hoffset : Parses m m (fun n => offsetRest (nested n))
      (seq Rule.expr (alt (seq ROW empty) (seq (opt ROWS) empty))) (.ROW :: .ROWS :: exprFollow) :=
    .seq h.expr (fun _ => .unlessWord (Nat.le_succ _) rfl .pure
      (.maybeKeyword (f := fun _ _ => _) rfl (fun _ => .pure) (by decide)) (by decide)) (by decide)
  exact hoffset.of_lang (by simp [offsetTail, add_assoc])

omit h in
theorem parses_fetchEnd {b : Nat} (number : Option Expr) : Parses m b (fun _ => do
    if !(← takeKeyword "row") then keyword "rows"
    keyword "only"
    return Tree.fetch (Tree.ofOption number)) fetchEnd [] := by
  have hend : Parses m b (fun _ => do
      if !(← takeKeyword "row") then keyword "rows"
      keyword "only"
      return Tree.fetch (Tree.ofOption number))
      (alt (seq ROW (seq ONLY empty)) (seq ROWS (seq ONLY empty))) [] :=
    .unlessWord (Nat.le_succ _) rfl (.keyword (Nat.le_succ _) rfl .pure)
      (.keyword (Nat.le_succ _) rfl (.keyword (Nat.le_succ _) rfl .pure)) (by decide)
  exact hend.of_lang (by simp [fetchEnd, add_mul])

theorem parses_fetchRest : Parses m m (fun n => fetchRest (nested n)) fetchTail [] := by
  have hrest : Parses m m (fun n => do
      let next ← peek
      let second ← peekSecond
      let bare := (isKeyword "row" next && !isSymbol "(" second) ||
        (isKeyword "rows" next && isKeyword "only" second)
      let number ← if bare then pure none else some <$> (nested n).expr
      if !(← takeKeyword "row") then keyword "rows"
      keyword "only"
      return Tree.fetch (Tree.ofOption number)) (alt fetchEnd (seq Rule.expr fetchEnd)) [] := by
    refine .choose (parses_fetchEnd none) (.seq h.expr (fun e => parses_fetchEnd (some e))
      (by decide)) (f := fetchesOne) ?_ ?_ ?_
    · intro n ls
      change (if fetchesOne ls = true then _ else _ : Parser (Tree .limit)) ls = _
      split
      · rfl
      · rw [map_eq_pure_bind, bind_assoc]
        rfl
    · exact fun _ _ rest hx hls _ => fetchesOne_end hx hls rest
    · exact fun _ _ rest hx hls _ => not_fetchesOne hx hls rest
  have hfetch : Parses m m (fun n => fetchRest (nested n)) (alt (seq FIRST _) (seq NEXT _)) [] :=
    .unlessWord (Nat.le_succ m) rfl hrest (.keyword (Nat.le_succ m) rfl hrest) (by decide)
  exact hfetch.of_lang (by simp [fetchTail, add_mul])

/-- What must not follow the limits of a query so that all of them are taken. -/
def limitsFollow : List Terminal := [.LIMIT, .OFFSET, .FETCH, .ROW, .ROWS] ++ exprFollow

theorem parses_limits : Parses m (m + 1) (fun n => limits (nested n)) (opt limitOffset)
    limitsFollow := by
  have hoffset : Parses m (m + 1) (fun n => optional "offset" (offsetRest (nested n)))
      (opt (seq OFFSET offsetTail)) limitsFollow :=
    .optional (Nat.le_refl _) rfl ((parses_offsetRest h).before (by decide)) (by decide)
  have hfetch : Parses m (m + 1) (fun n => optional "fetch" (fetchRest (nested n)))
      (opt (seq FETCH fetchTail)) limitsFollow :=
    .optional (Nat.le_refl _) rfl ((parses_fetchRest h).before (by decide)) (by decide)
  have hlimits : Parses m (m + 1) (fun n => limits (nested n)) (alt (seq LIMIT _)
      (alt (seq OFFSET (seq offsetTail (alt (seq LIMIT _) _))) _)) limitsFollow :=
    .ifWord (Nat.le_refl _) rfl (.seq (parses_limitRest h)
        (fun _ => (hoffset.shorter (Nat.le_succ m)).map) (by decide))
      (.ifWord (Nat.le_refl _) rfl
        (.seq (parses_offsetRest h) (fun _ => .ifWord (Nat.le_succ m) rfl
          ((parses_limitRest h).map.before (by decide)) (hfetch.shorter (Nat.le_succ m)).map
          (by decide)) (by decide))
        hfetch.map (by decide)) (by decide)
  exact hlimits.of_lang lang_limits

end Limits

section Locks

variable {b : Nat}

theorem parses_lockStrength : Parses m b (fun _ => lockStrength) Rule.lockStrength [] := by
  have hstrength : Parses m b (fun _ => lockStrength) (alt (seq UPDATE empty) (alt (seq SHARE empty)
      (alt (seq NO (seq (seq KEY (seq UPDATE empty)) empty))
        (seq (seq KEY (seq SHARE empty)) empty)))) [] :=
    .ifWord (Nat.le_succ b) rfl .pure (.ifWord (Nat.le_succ b) rfl .pure
      (.ifWord (Nat.le_succ b) rfl
        (.seq (A := []) (.keyword (Nat.le_succ _) rfl (.keyword (Nat.le_succ _) rfl .pure))
          (fun _ => .pure) (by decide))
        (.seq (A := []) (.keyword (Nat.le_succ _) rfl (.keyword (Nat.le_succ _) rfl .pure))
          (fun _ => .pure) (by decide)) (by decide)) (by decide)) (by decide)
  refine (hstrength.of_lang ?_).rule
  simp [rhs]
  ac_rfl

theorem parses_lockWait :
    Parses m b (fun _ => lockWait) (opt Rule.lockWait) [.NOWAIT, .SKIP] := by
  have hwait : Parses m b (fun _ => lockWait) (alt (seq NOWAIT empty)
      (alt (seq SKIP (seq LOCKED empty)) empty)) [.NOWAIT, .SKIP] :=
    .ifWord (Nat.le_succ b) rfl .pure (.ifWord (Nat.le_succ b) rfl
      (.keyword (Nat.le_succ b) rfl .pure) .pure (by decide)) (by decide)
  exact hwait.of_lang (by simp [lang_rule Rule.lockWait, rhs, add_assoc])

theorem parses_lock :
    Parses m b (fun _ => lock) (opt forClause) [.FOR, .NOWAIT, .SKIP] := by
  have hlock : Parses m b (fun _ => lock) (opt (seq FOR (seq Rule.lockStrength (opt Rule.lockWait))))
      [.FOR, .NOWAIT, .SKIP] :=
    .optional (Nat.le_succ b) rfl (.seq parses_lockStrength
      (fun _ => parses_lockWait.map.before (by decide)) (by decide)) (by decide)
  exact hlock.of_lang (by simp [lang_rule forClause, rhs])

end Locks

section Queries

variable (h : Inner m)

include h

theorem parses_cte : Parses m (m + 1) (fun n => cte (nested n)) Rule.cte [] := by
  have hbody (name : Name) (columns : List Name) : Parses m (m + 1) (fun n => do
      keyword "as"
      return Tree.cte name columns (← parens (nested n).statement))
      (seq AS (seqs [LPAR, cteBody, RPAR])) [] :=
    .keyword (Nat.le_succ _) rfl (Parses.parens (Nat.le_refl _) h.statement (by decide)).map
  have hcte : Parses m (m + 1) (fun n => cte (nested n)) (seq Rule.ident
      (alt (seq (seqs [LPAR, identList, RPAR]) (seq AS (seqs [LPAR, cteBody, RPAR])))
        (seq AS (seqs [LPAR, cteBody, RPAR])))) [] :=
    .seq parses_name (fun name => .ifNext (spots_symbol (c := .LPAR) rfl)
      (.seq parses_nameList (fun columns => hbody name columns) (by decide)) (hbody name []) rfl
      (by decide) (by decide)) (by decide)
  refine (hcte.of_lang ?_).rule
  simp [rhs, lang_rule cteColumns, mul_add, add_mul, mul_assoc]

theorem parses_ctes :
    Parses m (m + 1) (fun n => ctes (nested n)) (opt withClause) [.WITH, .COMMA] := by
  have hctes : Parses m (m + 1) (fun n => ctes (nested n))
      (opt (seq WITH (seq (opt RECURSIVE) (Rhs.list Rule.cte)))) [.WITH, .COMMA] :=
    .optional (Nat.le_succ _) rfl (.maybeKeyword rfl (fun _ =>
      (Parses.commas (parses_cte h) (by decide) (List.Subset.refl _)).map.before (by decide))
      (by decide)) (by decide)
  exact hctes.of_lang (by simp [lang_rule withClause, rhs, mul_add, add_mul, add_comm])

theorem parses_queryFrom (ctes : Option (Tree .ctes)) (b : Tree .body) :
    Parses m (m + 1) (fun n => queryFrom (nested n) ctes b) queryTail queryFollow := by
  have hquery : Parses m (m + 1) (fun n => queryFrom (nested n) ctes b)
      (seq (seq (star intersectTail) (star unionTail))
        (seq (opt Rule.orderClause) (seq (opt limitOffset) (opt forClause)))) queryFollow :=
    .seq (parses_bodyFrom h b) (fun _ => .seq (parses_orderClause h) (fun _ =>
      .seq (parses_limits h) (fun _ => parses_lock.map.before (by decide)) (by decide))
      (by decide)) (by decide)
  exact hquery.of_lang (by simp [queryTail, closingTail, mul_assoc])

theorem parses_queryRest (ctes : Option (Tree .ctes)) : Parses m (m + 1)
    (fun n => queryRest (nested n) ctes) (seq setPrimary queryTail) queryFollow :=
  .seq (parses_bodyPrimary h) (fun b => parses_queryFrom h ctes b) (by decide)

theorem parses_query : Parses m (m + 1) (fun n => query (nested n)) Rule.query queryFollow :=
  (Parses.seq (parses_ctes h) (fun ctes => parses_queryRest h ctes) (by decide)).of_lang
    (by simp [lang_query])

end Queries

end SqlTree.Syntax.Parser

import SqlTree.Proofs.Grammar.Tails

/-!
The parser of what may be an expression or a query takes both. Which of the two a query in
parentheses is, what follows it tells, if anything does.
-/

namespace SqlTree.Syntax.Parser

open Grammar Terminal Rule Rhs

section Closed

theorem Meets.mono {cs ds : List Terminal} {ls : List Lexeme} (h : Meets cs ls) (hcs : cs ⊆ ds) :
    Meets ds ls :=
  let ⟨t, ht, c, hc, hmatch⟩ := h
  ⟨t, ht, c, hcs hc, hmatch⟩

theorem Meets.clear {cs A : List Terminal} {ls : List Lexeme} (h : Meets cs ls)
    (hcs : ∀ c ∈ cs, c ∉ A) : Clear A ls := by
  obtain ⟨t, ht, c, hc, hmatch⟩ := h
  rintro t' ht' d hd hmatch'
  obtain rfl := Option.some.inj (ht.symm.trans ht')
  exact hcs c hc (hmatch'.unique hmatch ▸ hd)

/-- The terminals that make a query of a query in parentheses before them. -/
def queryHeads : List Terminal := [UNION, EXCEPT, INTERSECT, ORDER, LIMIT, OFFSET, FETCH, FOR]

theorem queryHeads_words : queryHeads.filterMap Terminal.word? = queryWords := by decide

theorem exists_queryHead {w text : String} :
    (∃ c ∈ queryHeads, c.Matches (.keyword w text)) ↔ queryWords.contains w = true := by
  simp [Terminal.Matches, ← queryHeads_words]

variable {p : Nested} {q : Query} {e : Expr} {ls : List Lexeme}

theorem groupFrom_closed (h : Meets [RPAR, COMMA] ls) :
    groupFrom p q e ls = .ok (.either (groupFrom.nestedQuery q) e, ls) := by
  have hpeek : peek ls = .ok (next ls, ls) := rfl
  obtain ⟨t, ht, c, hc, hmatch⟩ := h
  have hsign : t = .symbol ")" ∨ t = .symbol "," := by
    simp only [List.mem_cons, List.not_mem_nil, or_false] at hc
    rcases hc with rfl | rfl
    · exact .inl (matches_sign rfl hmatch)
    · exact .inr (matches_sign rfl hmatch)
  rw [groupFrom, bind_run hpeek, Option.mem_def.mp ht]
  rcases hsign with rfl | rfl <;> rfl

theorem groupFrom_query (h : Meets queryHeads ls) : groupFrom p q e ls =
    (do return Group.query (← queryFrom p none (.nested q))) ls := by
  have hpeek : peek ls = .ok (next ls, ls) := rfl
  obtain ⟨t, ht, c, hc, hmatch⟩ := h
  have hwords : ∀ c ∈ queryHeads, c.word? ≠ none := by decide
  obtain ⟨w, hw⟩ := Option.ne_none_iff_exists'.mp (hwords c hc)
  obtain ⟨text, rfl⟩ := matches_word hw hmatch
  rw [groupFrom, bind_run hpeek, Option.mem_def.mp ht]
  exact congrFun (if_pos (exists_queryHead.mp ⟨c, hc, hmatch⟩)) ls

theorem groupFrom_expr (h : Clear (RPAR :: COMMA :: queryHeads) ls) : groupFrom p q e ls =
    (do return Group.expr (← expressionFrom p e)) ls := by
  have hpeek : peek ls = .ok (next ls, ls) := rfl
  rw [groupFrom, bind_run hpeek]
  cases hnext : next ls with
  | none => rfl
  | some t =>
    have havoid := h t hnext
    cases t with
    | symbol s =>
      have hclose : s ≠ ")" := by
        rintro rfl
        exact havoid RPAR (by simp) (List.mem_singleton_self _)
      have hcomma : s ≠ "," := by
        rintro rfl
        exact havoid COMMA (by simp) (List.mem_singleton_self _)
      simp [hclose, hcomma]
    | keyword w text =>
      have hother : queryWords.contains w ≠ true := fun hw => by
        obtain ⟨c, hc, hmatch⟩ := exists_queryHead.mpr hw
        exact havoid c (by simp [hc]) hmatch
      exact congrFun (if_neg hother) ls
    | _ => rfl

/-- What is taken behind a query in parentheses, out of what comes of both. -/
def Group.Behind : Group → List Token → Prop
  | .query _, ts => Derives queryTail ts
  | .either _ _, ts => ts = []
  | .expr _, ts => Derives exprTail ts

theorem Group.Behind.derived {g : Group} {ts us : List Token} (h : Group.Behind g us)
    (hts : Derives (seqs [LPAR, Rule.query, RPAR]) ts) : Group.Derived g (ts ++ us) := by
  cases g with
  | query =>
    have hbody : Derives setPrimary ts := .rule (.right (.left hts))
    exact lang_query.ge ⟨[], derives_opt_nil, ts ++ us, ⟨ts, hbody, us, h, rfl⟩, rfl⟩
  | either =>
    obtain rfl : us = [] := h
    simpa [Group.Derived] using hts
  | expr => exact derives_expr_of_operand (.rule (derives_alts.mpr ⟨_, by simp, hts⟩)) h

end Closed

section Behind

variable {m : Nat} (h : Inner m)

include h

theorem groupFrom_sound {q : Query} {e : Expr} {ls rest : List Lexeme} {g : Group}
    (hrun : groupFrom (nested m) q e ls = .ok (g, rest)) :
    ∃ us, ls = us ++ rest ∧ Group.Behind g (us.map Lexeme.token) := by
  by_cases hclosed : Meets [RPAR, COMMA] ls
  · rw [groupFrom_closed hclosed] at hrun
    cases hrun
    exact ⟨[], rfl, rfl⟩
  · by_cases hquery : Meets queryHeads ls
    · rw [groupFrom_query hquery] at hrun
      obtain ⟨q', ms, hq, ⟨⟩⟩ := bind_ok hrun
      exact (parses_queryFrom h none (.nested q)).sound _ _ _ hq
    · have hclear : Clear (RPAR :: COMMA :: queryHeads) ls := fun t ht c hc hmatch => by
        rcases List.mem_append.mp (show c ∈ [RPAR, COMMA] ++ queryHeads from hc) with hc | hc
        · exact hclosed ⟨t, ht, c, hc, hmatch⟩
        · exact hquery ⟨t, ht, c, hc, hmatch⟩
      rw [groupFrom_expr hclear] at hrun
      obtain ⟨e', ms, he, ⟨⟩⟩ := bind_ok hrun
      exact (parses_expressionFrom h e).sound _ _ _ he

theorem exists_groupFrom_query (q : Query) (e : Expr) {us : List Lexeme} (hus : us.length < m + 1)
    (hx : Derives queryTail (us.map Lexeme.token)) :
    ∃ g, Accepts m (fun n => groupFrom (nested n) q e) us (Meets [RPAR]) g ∧ ∀ e, g ≠ .expr e := by
  cases us with
  | nil =>
    refine ⟨.either (groupFrom.nestedQuery q) e, fun n ls' rest _ hls hr => ?_, nofun⟩
    rw [hls.nil]
    exact groupFrom_closed (hr.mono (by decide))
  | cons l us =>
    obtain ⟨q', hq⟩ := (parses_queryFrom h none (.nested q)).complete _ hus hx
    refine ⟨.query q', fun n ls' rest hn hls hr => ?_, nofun⟩
    have hquery : Meets queryHeads (ls' ++ rest) := by
      obtain ⟨l', rfl, hl⟩ := hls.cons
      obtain ⟨c, hc, hmatch⟩ := hx.first l.token rfl
      exact ⟨l'.token, rfl, c, (by decide : queryTail.first ⊆ queryHeads) hc, hl ▸ hmatch⟩
    refine (groupFrom_query hquery).trans ?_
    exact (hq.map (g := Group.query)) n ls' rest hn hls (hr.clear (by decide))

theorem exists_groupFrom_expr (q : Query) (e : Expr) {us : List Lexeme} (hus : us.length < m + 1)
    (hx : Derives exprTail (us.map Lexeme.token)) :
    ∃ g, Accepts m (fun n => groupFrom (nested n) q e) us (Meets [RPAR, COMMA]) g ∧
      ∀ q, g ≠ .query q := by
  cases us with
  | nil =>
    refine ⟨.either (groupFrom.nestedQuery q) e, fun n ls' rest _ hls hr => ?_, nofun⟩
    rw [hls.nil]
    exact groupFrom_closed hr
  | cons l us =>
    obtain ⟨e', he⟩ := (parses_expressionFrom h e).complete _ hus hx
    refine ⟨.expr e', fun n ls' rest hn hls hr => ?_, nofun⟩
    have hstart : Meets exprTail.first (ls' ++ rest) := by
      obtain ⟨l', rfl, hl⟩ := hls.cons
      obtain ⟨c, hc, hmatch⟩ := hx.first l.token rfl
      exact ⟨l'.token, rfl, c, hc, hl ▸ hmatch⟩
    refine (groupFrom_expr (hstart.clear (by decide))).trans ?_
    exact (he.map (g := Group.expr)) n ls' rest hn hls (hr.clear (by decide))

end Behind

section Closing

/-- What is made of a query in parentheses that is an expression as well. -/
def regroup (p : Nested) (q : Query) (e : Expr) : Parser Group := do
  match e with
  | .paren e => groupFrom p q (.paren e)
  | e => return .expr (← expressionFrom p e)

/-- What is made of what stands behind an opening parenthesis. -/
def closing (p : Nested) : Group → Parser Group
  | .query q => do
    symbol ")"
    groupFrom p q (.subquery q)
  | .either q e => do regroup p q (← closeGroup p e)
  | .expr e => do return .expr (← expressionFrom p (← closeGroup p e))

variable {p : Nested} {ls ms : List Lexeme}

theorem symbol_ok {c : Terminal} {w : String} (hc : c.signs = [w])
    (h : symbol w ls = .ok ((), ms)) : ∃ l, ls = l :: ms ∧ c.Matches l.token := by
  rcases matches_or_avoids c ls with ⟨l, us, rfl, hl⟩ | hno
  · rw [symbol_run hc hl] at h
    cases h
    exact ⟨l, rfl, hl⟩
  · rw [symbol, (tests_symbol hc).run_no hno] at h
    cases h

/-- Nothing but the closing parenthesis leaves an expression in parentheses. -/
theorem closeGroup_paren {e e' : Expr} (h : closeGroup p e ls = .ok (.paren e', ms)) :
    ∃ l, ls = l :: ms ∧ RPAR.Matches l.token := by
  rcases matches_or_avoids COMMA ls with ⟨l, us, rfl, hl⟩ | hcomma
  · have hrow := ((tests_symbol rfl).run_yes hl).symm.trans h
    obtain ⟨_, _, -, hrow⟩ := bind_ok hrow
    obtain ⟨_, _, -, hrow⟩ := bind_ok hrow
    cases hrow
  · have hclose := ((tests_symbol rfl).run_no hcomma).symm.trans h
    obtain ⟨⟨⟩, ms', hclose, hrest⟩ := bind_ok hclose
    obtain ⟨l, rfl, hl⟩ := symbol_ok (c := .RPAR) rfl hclose
    rcases matches_or_avoids DOT ms' with ⟨l', us, rfl, hl'⟩ | hdot
    · have hfield := ((tests_symbol rfl).run_yes hl').symm.trans hrest
      obtain ⟨_, _, -, hfield⟩ := bind_ok hfield
      cases hfield
    · have hparen := ((tests_symbol rfl).run_no hdot).symm.trans hrest
      cases hparen
      exact ⟨l, rfl, hl⟩

theorem spots_query :
    Spots (fun o => isKeyword "select" o || isKeyword "with" o) [SELECT, WITH] :=
  (spots_keyword rfl).or (spots_keyword rfl)

theorem group_query (h : Meets [SELECT, WITH] ls) :
    group p ls = (do return Group.query (← query p)) ls := by
  have hpeek : peek ls = .ok (next ls, ls) := rfl
  rw [group, bind_run hpeek]
  exact congrFun (if_pos ((spots_query _).mpr h)) ls

theorem group_rest (h : Clear [SELECT, WITH] ls) : group p ls = (do
    if ← takeSymbol "(" then p.group >>= closing p
    else return Group.expr (← expression p)) ls := by
  have hpeek : peek ls = .ok (next ls, ls) := rfl
  rw [group, bind_run hpeek]
  refine (congrFun (if_neg (Bool.eq_false_iff.mp (spots_query.eq_false h))) ls).trans ?_
  refine congrFun (bind_congr fun t => ?_) ls
  cases t with
  | false => rfl
  | true =>
    refine bind_congr fun g => ?_
    cases g <;> rfl

theorem group_paren {l : Lexeme} (hl : LPAR.Matches l.token) :
    group p (l :: ls) = (p.group >>= closing p) ls := by
  refine (group_rest ?_).trans ((tests_symbol (c := .LPAR) rfl).run_yes hl)
  rintro _ ⟨⟩ c hc hmatch
  exact absurd (hl.unique hmatch ▸ hc) (by decide)

theorem group_expr (h : Clear [SELECT, WITH, LPAR] ls) :
    group p ls = (do return Group.expr (← expression p)) ls :=
  (group_rest (h.mono (by decide))).trans
    ((tests_symbol (c := .LPAR) rfl).run_no (h.mono (by decide)))

theorem derives_opened {t : Token} {ts ks vs : List Token} (ht : LPAR.Matches t)
    (he : Derives Rule.expr ts) (hclose : Derives closeTail ks) (htail : Derives exprTail vs) :
    Derives Rule.expr (t :: (ts ++ ks) ++ vs) :=
  (derives_expr_paren_iff ht).mpr (.seq (.right (he.seq hclose)) htail)

theorem derives_paren {x : Rhs} {t r : Token} {ts : List Token} (ht : LPAR.Matches t)
    (hx : Derives x ts) (hr : RPAR.Matches r) : Derives (seqs [LPAR, x, RPAR]) (t :: (ts ++ [r])) :=
  (Derives.token ht).seq (hx.seq ((Derives.token hr).seq .empty))

end Closing

section Opened

variable {m : Nat} (h : Inner m)

include h

theorem closing_sound {g g' : Group} {t : Token} {ts : List Token} {ls rest : List Lexeme}
    (ht : LPAR.Matches t) (hg : Group.Derived g ts)
    (hrun : closing (nested m) g ls = .ok (g', rest)) :
    ∃ us, ls = us ++ rest ∧ Group.Derived g' (t :: ts ++ us.map Lexeme.token) := by
  -- a query in parentheses, and what follows it
  have closed {q : Query} {e : Expr} {r : Lexeme} {ms : List Lexeme} (hq : Derives Rule.query ts)
      (hr : RPAR.Matches r.token) (hrun : groupFrom (nested m) q e ms = .ok (g', rest)) :
      ∃ us, r :: ms = us ++ rest ∧ Group.Derived g' (t :: ts ++ us.map Lexeme.token) := by
    obtain ⟨us, rfl, hus⟩ := groupFrom_sound h hrun
    exact ⟨r :: us, rfl, by simpa using Group.Behind.derived hus (derives_paren ht hq hr)⟩
  have gone {e : Expr} {ks ms : List Lexeme} (he : Derives Rule.expr ts)
      (hks : Derives closeTail (ks.map Lexeme.token))
      (hrun : (do return Group.expr (← expressionFrom (nested m) e)) ms = .ok (g', rest)) :
      ∃ us, ks ++ ms = us ++ rest ∧ Group.Derived g' (t :: ts ++ us.map Lexeme.token) := by
    obtain ⟨e', ms', he', ⟨⟩⟩ := bind_ok hrun
    obtain ⟨us, rfl, hus⟩ := (parses_expressionFrom h e).sound _ _ _ he'
    have hexpr := derives_opened ht he hks hus
    exact ⟨ks ++ us, by simp, by simpa [Group.Derived] using hexpr⟩
  cases g with
  | query q =>
    obtain ⟨⟨⟩, ms, hclose, hrest⟩ := bind_ok hrun
    obtain ⟨r, rfl, hr⟩ := symbol_ok (c := .RPAR) rfl hclose
    exact closed hg hr hrest
  | expr e =>
    obtain ⟨e', ms, hclose, hrest⟩ := bind_ok hrun
    obtain ⟨ks, rfl, hks⟩ := (parses_closeGroup h e).sound _ _ _ hclose
    exact gone hg hks hrest
  | either q e =>
    obtain ⟨e', ms, hclose, hrest⟩ := bind_ok hrun
    unfold regroup at hrest
    split at hrest
    case h_1 e' =>
      obtain ⟨r, rfl, hr⟩ := closeGroup_paren hclose
      exact closed (Group.Derived.query hg nofun) hr hrest
    case h_2 =>
      obtain ⟨ks, rfl, hks⟩ := (parses_closeGroup h e).sound _ _ _ hclose
      exact gone (Group.Derived.expr hg nofun) hks hrest

theorem exists_closing_expr {g : Group} {ks vs : List Lexeme} (hg : ∀ q, g ≠ .query q)
    (hlength : (ks ++ vs).length < m + 1) (hks : Derives closeTail (ks.map Lexeme.token))
    (hvs : Derives exprTail (vs.map Lexeme.token)) :
    ∃ g', Accepts m (fun n => closing (nested n) g) (ks ++ vs) (Meets [RPAR, COMMA]) g' ∧
      ∀ q, g' ≠ .query q := by
  rw [List.length_append] at hlength
  have hfit : Fits exprTail [DOT] [DOT] := by decide
  have hclear (vs' rest : List Lexeme) (hvs' : Alike vs vs') (hr : Meets [RPAR, COMMA] rest) :
      Clear [DOT] (vs' ++ rest) := hfit.clear hvs hvs' (hr.clear (by decide))
  have hgone (e : Expr) : ∃ g', Accepts m (fun n => do
      return Group.expr (← expressionFrom (nested n) e)) vs (Meets [RPAR, COMMA]) g' ∧
      ∀ q, g' ≠ .query q := by
    obtain ⟨e', he⟩ := (parses_expressionFrom h e).complete vs (by omega) hvs
    exact ⟨.expr e', he.map.mono fun _ hr => hr.clear (by decide), nofun⟩
  cases g with
  | query q => exact absurd rfl (hg q)
  | expr e =>
    obtain ⟨e', he⟩ := (parses_closeGroup h e).complete ks (by omega) hks
    obtain ⟨g', hg', hne⟩ := hgone e'
    exact ⟨g', he.bind hg' hclear, hne⟩
  | either q e =>
    obtain ⟨e', he⟩ := (parses_closeGroup h e).complete ks (by omega) hks
    obtain ⟨g', hg', hne⟩ : ∃ g', Accepts m (fun n => regroup (nested n) q e') vs
        (Meets [RPAR, COMMA]) g' ∧ ∀ q, g' ≠ .query q := by
      unfold regroup
      split
      · exact exists_groupFrom_expr h q _ (by omega) hvs
      · exact hgone _
    exact ⟨g', he.bind hg' hclear, hne⟩

omit h in
theorem accepts_symbol {c : Terminal} {w : String} (hc : c.signs = [w]) {l : Lexeme}
    (hl : c.Matches l.token) {F : List Lexeme → Prop} : Accepts m (fun _ => symbol w) [l] F () := by
  intro n ls' rest _ hls _
  obtain ⟨l', rfl, hl'⟩ := hls.cons
  exact symbol_run hc (hl' ▸ hl)

omit h in
theorem accepts_paren (e : Expr) {r : Lexeme} (hr : RPAR.Matches r.token) :
    Accepts m (fun n => closeGroup (nested n) e) [r] (Clear [DOT]) (.paren e) := by
  intro n ls' rest _ hls hrest
  obtain ⟨r', rfl, hr'⟩ := hls.cons
  have hmatch : RPAR.Matches r'.token := hr' ▸ hr
  have hcomma : Avoids [COMMA] (next ([r'] ++ rest)) := by
    rintro _ ⟨⟩ c hc hcomma
    exact absurd (hmatch.unique hcomma ▸ hc) (by decide)
  refine ((tests_symbol rfl).run_no hcomma).trans ?_
  exact (bind_run (symbol_run rfl hmatch)).trans ((tests_symbol rfl).run_no hrest)

/-- A query in parentheses is gone on with as a query, whatever was made of it. -/
theorem exists_closing_query {g : Group} {r : Lexeme} {vs : List Lexeme} (hg : ∀ e, g ≠ .expr e)
    (hr : RPAR.Matches r.token) (hlength : vs.length < m + 1)
    (hvs : Derives queryTail (vs.map Lexeme.token)) :
    ∃ g', Accepts m (fun n => closing (nested n) g) ([r] ++ vs) (Meets [RPAR]) g' ∧
      ∀ e, g' ≠ .expr e := by
  have hfit : Fits queryTail [DOT] [DOT] := by decide
  cases g with
  | expr e => exact absurd rfl (hg e)
  | query q =>
    obtain ⟨g', hg', hne⟩ := exists_groupFrom_query h q (.subquery q) hlength hvs
    exact ⟨g', (accepts_symbol rfl hr (F := fun _ => True)).bind hg' fun _ _ _ _ => trivial, hne⟩
  | either q e =>
    obtain ⟨g', hg', hne⟩ := exists_groupFrom_query h q (.paren e) hlength hvs
    refine ⟨g', (accepts_paren e hr).bind (f := fun e n => regroup (nested n) q e) hg' ?_, hne⟩
    exact fun _ _ hls hrest => hfit.clear hvs hls (hrest.clear (by decide))

/-- Likewise as an expression. -/
theorem exists_closing_subquery {g : Group} {r : Lexeme} {vs : List Lexeme}
    (hg : ∀ e, g ≠ .expr e) (hr : RPAR.Matches r.token) (hlength : vs.length < m)
    (hvs : Derives exprTail (vs.map Lexeme.token)) :
    ∃ g', Accepts m (fun n => closing (nested n) g) ([r] ++ vs) (Meets [RPAR, COMMA]) g' ∧
      ∀ q, g' ≠ .query q := by
  cases g with
  | expr e => exact absurd rfl (hg e)
  | query q =>
    obtain ⟨g', hg', hne⟩ := exists_groupFrom_expr h q (.subquery q) (Nat.lt_succ_of_lt hlength) hvs
    exact ⟨g', (accepts_symbol rfl hr (F := fun _ => True)).bind hg' fun _ _ _ _ => trivial, hne⟩
  | either q e =>
    refine exists_closing_expr h nofun (by simpa using hlength) ?_ hvs
    exact .right (.right (.left (.token hr)))

omit h in
theorem derives_query_paren {t : Token} {ts : List Token} (ht : LPAR.Matches t)
    (hx : Derives Rule.query (t :: ts)) : Derives (seq Rule.query (seq RPAR queryTail)) ts := by
  have hlang : lang Rule.query = lang (seq (opt withClause) (seq setPrimary queryTail)) := by
    simp [lang_query]
  have hquery : Derives (seq setPrimary queryTail) (t :: ts) := by
    have hwith : Derives (seq (opt withClause) (seq setPrimary queryTail)) (t :: ts) := hlang.le hx
    generalize hts : t :: ts = us at hwith
    cases hwith with
    | @seq _ _ us vs hopt hbody =>
      cases us with
      | nil => exact hbody
      | cons u us =>
        obtain rfl := (List.cons.inj hts).1
        exact absurd (hopt.mem_first ht) (by decide)
  obtain ⟨us, vs, rfl, hbody, htail⟩ := hquery.of_seq_cons rfl
  have hforms : Derives (alts [selectCore, seqs [LPAR, Rule.query, RPAR]]) (t :: us) :=
    (lang_rule setPrimary).le hbody
  obtain ⟨x, hx, hbody⟩ := hforms.filter_alts ht
  obtain rfl : x = seqs [LPAR, Rule.query, RPAR] := List.mem_singleton.mp hx
  have hlang : lang (seq (seqs [Rule.query, RPAR]) queryTail) =
      lang (seq Rule.query (seq RPAR queryTail)) := by
    simp [mul_assoc]
  exact hlang.le (hbody.of_token_seq.seq htail : Derives _ _)

omit h in
theorem accepts_group_paren {l : Lexeme} {ts ks : List Lexeme} {g g' : Group}
    {cs : List Terminal} {F : List Lexeme → Prop} {x : Rhs} (hl : LPAR.Matches l.token)
    (hg : Accepts m (fun n => (nested n).group) ts (Meets cs) g)
    (hg' : Accepts m (fun n => closing (nested n) g) ks F g') (hx : Starts cs x)
    (hks : Derives x (ks.map Lexeme.token)) :
    Accepts m (fun n => group (nested n)) (l :: (ts ++ ks)) F g' := by
  intro n ls' rest hn hls hr
  obtain ⟨l', rfl, hl'⟩ := hls.cons
  refine (group_paren (hl' ▸ hl)).trans ?_
  exact (hg.bind (f := fun g n => closing (nested n) g) hg' fun _ _ hvs _ => hx.meets hks hvs)
    n _ rest hn (.refl _) hr

theorem exists_group_query {l : Lexeme} {us : List Lexeme} (hl : LPAR.Matches l.token)
    (hls : (l :: us).length < m + 1) (hx : Derives Rule.query ((l :: us).map Lexeme.token)) :
    ∃ g, Accepts m (fun n => group (nested n)) (l :: us) (Meets [RPAR]) g ∧ ∀ e, g ≠ .expr e := by
  have htail : Derives (seq Rule.query (seq RPAR queryTail)) (us.map Lexeme.token) :=
    derives_query_paren hl hx
  obtain ⟨ts, ks, rfl, hts, hks⟩ := htail.split
  obtain ⟨r, vs, rfl, hr, hvs⟩ := Parses.cons_of_token hks
  simp only [List.length_cons, List.length_append] at hls
  obtain ⟨g, hg, hne⟩ := h.group.query ts (by omega) hts
  obtain ⟨g', hg', hne'⟩ := exists_closing_query h hne hr (by omega) hvs
  exact ⟨g', accepts_group_paren hl hg hg' (x := seq RPAR queryTail) (by decide) hks, hne'⟩

theorem exists_group_expr {l : Lexeme} {us : List Lexeme} (hl : LPAR.Matches l.token)
    (hls : (l :: us).length < m + 1) (hx : Derives Rule.expr ((l :: us).map Lexeme.token)) :
    ∃ g, Accepts m (fun n => group (nested n)) (l :: us) (Meets [RPAR, COMMA]) g ∧
      ∀ q, g ≠ .query q := by
  have htail : Derives (seq groupTail exprTail) (us.map Lexeme.token) :=
    (derives_expr_paren_iff hl).mp hx
  have hlang : lang (seq groupTail exprTail) =
      lang (alt (seq Rule.query (seq RPAR exprTail)) (seq Rule.expr (seq closeTail exprTail))) := by
    simp [groupTail, add_mul, mul_assoc]
  have hforms : Derives (alt (seq Rule.query (seq RPAR exprTail))
    (seq Rule.expr (seq closeTail exprTail))) (us.map Lexeme.token) := hlang.le htail
  rw [List.length_cons] at hls
  generalize htokens : us.map Lexeme.token = tokens at hforms
  cases hforms with
  | left hquery =>
    subst htokens
    obtain ⟨ts, ks, rfl, hts, hks⟩ := hquery.split
    obtain ⟨r, vs, rfl, hr, hvs⟩ := Parses.cons_of_token hks
    simp only [List.length_cons, List.length_append] at hls
    obtain ⟨g, hg, hne⟩ := h.group.query ts (by omega) hts
    obtain ⟨g', hg', hne'⟩ := exists_closing_subquery h hne hr (by omega) hvs
    exact ⟨g', accepts_group_paren hl hg hg' (x := seq RPAR exprTail) (by decide) hks, hne'⟩
  | right hexpr =>
    subst htokens
    obtain ⟨ts, ks, rfl, hts, hks⟩ := hexpr.split
    obtain ⟨cs, vs, rfl, hcs, hvs⟩ := hks.split
    simp only [List.length_append] at hls
    obtain ⟨g, hg, hne⟩ := h.group.expr ts (by omega) hts
    obtain ⟨g', hg', hne'⟩ := exists_closing_expr h hne (by simp; omega) hcs hvs
    exact ⟨g', accepts_group_paren hl hg hg' (x := seq closeTail exprTail) (by decide) hks, hne'⟩

theorem readsGroups : ReadsGroups m (m + 1) (fun n => group (nested n)) where
  sound ls g rest hrun := by
    by_cases hquery : Meets [SELECT, WITH] ls
    · rw [group_query hquery] at hrun
      obtain ⟨q, ms, hq, ⟨⟩⟩ := bind_ok hrun
      exact (parses_query h).sound _ _ _ hq
    · have hclear : Clear [SELECT, WITH] ls := fun t ht c hc hmatch => hquery ⟨t, ht, c, hc, hmatch⟩
      rcases matches_or_avoids LPAR ls with ⟨l, us, rfl, hl⟩ | hparen
      · rw [group_paren hl] at hrun
        obtain ⟨g', ms, hg', hrest⟩ := bind_ok hrun
        obtain ⟨ts, rfl, hts⟩ := h.group.sound _ _ _ hg'
        obtain ⟨vs, rfl, hvs⟩ := closing_sound h hl hts hrest
        exact ⟨l :: (ts ++ vs), by simp, by simpa using hvs⟩
      · rw [group_expr fun t ht c hc => ?_] at hrun
        · obtain ⟨e, ms, he, ⟨⟩⟩ := bind_ok hrun
          exact (parses_expression h).sound _ _ _ he
        · rcases List.mem_append.mp (show c ∈ [SELECT, WITH] ++ [LPAR] from hc) with hc | hc
          · exact hclear t ht c hc
          · exact hparen t ht c hc
  query ls hls hx := by
    cases ls with
    | nil => exact absurd (hx.nullable rfl) (by decide)
    | cons l us =>
      by_cases hl : LPAR.Matches l.token
      · exact exists_group_query h hl hls hx
      · obtain ⟨q, hq⟩ := (parses_query h).complete _ hls hx
        refine ⟨.query q, fun n ls' rest hn hls' hr => ?_, nofun⟩
        obtain ⟨l', rfl, hl'⟩ := hls'.cons
        obtain ⟨c, hc, hmatch⟩ := hx.first l.token rfl
        have hword : ∀ c ∈ starts .query, c ≠ LPAR → c ∈ [SELECT, WITH] := by decide
        refine (group_query ⟨l'.token, rfl, c, hword c hc ?_, hl' ▸ hmatch⟩).trans ?_
        · rintro rfl
          exact hl hmatch
        · exact (hq.map (g := Group.query)) n _ rest hn hls' (hr.clear (by decide))
  expr ls hls hx := by
    cases ls with
    | nil => exact absurd (hx.nullable rfl) (by decide)
    | cons l us =>
      by_cases hl : LPAR.Matches l.token
      · exact exists_group_expr h hl hls hx
      · obtain ⟨e, he⟩ := (parses_expression h).complete _ hls hx
        refine ⟨.expr e, fun n ls' rest hn hls' hr => ?_, nofun⟩
        obtain ⟨l', rfl, hl'⟩ := hls'.cons
        obtain ⟨c, hc, hmatch⟩ := hx.first l.token rfl
        have hother : ∀ c ∈ starts .expr, c ∈ [SELECT, WITH, LPAR] → c = LPAR := by decide
        refine (group_expr ?_).trans ((he.map (g := Group.expr)) n _ rest hn hls'
          (hr.clear (by decide)))
        rintro _ ⟨⟩ d hd hmatch'
        rw [← hl'] at hmatch'
        obtain rfl := hmatch.unique hmatch'
        exact hl (hother c hc hd ▸ hmatch)

end Opened

end SqlTree.Syntax.Parser

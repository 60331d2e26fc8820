import SqlTree.Proofs.Grammar.Expressions
import SqlTree.Proofs.RoundTrip.Operands

/-!
The parser of what is selected takes what the grammar says. A path that ends in a star is told from
an expression by looking ahead, and no expression goes on like such a path.
-/

namespace SqlTree.Syntax.Parser

open Grammar Terminal Rule Rhs

variable {m b : Nat} {A B : List Terminal}

section Stars

def starred : Rhs := seqs [qualifiedName, DOT, STAR]

/-- What follows the first name of a path that ends in a star. -/
def starTail : Rhs := seq pathTail (seqs [DOT, STAR])

theorem lang_starred : lang starred = lang (seq Rule.ident starTail) := by
  simp [starred, starTail, pathTail, lang_rule qualifiedName, rhs, mul_assoc]

theorem symbol_run {c : Terminal} {w : String} {l : Lexeme} {ls : List Lexeme} (hc : c.signs = [w])
    (hl : c.Matches l.token) : symbol w (l :: ls) = .ok ((), ls) :=
  (tests_symbol hc).run_yes hl

theorem name_run {l : Lexeme} {ls : List Lexeme} {n : Name} (h : nameOf? l.token = some n) :
    name (l :: ls) = .ok (n, ls) := by
  rw [name_eq, single, next_cons, Option.bind_some, h]
  rfl

/-- What is gone on with behind a name of such a path. -/
def starStep (done : Path) : Parser (Option Path) := do
  symbol "."
  if ← takeSymbol "*" then return none
  return some (done ++ [← name])

theorem starredPath_eq : starredPath = name >>= fun first => iterate starStep [first] := rfl

theorem pathTail_cases {us : List Lexeme} (h : Derives pathTail (us.map Lexeme.token)) :
    us = [] ∨ ∃ l₁ l₂ vs n, us = l₁ :: l₂ :: vs ∧ DOT.Matches l₁.token ∧
      nameOf? l₂.token = some n ∧ Derives pathTail (vs.map Lexeme.token) := by
  cases us with
  | nil => exact .inl rfl
  | cons l us =>
    have hmore : Derives (seq (seqs [DOT, Rule.ident]) pathTail) ((l :: us).map Lexeme.token) :=
      Derives.of_star_cons h
    obtain ⟨hs, vs, hsplit, hfirst, hrest⟩ := hmore.split
    obtain ⟨l₁, ks, rfl, hdot, hks⟩ := Parses.cons_of_token hfirst
    obtain ⟨ns, es, rfl, hname, hnil⟩ := hks.split
    generalize hts : es.map Lexeme.token = ts at hnil
    cases hnil
    obtain rfl := List.map_eq_nil_iff.mp hts
    obtain ⟨t, ht, hn⟩ := derives_ident_iff.mp hname
    obtain ⟨l₂, rfl, rfl⟩ := List.map_eq_singleton_iff.mp ht
    obtain ⟨n, hn⟩ := Option.isSome_iff_exists.mp hn
    exact .inr ⟨l₁, l₂, vs, n, hsplit, hdot, hn, hrest⟩

theorem isName_of_eq {t : Token} {n : Name} (h : nameOf? t = some n) : isName (some t) = true := by
  simp [isName, h]

/-- A name is no sign. -/
theorem isSymbol_of_name {t : Token} {n : Name} (h : nameOf? t = some n) (s : String) :
    isSymbol s (some t) = false := by
  cases t with
  | symbol => cases h
  | _ => rfl

theorem exists_starSteps {ks : List Lexeme} (h : Derives starTail (ks.map Lexeme.token))
    (done : Path) : ∃ path, ∀ fuel rest, ks.length ≤ List.length fuel →
      iterateOver starStep fuel done (ks ++ rest) = .ok (path, rest) := by
  induction hk : ks.length using Nat.strong_induction_on generalizing ks done with
  | _ k ih =>
    subst hk
    obtain ⟨us, vs, rfl, hus, hvs⟩ := h.split
    obtain rfl | ⟨l₁, l₂, us, n, rfl, hdot, hname, hus⟩ := pathTail_cases hus
    · obtain ⟨l₁, ks, rfl, hdot, hks⟩ := Parses.cons_of_token hvs
      obtain ⟨l₂, es, rfl, hstar, hes⟩ := Parses.cons_of_token hks
      generalize hts : es.map Lexeme.token = ts at hes
      cases hes
      obtain rfl := List.map_eq_nil_iff.mp hts
      refine ⟨done, fun fuel rest hfuel => ?_⟩
      cases fuel with
      | nil => simp at hfuel
      | cons f fuel =>
        have hstep : starStep done (l₁ :: l₂ :: rest) = .ok (none, rest) :=
          (bind_run (symbol_run (c := .DOT) rfl hdot)).trans
            ((tests_symbol (c := .STAR) rfl).run_yes hstar)
        exact bind_run hstep
    · have hless : (us ++ vs).length < (l₁ :: l₂ :: us ++ vs).length := by
        simp only [List.cons_append, List.length_cons]
        omega
      obtain ⟨path, hpath⟩ := ih _ hless (hus.append hvs) (done ++ [n]) rfl
      refine ⟨path, fun fuel rest hfuel => ?_⟩
      cases fuel with
      | nil => simp at hfuel
      | cons f fuel =>
        have hnot : Avoids [STAR] (next (l₂ :: (us ++ vs ++ rest))) := by
          rintro _ ⟨⟩ c hc hstar
          obtain rfl := List.mem_singleton.mp hc
          have hsign := (isSymbol_iff (c := .STAR) rfl).mpr hstar
          rw [isSymbol_of_name hname] at hsign
          cases hsign
        have hstep : starStep done (l₁ :: l₂ :: (us ++ vs ++ rest)) =
            .ok (some (done ++ [n]), us ++ vs ++ rest) :=
          (bind_run (symbol_run (c := .DOT) rfl hdot)).trans
            (((tests_symbol (c := .STAR) rfl).run_no hnot).trans (bind_run (name_run hname)))
        refine (bind_run hstep).trans (hpath fuel rest ?_)
        simp only [List.cons_append, List.length_cons] at hfuel
        omega

theorem startsStar_cons {l₁ l₂ l₃ : Lexeme} {ls : List Lexeme} (hdot : DOT.Matches l₂.token) :
    startsStar (l₁ :: l₂ :: l₃ :: ls) =
      (isName (some l₁.token) && (l₃.token == .symbol "*" || startsStar (l₃ :: ls))) := by
  obtain ⟨gap, t⟩ := l₂
  obtain rfl := matches_sign (c := .DOT) rfl hdot
  obtain ⟨_, t₁⟩ := l₁
  rw [startsStar]

theorem startsStar_starTail {l : Lexeme} {ks : List Lexeme}
    (h : Derives starTail (ks.map Lexeme.token)) {n : Name} (hn : nameOf? l.token = some n)
    (rest : List Lexeme) : startsStar (l :: (ks ++ rest)) = true := by
  induction hk : ks.length using Nat.strong_induction_on generalizing l ks n with
  | _ k ih =>
    subst hk
    obtain ⟨us, vs, rfl, hus, hvs⟩ := h.split
    obtain rfl | ⟨l₁, l₂, us, n', rfl, hdot, hname, hus⟩ := pathTail_cases hus
    · obtain ⟨l₁, ks, rfl, hdot, hks⟩ := Parses.cons_of_token hvs
      obtain ⟨l₂, es, rfl, hstar, -⟩ := Parses.cons_of_token hks
      have htoken : l₂.token = .symbol "*" := matches_sign rfl hstar
      exact (startsStar_cons hdot).trans (by simp [isName_of_eq hn, htoken])
    · have hless : (us ++ vs).length < (l₁ :: l₂ :: us ++ vs).length := by
        simp only [List.cons_append, List.length_cons]
        omega
      have hrest := ih _ hless (hus.append hvs) hname rfl
      refine (startsStar_cons hdot).trans ?_
      rw [isName_of_eq hn, Bool.true_and, Bool.or_eq_true]
      exact .inr hrest

/-- A path that ends in a star is found and taken. -/
theorem exists_starred {us : List Lexeme} (h : Derives starred (us.map Lexeme.token)) :
    ∃ path, ∀ us' rest, Alike us us' → startsStar (us' ++ rest) = true ∧
      starredPath (us' ++ rest) = .ok (path, rest) := by
  have hsplit : Derives (seq Rule.ident starTail) (us.map Lexeme.token) := lang_starred.le h
  obtain ⟨ns, ks, rfl, hname, htail⟩ := hsplit.split
  obtain ⟨t, ht, hn⟩ := derives_ident_iff.mp hname
  obtain ⟨l, rfl, rfl⟩ := List.map_eq_singleton_iff.mp ht
  obtain ⟨n, hn⟩ := Option.isSome_iff_exists.mp hn
  obtain ⟨path, hpath⟩ := exists_starSteps htail [n]
  refine ⟨path, fun us' rest hls => ?_⟩
  rw [List.singleton_append] at hls
  obtain ⟨l', rfl, hl⟩ := hls.cons
  rw [hl] at hn
  refine ⟨startsStar_starTail htail hn rest, ?_⟩
  refine (bind_run (name_run hn)).trans (hpath _ rest ?_)
  simp

theorem startsStar_sound {ls : List Lexeme} (h : startsStar ls = true) :
    ∃ l ks rest, ls = l :: (ks ++ rest) ∧ (nameOf? l.token).isSome = true ∧
      Derives starTail (ks.map Lexeme.token) := by
  fun_induction startsStar ls with
  | case1 gap t gap' next rest ih =>
    rw [Bool.and_eq_true, Bool.or_eq_true, beq_iff_eq] at h
    have hdot : Derives DOT [.symbol "."] := .token (List.mem_singleton_self _)
    obtain ⟨hname, hstar | hmore⟩ := h
    · have hstar : Derives STAR [next.token] := hstar ▸ .token (List.mem_singleton_self _)
      exact ⟨_, [⟨gap', .symbol "."⟩, next], rest, rfl, hname,
        .seq .stop (hdot.seq (hstar.seq .empty))⟩
    · obtain ⟨l, ks, rest', hks, hl, htail⟩ := ih hmore
      obtain ⟨rfl, rfl⟩ : next = l ∧ rest = ks ++ rest' := List.cons.inj hks
      have hsecond : Derives (seqs [DOT, Rule.ident]) [.symbol ".", next.token] :=
        hdot.seq ((derives_ident_iff.mpr ⟨_, rfl, hl⟩).seq .empty)
      refine ⟨_, ⟨gap', .symbol "."⟩ :: next :: ks, rest', rfl, hname, ?_⟩
      obtain ⟨us, vs, rfl, hus, hvs⟩ := htail.split
      have hmore : Derives pathTail _ := .more hsecond hus
      simpa [starTail] using hmore.seq hvs
  | case2 => cases h

/-- No star follows the names of an operand. -/
theorem startsStar_dotted {l : Lexeme} {us rest : List Lexeme}
    (h : Derives pathTail (us.map Lexeme.token)) (hr : isSymbol "." (next rest) = false) :
    startsStar (l :: (us ++ rest)) = false := by
  induction hk : us.length using Nat.strong_induction_on generalizing l us with
  | _ k ih =>
    subst hk
    obtain rfl | ⟨l₁, l₂, us, n, rfl, hdot, hname, hus⟩ := pathTail_cases h
    · refine startsStar_of_not_dot fun (hnext : next rest = _) => ?_
      rw [hnext] at hr
      cases hr
    · have hless : us.length < (l₁ :: l₂ :: us).length := by
        simp only [List.length_cons]
        omega
      have htoken : (l₂.token == .symbol "*") = false := by
        rw [beq_eq_false_iff_ne]
        intro heq
        rw [heq] at hname
        cases hname
      exact (startsStar_cons hdot).trans (by simp [htoken, ih _ hless hus rfl])

theorem exists_of_startsStar {ls : List Lexeme} (h : startsStar ls = true) :
    ∃ us rest, ls = us ++ rest ∧ Derives starred (us.map Lexeme.token) := by
  obtain ⟨l, ks, rest, rfl, hl, htail⟩ := startsStar_sound h
  refine ⟨l :: ks, rest, rfl, lang_starred.ge ?_⟩
  have hname : Derives Rule.ident ([l].map Lexeme.token) := derives_ident_iff.mpr ⟨_, rfl, hl⟩
  exact hname.append htail

end Stars

section Items

def itemFollow : List Terminal := exprFollow ++ aliasFollow

/-- An expression, perhaps with an alias, does not start like a path that ends in a star. -/
theorem not_startsStar {ls ls' rest : List Lexeme} (hls : Alike ls ls')
    (h : Derives (seq Rule.expr (opt aliasClause)) (ls.map Lexeme.token))
    (hr : Clear itemFollow rest) : startsStar (ls' ++ rest) = false := by
  obtain ⟨es, as, rfl, he, ha⟩ := h.split
  cases es with
  | nil => exact absurd (he.nullable rfl) (by decide)
  | cons l es =>
    rw [List.cons_append] at hls
    obtain ⟨l', rfl, hl⟩ := hls.cons
    cases hname : isName (some l'.token) with
    | false => exact startsStar_of_not_name hname _
    | true =>
      obtain ⟨t, ht, c, hc, hmatch⟩ := (spots_isName _).mp hname
      obtain rfl := Option.some.inj ht
      have htail : Derives (seq nameTail exprTail) (es.map Lexeme.token) :=
        derives_expr_name hc (hl ▸ hmatch) he
      obtain ⟨ns, xs, rfl, hns, hxs⟩ := htail.split
      obtain ⟨us, vs, rfl, hus, hvs⟩ := hns.split
      have hfit : Fits (seq (opt (alt STRING callTail)) (seq exprTail (opt aliasClause))) [.DOT]
          itemFollow := by decide
      have hbehind := hfit.clear (hvs.append (hxs.append ha)) (.refl _) hr
      have hdot : isSymbol "." (next (vs ++ (xs ++ as) ++ rest)) = false :=
        hbehind.isSymbol (c := .DOT) rfl (List.mem_singleton_self _)
      have hstar := startsStar_dotted (l := l') hus hdot
      simpa using hstar

variable (h : Inner m)

include h

theorem parses_aliasedItem : Parses m (m + 1) (fun n => do
    let e ← expression (nested n)
    return (← aliasName).elim (Tree.item e) (Tree.aliased e)) (seq Rule.expr (opt aliasClause))
    itemFollow :=
  .seq (parses_expression h) (fun _ => parses_aliasName.map.before (by decide)) (by decide)

theorem parses_starOrItem : Parses m (m + 1) (fun n => do
    if startsStar (← get) then
      let (path, sql) ← spanned starredPath
      return Tree.tableStar path sql
    let e ← expression (nested n)
    return (← aliasName).elim (Tree.item e) (Tree.aliased e))
    (alt starred (seq Rule.expr (opt aliasClause))) itemFollow := by
  have hitem := parses_aliasedItem h
  constructor
  · intro ls a rest hrun
    change (if startsStar ls = true then _ else _ : Parser _) ls = _ at hrun
    split at hrun
    case isTrue hstar =>
      obtain ⟨us, vs, rfl, hus⟩ := exists_of_startsStar hstar
      obtain ⟨path, hpath⟩ := exists_starred hus
      obtain ⟨r, ms, hspan, ⟨⟩⟩ := bind_ok hrun
      rw [Parses.spanned_ok (hpath us vs (.refl us)).2] at hspan
      cases hspan
      exact ⟨us, rfl, .left hus⟩
    case isFalse =>
      obtain ⟨us, rfl, hus⟩ := hitem.sound ls a rest hrun
      exact ⟨us, rfl, .right hus⟩
  · intro ls hls hx
    generalize hts : ls.map Lexeme.token = ts at hx
    cases hx with
    | left hx =>
      obtain ⟨path, hpath⟩ := exists_starred (hts ▸ hx)
      refine ⟨.tableStar path (Lexeme.span ls), fun n ls' rest hn hls' hr => ?_⟩
      obtain ⟨hstar, hrun⟩ := hpath ls' rest hls'
      change (if startsStar (ls' ++ rest) = true then _ else _ : Parser _) (ls' ++ rest) = _
      rw [if_pos hstar]
      refine (bind_run (Parses.spanned_ok hrun)).trans ?_
      rw [List.length_append, Nat.add_sub_cancel, List.take_left, ← hls'.span]
      rfl
    | right hx =>
      subst hts
      obtain ⟨a, ha⟩ := hitem.complete ls hls hx
      refine ⟨a, fun n ls' rest hn hls' hr => ?_⟩
      change (if startsStar (ls' ++ rest) = true then _ else _ : Parser _) (ls' ++ rest) = _
      rw [not_startsStar hls' hx hr, if_neg Bool.false_ne_true]
      exact ha n ls' rest hn hls' hr

omit h in
theorem lang_selectItem : lang Rule.selectItem =
    lang (alts [STAR, starred, seq Rule.expr (opt aliasClause)]) := by
  simp [lang_rule Rule.selectItem, rhs, starred, lang_rule aliasClause, mul_add]
  ac_rfl

theorem parses_selectItem :
    Parses m (m + 1) (fun n => selectItem (nested n)) Rule.selectItem itemFollow := by
  have hitem : Parses m (m + 1) (fun n => selectItem (nested n))
      (alt (seq STAR empty) (alt starred (seq Rule.expr (opt aliasClause)))) itemFollow := by
    refine .ifSign (Nat.le_succ _) rfl .pure ((parses_starOrItem h).congr fun n => ?_) (by decide)
    refine bind_congr fun ls => ?_
    refine ite_congr rfl (fun _ => rfl) fun _ => ?_
    refine bind_congr fun e => bind_congr fun name => ?_
    cases name <;> rfl
  exact hitem.of_lang (by simp [lang_selectItem])

theorem parses_selectItems : Parses m (m + 1) (fun n => selectItems (nested n)) selectList
    (.COMMA :: itemFollow) :=
  (Parses.commas (parses_selectItem h) (by decide) (List.Subset.refl _)).rule

end Items

end SqlTree.Syntax.Parser

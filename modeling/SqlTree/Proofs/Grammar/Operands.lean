import SqlTree.Proofs.Grammar.Calls

/-!
Primary expressions of every form are taken as the grammar says. The first token tells the form.
-/

namespace SqlTree.Syntax.Parser

open Grammar Terminal Rule Rhs

variable {m : Nat}

section Named

def quoted? : Token → Option String
  | .string t => some t
  | _ => none

theorem isSome_quoted? (t : Token) : (quoted? t).isSome = true ↔ STRING.Matches t := by
  cases t <;> first | exact iff_of_true rfl rfl | exact iff_of_false nofun nofun

theorem isSome_typeWord? (t : Token) :
    (typeWord? t).isSome = true ↔ NAME.Matches t ∨ TIME.Matches t := by
  have hword : NAME.word? = none := rfl
  have hsigns : NAME.signs = [] := rfl
  rw [← isSome_timeWord?]
  cases t <;> simp [typeWord?, timeWord?, Terminal.Matches, hword, hsigns]

def typedForm : Rhs := seqs [alts [NAME, TIME], STRING]

theorem derives_typedForm_iff {ts : List Token} : Derives typedForm ts ↔
    ∃ t₁ t₂, ts = [t₁, t₂] ∧ (typeWord? t₁).isSome = true ∧ (quoted? t₂).isSome = true := by
  have hword {ts : List Token} :
      Derives (alts [NAME, TIME]) ts ↔ ∃ t, ts = [t] ∧ (typeWord? t).isSome = true := by
    simp only [derives_alts, List.mem_cons, List.not_mem_nil, or_false, exists_eq_or_imp,
      exists_eq_left, Parses.derives_token_iff, ← exists_or, ← and_or_left, isSome_typeWord?]
  constructor
  · intro h
    cases h with
    | seq hfirst hrest =>
      obtain ⟨t₁, rfl, ht₁⟩ := hword.mp hfirst
      cases hrest with
      | seq hsecond hnil =>
        cases hnil
        obtain ⟨t₂, rfl, ht₂⟩ := Parses.derives_token_iff.mp hsecond
        exact ⟨t₁, t₂, rfl, ht₁, (isSome_quoted? t₂).mpr ht₂⟩
  · rintro ⟨t₁, t₂, rfl, ht₁, ht₂⟩
    exact .seq (hword.mpr ⟨t₁, rfl, ht₁⟩) (.seq (.token ((isSome_quoted? t₂).mp ht₂)) .empty)

/-- The typed literal that is next: its type and its text. -/
def typedAhead (ls : List Lexeme) : Option (String × String) :=
  ((next ls).bind typeWord?).bind fun word =>
    ((next (ls.drop 1)).bind quoted?).map fun quoted => (word, quoted)

theorem typedLiteral?_run {ls : List Lexeme} : typedLiteral? ls =
    (typedAhead ls).elim (.ok (none, ls)) fun w => (do return some (← typedLiteral w.1 w.2)) ls := by
  have hfirst : peek ls = .ok (next ls, ls) := rfl
  have hsecond : peekSecond ls = .ok (next (ls.drop 1), ls) := rfl
  rw [typedLiteral?, bind_run hfirst, bind_run hsecond, typedAhead]
  cases (next ls).bind typeWord? with
  | none => rfl
  | some word =>
    cases next (ls.drop 1) with
    | none => rfl
    | some t => cases t <;> rfl

theorem typedAhead_eq_some {ls : List Lexeme} {w : String × String} (h : typedAhead ls = some w) :
    ∃ l₁ l₂ rest, ls = l₁ :: l₂ :: rest ∧ Derives typedForm [l₁.token, l₂.token] := by
  obtain ⟨word, hword, h⟩ := Option.bind_eq_some_iff.mp h
  obtain ⟨quoted, hquoted, rfl⟩ := Option.map_eq_some_iff.mp h
  rcases ls with _ | ⟨l₁, _ | ⟨l₂, ls⟩⟩
  · cases hword
  · cases hquoted
  · refine ⟨l₁, l₂, ls, rfl, derives_typedForm_iff.mpr ⟨_, _, rfl, ?_, ?_⟩⟩
    · exact Option.isSome_iff_exists.mpr ⟨word, hword⟩
    · exact Option.isSome_iff_exists.mpr ⟨quoted, hquoted⟩

/-- The text of some typed literals is kept. -/
def typedExpr (w : String × String) (sql : String) : Expr :=
  if keptPrefixes.contains (Text.lower w.1) then .verbatim sql else .typed (Text.lower w.1) w.2

theorem named_typed {p : Nested} {l₁ l₂ : Lexeme} {ls : List Lexeme} {w : String × String}
    (h : typedAhead (l₁ :: l₂ :: ls) = some w) :
    named p (l₁ :: l₂ :: ls) = .ok (typedExpr w (Lexeme.span [l₁, l₂]), ls) := by
  have hskip : spanned (do skip; skip) (l₁ :: l₂ :: ls) =
      .ok (((), Lexeme.span [l₁, l₂]), ls) := by
    rw [Parses.spanned_ok (rfl : (do skip; skip : Parser Unit) (l₁ :: l₂ :: ls) = .ok ((), ls)),
      List.length_cons, List.length_cons, Nat.add_assoc, Nat.add_sub_cancel_left]
    rfl
  have hliteral : typedLiteral w.1 w.2 (l₁ :: l₂ :: ls) =
      .ok (typedExpr w (Lexeme.span [l₁, l₂]), ls) := by
    rw [typedLiteral, bind_run hskip, typedExpr]
    rfl
  have htyped : typedLiteral? (l₁ :: l₂ :: ls) =
      .ok (some (typedExpr w (Lexeme.span [l₁, l₂])), ls) := by
    rw [typedLiteral?_run, h, Option.elim_some]
    exact bind_run hliteral
  exact bind_run htyped

theorem named_untyped {p : Nested} {ls : List Lexeme} (h : typedAhead ls = none) :
    named p ls = callOrPath p pure (fun path => pure (.column path)) ls := by
  have hnone : typedLiteral? ls = .ok (none, ls) := by rw [typedLiteral?_run, h, Option.elim_none]
  exact bind_run hnone

/-- What follows the first name of a path or a call. -/
def pathRest : Rhs :=
  alt (seq (opt (seqs [DOT, Rule.ident])) callTail) (star (seqs [DOT, Rule.ident]))

theorem derives_pathRest {t : Token} {ts : List Token}
    (h : Derives (alt funcCall columnRef) (t :: ts)) : Derives pathRest ts := by
  have hrest {x : Rhs} (hx : Derives (seq (alts [Rule.ident, LEFT, RIGHT]) x) (t :: ts)) :
      Derives x ts := by
    obtain ⟨us, vs, rfl, hus, hvs⟩ := hx.of_seq_cons (by decide)
    obtain ⟨_, hus, -⟩ := derives_callWord_iff.mp hus
    obtain rfl := (List.cons.inj hus).2
    exact hvs
  have hcall : lang funcCall = lang (seq (alts [Rule.ident, LEFT, RIGHT])
      (seq (opt (seqs [DOT, Rule.ident])) callTail)) := by
    rw [lang_funcCall]
    simp [lang_rule funcName, rhs, mul_assoc]
  have hcolumn : lang columnRef = lang (seq Rule.ident (star (seqs [DOT, Rule.ident]))) := by
    simp [lang_rule columnRef, rhs]
  generalize hts : t :: ts = us at h
  cases h with
  | left h => exact .left (hrest (hts ▸ hcall.le h))
  | right h =>
    have hpath : Derives (seq Rule.ident (star (seqs [DOT, Rule.ident]))) us := hcolumn.le h
    subst hts
    obtain ⟨us, vs, rfl, hus, hvs⟩ := hpath.of_seq_cons (by decide)
    exact .right (hrest (.seq (.left hus) hvs))

def pathTail : Rhs := star (seqs [DOT, Rule.ident])

/-- What follows the first name of an operand. -/
def nameTail : Rhs := seq pathTail (opt (alt STRING callTail))

theorem derives_nameTail {t : Token} {ts : List Token} (h : Derives namedForm (t :: ts)) :
    Derives nameTail ts := by
  have hlang : lang (alt typedForm (alt funcCall columnRef)) = lang namedForm := by
    simp [namedForm, typedForm]
  have hform : Derives (alt typedForm (alt funcCall columnRef)) (t :: ts) := hlang.ge h
  generalize hts : t :: ts = us at hform
  cases hform with
  | left htyped =>
    obtain ⟨_, t₂, rfl, -, ht₂⟩ := derives_typedForm_iff.mp htyped
    obtain rfl := (List.cons.inj hts).2
    exact .seq .stop (.left (.left (.token ((isSome_quoted? t₂).mp ht₂))))
  | right hpath =>
    have hrest := derives_pathRest (hts ▸ hpath)
    generalize ts = vs at hrest
    cases hrest with
    | left hcall =>
      cases hcall with
      | seq hsecond hcall =>
        refine .seq ?_ (.left (.right hcall))
        cases hsecond with
        | left hsecond => simpa [pathTail] using Derives.more hsecond .stop
        | right hnil =>
          cases hnil
          exact .stop
    | right hpath => simpa [nameTail, pathTail] using Derives.seq hpath derives_opt_nil

/-- What goes on with an expression that starts with a name. -/
theorem derives_expr_name {c : Terminal} {t : Token} {ts : List Token} (hc : c ∈ identStarts)
    (ht : c.Matches t) (h : Derives Rule.expr (t :: ts)) : Derives (seq nameTail exprTail) ts := by
  have hforms : ∀ c ∈ identStarts, c ∉ [NOT, MINUS, PLUS] ∧
      primaryForms.filter (c ∈ ·.first) = [namedForm] := by
    simp only [identStarts, List.forall_mem_cons]
    refine ⟨?_, ?_, ?_, ?_, ?_, ?_, ?_, ?_, ?_, ?_, ?_, ?_, ?_, ?_, List.forall_mem_nil _⟩ <;>
      exact ⟨by decide, rfl⟩
  obtain ⟨hsign, hfilter⟩ := hforms c hc
  obtain ⟨x, hx, us, vs, rfl, hus, hvs⟩ := exists_form ht hsign h
  obtain rfl := List.mem_singleton.mp (hfilter ▸ hx)
  exact .seq (derives_nameTail hus) hvs

theorem lang_namedForm : lang namedForm = lang (alt typedForm (alt funcCall columnRef)) := by
  simp [namedForm, typedForm]

theorem not_typed_of_path {ls ls' rest : List Lexeme} (hls : Alike ls ls')
    (h : Derives (alt funcCall columnRef) (ls.map Lexeme.token)) (hr : Clear primaryFollow rest) :
    typedAhead (ls' ++ rest) = none := by
  cases hw : typedAhead (ls' ++ rest) with
  | none => rfl
  | some w =>
    obtain ⟨l₁, l₂, ms, hms, htyped⟩ := typedAhead_eq_some hw
    obtain ⟨_, _, htokens, -, hquoted⟩ := derives_typedForm_iff.mp htyped
    obtain ⟨-, rfl, -⟩ := by simpa using htokens
    rw [isSome_quoted?] at hquoted
    rw [hls.1] at h
    rcases ls' with _ | ⟨l₁', _ | ⟨l₂', ls'⟩⟩
    · exact absurd (h.nullable rfl) (by decide)
    · obtain rfl : rest = l₂ :: ms := (List.cons.inj hms).2
      exact absurd hquoted (hr _ rfl STRING (by decide))
    · obtain rfl : l₂' = l₂ := (List.cons.inj (List.cons.inj hms).2).1
      exact absurd ((derives_pathRest h).mem_first hquoted) (by decide)

theorem exists_typed {ls : List Lexeme} (h : Derives typedForm (ls.map Lexeme.token)) :
    ∃ e, ∀ p ls' rest, Alike ls ls' → named p (ls' ++ rest) = .ok (e, rest) := by
  obtain ⟨t₁, t₂, hts, ht₁, ht₂⟩ := derives_typedForm_iff.mp h
  obtain ⟨l₁, ls₁, rfl, rfl, hls₁⟩ := List.map_eq_cons_iff.mp hts
  obtain ⟨l₂, rfl, rfl⟩ := List.map_eq_singleton_iff.mp hls₁
  obtain ⟨word, hword⟩ := Option.isSome_iff_exists.mp ht₁
  obtain ⟨quoted, hquoted⟩ := Option.isSome_iff_exists.mp ht₂
  refine ⟨typedExpr (word, quoted) (Lexeme.span [l₁, l₂]), fun p ls' rest hls => ?_⟩
  rw [hls.span]
  obtain ⟨l₁', rfl, hl₁⟩ := hls.cons
  exact named_typed (by simp [typedAhead, ← hl₁, hword, hquoted])

theorem parses_named (h : Inner m) :
    Parses m (m + 1) (fun n => named (nested n)) namedForm primaryFollow := by
  have hothers : Parses m (m + 1) (fun n => callOrPath (nested n) pure fun path => pure (.column path))
      (alt funcCall columnRef) primaryFollow :=
    (parses_callOrPath h (y := empty) (z := empty) (fun _ => .pure) (fun _ => .pure) (by decide)
      (by decide)).of_lang (by simp)
  refine Parses.of_lang ⟨?_, ?_⟩ lang_namedForm.symm
  · intro ls a rest hrun
    cases hw : typedAhead ls with
    | none =>
      rw [named_untyped hw] at hrun
      obtain ⟨us, rfl, hus⟩ := hothers.sound ls a rest hrun
      exact ⟨us, rfl, .right hus⟩
    | some w =>
      obtain ⟨l₁, l₂, ls, rfl, hls⟩ := typedAhead_eq_some hw
      rw [named_typed hw] at hrun
      cases hrun
      exact ⟨[l₁, l₂], rfl, .left hls⟩
  · intro ls hls hx
    generalize hts : ls.map Lexeme.token = ts at hx
    cases hx with
    | left htyped =>
      obtain ⟨e, he⟩ := exists_typed (hts ▸ htyped)
      exact ⟨e, fun n ls' rest _ hls _ => he (nested n) ls' rest hls⟩
    | right hother =>
      subst hts
      obtain ⟨e, he⟩ := hothers.complete ls hls hother
      refine ⟨e, fun n ls' rest hn hls' hr => ?_⟩
      exact (named_untyped (not_typed_of_path hls' hother hr)).trans (he n ls' rest hn hls' hr)

end Named

section Worded

variable (h : Inner m)

include h

theorem parses_branch : Parses m m (fun n => branch (nested n)) whenClause exprFollow := by
  have hbranch : Parses m m (fun n => branch (nested n))
      (seq WHEN (seq Rule.expr (seq THEN Rule.expr))) exprFollow :=
    .keyword (Nat.le_succ m) rfl (.seq h.expr (fun _ => .keyword (Nat.le_succ m) rfl h.expr.map)
      (by decide))
  exact (hbranch.of_lang (by simp [rhs])).rule

def branchesTail : Rhs := seqs [plus whenClause, opt elseClause, END]

theorem parses_caseRest : Parses m m (fun n => caseRest (nested n)) branchesTail [] := by
  have hmore (done : List (Tree .branch)) : Parses m m
      (fun n => iterate (fun done => do
        if ← atKeyword "when" then return some (done ++ [← branch (nested n)])
        return none) done) (star whenClause) (.WHEN :: exprFollow) :=
    .repeated (A := exprFollow) (fun done => .ifNext (spots_keyword (c := .WHEN) rfl)
      ((parses_branch h).map (g := fun b => some (done ++ [b]))) (.bind fun _ => .some) rfl
      (by decide) (by decide)) rfl (by decide) (by decide) done
  have helse : Parses m m (fun n => optional "else" (nested n).expr) (opt (seq ELSE Rule.expr))
      (.ELSE :: exprFollow) :=
    .optional (Nat.le_succ m) rfl (h.expr.before (by decide)) (by decide)
  have hrest : Parses m m (fun n => caseRest (nested n))
      (seq whenClause (seq (star whenClause) (seq (opt (seq ELSE Rule.expr)) (seq END empty)))) [] :=
    .seq (parses_branch h) (fun first => .seq (hmore [first]) (fun _ => .seq helse
      (fun _ => .keyword (Nat.le_succ m) rfl .pure) (by decide)) (by decide)) (by decide)
  exact hrest.of_lang (by simp [branchesTail, lang_rule elseClause, rhs, mul_assoc])

theorem parses_caseOf : Parses m m (fun n => caseOf (nested n)) caseTail [] := by
  have hcase : Parses m m (fun n => caseOf (nested n))
      (alt branchesTail (seq Rule.expr branchesTail)) [] :=
    .ifNext (spots_keyword (c := .WHEN) rfl) (parses_caseRest h).map
      (.seq h.expr (fun _ => (parses_caseRest h).map) (by decide)) rfl (by decide) (by decide)
  exact hcase.of_lang (by simp [caseTail, branchesTail, add_mul, mul_assoc, add_comm])

theorem parses_parenQuery :
    Parses m (m + 1) (fun n => parens (nested n).query) (seqs [LPAR, Rule.query, RPAR]) [] :=
  .parens (Nat.le_refl _) h.query (by decide)

theorem parses_rowRest : Parses m (m + 1) (fun n => rowRest (nested n)) rowTail [] :=
  .maybeParens (Nat.le_refl _) ((parses_exprList h).map) (by decide) (by decide) (by decide)

theorem parses_castRest : Parses m (m + 1) (fun n => castRest (nested n)) castTail [] := by
  have hcast : Parses m m (fun n => do
      let e ← (nested n).expr
      keyword "as"
      return Tree.cast e (← typeName false)) (seq Rule.expr (seq AS Rule.typeName))
      (.LSQB :: typeFollow) :=
    .seq h.expr (fun _ => .keyword (Nat.le_succ m) rfl parses_typeName.map) (by decide)
  exact (Parses.parens (Nat.le_refl _) hcast (by decide)).of_lang (by simp [castTail, mul_assoc])

theorem parses_extractRest : Parses m (m + 1) (fun n => extractRest (nested n)) extractTail [] := by
  have hextract : Parses m m (fun n => do
      let field ← name
      keyword "from"
      return Tree.extract field (← (nested n).expr)) (seq Rule.ident (seq FROM Rule.expr))
      exprFollow :=
    .seq parses_name (fun _ => .keyword (Nat.le_succ m) rfl h.expr.map) (by decide)
  exact (Parses.parens (Nat.le_refl _) hextract (by decide)).of_lang
    (by simp [extractTail, mul_assoc])

theorem parses_arrayRest : Parses m (m + 1) (fun n => arrayRest (nested n)) arrayTail [] := by
  have hitems : Parses m m (fun n => do
      if ← takeSymbol "]" then return Tree.array .nil
      let items ← exprList (nested n)
      symbol "]"
      return Tree.array items) (alt (seq RSQB empty) (seq Rule.exprList (seq RSQB empty))) [] :=
    .ifSign (Nat.le_succ m) rfl .pure (.seq (parses_exprList h)
      (fun _ => .symbol (Nat.le_succ m) rfl .pure) (by decide)) (by decide)
  have harray : Parses m (m + 1) (fun n => arrayRest (nested n)) (alt (seq LSQB _) _) [] :=
    .ifSign (Nat.le_refl _) rfl hitems (parses_parenQuery h).map (by decide)
  exact harray.of_lang (by simp [arrayTail, add_mul, add_comm])

/-- What a quantifier makes of what stands between its parentheses. -/
def quantifiedGroup (q : Quantifier) : Group → Expr
  | .query query | .either query _ => .quantifiedQuery q query
  | .expr e => .quantified q e

theorem parses_quantified (q : Quantifier) :
    Parses m (m + 1) (fun n => quantified (nested n) q) quantifiedTail [] := by
  have hclose (g : Group) : Parses m m (fun _ => do
      symbol ")"
      return quantifiedGroup q g) (seq RPAR empty) [] := .symbol (Nat.le_succ m) rfl .pure
  have hgroup : Parses m m (fun n => (nested n).group >>= fun g => do
      symbol ")"
      return quantifiedGroup q g)
      (alt (seq Rule.query (seq RPAR empty)) (seq Rule.expr (seq RPAR empty))) [] :=
    h.group.bind (fun _ => hclose _) (fun _ _ => (hclose _).of_lang (by simp)) (fun _ => hclose _)
      (by decide) (by decide)
  have hquantified : lang (seq LPAR (alt (seq Rule.query (seq RPAR empty))
      (seq Rule.expr (seq RPAR empty)))) = lang quantifiedTail := by
    simp [quantifiedTail]
  refine ((Parses.symbol (Nat.le_refl _) rfl hgroup).of_lang hquantified).congr fun n => ?_
  rw [quantified, parens]
  refine bind_congr fun _ => ?_
  rw [bind_assoc]
  refine bind_congr fun g => ?_
  cases g <;> rw [pure_bind] <;> rfl

theorem parses_parenthesised :
    Parses m m (fun n => parenthesised (nested n)) groupTail [.DOT] := by
  have hclose (e : Expr) := (parses_closeGroup h e).shorter (Nat.le_succ m)
  have hgroup : Parses m m (fun n => parenthesised (nested n))
      (alt (seq Rule.query RPAR) (seq Rule.expr closeTail)) [.DOT] := by
    refine h.group.bind (fun q => ?_) (fun q e => ?_) (fun e => hclose e) (by decide) (by decide)
    · have hparen : Parses m m (fun _ => do
          symbol ")"
          return (Tree.subquery q : Expr)) (seq RPAR empty) [.DOT] :=
        .symbol (Nat.le_succ m) rfl .pure
      exact hparen.of_lang (by simp)
    · exact (hclose e).of_lang (lang_alt_of_imp fun _ hts => .right (.right (.left hts))).symm
  exact hgroup

/-- What goes on with a primary expression behind its first token, unless that is a name. -/
def primaryHeads : List (Terminal × Rhs) := [
  (NUMBER, empty), (STRING, empty), (PARAM, empty), (LPAR, groupTail), (TRUE, empty),
  (FALSE, empty), (NULL, empty), (DEFAULT, empty), (CASE, caseTail), (ROW, rowTail),
  (EXISTS, seqs [LPAR, Rule.query, RPAR]), (ARRAY, arrayTail), (CAST, castTail),
  (EXTRACT, extractTail), (ALL, quantifiedTail), (ANY, quantifiedTail)]

def primaryRest (p : Nested) : Token → Parser Expr
  | .number t => return .number t
  | .string t => return .string t
  | .param t => return .param t
  | .symbol _ => parenthesised p
  | .keyword word _ => worded p word
  | _ => unexpected

omit h in
theorem lang_primaryHeads : lang Rule.primary =
    lang (alt (alts (primaryHeads.map fun h => seq h.1 h.2)) (alt namedForm void)) := by
  rw [lang_primary]
  simp [primaryForms, primaryHeads]
  ac_rfl

omit h in
theorem matches_word {c : Terminal} {t : Token} {w : String} (hw : c.word? = some w)
    (h : c.Matches t) : ∃ text, t = .keyword w text := by
  cases t with
  | keyword v text =>
    obtain rfl : w = v := Option.some.inj (hw.symm.trans h)
    exact ⟨text, rfl⟩
  | symbol s =>
    have hsign : s ∈ c.signs := h
    rw [signs_of_word (by simp [hw])] at hsign
    cases hsign
  | _ =>
    obtain rfl := h
    cases hw

omit h in
theorem matches_sign {c : Terminal} {t : Token} {s : String} (hs : c.signs = [s])
    (h : c.Matches t) : t = .symbol s := by
  obtain ⟨_, ht, hsign⟩ : ∃ t' ∈ some t, isSymbol s (some t') = true :=
    ⟨t, rfl, (isSymbol_iff hs).mpr h⟩
  obtain rfl := Option.some.inj ht
  cases t with
  | symbol v => exact congrArg _ (of_decide_eq_true hsign)
  | _ => cases hsign

theorem parses_primaryRest : ∀ r ∈ primaryHeads, ∀ t, r.1.Matches t →
    Parses m m (fun n => primaryRest (nested n) t) r.2 primaryFollow := by
  have hword {c : Terminal} {w : String} {x : Rhs} (hw : c.word? = some w)
      (hx : Parses m m (fun n => worded (nested n) w) x []) (t : Token) (ht : c.Matches t) :
      Parses m m (fun n => primaryRest (nested n) t) x primaryFollow := by
    obtain ⟨text, rfl⟩ := matches_word hw ht
    exact hx.before (by decide)
  have hshort {q : Nat → Parser Expr} {x : Rhs} (hx : Parses m (m + 1) q x []) := hx.shorter (Nat.le_succ m)
  simp only [primaryHeads, List.forall_mem_cons]
  refine ⟨?_, ?_, ?_, ?_, hword rfl .pure, hword rfl .pure, hword rfl .pure, hword rfl .pure,
    hword rfl (parses_caseOf h), hword rfl (hshort (parses_rowRest h)),
    hword rfl (hshort (parses_parenQuery h).map), hword rfl (hshort (parses_arrayRest h)),
    hword rfl (hshort (parses_castRest h)), hword rfl (hshort (parses_extractRest h)),
    hword rfl (hshort (parses_quantified h .all)), hword rfl (hshort (parses_quantified h .any)),
    nofun⟩
  case refine_4 =>
    intro t ht
    obtain rfl := matches_sign rfl ht
    exact (parses_parenthesised h).before (by decide)
  all_goals
    intro t ht
    cases t <;> first | exact .pure | cases ht

theorem parses_primary :
    Parses m (m + 1) (fun n => primary (nested n)) Rule.primary primaryFollow := by
  have hnamed : Parses m (m + 1) (fun n => do
      if isCallStart (← peek) then named (nested n) else unexpected) (alt namedForm void)
      primaryFollow :=
    .ifNext (.or spots_isName spots_isCallWord) (parses_named h) .unexpected (by decide) (by decide) (by decide)
  refine Parses.of_lang (.dispatch _ (f := fun t n => primaryRest (nested n) t)
    (r := fun n => do if isCallStart (← peek) then named (nested n) else unexpected)
    (Nat.le_refl (m + 1)) (parses_primaryRest h) hnamed (by decide) ?_ ?_)
    lang_primaryHeads.symm
  · rintro n ⟨gap, t⟩ ls ⟨r, hr, hmatch⟩
    have hsigns : ∀ r ∈ primaryHeads, r.1.signs ⊆ ["("] := by decide
    have hwords : ∀ r ∈ primaryHeads, ∀ w ∈ r.1.word?, w ∈ exprWords := by decide
    have hnames : ∀ r ∈ primaryHeads, r.1 ∉ [NAME, QUOTED_NAME, OTHER_OP] := by decide
    cases t with
    | number | string | param => rfl
    | symbol s =>
      obtain rfl := List.mem_singleton.mp (hsigns r hr hmatch)
      rfl
    | keyword w text =>
      have hcontains : exprWords.contains w = true := List.contains_iff_mem.mpr (hwords r hr w hmatch)
      exact congrFun (if_pos hcontains) _
    | name | quotedName | operator =>
      have hclass := hnames r hr
      rw [show r.1 = _ from hmatch] at hclass
      exact absurd hclass (by decide)
  · rintro n (_ | ⟨⟨gap, t⟩, ls⟩) hnext
    · rfl
    · have hwords : ∀ w ∈ exprWords, ∃ c ∈ primaryHeads.map Prod.fst, c.word? = some w := by decide
      cases t with
      | number s => exact absurd rfl (hnext _ rfl NUMBER (by decide))
      | string s => exact absurd rfl (hnext _ rfl STRING (by decide))
      | param s => exact absurd rfl (hnext _ rfl PARAM (by decide))
      | symbol s =>
        have hparen : s ≠ "(" := by
          rintro rfl
          exact hnext _ rfl LPAR (by decide) (List.mem_singleton_self _)
        have hpeek : peek (⟨gap, .symbol s⟩ :: ls) = .ok (some (.symbol s), ⟨gap, .symbol s⟩ :: ls) := rfl
        rw [primary, bind_run hpeek]
        generalize ho : some (Token.symbol s) = o
        split <;> cases ho
        · exact absurd rfl hparen
        · rfl
      | keyword w text =>
        have hcontains : ¬ exprWords.contains w = true := fun hmem => by
          obtain ⟨c, hc, hw⟩ := hwords w (List.contains_iff_mem.mp hmem)
          exact hnext _ rfl c hc hw
        exact congrFun (if_neg hcontains) _
      | name | quotedName | operator => rfl

end Worded

end SqlTree.Syntax.Parser

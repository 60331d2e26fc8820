import SqlTree.Proofs.Grammar.Operands

/-!
The parsers of expressions take what the grammar says, level by level.
-/

namespace SqlTree.Syntax.Parser

open Grammar Terminal Rule Rhs

section Operators

variable {m b : Nat} {A B : List Terminal} {cs : List Terminal} {t : Token}

theorem matches_symbol {c : Terminal} (hc : c.signs ≠ []) (h : c.Matches t) :
    ∃ s ∈ c.signs, t = .symbol s := by
  cases t with
  | symbol s => exact ⟨s, h, rfl⟩
  | keyword w text => exact absurd (signs_of_word (by simp [show c.word? = some w from h])) hc
  | _ => exact absurd (by rw [show c = _ from h]; rfl) hc

theorem isSome_operatorIn (cs : List Terminal) (hcs : ∀ c ∈ cs, c.signs ≠ []) :
    (operatorIn (cs.flatMap Terminal.signs) (some t)).isSome = true ↔ ∃ c ∈ cs, c.Matches t := by
  constructor
  · intro h
    cases t with
    | symbol s =>
      rw [operatorIn] at h
      split at h
      case isTrue hs =>
        obtain ⟨c, hc, hsign⟩ := List.mem_flatMap.mp (List.contains_iff_mem.mp hs)
        exact ⟨c, hc, hsign⟩
      case isFalse => cases h
    | _ => cases h
  · rintro ⟨c, hc, hmatch⟩
    obtain ⟨s, hs, rfl⟩ := matches_symbol (hcs c hc) hmatch
    have hcontains : (cs.flatMap Terminal.signs).contains s = true :=
      List.contains_iff_mem.mpr (List.mem_flatMap.mpr ⟨c, hc, hs⟩)
    rw [operatorIn, if_pos hcontains]
    rfl

theorem operatorIn_eq_some {signs : List String} {op : String}
    (h : operatorIn signs (some t) = some op) : op = t.text := by
  cases t with
  | symbol s =>
    rw [operatorIn] at h
    split at h <;> cases h
    rfl
  | _ => cases h

theorem isSome_anyOperator : (anyOperator (some t)).isSome = true ↔ ∃ c ∈ [OTHER_OP], c.Matches t := by
  simp only [List.mem_singleton, exists_eq_left]
  cases t <;> first | exact iff_of_true rfl rfl | exact iff_of_false nofun nofun

theorem isSome_sign? : (sign? (some t)).isSome = true ↔ ∃ c ∈ [MINUS, PLUS], c.Matches t := by
  rw [← isSome_operatorIn _ (by decide)]
  cases t with
  | symbol s =>
    by_cases hminus : s = "-"
    · subst hminus
      exact iff_of_true rfl rfl
    · by_cases hplus : s = "+"
      · subst hplus
        exact iff_of_true rfl rfl
      · simp [sign?, operatorIn, Terminal.signs, hminus, hplus]
  | _ => simp [sign?, operatorIn]

/-- Operators of one level. -/
theorem parses_binaryFrom (cs : List Terminal) {op? : Option Token → Option String}
    {operand : Nat → Parser Expr} {y : Rhs} (hnone : op? none = none)
    (hop : ∀ t, (op? (some t)).isSome = true ↔ ∃ c ∈ cs, c.Matches t)
    (hy : Parses m b operand y A) (hx : (seq (alts (cs.map token)) y).nullable = false)
    (hfit : Fits (star (seq (alts (cs.map token)) y)) A B)
    (hB : (seq (alts (cs.map token)) y).first ⊆ B) (e : Expr) :
    Parses m b (fun n => binaryFrom op? (operand n) e) (star (seq (alts (cs.map token)) y)) B := by
  refine .repeated (A := A) (fun left => ?_) hx hfit hB e
  have htry := Parses.Try.option (m := m) (b := b) (F := Clear []) hop
  refine (htry.andThen (fun op => hy.map (g := fun right => Tree.binary op left right)) ?_).congr
    fun n => ?_
  · exact ⟨nofun, nofun⟩
  · funext ls
    simp only [Parses.Try.option_run, bind_assoc, pure_bind]
    rcases ls with _ | ⟨l, ls⟩
    · have hpeek : peek [] = .ok (none, []) := rfl
      rw [bind_run hpeek, hnone]
      rfl
    · have hpeek : peek (l :: ls) = .ok (some l.token, l :: ls) := rfl
      rw [bind_run hpeek, next_cons, Option.bind_some]
      cases op? (some l.token) <;> rfl

theorem parses_signs : Parses m b (fun _ => signs) (star (alts [MINUS, PLUS])) [MINUS, PLUS] := by
  refine .repeated (A := []) (fun done => ?_) rfl ⟨nofun, nofun⟩ (by decide) []
  have htry : Parses.Try m b (fun _ => Parses.option fun t => sign? (some t))
      (alts ([MINUS, PLUS].map token)) (Clear []) := .option fun _ => isSome_sign?
  have hsign := htry.andThen (fun f => .pure (A := []) (a := done ++ [f])) ⟨nofun, nofun⟩
  refine (hsign.of_lang (by simp) (by decide)).congr fun n => ?_
  funext ls
  simp only [Parses.Try.option_run, pure_bind]
  rcases ls with _ | ⟨l, ls⟩
  · rfl
  · have hpeek : peek (l :: ls) = .ok (some l.token, l :: ls) := rfl
    rw [bind_run hpeek, next_cons, Option.bind_some]
    cases sign? (some l.token) <;> rfl

end Operators

section Casts

/-- What may follow a cast: no more of the type, but perhaps an index. -/
def CastFollow (rest : List Lexeme) : Prop := Clear typeFollow rest ∧ Unbounded rest

/-- Brackets that go on with an expression hold something. -/
theorem castFollow_castOrIndex {vs rest : List Lexeme}
    (h : Derives (star castOrIndex) (vs.map Lexeme.token))
    (hr : Clear (.TYPECAST :: .LSQB :: typeFollow) rest) : CastFollow (vs ++ rest) := by
  have hfit : Fits (star castOrIndex) typeFollow (.TYPECAST :: .LSQB :: typeFollow) := by decide
  refine ⟨hfit.clear h (.refl vs) hr, fun hopen => ?_⟩
  cases vs with
  | nil =>
    have hnone : isSymbol "[" (next rest) = false := hr.isSymbol (c := .LSQB) rfl (by decide)
    exact absurd (hnone.symm.trans hopen) Bool.false_ne_true
  | cons l vs =>
    have hbracket : LSQB.Matches l.token := (isSymbol_iff rfl).mp hopen
    have hmore : Derives (seq castOrIndex (star castOrIndex)) ((l :: vs).map Lexeme.token) :=
      h.of_star_cons
    obtain ⟨us, ws, hts, hfirst, -⟩ := hmore.split
    cases us with
    | nil => exact absurd (hfirst.nullable rfl) (by decide)
    | cons l' us =>
      obtain ⟨rfl, rfl⟩ : l = l' ∧ vs = us ++ ws := List.cons.inj hts
      obtain ⟨x, hx, hindex⟩ := hfirst.filter_alts hbracket
      obtain rfl : x = seqs [LSQB, Rule.expr, RSQB] := List.mem_singleton.mp hx
      have hinner : Derives (seqs [Rule.expr, RSQB]) (us.map Lexeme.token) := hindex.of_token_seq
      have hclose : Fits (seqs [Rule.expr, RSQB]) [RSQB] [] := by decide
      have hclear : Clear [RSQB] (us ++ (ws ++ rest)) := hclose.clear hinner (.refl us) nofun
      rw [List.cons_append, List.drop_one, List.tail_cons, List.append_assoc]
      exact hclear.isSymbol rfl (List.mem_singleton_self _)

variable {m : Nat} (h : Inner m)

include h

theorem try_typecastOrIndex (e : Expr) : Parses.Try m (m + 1)
    (fun n => typecastOrIndex (nested n) e) castOrIndex CastFollow := by
  have hindex : Parses.Try m (m + 1) (fun n => do
      if ← takeSymbol "[" then
        let index ← (nested n).expr
        symbol "]"
        return some (Tree.subscript e index)
      return none) (alt (seq LSQB (seq Rule.expr (seq RSQB empty))) void) (Clear []) :=
    .ifSign (Nat.le_refl _) rfl (.seq h.expr (fun _ => .symbol (Nat.le_succ m) rfl .pure)
      (by decide)) (.bind fun _ => .bind fun _ => .some) .none (by decide)
  have hcast : Parses.Try m (m + 1) (fun n => typecastOrIndex (nested n) e)
      (alt (seq TYPECAST Rule.typeName)
        (alt (seq LSQB (seq Rule.expr (seq RSQB empty))) void)) CastFollow := by
    refine .branch (Nat.le_refl (m + 1)) (tests_symbol rfl) ?_ ?_ (hindex.mono fun _ _ => nofun)
      (by decide)
    · intro ls o rest hrun
      obtain ⟨type, ms, htype, ⟨⟩⟩ := bind_ok hrun
      obtain ⟨us, rfl, hus⟩ := typecast_sound htype
      exact ⟨_, us, rfl, rfl, hus⟩
    · intro ls _ hx
      obtain ⟨type, htype⟩ := exists_typecast (m := m) hx
      exact ⟨_, htype.map (g := fun type => some (Tree.typecast e type))⟩
  exact hcast.of_lang (by simp [castOrIndex]) (by decide)

theorem parses_postfixFrom (e : Expr) : Parses m (m + 1) (fun n => postfixFrom (nested n) e)
    (star castOrIndex) (.TYPECAST :: .LSQB :: typeFollow) where
  sound ls a rest hrun :=
    Parses.iterateOver_sound (fun e => (try_typecastOrIndex h e).toStep) hrun
  complete ls hls hx :=
    Parses.exists_iterate (fun e => (try_typecastOrIndex h e).toStep) rfl
      (fun e n ls hn hr => (try_typecastOrIndex h e).stop n ls hn (hr.mono (by decide)))
      (fun vs rest hvs hr => castFollow_castOrIndex hvs hr) hls hx e

end Casts

section Levels

variable {m : Nat} (h : Inner m)

include h

theorem parses_unary : Parses m (m + 1) (fun n => unary (nested n)) unaryExpr postfixFollow := by
  have hunary : Parses m (m + 1) (fun n => unary (nested n))
      (seq (star (alts [MINUS, PLUS])) (seq Rule.primary (star castOrIndex))) postfixFollow :=
    .seq parses_signs (fun _ => .seq (parses_primary h)
      (fun e => (parses_postfixFrom h e).map.before (by decide)) (by decide)) (by decide)
  exact hunary.of_lang (by simp [lang_unary, lang_postfix])

theorem parses_zoneFrom (e : Expr) : Parses m (m + 1)
    (fun n => zoneFrom (unary (nested n)) e) (star zoneTail) zoneFollow := by
  refine .repeated (A := postfixFollow) (fun left => ?_) rfl (by decide) (by decide) e
  have hzone : Parses.Try m (m + 1) (fun n => do
      if ← takeKeyword "at" then
        timeZone
        return some (Tree.atTimeZone left (← unary (nested n)))
      return none) (alt (seq AT (seq (seqs [TIME, ZONE]) unaryExpr)) void) (Clear postfixFollow) :=
    .ifWord (Nat.le_succ _) rfl (.seq parses_timeZone (fun _ => (parses_unary h).map) (by decide))
      (.bind fun _ => .bind fun _ => .some) .none (by decide)
  exact hzone.of_lang (by simp [zoneTail, mul_assoc]) (by decide)

theorem parses_zoneLevel :
    Parses m (m + 1) (fun n => zoneLevel (nested n)) atExpr zoneFollow :=
  (Parses.seq (parses_unary h) (fun e => parses_zoneFrom h e) (by decide)).of_lang
    (by simp [lang_zone])

theorem parses_powerFrom (e : Expr) :
    Parses m (m + 1) (fun n => powerFrom (nested n) e) (star powerTail) powerFollow :=
  (parses_binaryFrom [CARET] rfl (fun _ => isSome_operatorIn _ (by decide))
    (parses_zoneLevel h) rfl (by decide) (by decide) e).of_lang (by simp [powerTail])

theorem parses_powerLevel :
    Parses m (m + 1) (fun n => powerLevel (nested n)) expExpr powerFollow :=
  (Parses.seq (parses_zoneLevel h) (fun e => parses_powerFrom h e) (by decide)).of_lang
    (by simp [lang_power])

theorem parses_productFrom (e : Expr) :
    Parses m (m + 1) (fun n => productFrom (nested n) e) (star productTail) productFollow :=
  (parses_binaryFrom [STAR, SLASH, PERCENT] rfl (fun _ => isSome_operatorIn _ (by decide))
    (parses_powerLevel h) rfl (by decide) (by decide) e).of_lang (by simp [productTail])

theorem parses_productLevel :
    Parses m (m + 1) (fun n => productLevel (nested n)) mulExpr productFollow :=
  (Parses.seq (parses_powerLevel h) (fun e => parses_productFrom h e) (by decide)).of_lang
    (by simp [lang_product])

theorem parses_sumFrom (e : Expr) :
    Parses m (m + 1) (fun n => sumFrom (nested n) e) (star sumTail) sumFollow :=
  (parses_binaryFrom [PLUS, MINUS] rfl (fun _ => isSome_operatorIn _ (by decide))
    (parses_productLevel h) rfl (by decide) (by decide) e).of_lang (by simp [sumTail])

theorem parses_sumLevel : Parses m (m + 1) (fun n => sumLevel (nested n)) addExpr sumFollow :=
  (Parses.seq (parses_productLevel h) (fun e => parses_sumFrom h e) (by decide)).of_lang
    (by simp [lang_sum])

theorem parses_otherFrom (e : Expr) :
    Parses m (m + 1) (fun n => otherFrom (nested n) e) (star otherTail) otherFollow :=
  (parses_binaryFrom [OTHER_OP] rfl (fun _ => isSome_anyOperator)
    (parses_sumLevel h) rfl (by decide) (by decide) e).of_lang (by simp [otherTail])

theorem parses_otherLevel :
    Parses m (m + 1) (fun n => otherLevel (nested n)) otherExpr otherFollow :=
  (Parses.seq (parses_sumLevel h) (fun e => parses_otherFrom h e) (by decide)).of_lang
    (by simp [lang_other])

theorem parses_betweenBounds (negated : Bool) (e : Expr) : Parses m (m + 1)
    (fun n => betweenBounds (nested n) negated e) (seqs [otherExpr, AND, otherExpr]) otherFollow := by
  have hbounds : Parses m (m + 1) (fun n => betweenBounds (nested n) negated e)
      (seq otherExpr (seq AND otherExpr)) otherFollow :=
    .seq (parses_otherLevel h) (fun _ => .keyword (Nat.le_succ _) rfl (parses_otherLevel h).map)
      (by decide)
  exact hbounds.of_lang (by simp)

def membersTail : Rhs := seq (star (seqs [COMMA, Rule.expr])) (seq RPAR empty)

omit h in
theorem derives_empty_of_close {t : Token} {ts : List Token} (ht : RPAR.Matches t)
    (hx : Derives membersTail (t :: ts)) : Derives empty ts := by
  exact (hx.of_star_seq ht (by decide)).of_token_seq

theorem parses_membership (negated : Bool) (e : Expr) :
    Parses m (m + 1) (fun n => membership (nested n) negated e) inSource [] := by
  have hitems (first : Expr) : Parses m m (fun n => do
      let items ← more "," (nested n).expr [first]
      symbol ")"
      return Tree.inList negated e (Tree.ofList items)) membersTail [] :=
    .seq (.more rfl h.expr (by decide) (List.Subset.refl _) [first])
      (fun _ => .symbol (Nat.le_succ m) rfl .pure) (by decide)
  have hsource : Parses m (m + 1) (fun n => membership (nested n) negated e)
      (seq LPAR (alt (seq Rule.query (seq RPAR empty)) (seq Rule.expr membersTail))) [] := by
    refine .symbol (Nat.le_refl _) rfl (h.group.bind (fun q => ?_) (fun q first => ?_)
      (fun first => hitems first) (by decide) (by decide))
    · exact .symbol (Nat.le_succ m) rfl .pure
    · exact .branch_of (f := fun t n => if t = true then _ else _) (Nat.le_succ m)
        (tests_symbol rfl) .pure (hitems first) (fun _ _ ht hx => derives_empty_of_close ht hx)
        nofun
  have hlang : lang (seq LPAR (alt (seq Rule.query (seq RPAR empty)) (seq Rule.expr membersTail))) =
      lang inSource := by
    simp [membersTail, lang_rule inSource, lang_rule Rule.exprList, rhs, Rhs.list, mul_add,
      mul_assoc]
  exact hsource.of_lang hlang

theorem try_predicate (negated : Bool) (e : Expr) : Parses.Try m (m + 1)
    (fun n => predicate? (nested n) negated e) predicate (Clear otherFollow) := by
  have hcompared (p : Predicate) : Parses m (m + 1) (fun n => do
      return some (Tree.predicate negated p e (← otherLevel (nested n)))) otherExpr otherFollow :=
    (parses_otherLevel h).map
  have hpredicate : Parses.Try m (m + 1) (fun n => predicate? (nested n) negated e)
      (alt (seq BETWEEN (seqs [otherExpr, AND, otherExpr])) (alt (seq IN inSource)
        (alt (seq LIKE otherExpr) (alt (seq ILIKE otherExpr)
          (alt (seq SIMILAR (seq TO otherExpr)) void))))) (Clear otherFollow) :=
    .ifWord (Nat.le_succ _) rfl (parses_betweenBounds h negated e).map (.bind fun _ => .some)
      (.ifWord (Nat.le_succ _) rfl ((parses_membership h negated e).map.before (by decide))
        (.bind fun _ => .some)
        (.ifWord (Nat.le_succ _) rfl (hcompared .like) (.bind fun _ => .some)
          (.ifWord (Nat.le_succ _) rfl (hcompared .ilike) (.bind fun _ => .some)
            (.ifWord (Nat.le_succ _) rfl (.keyword (Nat.le_succ _) rfl (hcompared .similarTo))
              (.bind fun _ => .bind fun _ => .some) .none (by decide))
            (by decide)) (by decide)) (by decide)) (by decide)
  exact hpredicate.of_lang (by simp [predicate]) (by decide)

theorem parses_predicateFrom (e : Expr) :
    Parses m (m + 1) (fun n => predicateFrom (nested n) e) predicateTail predicateFollow := by
  have hnegated : Parses m (m + 1) (fun n => predicate? (nested n) true e >>= fun o =>
      o.elim unexpected pure) predicate predicateFollow :=
    (try_predicate h true e).required.before (by decide)
  have hplain : Parses m (m + 1) (fun n => do
      return (← predicate? (nested n) false e).getD e) (opt predicate) predicateFollow :=
    (try_predicate h false e).whether (by decide)
  have hfrom : Parses m (m + 1) (fun n => predicateFrom (nested n) e)
      (alt (seq NOT predicate) (opt predicate)) predicateFollow :=
    .ifWord (Nat.le_succ _) rfl
      (hnegated.congr fun _ => bind_congr fun o => by cases o <;> rfl) hplain (by decide)
  exact hfrom.of_lang (by simp [predicateTail])

theorem parses_predicateLevel :
    Parses m (m + 1) (fun n => predicateLevel (nested n)) predExpr predicateFollow :=
  (Parses.seq (parses_otherLevel h) (fun e => parses_predicateFrom h e) (by decide)).of_lang
    (by simp [lang_predicate])

theorem parses_comparisonFrom (e : Expr) :
    Parses m (m + 1) (fun n => comparisonFrom (nested n) e) comparisonTail comparisonFollow := by
  have hop (t : Token) :
      (operatorIn ["=", "<>", "!=", "<=", ">=", "<", ">"] (some t)).isSome = true ↔
        ∃ c ∈ [EQ, NEQ, LTE, GTE, LT, GT], c.Matches t :=
    isSome_operatorIn [EQ, NEQ, LTE, GTE, LT, GT] (by decide)
  refine Parses.of_lang (.dispatch ([EQ, NEQ, LTE, GTE, LT, GT].map (·, predExpr))
    (f := fun t n => do return Tree.comparison t.text e (← predicateLevel (nested n)))
    (r := fun _ => pure e) (z := empty) (Nat.le_succ _) ?_ .pure (by decide) ?_ ?_)
    (by simp [comparisonTail, lang_rule compOp, rhs, add_mul])
  · simp only [List.forall_mem_map]
    exact fun _ _ _ _ => (parses_predicateLevel h).map.before (by decide)
  · rintro n l ls ⟨_, hr, hl⟩
    obtain ⟨c, hc, rfl⟩ := List.mem_map.mp hr
    obtain ⟨op, hsome⟩ := Option.isSome_iff_exists.mp ((hop l.token).mpr ⟨c, hc, hl⟩)
    obtain rfl := operatorIn_eq_some hsome
    have hpeek : peek (l :: ls) = .ok (some l.token, l :: ls) := rfl
    rw [comparisonFrom, bind_run hpeek, hsome]
    rfl
  · intro n ls hnext
    have hpeek : peek ls = .ok (next ls, ls) := rfl
    have hnone : operatorIn ["=", "<>", "!=", "<=", ">=", "<", ">"] (next ls) = none := by
      cases ho : next ls with
      | none => rfl
      | some t =>
        rw [← Option.not_isSome_iff_eq_none, hop]
        rintro ⟨c, hc, hmatch⟩
        exact hnext t ho c (by simpa using hc) hmatch
    rw [comparisonFrom, bind_run hpeek, hnone]

theorem parses_comparisonLevel :
    Parses m (m + 1) (fun n => comparisonLevel (nested n)) cmpExpr comparisonFollow :=
  (Parses.seq (parses_predicateLevel h) (fun e => parses_comparisonFrom h e) (by decide)).of_lang
    (by simp [lang_comparison])

theorem parses_isTest (e : Expr) : Parses m (m + 1) (fun n => isTest (nested n) e)
    (seqs [opt NOT, alts [NULL, TRUE, FALSE, seqs [DISTINCT, FROM, cmpExpr]]]) comparisonFollow := by
  have htest (negated : Bool) : Parses m (m + 1) (fun n => do
      if ← takeKeyword "null" then return Tree.test negated .isNull e
      if ← takeKeyword "true" then return Tree.test negated .isTrue e
      if ← takeKeyword "false" then return Tree.test negated .isFalse e
      keywords ["distinct", "from"]
      return Tree.predicate negated .distinctFrom e (← comparisonLevel (nested n)))
      (alt (seq NULL empty) (alt (seq TRUE empty) (alt (seq FALSE empty)
        (seq (seq DISTINCT (seq FROM empty)) cmpExpr)))) comparisonFollow :=
    .ifWord (Nat.le_succ _) rfl .pure (.ifWord (Nat.le_succ _) rfl .pure
      (.ifWord (Nat.le_succ _) rfl .pure
        (.seq (A := []) (.keyword (Nat.le_succ _) rfl (.keyword (Nat.le_succ _) rfl .pure))
          (fun _ => (parses_comparisonLevel h).map) (by decide)) (by decide)) (by decide)) (by decide)
  have hrest : Parses m (m + 1) (fun n => isTest (nested n) e) (seq (opt NOT) _) comparisonFollow :=
    .maybeKeyword rfl htest (by decide)
  exact hrest.of_lang (by simp [mul_assoc])

theorem parses_testFrom (e : Expr) :
    Parses m (m + 1) (fun n => testFrom (nested n) e) (star testTail) (.IS :: .ISNULL :: .NOTNULL :: comparisonFollow) := by
  refine .repeated (A := comparisonFollow) (fun left => ?_) rfl (by decide) (by decide) e
  have htest : Parses.Try m (m + 1) (fun n => do
      if ← takeKeyword "is" then return some (← isTest (nested n) left)
      if ← takeKeyword "isnull" then return some (Tree.test false .isNull left)
      if ← takeKeyword "notnull" then return some (Tree.test true .isNull left)
      return none) (alt (seq IS _) (alt (seq ISNULL empty) (alt (seq NOTNULL empty) void)))
      (Clear comparisonFollow) :=
    .ifWord (Nat.le_succ _) rfl (parses_isTest h left).map (.bind fun _ => .some)
      (.ifWord (Nat.le_succ _) rfl .pure .some (.ifWord (Nat.le_succ _) rfl .pure .some .none
        (by decide)) (by decide)) (by decide)
  exact htest.of_lang (by simp [testTail]) (by decide)

theorem parses_testLevel : Parses m (m + 1) (fun n => testLevel (nested n)) isExpr testFollow :=
  (Parses.seq (parses_comparisonLevel h) (fun e => parses_testFrom h e) (by decide)).of_lang
    (by simp [lang_test])

omit h in
theorem parses_negations : Parses m (m + 1) (fun _ => negations) (star NOT) [.NOT] := by
  refine .repeated (A := []) (fun done => ?_) rfl ⟨nofun, nofun⟩ (by decide) 0
  have hnot : Parses.Try m (m + 1) (fun _ => do
      if ← takeKeyword "not" then return some (done + 1)
      return none) (alt (seq NOT empty) void) (Clear []) :=
    .ifWord (Nat.le_succ _) rfl .pure .some .none (by decide)
  exact hnot.of_lang (by simp) (by decide)

theorem parses_notLevel : Parses m (m + 1) (fun n => notLevel (nested n)) notExpr testFollow :=
  (Parses.seq (parses_negations (m := m)) (fun _ => (parses_testLevel h).map) (by decide)).of_lang
    (by simp [lang_not])

omit h in
theorem parses_connectedFrom {c : Terminal} {word : String} (hc : c.word? = some word)
    (op : Connective) {operand : Nat → Parser Expr} {x : Rhs} {b : Nat} {A B : List Terminal}
    (hx : Parses m b operand x A) (hA : c ∉ A) (hB : c :: A ⊆ B) (e : Expr) :
    Parses m b (fun n => connectedFrom word op (operand n) e) (star (seqs [c, x])) B := by
  obtain ⟨hcB, hAB⟩ := List.cons_subset.mp hB
  refine .repeated (A := A) (fun left => ?_) rfl ⟨?_, fun _ => hAB⟩ ?_ e
  · have hstep : Parses.Try m b (fun n => do
        if ← takeKeyword word then return some (Tree.connected op left (← operand n))
        return none) (alt (seq c x) void) (Clear A) :=
      .ifWord (Nat.le_succ _) hc hx.map (.bind fun _ => .some) .none ⟨nofun, nofun⟩
    exact hstep.of_lang (by simp) (by simp [Rhs.seqs, Rhs.first, Rhs.nullable])
  · simpa [Rhs.seqs, Rhs.first, Rhs.nullable] using hA
  · simpa [Rhs.seqs, Rhs.first, Rhs.nullable] using hcB

theorem parses_andFrom (e : Expr) :
    Parses m (m + 1) (fun n => andFrom (nested n) e) (star andTail) andFollow :=
  parses_connectedFrom rfl .and (parses_notLevel h) (by decide) (by decide) e

theorem parses_andLevel : Parses m (m + 1) (fun n => andLevel (nested n)) andExpr andFollow :=
  (Parses.seq (parses_notLevel h) (fun e => parses_andFrom h e) (by decide)).of_lang
    (by simp [lang_and])

theorem parses_orFrom (e : Expr) :
    Parses m (m + 1) (fun n => orFrom (nested n) e) (star orTail) exprFollow :=
  parses_connectedFrom rfl .or (parses_andLevel h) (by decide) (by decide) e

theorem parses_expression : Parses m (m + 1) (fun n => expression (nested n)) Rule.expr exprFollow :=
  (Parses.seq (parses_andLevel h) (fun e => parses_orFrom h e) (by decide)).of_lang
    (by simp [lang_expr, lang_or])

theorem parses_expressionFrom (e : Expr) :
    Parses m (m + 1) (fun n => expressionFrom (nested n) e) exprTail exprFollow := by
  have hfrom : Parses m (m + 1) (fun n => expressionFrom (nested n) e)
      (seq (star castOrIndex) (seq (star zoneTail) (seq (star powerTail) (seq (star productTail)
        (seq (star sumTail) (seq (star otherTail) (seq predicateTail (seq comparisonTail
          (seq (star testTail) (seq (star andTail) (star orTail))))))))))) exprFollow :=
    .seq (parses_postfixFrom h e) (fun e => .seq (parses_zoneFrom h e) (fun e =>
      .seq (parses_powerFrom h e) (fun e => .seq (parses_productFrom h e) (fun e =>
        .seq (parses_sumFrom h e) (fun e => .seq (parses_otherFrom h e) (fun e =>
          .seq (parses_predicateFrom h e) (fun e => .seq (parses_comparisonFrom h e) (fun e =>
            .seq (parses_testFrom h e) (fun e => .seq (parses_andFrom h e)
              (fun e => parses_orFrom h e) (by decide)) (by decide)) (by decide)) (by decide))
              (by decide)) (by decide)) (by decide)) (by decide)) (by decide)) (by decide)
  exact hfrom.of_lang (by simp [exprTail])

end Levels

end SqlTree.Syntax.Parser

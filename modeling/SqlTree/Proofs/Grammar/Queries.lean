import SqlTree.Proofs.Grammar.Items

/-!
The parsers of queries take what the grammar says.
-/

namespace SqlTree.Syntax.Parser

open Grammar Terminal Rule Rhs

variable {α : Type} {m b : Nat} {A B : List Terminal} (h : Inner m)

include h

section Tables

theorem parses_namedTable : Parses m (m + 1) (fun n => namedTable (nested n))
    (alt functionRef relationRef) tableFollow := by
  have htable : Parses m (m + 1) (fun n => namedTable (nested n))
      (alt (seq funcCall (opt aliasClause)) (seq columnRef (opt aliasClause))) tableFollow :=
    parses_callOrPath h (fun _ => parses_aliasName.map.before (by decide))
      (fun _ => parses_aliasName.map.before (by decide)) (by decide) (by decide)
  exact htable.of_lang (by simp [lang_rule functionRef, lang_rule relationRef, lang_columnRef, rhs])

theorem parses_lateralTable : Parses m (m + 1) (fun n => lateralTable (nested n))
    (seq (alt (seqs [LPAR, Rule.query, RPAR]) funcCall) (opt aliasClause)) tableFollow := by
  have htable : Parses m (m + 1) (fun n => lateralTable (nested n))
      (alt (seq (seqs [LPAR, Rule.query, RPAR]) (opt aliasClause))
        (seq funcCall (opt aliasClause))) tableFollow :=
    .ifNext (spots_symbol (c := .LPAR) rfl)
      (.seq (parses_parenQuery h) (fun _ => parses_aliasName.map.before (by decide)) (by decide))
      (.seq (parses_call h) (fun _ => parses_aliasName.map.before (by decide)) (by decide)) rfl
      (by decide) (by decide)
  exact htable.of_lang (by simp [add_mul])

theorem parses_table : Parses m (m + 1) (fun n => table (nested n)) tableRef tableFollow := by
  have htable : Parses m (m + 1) (fun n => table (nested n))
      (alt (seq (seqs [LPAR, Rule.query, RPAR]) (opt aliasClause))
        (alt (seq LATERAL _) (alt functionRef relationRef))) tableFollow :=
    .ifNext (spots_symbol (c := .LPAR) rfl)
      (.seq (parses_parenQuery h) (fun _ => parses_aliasName.map.before (by decide)) (by decide))
      (.ifWord (Nat.le_succ _) rfl (parses_lateralTable h) (parses_namedTable h) (by decide)) rfl
      (by decide) (by decide)
  refine (htable.of_lang ?_).rule
  simp [rhs, lang_rule subqueryRef, lang_rule lateralRef, mul_add, add_mul, mul_assoc]
  ac_rfl

theorem parses_joinTest :
    Parses m (m + 1) (fun n => joinTest (nested n)) joinCondition exprFollow := by
  have htest : Parses m (m + 1) (fun n => joinTest (nested n))
      (alt (seq ON Rule.expr) (seq USING (seqs [LPAR, identList, RPAR]))) exprFollow :=
    .ifWord (Nat.le_refl _) rfl h.expr.map (.keyword (Nat.le_succ _) rfl
      (parses_nameList.map.before (by decide))) (by decide)
  exact (htest.of_lang (by simp [rhs])).rule

/-- What a join needs behind its kind. -/
def joinTail : Rhs := seqs [JOIN, tableRef, joinCondition]

theorem parses_joined (kind : JoinKind) (g : Tree .join → α) : Parses m (m + 1) (fun n => do
    keyword "join"
    let t ← table (nested n)
    return g (.join kind t (.present (← joinTest (nested n))))) joinTail exprFollow := by
  have hjoin : Parses m (m + 1) (fun n => do
      keyword "join"
      let t ← table (nested n)
      return g (.join kind t (.present (← joinTest (nested n)))))
      (seq JOIN (seq tableRef joinCondition)) exprFollow :=
    .keyword (Nat.le_succ _) rfl (.seq (parses_table h) (fun _ => (parses_joinTest h).map)
      (by decide))
  exact hjoin.of_lang (by simp [joinTail])

theorem parses_outerJoin (kind : JoinKind) : Parses m (m + 1)
    (fun n => outerJoin (nested n) kind) (seq (opt OUTER) joinTail) exprFollow :=
  .maybeKeyword rfl (fun _ => parses_joined h kind id) (by decide)

/-- What must not follow a join so that all of it is taken. -/
def joinFollow : List Terminal := exprFollow ++ aliasFollow

theorem try_innerJoin : Parses.Try m (m + 1) (fun n => do
    let inner ← takeKeyword "inner"
    if inner || (← atKeyword "join") then
      keyword "join"
      let t ← table (nested n)
      return some (Tree.join .inner t (.present (← joinTest (nested n))))
    return none) (alt (seq INNER joinTail) joinTail) (Clear joinFollow) := by
  have hjoined : Parses m (m + 1) (fun n => do
      keyword "join"
      let t ← table (nested n)
      return some (Tree.join .inner t (.present (← joinTest (nested n))))) joinTail joinFollow :=
    (parses_joined h .inner some).before (by decide)
  have hcertain (n : Nat) : Parses.Certain (do
      keyword "join"
      let t ← table (nested n)
      return some (Tree.join .inner t (.present (← joinTest (nested n))))) :=
    .bind fun _ => .bind fun _ => .bind fun _ => .some
  refine (Parses.Try.ifWord (Nat.le_succ _) rfl hjoined (hcertain m)
    (.ifNext (spots_keyword (c := .JOIN) rfl) hjoined (hcertain m) rfl (by decide) (by decide))
    (by decide)).congr fun n => ?_
  refine bind_congr fun inner => ?_
  cases inner <;> rfl

theorem try_join :
    Parses.Try m (m + 1) (fun n => join (nested n)) joinPart (Clear joinFollow) := by
  have houter (kind : JoinKind) : Parses m (m + 1) (fun n => do
      return some (← outerJoin (nested n) kind)) (seq (opt OUTER) joinTail) joinFollow :=
    (parses_outerJoin h kind).map.before (by decide)
  have hcross : Parses m (m + 1) (fun n => do
      keyword "join"
      return some (Tree.join .cross (← table (nested n)) .absent)) (seq JOIN tableRef) joinFollow :=
    .keyword (Nat.le_succ _) rfl ((parses_table h).map.before (by decide))
  have hjoin : Parses.Try m (m + 1) (fun n => join (nested n)) (alt (seq LEFT _) (alt (seq RIGHT _)
      (alt (seq FULL _) (alt (seq CROSS _) (alt (seq INNER joinTail) joinTail)))))
      (Clear joinFollow) :=
    .ifWord (Nat.le_succ _) rfl (houter .left) (.bind fun _ => .some)
      (.ifWord (Nat.le_succ _) rfl (houter .right) (.bind fun _ => .some)
        (.ifWord (Nat.le_succ _) rfl (houter .full) (.bind fun _ => .some)
          (.ifWord (Nat.le_succ _) rfl hcross (.bind fun _ => .bind fun _ => .some)
            (try_innerJoin h) (by decide)) (by decide)) (by decide)) (by decide)
  refine hjoin.of_lang ?_ (by decide)
  simp [lang_rule joinPart, rhs, joinTail, add_mul]
  ac_rfl

theorem parses_source :
    Parses m (m + 1) (fun n => source (nested n)) fromItem sourceFollow := by
  have hsource : Parses m (m + 1) (fun n => source (nested n)) (seq tableRef (star joinPart))
      sourceFollow :=
    .seq (parses_table h) (fun _ => ((try_join h).collect rfl (by decide) (by decide)
      fun n done => bind_congr fun o => by cases o <;> rfl).map) (by decide)
  exact (hsource.of_lang (by simp [rhs])).rule

theorem parses_fromClause : Parses m (m + 1) (fun n => fromClause (nested n))
    (opt Rule.fromClause) (.FROM :: .COMMA :: sourceFollow) := by
  have hfrom : Parses m (m + 1) (fun n => fromClause (nested n))
      (opt (seq FROM (Rhs.list fromItem))) (.FROM :: .COMMA :: sourceFollow) :=
    .optional (Nat.le_succ _) rfl ((Parses.commas (parses_source h) (by decide)
      (List.Subset.refl _)).before (by decide)) (by decide)
  exact hfrom.of_lang (by simp [lang_rule Rule.fromClause, rhs])

theorem parses_whereClause : Parses m (m + 1) (fun n => whereClause (nested n))
    (opt Rule.whereClause) (.WHERE :: exprFollow) := by
  have hwhere : Parses m (m + 1) (fun n => whereClause (nested n)) (opt (seq WHERE Rule.expr))
      (.WHERE :: exprFollow) :=
    .optional (Nat.le_refl _) rfl (h.expr.before (by decide)) (by decide)
  exact hwhere.of_lang (by simp [lang_rule Rule.whereClause, rhs])

end Tables

section Select

/-- What follows the mark of a selection. -/
def selectTail : Rhs :=
  seqs [selectList, opt Rule.fromClause, opt Rule.whereClause, opt groupClause, opt havingClause]

theorem parses_selectTail (mark : Option (Tree .distinct)) : Parses m (m + 1) (fun n => do
    let items ← selectItems (nested n)
    let sources ← fromClause (nested n)
    let condition ← whereClause (nested n)
    let groups ← optional "group" do
      keyword "by"
      exprs (nested n)
    let having ← optional "having" (nested n).expr
    return Tree.select (.ofOption mark) (.ofList items) (.ofList (sources.getD []))
      (.ofOption condition) (.ofList (groups.getD [])) (.ofOption having))
    selectTail selectFollow := by
  have hgroup : Parses m (m + 1) (fun n => optional "group" do
      keyword "by"
      exprs (nested n)) (opt (seq GROUP (seq BY Rule.exprList))) (.GROUP :: .COMMA :: exprFollow) :=
    .optional (Nat.le_succ (m + 1)) rfl (.keyword (Nat.le_refl _) rfl
      ((parses_exprs h).before (by decide))) (by decide)
  have hhaving : Parses m (m + 1) (fun n => optional "having" (nested n).expr)
      (opt (seq HAVING Rule.expr)) (.HAVING :: exprFollow) :=
    .optional (Nat.le_refl _) rfl (h.expr.before (by decide)) (by decide)
  have htail : Parses m (m + 1) _ (seq selectList (seq (opt Rule.fromClause)
      (seq (opt Rule.whereClause) (seq (opt (seq GROUP (seq BY Rule.exprList)))
        (opt (seq HAVING Rule.expr)))))) selectFollow :=
    .seq (parses_selectItems h) (fun items => .seq (parses_fromClause h) (fun sources =>
      .seq (parses_whereClause h) (fun condition => .seq hgroup (fun groups =>
        (hhaving.map (g := fun having => Tree.select (.ofOption mark) (.ofList items)
          (.ofList (sources.getD [])) (.ofOption condition) (.ofList (groups.getD []))
          (.ofOption having))).before (by decide)) (by decide)) (by decide)) (by decide)) (by decide)
  exact htail.of_lang (by simp [selectTail, lang_rule groupClause, lang_rule havingClause, rhs])

omit h in
/-- What starts with a quantifier may be selected without it. -/
theorem derives_selectTail_of_all {t : Token} {ts : List Token} (ht : ALL.Matches t)
    (hx : Derives selectTail (t :: ts)) : Derives selectTail ts := by
  have hitem {us : List Token} (hx : Derives Rule.selectItem (t :: us)) :
      Derives Rule.selectItem us := by
    have hforms : Derives (alts [STAR, starred, seq Rule.expr (opt aliasClause)]) (t :: us) :=
      lang_selectItem.le hx
    obtain ⟨x, hx, hitem⟩ := hforms.filter_alts ht
    obtain rfl : x = seq Rule.expr (opt aliasClause) := List.mem_singleton.mp hx
    obtain ⟨es, as, rfl, he, ha⟩ := hitem.of_seq_cons rfl
    have hless : Derives (seq Rule.expr (opt aliasClause)) (es ++ as) :=
      .seq (derives_expr_of_all ht he) ha
    exact lang_selectItem.ge (derives_alts.mpr ⟨_, by simp, hless⟩)
  have hlang : lang selectTail = lang (seq Rule.selectItem
      (seq (star (seqs [COMMA, Rule.selectItem])) (seqs [opt Rule.fromClause, opt Rule.whereClause,
        opt groupClause, opt havingClause]))) := by
    simp [selectTail, lang_rule selectList, rhs, Rhs.list, mul_assoc]
  obtain ⟨us, vs, rfl, hus, hvs⟩ := (hlang.le hx : Derives (seq _ _) _).of_seq_cons rfl
  exact hlang.ge ((hitem hus).seq hvs : Derives _ _)

omit h in
theorem distinct_bind (p : Nested) (k : Option (Tree .distinct) → Parser α) :
    (distinct p >>= k) = (do
      if ← takeKeyword "distinct" then
        if ← takeKeyword "on" then k (some (.distinctOn (.ofList (← parens (commas p.expr)))))
        else k (some .distinctAll)
      else
        let _ ← takeKeyword "all"
        k none) := by
  rw [distinct, bind_assoc]
  refine bind_congr fun t => ?_
  cases t with
  | true =>
    change (takeKeyword "on" >>= _) >>= k = _
    rw [bind_assoc]
    refine bind_congr fun t => ?_
    cases t with
    | true =>
      change (parens (commas p.expr) >>= _) >>= k = _
      rw [bind_assoc]
      rfl
    | false => rfl
  | false =>
    change (takeKeyword "all" >>= _) >>= k = _
    rw [bind_assoc]
    rfl

theorem parses_select :
    Parses m (m + 1) (fun n => select (nested n)) (seq (opt distinctSpec) selectTail)
      selectFollow := by
  have hon : Parses m (m + 1) (fun n => parens (commas (nested n).expr))
      (seqs [LPAR, Rule.exprList, RPAR]) [] :=
    .parens (Nat.le_refl _) (parses_exprs h) (by decide)
  have hselect : Parses m (m + 1) (fun n => select (nested n))
      (alt (seq DISTINCT (alt (seq ON (seq (seqs [LPAR, Rule.exprList, RPAR]) selectTail))
        selectTail)) (alt (seq ALL selectTail) selectTail)) selectFollow := by
    refine Parses.congr ?_ (fun n => distinct_bind (nested n) _)
    refine .ifWord (Nat.le_succ _) rfl ?_ ?_ (by decide)
    · refine .ifWord (Nat.le_succ _) rfl (.seq hon (fun items => parses_selectTail h _) (by decide))
        (parses_selectTail h _) (by decide)
    · refine .branch_of (f := fun _ n => _) (Nat.le_succ _) (tests_keyword rfl)
        (parses_selectTail h none) (parses_selectTail h none)
        (fun _ _ ht hx => derives_selectTail_of_all ht hx) nofun
  refine hselect.of_lang ?_
  simp [lang_rule distinctSpec, rhs, mul_add, add_mul, mul_assoc]
  ac_rfl

end Select

section Bodies

theorem parses_bodyPrimary :
    Parses m (m + 1) (fun n => bodyPrimary (nested n)) setPrimary selectFollow := by
  have hbody : Parses m (m + 1) (fun n => bodyPrimary (nested n))
      (alt (seq SELECT _) (seqs [LPAR, Rule.query, RPAR])) selectFollow :=
    .ifWord (Nat.le_succ _) rfl (parses_select h).map
      ((parses_parenQuery h).map.before (by decide)) (by decide)
  refine (hbody.of_lang ?_).rule
  simp [lang_rule selectCore, rhs, selectTail]

theorem parses_intersectionFrom (b : Tree .body) : Parses m (m + 1)
    (fun n => intersectionFrom (nested n) b) (star intersectTail) (.INTERSECT :: selectFollow) := by
  refine .repeated (A := selectFollow) (fun left => ?_) rfl (by decide) (by decide) b
  have hstep : Parses.Try m (m + 1) (fun n => do
      if ← takeKeyword "intersect" then
        return some (Tree.operation .intersect left (← bodyPrimary (nested n)))
      return none) (alt (seq INTERSECT setPrimary) void) (Clear selectFollow) :=
    .ifWord (Nat.le_succ _) rfl (parses_bodyPrimary h).map (.bind fun _ => .some) .none (by decide)
  exact hstep.of_lang (by simp [intersectTail]) (by decide)

theorem parses_bodyTerm : Parses m (m + 1) (fun n => bodyTerm (nested n)) setTerm
    (.INTERSECT :: selectFollow) :=
  (Parses.seq (parses_bodyPrimary h) (fun b => parses_intersectionFrom h b) (by decide)).of_lang
    (by simp [lang_setTerm])

omit h in
theorem try_setOperator : Parses.Try m b (fun _ => setOperator) Grammar.setOperator
    (Clear [.ALL, .DISTINCT]) := by
  have hunion : Parses m b (fun _ => do
      if ← takeKeyword "all" then return some SetOperator.unionAll
      let _ ← takeKeyword "distinct"
      return some SetOperator.union)
      (alt (seq ALL empty) (seq (opt DISTINCT) empty)) [.ALL, .DISTINCT] :=
    .ifWord (Nat.le_succ b) rfl .pure (.maybeKeyword (f := fun _ _ => _) rfl (fun _ => .pure)
      (by decide)) (by decide)
  have hexcept : Parses m b (fun _ => do
      if ← takeKeyword "all" then return some SetOperator.exceptAll
      return some SetOperator.except) (alt (seq ALL empty) empty) [.ALL, .DISTINCT] :=
    .ifWord (Nat.le_succ b) rfl .pure .pure (by decide)
  have hoperator : Parses.Try m b (fun _ => setOperator) (alt (seq UNION _) (alt (seq EXCEPT _) void))
      (Clear [.ALL, .DISTINCT]) :=
    .ifWord (Nat.le_succ b) rfl hunion (.bind fun _ => .ite .some (.bind fun _ => .some))
      (.ifWord (Nat.le_succ b) rfl hexcept (.bind fun _ => .ite .some .some) .none (by decide))
      (by decide)
  exact hoperator.of_lang (by simp [Grammar.setOperator, add_assoc]) (by decide)

theorem parses_bodyFrom (b : Tree .body) : Parses m (m + 1) (fun n => bodyFrom (nested n) b)
    (seq (star intersectTail) (star unionTail)) bodyFollow := by
  have hunion (left : Tree .body) : Parses.Try m (m + 1) (fun n => setOperator >>= fun o =>
      o.elim (pure none) fun op => do
        return some (Tree.operation op left (← bodyTerm (nested n)))) unionTail
      (Clear (.INTERSECT :: selectFollow)) := by
    have hterm := try_setOperator.andThen (fun op => (parses_bodyTerm h).map
      (g := fun right => Tree.operation op left right)) (by decide)
    refine (hterm.of_lang (by simp [unionTail]) (by decide)).congr fun n => ?_
    simp only [bind_assoc, pure_bind]
  refine .seq (parses_intersectionFrom h b) (fun b => ?_) (by decide)
  refine .repeated (A := .INTERSECT :: selectFollow) (fun left => (hunion left).congr fun n => ?_)
    rfl (by decide) (by decide) b
  exact bind_congr fun o => by cases o <;> rfl

end Bodies

end SqlTree.Syntax.Parser

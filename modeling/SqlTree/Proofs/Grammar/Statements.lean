import SqlTree.Proofs.Grammar.Groups

/-!
The parsers of statements take what the grammar says, and so do those of what is nested, however
deep.
-/

namespace SqlTree.Syntax.Parser

open Grammar Terminal Rule Rhs

variable {m b : Nat}

section Changes

variable (h : Inner m)

include h

theorem parses_assignment : Parses m (m + 1) (fun n => assignment (nested n)) setItem exprFollow := by
  have hassignment : Parses m (m + 1) (fun n => assignment (nested n))
      (seq Rule.ident (seq EQ Rule.expr)) exprFollow :=
    .seq parses_name (fun _ => .symbol (Nat.le_refl _) rfl h.expr.map) (by decide)
  exact (hassignment.of_lang (by simp [rhs])).rule

theorem parses_assignments :
    Parses m (m + 1) (fun n => assignments (nested n)) setList (.COMMA :: exprFollow) :=
  .rule ((Parses.commas (parses_assignment h) (by decide) (List.Subset.refl _)).map)

theorem parses_row : Parses m (m + 1) (fun n => row (nested n)) valuesRow [] :=
  .rule ((Parses.parens (Nat.le_refl _) (parses_exprs h) (by decide)).map)

theorem parses_insertSource : Parses m (m + 1) (fun n => insertSource (nested n))
    Rule.insertSource queryFollow := by
  have hsource : Parses m (m + 1) (fun n => insertSource (nested n)) (alt (seq VALUES _)
      (alt (seq DEFAULT (seq VALUES empty)) Rule.query)) queryFollow :=
    .ifWord (Nat.le_succ _) rfl ((Parses.commas (parses_row h) (by decide)
        (List.Subset.refl _)).map.before (by decide))
      (.ifWord (Nat.le_succ _) rfl (.keyword (Nat.le_succ _) rfl .pure) (parses_query h).map
        (by decide)) (by decide)
  refine (hsource.of_lang ?_).rule
  simp [rhs]
  ac_rfl

/-- A name behind an opening parenthesis. -/
def opensNames (ls : List Lexeme) : Bool :=
  isSymbol "(" (next ls) && isName (next (ls.drop 1))

omit h in
theorem opensNames_columns {x : Rhs} {ls ls' : List Lexeme}
    (hx : Derives (seq (seqs [LPAR, identList, RPAR]) x) (ls.map Lexeme.token)) (hls : Alike ls ls')
    (rest : List Lexeme) : opensNames (ls' ++ rest) = true := by
  have hlang : lang (seq (seqs [LPAR, identList, RPAR]) x) =
      lang (seq LPAR (seq identList (seq RPAR x))) := by
    simp [mul_assoc]
  obtain ⟨l, us, rfl, hl, hus⟩ := Parses.cons_of_token (hlang.le hx)
  obtain ⟨l', rfl, hl'⟩ := hls.cons
  have hparen : isSymbol "(" (some l'.token) = true := (isSymbol_iff rfl).mpr (hl' ▸ hl)
  have hstart : Starts identStarts (seq identList (seq RPAR x)) := ⟨rfl, by simp [Rhs.first, Rhs.nullable, starts]⟩
  have hname : isName (next (us ++ rest)) = true :=
    (spots_isName _).mpr (hstart.meets hus (.refl us))
  simp [opensNames, hparen, hname]

omit h in
/-- A parenthesis that opens a query is followed by the start of another one. -/
theorem not_opensNames {x : Rhs} {ls ls' : List Lexeme}
    (hx : Derives (seq Rule.insertSource x) (ls.map Lexeme.token)) (hls : Alike ls ls')
    (rest : List Lexeme) : opensNames (ls' ++ rest) = false := by
  obtain ⟨ss, vs, rfl, hss, hvs⟩ := hx.split
  cases ss with
  | nil => exact absurd (hss.nullable rfl) (by decide)
  | cons l us =>
    rw [List.cons_append] at hls
    obtain ⟨l', rfl, hl'⟩ := hls.cons
    cases hparen : isSymbol "(" (some l'.token) with
    | false => simp [opensNames, hparen]
    | true =>
      have hl : LPAR.Matches l.token := hl' ▸ (isSymbol_iff rfl).mp hparen
      have hforms : Derives (alts [seqs [VALUES, Rhs.list valuesRow], Rule.query,
          seqs [DEFAULT, VALUES]]) ((l :: us).map Lexeme.token) :=
        (lang_rule Rule.insertSource).le hss
      obtain ⟨y, hy, hquery⟩ := hforms.filter_alts hl
      obtain rfl : y = Rule.query := List.mem_singleton.mp hy
      have hbehind : Derives (seq Rule.query (seq RPAR queryTail)) (us.map Lexeme.token) :=
        derives_query_paren hl hquery
      have hfit : Fits (seq Rule.query (seq RPAR queryTail)) identStarts [] := by decide
      have hname : isName (next (us ++ (vs ++ rest))) = false :=
        spots_isName.eq_false (hfit.clear hbehind (.refl us) nofun)
      simp [opensNames, hname]

omit h in
theorem parses_insertColumns {α : Type} {k : List Name → Nat → Parser α} {x : Rhs}
    {B : List Terminal}
    (hk : ∀ columns, Parses m b (k columns) (seq Rule.insertSource x) B) :
    Parses m b (fun n => insertColumns >>= fun columns => k columns n)
      (seq (opt Rule.insertColumns) (seq Rule.insertSource x)) B := by
  have hnames : Parses m b (fun n => nameList >>= fun columns => k columns n)
      (seq (seqs [LPAR, identList, RPAR]) (seq Rule.insertSource x)) B :=
    .seq parses_nameList hk ⟨fun _ _ => List.not_mem_nil, fun _ => List.nil_subset _⟩
  have hcolumns : Parses m b (fun n => insertColumns >>= fun columns => k columns n)
      (alt (seq (seqs [LPAR, identList, RPAR]) (seq Rule.insertSource x))
        (seq Rule.insertSource x)) B := by
    refine .choose (f := opensNames) hnames (hk []) (fun n ls => ?_)
      (fun _ _ rest hx hls _ => opensNames_columns hx hls rest)
      (fun _ _ rest hx hls _ => not_opensNames hx hls rest)
    change ((if opensNames ls = true then nameList else pure []) >>= fun columns => k columns n) ls = _
    split <;> rfl
  exact hcolumns.of_lang (by simp [lang_rule Rule.insertColumns, rhs, add_mul])

theorem parses_conflictTarget : Parses m (m + 1) (fun n => conflictTarget (nested n))
    (opt Rule.conflictTarget) [.LPAR, .ON] := by
  have htarget : Parses m (m + 1) (fun n => conflictTarget (nested n))
      (alt (seqs [LPAR, Rule.exprList, RPAR]) (alt (seq ON (seq CONSTRAINT Rule.ident)) empty))
      [.LPAR, .ON] :=
    .ifNext (spots_symbol (c := .LPAR) rfl)
      ((Parses.parens (Nat.le_refl _) (parses_exprs h) (by decide)).map)
      (.ifWord (Nat.le_succ _) rfl (.keyword (Nat.le_succ _) rfl
        (parses_name.map.before (by decide))) .pure (by decide)) rfl (by decide) (by decide)
  exact htarget.of_lang (by simp [lang_rule Rule.conflictTarget, rhs, add_assoc])

theorem parses_conflictAction : Parses m (m + 1) (fun n => conflictAction (nested n))
    Rule.conflictAction (.WHERE :: .COMMA :: exprFollow) := by
  have haction : Parses m (m + 1) (fun n => conflictAction (nested n))
      (seq DO (alt (seq NOTHING empty) (seq (seq UPDATE (seq SET empty))
        (seq setList (opt Rule.whereClause))))) (.WHERE :: .COMMA :: exprFollow) :=
    .keyword (Nat.le_succ _) rfl (.ifWord (Nat.le_succ _) rfl .pure
      (.seq (A := []) (.keyword (Nat.le_succ _) rfl (.keyword (Nat.le_succ _) rfl .pure))
        (fun _ => .seq (parses_assignments h)
          (fun _ => (parses_whereClause h).map.before (by decide)) (by decide))
        (by decide)) (by decide))
  exact (haction.of_lang (by simp [rhs, mul_add, mul_assoc])).rule

theorem parses_conflict : Parses m (m + 1) (fun n => conflict (nested n)) (opt onConflict)
    (.ON :: .WHERE :: .COMMA :: exprFollow) := by
  have hconflict : Parses m (m + 1) (fun n => conflict (nested n))
      (opt (seq ON (seq CONFLICT (seq (opt Rule.conflictTarget) Rule.conflictAction))))
      (.ON :: .WHERE :: .COMMA :: exprFollow) :=
    .optional (Nat.le_succ _) rfl (.keyword (Nat.le_succ _) rfl (.seq (parses_conflictTarget h)
      (fun _ => (parses_conflictAction h).map.before (by decide)) (by decide))) (by decide)
  exact hconflict.of_lang (by simp [lang_rule onConflict, rhs])

/-- What must not follow the results of a change so that all of them are taken. -/
def returningFollow : List Terminal := .RETURNING :: .COMMA :: itemFollow

theorem parses_returning : Parses m (m + 1) (fun n => returning (nested n)) (opt returningClause)
    returningFollow := by
  have hreturning : Parses m (m + 1) (fun n => returning (nested n)) (opt (seq RETURNING selectList))
      returningFollow :=
    (Parses.optional (Nat.le_succ _) rfl ((parses_selectItems h).before (by decide))
      (by decide)).map
  exact hreturning.of_lang (by simp [lang_rule returningClause, rhs])

def insertTail : Rhs := seqs [INTO, qualifiedName, opt insertAlias, opt Rule.insertColumns,
  Rule.insertSource, opt onConflict, opt returningClause]

theorem parses_insertRest (ctes : Option (Tree .ctes)) :
    Parses m (m + 1) (fun n => insertRest (nested n) ctes) insertTail statementFollow := by
  have halias : Parses m (m + 1) (fun _ => optional "as" name) (opt (seq AS Rule.ident)) [.AS] :=
    .optional (Nat.le_succ _) rfl (parses_name.before (by decide)) (by decide)
  have hinsert : Parses m (m + 1) (fun n => insertRest (nested n) ctes)
      (seq INTO (seq qualifiedName (seq (opt (seq AS Rule.ident)) (seq (opt Rule.insertColumns)
        (seq Rule.insertSource (seq (opt onConflict) (opt returningClause))))))) statementFollow :=
    .keyword (Nat.le_succ _) rfl (.seq parses_path (fun _ => .seq halias (fun _ =>
      parses_insertColumns fun _ => .seq (parses_insertSource h) (fun _ =>
        .seq (parses_conflict h) (fun _ => (parses_returning h).map.before (by decide))
          (by decide)) (by decide)) (by decide)) (by decide))
  exact hinsert.of_lang (by simp [insertTail, lang_rule insertAlias, rhs])

def updateTail : Rhs := seqs [qualifiedName, opt aliasClause, SET, setList, opt Rule.fromClause,
  opt Rule.whereClause, opt returningClause]

theorem parses_updateRest (ctes : Option (Tree .ctes)) :
    Parses m (m + 1) (fun n => updateRest (nested n) ctes) updateTail statementFollow := by
  have hupdate : Parses m (m + 1) (fun n => updateRest (nested n) ctes)
      (seq qualifiedName (seq (opt aliasClause) (seq SET (seq setList (seq (opt Rule.fromClause)
        (seq (opt Rule.whereClause) (opt returningClause))))))) statementFollow :=
    .seq parses_path (fun _ => .seq parses_aliasName (fun _ => .keyword (Nat.le_succ _) rfl
      (.seq (parses_assignments h) (fun _ => .seq (parses_fromClause h) (fun _ =>
        .seq (parses_whereClause h) (fun _ => (parses_returning h).map.before (by decide))
          (by decide)) (by decide)) (by decide))) (by decide)) (by decide)
  exact hupdate.of_lang (by simp [updateTail])

def deleteTail : Rhs := seqs [FROM, qualifiedName, opt aliasClause, opt usingClause,
  opt Rule.whereClause, opt returningClause]

theorem parses_deleteRest (ctes : Option (Tree .ctes)) :
    Parses m (m + 1) (fun n => deleteRest (nested n) ctes) deleteTail statementFollow := by
  have husing : Parses m (m + 1) (fun n => optional "using" (commas (table (nested n))))
      (opt (seq USING (Rhs.list tableRef))) (.USING :: .COMMA :: tableFollow) :=
    .optional (Nat.le_succ _) rfl ((Parses.commas (parses_table h) (by decide)
      (List.Subset.refl _)).before (by decide)) (by decide)
  have hdelete : Parses m (m + 1) (fun n => deleteRest (nested n) ctes)
      (seq FROM (seq qualifiedName (seq (opt aliasClause) (seq (opt (seq USING (Rhs.list tableRef)))
        (seq (opt Rule.whereClause) (opt returningClause)))))) statementFollow :=
    .keyword (Nat.le_succ _) rfl (.seq parses_path (fun _ => .seq parses_aliasName (fun _ =>
      .seq husing (fun _ => .seq (parses_whereClause h)
        (fun _ => (parses_returning h).map.before (by decide)) (by decide)) (by decide))
      (by decide)) (by decide))
  exact hdelete.of_lang (by simp [deleteTail, lang_rule usingClause, rhs])

theorem parses_statement :
    Parses m (m + 1) (fun n => statement (nested n)) cteBody statementFollow := by
  have hstatement : Parses m (m + 1) (fun n => statement (nested n)) (seq (opt withClause)
      (alt (seq INSERT insertTail) (alt (seq UPDATE updateTail) (alt (seq DELETE deleteTail)
        (seq setPrimary queryTail))))) statementFollow :=
    .seq (parses_ctes h) (fun ctes => .ifWord (Nat.le_succ _) rfl (parses_insertRest h ctes)
      (.ifWord (Nat.le_succ _) rfl (parses_updateRest h ctes)
        (.ifWord (Nat.le_succ _) rfl (parses_deleteRest h ctes)
          ((parses_queryRest h ctes).map.before (by decide)) (by decide)) (by decide))
      (by decide)) (by decide)
  refine (hstatement.of_lang ?_).rule
  have hinsert : lang insertStmt = lang (opt withClause) * (lang INSERT * lang insertTail) := by
    simp [lang_rule insertStmt, rhs, insertTail]
  have hupdate : lang updateStmt = lang (opt withClause) * (lang UPDATE * lang updateTail) := by
    simp [lang_rule updateStmt, rhs, updateTail]
  have hdelete : lang deleteStmt = lang (opt withClause) * (lang DELETE * lang deleteTail) := by
    simp [lang_rule deleteStmt, rhs, deleteTail]
  simp only [rhs, lang_alts_cons, lang_alts_nil, lang_alt, lang_seq, mul_add, hinsert, hupdate,
    hdelete, lang_query, add_zero]
  ac_rfl

end Changes

section Definitions

theorem try_columnConstraint : Parses.Try m b (fun _ => columnConstraint) Rule.columnConstraint
    (Clear []) := by
  have hconstraint : Parses.Try m b (fun _ => columnConstraint) (alt (seq PRIMARY (seq KEY empty))
      (alt (seq NOT (seq NULL empty)) (alt (seq NULL empty) (alt (seq UNIQUE empty) void))))
      (Clear []) :=
    .ifWord (Nat.le_succ _) rfl (.keyword (Nat.le_succ _) rfl .pure) (.bind fun _ => .some)
      (.ifWord (Nat.le_succ _) rfl (.keyword (Nat.le_succ _) rfl .pure) (.bind fun _ => .some)
        (.ifWord (Nat.le_succ _) rfl .pure .some (.ifWord (Nat.le_succ _) rfl .pure .some .none
          (by decide)) (by decide)) (by decide)) (by decide)
  exact hconstraint.of_lang (by simp [lang_rule Rule.columnConstraint, rhs]) (by decide)

/-- What must not follow the definition of a column so that all of it is taken. -/
def columnFollow : List Terminal := [.PRIMARY, .NOT, .NULL, .UNIQUE, .LSQB] ++ typeFollow

theorem parses_columnDef : Parses m b (fun _ => columnDef) Rule.columnDef columnFollow := by
  have hcolumn : Parses m b (fun _ => columnDef)
      (seq Rule.ident (seq Rule.typeName (star Rule.columnConstraint))) columnFollow :=
    .seq parses_name (fun _ => .seq parses_typeName (fun _ =>
      (Parses.Try.collect try_columnConstraint rfl (by decide) (by decide)
        fun n done => bind_congr fun o => by cases o <;> rfl).map) (by decide)) (by decide)
  exact (hcolumn.of_lang (by simp [rhs])).rule

theorem parses_paths :
    Parses m b (fun _ => commas path) (Rhs.list qualifiedName) [.COMMA, .DOT] :=
  .commas parses_path (by decide) (List.Subset.refl _)

theorem parses_createTable : Parses m b (fun _ => createTable)
    (seqs [TABLE, opt ifNotExists, qualifiedName, LPAR, Rhs.list Rule.columnDef, RPAR]) [] := by
  have hcolumns : Parses m b (fun _ => parens (commas columnDef))
      (seqs [LPAR, Rhs.list Rule.columnDef, RPAR]) [] :=
    .parens (Nat.le_succ _) (.commas parses_columnDef (by decide) (List.Subset.refl _)) (by decide)
  have hrest (ifNotExists : Bool) : Parses m b (fun _ => do
      let table ← path
      return Command.createTable ifNotExists table (← parens (commas columnDef)))
      (seq qualifiedName (seqs [LPAR, Rhs.list Rule.columnDef, RPAR])) [] :=
    .seq parses_path (fun _ => hcolumns.map) (by decide)
  have hcreate : Parses m b (fun _ => createTable) (seq TABLE
      (alt (seq IF (seq (seq NOT (seq EXISTS empty)) (seq qualifiedName
        (seqs [LPAR, Rhs.list Rule.columnDef, RPAR]))))
        (seq qualifiedName (seqs [LPAR, Rhs.list Rule.columnDef, RPAR])))) [] :=
    .keyword (Nat.le_succ _) rfl (.branch (Nat.le_succ _) (tests_keyword rfl)
      (.seq (A := []) (.keyword (Nat.le_succ _) rfl (.keyword (Nat.le_succ _) rfl .pure))
        (fun _ => hrest true) (by decide)) (hrest false) (by decide))
  exact hcreate.of_lang (by simp [lang_rule ifNotExists, rhs, mul_add, add_mul, mul_assoc])

theorem parses_dropTable : Parses m b (fun _ => dropTable)
    (seqs [TABLE, opt ifExists, Rhs.list qualifiedName]) [.COMMA, .DOT] := by
  have hdrop : Parses m b (fun _ => dropTable) (seq TABLE
      (alt (seq IF (seq EXISTS (Rhs.list qualifiedName))) (Rhs.list qualifiedName)))
      [.COMMA, .DOT] :=
    .keyword (Nat.le_succ _) rfl (.branch (Nat.le_succ _) (tests_keyword rfl)
      (.keyword (Nat.le_succ _) rfl parses_paths.map) parses_paths.map (by decide))
  exact hdrop.of_lang (by simp [lang_rule ifExists, rhs, mul_add, add_mul, mul_assoc])

theorem parses_truncate : Parses m b (fun _ => truncate)
    (seqs [opt TABLE, Rhs.list qualifiedName]) [.COMMA, .DOT] := by
  have htruncate : Parses m b (fun _ => truncate) (seq (opt TABLE) (Rhs.list qualifiedName))
      [.COMMA, .DOT] :=
    .maybeKeyword rfl (fun _ => parses_paths.map) (by decide)
  exact htruncate.of_lang (by simp)

theorem parses_alterAction : Parses m b (fun _ => alterAction) Rule.alterAction columnFollow := by
  have haction : Parses m b (fun _ => alterAction)
      (alt (seq ADD (seq (opt COLUMN) Rule.columnDef)) (seq DROP (seq (opt COLUMN) Rule.ident)))
      columnFollow :=
    .ifWord (Nat.le_succ _) rfl (.maybeKeyword rfl (fun _ => parses_columnDef.map) (by decide))
      (.keyword (Nat.le_succ _) rfl (.maybeKeyword rfl
        (fun _ => parses_name.map.before (by decide)) (by decide))) (by decide)
  exact (haction.of_lang (by simp [rhs])).rule

theorem parses_alterTable : Parses m b (fun _ => alterTable)
    (seqs [TABLE, qualifiedName, Rhs.list Rule.alterAction]) (.COMMA :: columnFollow) := by
  have halter : Parses m b (fun _ => alterTable)
      (seq TABLE (seq qualifiedName (Rhs.list Rule.alterAction))) (.COMMA :: columnFollow) :=
    .keyword (Nat.le_succ _) rfl (.seq parses_path (fun _ =>
      (Parses.commas parses_alterAction (by decide) (List.Subset.refl _)).map) (by decide))
  exact halter.of_lang (by simp)

end Definitions

section Nesting

variable {α : Type} {p q : Nat → Parser α} {x : Rhs} {A : List Terminal}

/-- What is nested is parsed with one level less. -/
theorem Accepts.deeper {ls : List Lexeme} {F : List Lexeme → Prop} {a : α} (h : Accepts m p ls F a)
    (hq : ∀ n, q (n + 1) = p n) : Accepts (m + 1) q ls F a := by
  intro n ls' rest hn hls hr
  obtain ⟨k, rfl⟩ := Nat.exists_eq_succ_of_ne_zero (by omega : n ≠ 0)
  rw [hq k]
  exact h k ls' rest (Nat.le_of_succ_le_succ hn) hls hr

theorem Parses.deeper (h : Parses m (m + 1) p x A) (hq : ∀ n, q (n + 1) = p n) :
    Parses (m + 1) (m + 1) q x A where
  sound ls a rest hrun := h.sound ls a rest (hq m ▸ hrun)
  complete ls hls hx :=
    let ⟨a, ha⟩ := h.complete ls hls hx
    ⟨a, ha.deeper hq⟩

theorem inner_zero : Inner 0 where
  expr := ⟨nofun, fun _ hls => absurd hls (Nat.not_lt_zero _)⟩
  query := ⟨nofun, fun _ hls => absurd hls (Nat.not_lt_zero _)⟩
  statement := ⟨nofun, fun _ hls => absurd hls (Nat.not_lt_zero _)⟩
  rest := fun _ => ⟨nofun, fun _ hls => absurd hls (Nat.not_lt_zero _)⟩
  group := ⟨nofun, fun _ hls => absurd hls (Nat.not_lt_zero _),
    fun _ hls => absurd hls (Nat.not_lt_zero _)⟩

theorem inner_succ (h : Inner m) : Inner (m + 1) where
  expr := (parses_expression h).deeper fun _ => rfl
  query := (parses_query h).deeper fun _ => rfl
  statement := (parses_statement h).deeper fun _ => rfl
  rest := fun e => (parses_expressionFrom h e).deeper fun _ => rfl
  group := {
    sound := (readsGroups h).sound
    query := fun ls hls hx =>
      let ⟨g, hg, hne⟩ := (readsGroups h).query ls hls hx
      ⟨g, hg.deeper fun _ => rfl, hne⟩
    expr := fun ls hls hx =>
      let ⟨g, hg, hne⟩ := (readsGroups h).expr ls hls hx
      ⟨g, hg.deeper fun _ => rfl, hne⟩ }

theorem inner (m : Nat) : Inner m := by
  induction m with
  | zero => exact inner_zero
  | succ m ih => exact inner_succ ih

end Nesting

end SqlTree.Syntax.Parser

import SqlTree.Proofs.Grammar.Names
import SqlTree.Syntax.Parser.Statement

/-!
The parsers of primary expressions take what the grammar says if those of what is nested do.
-/

namespace SqlTree.Syntax.Parser

open Grammar Terminal Rule Rhs

section Follow

/-! What must not follow so that all of an expression is taken, level by level. -/

def callFollow : List Terminal := [.FILTER, .OVER]

def primaryFollow : List Terminal := .STRING :: .DOT :: .LPAR :: callFollow

def postfixFollow : List Terminal := .TYPECAST :: .LSQB :: typeFollow ++ primaryFollow

def zoneFollow : List Terminal := .AT :: postfixFollow

def powerFollow : List Terminal := .CARET :: zoneFollow

def productFollow : List Terminal := .STAR :: .SLASH :: .PERCENT :: powerFollow

def sumFollow : List Terminal := .PLUS :: .MINUS :: productFollow

def otherFollow : List Terminal := .OTHER_OP :: sumFollow

def predicateFollow : List Terminal :=
  .NOT :: .BETWEEN :: .IN :: .LIKE :: .ILIKE :: .SIMILAR :: otherFollow

def comparisonFollow : List Terminal :=
  .EQ :: .NEQ :: .LTE :: .GTE :: .LT :: .GT :: predicateFollow

def testFollow : List Terminal := .IS :: .ISNULL :: .NOTNULL :: comparisonFollow

def andFollow : List Terminal := .AND :: testFollow

def exprFollow : List Terminal := .OR :: andFollow

/-! What must not follow so that all of a query or a statement is taken, clause by clause. -/

def orderFollow : List Terminal := .ASC :: .DESC :: .NULLS :: exprFollow

def aliasFollow : List Terminal := .AS :: identStarts

def tableFollow : List Terminal := .DOT :: .LPAR :: callFollow ++ aliasFollow

def sourceFollow : List Terminal :=
  [.LEFT, .RIGHT, .FULL, .CROSS, .INNER, .JOIN] ++ exprFollow ++ aliasFollow

def selectFollow : List Terminal := [.FROM, .WHERE, .GROUP, .HAVING, .COMMA] ++ sourceFollow

def bodyFollow : List Terminal := [.INTERSECT, .UNION, .EXCEPT] ++ selectFollow

def queryFollow : List Terminal :=
  [.ORDER, .ASC, .DESC, .LIMIT, .OFFSET, .FETCH, .ROW, .FOR, .NOWAIT, .SKIP] ++ bodyFollow

def statementFollow : List Terminal := [.ON, .RETURNING, .USING] ++ queryFollow

end Follow

section Groups

/-- One of the terminals is next. -/
def Meets (cs : List Terminal) (ls : List Lexeme) : Prop := ∃ t ∈ next ls, ∃ c ∈ cs, c.Matches t

def Group.Derived : Group → List Token → Prop
  | .query _, ts => Derives Rule.query ts
  | .either _ _, ts => Derives (seqs [LPAR, Rule.query, RPAR]) ts
  | .expr _, ts => Derives Rule.expr ts

/-- With fuel `m` the parser takes what stands between parentheses, and all of it that is shorter
than `b`. An expression may be the first of several. -/
structure ReadsGroups (m b : Nat) (p : Nat → Parser Group) : Prop where
  sound : ∀ ls g rest, p m ls = .ok (g, rest) →
    ∃ us, ls = us ++ rest ∧ Group.Derived g (us.map Lexeme.token)
  query : ∀ ls, ls.length < b → Derives Rule.query (ls.map Lexeme.token) →
    ∃ g, Accepts m p ls (Meets [RPAR]) g ∧ ∀ e, g ≠ .expr e
  expr : ∀ ls, ls.length < b → Derives Rule.expr (ls.map Lexeme.token) →
    ∃ g, Accepts m p ls (Meets [RPAR, COMMA]) g ∧ ∀ q, g ≠ .query q

theorem Group.Derived.query {g : Group} {ts : List Token} (h : Group.Derived g ts)
    (hg : ∀ e, g ≠ .expr e) : Derives Rule.query ts := by
  cases g with
  | query => exact h
  | either => exact derives_query_of_paren h
  | expr e => exact absurd rfl (hg e)

theorem Group.Derived.expr {g : Group} {ts : List Token} (h : Group.Derived g ts)
    (hg : ∀ q, g ≠ .query q) : Derives Rule.expr ts := by
  cases g with
  | expr => exact h
  | query q => exact absurd rfl (hg q)
  | either =>
    refine derives_expr_of_primary (.rule (derives_alts.mpr ⟨_, ?_, h⟩))
    simp

variable {α : Type} {m b : Nat} {p : Nat → Parser Group} {P : Group → Nat → Parser α} {y z : Rhs}
  {B : List Terminal}

/-- What is derived starts with one of the terminals. -/
def Starts (cs : List Terminal) (x : Rhs) : Prop := x.nullable = false ∧ x.first ⊆ cs

instance (cs : List Terminal) (x : Rhs) : Decidable (Starts cs x) :=
  inferInstanceAs (Decidable (_ ∧ _))

theorem Starts.meets {cs : List Terminal} {x : Rhs} (h : Starts cs x) {ls ls' rest : List Lexeme}
    (hx : Derives x (ls.map Lexeme.token)) (hls : Alike ls ls') : Meets cs (ls' ++ rest) := by
  cases ls with
  | nil => exact absurd (hx.nullable rfl) (by simp [h.1])
  | cons l ls =>
    obtain ⟨l', rfl, hl⟩ := hls.cons
    obtain ⟨c, hc, hmatch⟩ := hx.first l.token rfl
    exact ⟨l'.token, rfl, c, h.2 hc, hl ▸ hmatch⟩

theorem ReadsGroups.bind (h : ReadsGroups m b p) (hquery : ∀ q, Parses m b (P (.query q)) y B)
    (heither : ∀ q e, Parses m b (P (.either q e)) (alt y z) B)
    (hexpr : ∀ e, Parses m b (P (.expr e)) z B) (hy : Starts [RPAR] y)
    (hz : Starts [RPAR, COMMA] z) :
    Parses m b (fun n => p n >>= fun g => P g n) (alt (seq Rule.query y) (seq Rule.expr z)) B where
  sound ls a rest hp := by
    obtain ⟨g, ms, hg, ha⟩ := bind_ok hp
    obtain ⟨us, rfl, hus⟩ := h.sound ls g ms hg
    have joined {vs : List Lexeme} (hvs : Derives (alt (seq Rule.query y) (seq Rule.expr z)) (us.map Lexeme.token ++ vs.map Lexeme.token))
        (hms : ms = vs ++ rest) : ∃ ws, us ++ ms = ws ++ rest ∧
          Derives (alt (seq Rule.query y) (seq Rule.expr z)) (ws.map Lexeme.token) :=
      ⟨us ++ vs, by simp [hms], by simpa using hvs⟩
    cases g with
    | query q =>
      obtain ⟨vs, hms, hvs⟩ := (hquery q).sound ms a rest ha
      exact joined (.left (hus.seq hvs)) hms
    | expr e =>
      obtain ⟨vs, hms, hvs⟩ := (hexpr e).sound ms a rest ha
      exact joined (.right (hus.seq hvs)) hms
    | either q e =>
      obtain ⟨vs, hms, hvs⟩ := (heither q e).sound ms a rest ha
      cases hvs with
      | left hvs => exact joined (.left ((hus.query nofun).seq hvs)) hms
      | right hvs => exact joined (.right ((hus.expr nofun).seq hvs)) hms
  complete ls hls hx := by
    generalize hts : ls.map Lexeme.token = ts at hx
    cases hx with
    | left hx =>
      cases hx with
      | seq hx hy' =>
        obtain ⟨us, vs, rfl, rfl, rfl⟩ := List.map_eq_append_iff.mp hts
        rw [List.length_append] at hls
        obtain ⟨g, hg, hne⟩ := h.query us (by omega) hx
        obtain ⟨a, ha⟩ : ∃ a, Accepts m (P g) vs (Clear B) a := by
          cases g with
          | query q => exact (hquery q).complete vs (by omega) hy'
          | either q e => exact (heither q e).complete vs (by omega) (.left hy')
          | expr e => exact absurd rfl (hne e)
        exact ⟨a, hg.bind ha fun _ _ hvs _ => hy.meets hy' hvs⟩
    | right hx =>
      cases hx with
      | seq hx hz' =>
        obtain ⟨us, vs, rfl, rfl, rfl⟩ := List.map_eq_append_iff.mp hts
        rw [List.length_append] at hls
        obtain ⟨g, hg, hne⟩ := h.expr us (by omega) hx
        obtain ⟨a, ha⟩ : ∃ a, Accepts m (P g) vs (Clear B) a := by
          cases g with
          | expr e => exact (hexpr e).complete vs (by omega) hz'
          | either q e => exact (heither q e).complete vs (by omega) (.right hz')
          | query q => exact absurd rfl (hne q)
        exact ⟨a, hg.bind ha fun _ _ hvs _ => hz.meets hz' hvs⟩

end Groups

/-- What the parsers of what is nested take, as far as it is short enough. -/
structure Inner (m : Nat) : Prop where
  expr : Parses m m (fun n => (nested n).expr) Rule.expr exprFollow
  query : Parses m m (fun n => (nested n).query) Rule.query queryFollow
  statement : Parses m m (fun n => (nested n).statement) cteBody statementFollow
  rest : ∀ e, Parses m m (fun n => (nested n).rest e) exprTail exprFollow
  group : ReadsGroups m m (fun n => (nested n).group)

variable {m b : Nat} {A B : List Terminal} (h : Inner m)

include h

theorem parses_exprs : Parses m m (fun n => exprs (nested n)) Rule.exprList (.COMMA :: exprFollow) :=
  .rule (.commas h.expr (by decide) (List.Subset.refl _))

theorem parses_exprList :
    Parses m m (fun n => exprList (nested n)) Rule.exprList (.COMMA :: exprFollow) :=
  (parses_exprs h).map

theorem parses_orderItem : Parses m m (fun n => orderItem (nested n)) Rule.orderItem orderFollow := by
  have hnulls (e : Expr) (descending : Bool) : Parses m m (fun _ => do
      if ← takeKeyword "nulls" then
        if ← takeKeyword "first" then return Tree.orderItem e descending (some .first)
        keyword "last"
        return Tree.orderItem e descending (some .last)
      return Tree.orderItem e descending none)
      (alt (seq NULLS (alt (seq FIRST empty) (seq LAST empty))) empty) orderFollow :=
    .ifWord (Nat.le_succ m) rfl (.ifWord (Nat.le_succ m) rfl .pure
      (.keyword (Nat.le_succ m) rfl .pure) (by decide)) .pure (by decide)
  have hitem : Parses m m (fun n => orderItem (nested n)) (seq Rule.expr (alt (seq DESC _)
      (seq (opt ASC) _))) orderFollow :=
    .seq h.expr (fun e => .branch (Nat.le_succ m) (tests_keyword rfl) (hnulls e true)
      (.maybeKeyword (f := fun _ _ => _) rfl (fun _ => hnulls e false) (by decide)) (by decide)) (by decide)
  refine (hitem.of_lang ?_).rule
  simp [rhs, lang_rule orderDirection, lang_rule nullsOrder, mul_add, add_mul]
  ac_rfl

theorem parses_orderClause : Parses m (m + 1) (fun n => orderClause (nested n))
    (opt Rule.orderClause) (.ORDER :: .COMMA :: orderFollow) := by
  have h : Parses m (m + 1) (fun n => orderClause (nested n))
      (opt (seq ORDER (seq BY (Rhs.list Rule.orderItem)))) (.ORDER :: .COMMA :: orderFollow) :=
    .optional (Nat.le_refl _) rfl (.keyword (Nat.le_succ m) rfl
      ((Parses.commas (parses_orderItem h) (by decide) (List.Subset.refl _)).before (by decide)))
      (by decide)
  exact h.of_lang (by simp [lang_rule Rule.orderClause, rhs])

def frameEnd : Rhs := alt PRECEDING FOLLOWING

omit h in
theorem parses_frameEnd : Parses m b (fun _ => do
    if !(← takeKeyword "preceding") then keyword "following") frameEnd [] := by
  have hend : Parses m b (fun _ => do
      if !(← takeKeyword "preceding") then keyword "following")
      (alt (seq PRECEDING empty) FOLLOWING) [] :=
    .unlessWord (Nat.le_succ b) rfl .pure (.lastKeyword rfl) (by decide)
  exact hend.of_lang (by simp [frameEnd])

theorem parses_frameBound : Parses m m (fun n => frameBound (nested n)) Rule.frameBound [] := by
  have hbound : Parses m m (fun n => frameBound (nested n))
      (alt (seq UNBOUNDED frameEnd) (alt (seq CURRENT ROW) (seq Rule.expr frameEnd))) [] :=
    .ifWord (Nat.le_succ m) rfl parses_frameEnd (.ifWord (Nat.le_succ m) rfl (.lastKeyword rfl)
      (.seq h.expr (fun _ => parses_frameEnd) (by decide)) (by decide)) (by decide)
  exact (hbound.of_lang (by simp [frameEnd, rhs, mul_add, add_assoc])).rule

theorem parses_frame : Parses m m (fun n => frame (nested n)) frameClause [] := by
  have hextent : Parses m m (fun n => do
      if ← takeKeyword "between" then
        frameBound (nested n)
        keyword "and"
        frameBound (nested n)
      else frameBound (nested n))
      (alt (seq BETWEEN (seq Rule.frameBound (seq AND Rule.frameBound))) Rule.frameBound) [] :=
    .ifWord (Nat.le_succ m) rfl (.seq (parses_frameBound h) (fun _ => .keyword (Nat.le_succ m) rfl
      (parses_frameBound h)) (by decide)) (parses_frameBound h) (by decide)
  have hframe : Parses m m (fun n => frame (nested n)) (alt (seq ROWS _) (seq RANGE _)) [] :=
    .unlessWord (Nat.le_succ m) rfl hextent (.keyword (Nat.le_succ m) rfl hextent) (by decide)
  exact (hframe.of_lang (by simp [rhs, lang_rule frameExtent, add_mul, add_comm])).rule

omit h in
theorem spots_frame :
    Spots (fun t => isKeyword "rows" t || isKeyword "range" t) [.ROWS, .RANGE] :=
  .or (spots_keyword rfl) (spots_keyword rfl)

theorem parses_frameText : Parses m m (fun n => frameText (nested n)) (opt frameClause) [.ROWS, .RANGE] :=
  .ifNext spots_frame (((parses_frame h).spanned.map).before (by decide)) .pure rfl (by decide)
    (by decide)

def windowFollow : List Terminal := [.PARTITION, .ORDER, .ROWS, .RANGE, .COMMA] ++ orderFollow

theorem parses_windowSpec :
    Parses m m (fun n => windowSpec (nested n)) Rule.windowSpec windowFollow := by
  have hpartition : Parses m m (fun n => optional "partition" do
      keyword "by"
      exprs (nested n)) (opt (seq PARTITION (seq BY Rule.exprList))) (.PARTITION :: .COMMA :: exprFollow) :=
    .optional (Nat.le_succ m) rfl (.keyword (Nat.le_succ m) rfl ((parses_exprs h).before (by decide))) (by decide)
  have hspec : Parses m m (fun n => windowSpec (nested n)) (seq _ (seq _ _)) windowFollow :=
    .seq hpartition (fun _ => .seq ((parses_orderClause h).shorter (Nat.le_succ m)) (fun _ =>
      ((parses_frameText h).map.before (by decide))) (by decide)) (by decide)
  exact (hspec.of_lang (by simp [rhs, lang_rule partitionClause])).rule

theorem parses_window : Parses m (m + 1) (fun n => window (nested n))
    (alt (seqs [LPAR, Rule.windowSpec, RPAR]) ident) [] :=
  .ifNext (spots_symbol (c := .LPAR) rfl) (.parens (Nat.le_refl _) (parses_windowSpec h) (by decide)) parses_name.map
    rfl (by decide) (by decide)

theorem parses_filter : Parses m (m + 1) (fun n => filter (nested n))
    (seqs [LPAR, seq WHERE Rule.expr, RPAR]) [] :=
  .parens (Nat.le_refl _) (.keyword (Nat.le_succ m) rfl h.expr) (by decide)

theorem parses_argumentsFrom (marks : Arguments) (first : Expr) :
    Parses m m (fun n => argumentsFrom (nested n) marks first)
      (seq (star (seqs [COMMA, Rule.expr])) (opt aggOrder)) (.ORDER :: .COMMA :: orderFollow) := by
  have harguments : Parses m m (fun n => argumentsFrom (nested n) marks first)
      (seq (star (seqs [COMMA, Rule.expr])) (opt Rule.orderClause)) (.ORDER :: .COMMA :: orderFollow) :=
    .seq (.more rfl h.expr (by decide) (List.Subset.refl _) [first])
      (fun _ => ((parses_orderClause h).shorter (Nat.le_succ m)).map) (by decide)
  exact harguments.of_lang (by simp [lang_rule aggOrder, rhs])

theorem parses_closeGroup (e : Expr) :
    Parses m (m + 1) (fun n => closeGroup (nested n) e) closeTail [.DOT] := by
  have hclose : Parses m (m + 1) (fun n => closeGroup (nested n) e)
      (alt (seq COMMA (seq Rule.exprList (seq RPAR empty)))
        (seq RPAR (alt (seq DOT ident) empty))) [.DOT] :=
    .ifSign (Nat.le_refl _) rfl (.seq (parses_exprList h) (fun _ => .symbol (Nat.le_succ m) rfl .pure)
      (by decide)) (.symbol (Nat.le_refl _) rfl (.ifSign (Nat.le_succ m) rfl (parses_name.map.before (by decide)) .pure (by decide)))
      (by decide)
  exact hclose.of_lang (by simp [closeTail, mul_add])

def argumentsTail : Rhs := seq (star (seqs [COMMA, Rule.expr])) (opt aggOrder)

def argumentsFollow : List Terminal := .ORDER :: .COMMA :: orderFollow

omit h in
theorem closing_of_rpar {x : Rhs} {ts : List Token} (hx : Derives (seq RPAR x) ts) :
    Derives (seq closeTail x) ts := by
  cases hx with
  | seq hclose hx => exact .seq (.right (.right (.left hclose))) hx

theorem parses_argumentsBehind (e : Expr) : Parses m m
    (fun n => do argumentsFrom (nested n) .all (← (nested n).rest e)) (seq exprTail argumentsTail)
    argumentsFollow :=
  .seq (h.rest e) (fun first => parses_argumentsFrom h .all first) (by decide)

theorem parses_allArguments : Parses m (m + 1) (fun n => allArguments (nested n))
    (seq LPAR (seq groupTail (seq exprTail argumentsTail))) argumentsFollow := by
  have hclosed (e : Expr) := (parses_closeGroup h e).shorter (Nat.le_succ m)
  have harguments : Parses m (m + 1) (fun n => allArguments (nested n))
      (seq LPAR (alt (seq Rule.query (seq RPAR (seq exprTail argumentsTail)))
        (seq Rule.expr (seq closeTail (seq exprTail argumentsTail))))) argumentsFollow := by
    refine .symbol (Nat.le_refl _) rfl (h.group.bind (fun q => ?_) (fun q e => ?_) (fun e => ?_)
      (by decide) (by decide))
    · exact .symbol (Nat.le_succ m) rfl (parses_argumentsBehind h (.quantifiedQuery .all q))
    · refine Parses.of_lang (.seq (hclosed e) (y := seq exprTail argumentsTail) (fun e => ?_)
        (by decide)) (lang_alt_of_imp fun _ => closing_of_rpar).symm
      cases e <;> exact parses_argumentsBehind h _
    · refine .seq (hclosed e) (fun e => ?_) (by decide)
      cases e <;> exact parses_argumentsBehind h _
  exact harguments.of_lang (by simp [groupTail, add_mul, mul_assoc])

/-- What stands between the parentheses of a call, unless there is nothing. -/
def argumentForms : Rhs := alts [
  STAR, seq DISTINCT (seq Rule.expr argumentsTail), seq ALL (seq Rule.expr argumentsTail),
  seq Rule.expr argumentsTail]

/-- What follows `all` at the start of the arguments. -/
theorem parses_allRest : Parses m m (fun n => do
    if ← atSymbol "(" then return ← allArguments (nested n)
    return ← argumentsFrom (nested n) .all (← (nested n).expr))
    (seq Rule.expr argumentsTail) argumentsFollow := by
  have hrest : Parses m m (fun n => do
      if ← atSymbol "(" then return ← allArguments (nested n)
      return ← argumentsFrom (nested n) .all (← (nested n).expr))
      (alt (seq LPAR (seq groupTail (seq exprTail argumentsTail))) (seq Rule.expr argumentsTail))
      argumentsFollow := by
    refine .ifNext_of (spots_symbol (c := .LPAR) rfl)
      ((parses_allArguments h).shorter (Nat.le_succ m))
      (.seq h.expr (fun e => parses_argumentsFrom h .all e) (by decide)) rfl (by decide) ?_ (by decide)
    intro c hc t ts ht hexpr
    obtain rfl := List.mem_singleton.mp hc
    exact .seq (.token ht) ((derives_expr_seq_iff ht rfl (by decide)).mp hexpr)
  refine hrest.of_lang (lang_alt_of_imp fun ts hparen => ?_)
  cases hparen with
  | seq ht htail =>
    cases ht with
    | token ht => exact (derives_expr_seq_iff ht rfl (by decide)).mpr htail

theorem parses_argumentForms : Parses m m (fun n => do
    if ← takeSymbol "*" then return ⟨.star, [], false⟩
    if ← takeKeyword "distinct" then
      return ← argumentsFrom (nested n) .distinct (← (nested n).expr)
    if ← takeKeyword "all" then
      if ← atSymbol "(" then return ← allArguments (nested n)
      return ← argumentsFrom (nested n) .all (← (nested n).expr)
    argumentsFrom (nested n) .all (← (nested n).expr)) argumentForms argumentsFollow := by
  have hfrom (marks : Arguments) : Parses m m
      (fun n => do argumentsFrom (nested n) marks (← (nested n).expr))
      (seq Rule.expr argumentsTail) argumentsFollow :=
    .seq h.expr (fun e => parses_argumentsFrom h marks e) (by decide)
  have hforms : Parses m m (fun n => do
      if ← takeSymbol "*" then return ⟨.star, [], false⟩
      if ← takeKeyword "distinct" then
        return ← argumentsFrom (nested n) .distinct (← (nested n).expr)
      if ← takeKeyword "all" then
        if ← atSymbol "(" then return ← allArguments (nested n)
        return ← argumentsFrom (nested n) .all (← (nested n).expr)
      argumentsFrom (nested n) .all (← (nested n).expr)) (alt (seq STAR empty)
        (alt (seq DISTINCT (seq Rule.expr argumentsTail))
          (alt (seq ALL (seq Rule.expr argumentsTail)) (seq Rule.expr argumentsTail))))
      argumentsFollow := by
    refine .ifSign (Nat.le_succ m) rfl .pure (.ifWord (Nat.le_succ m) rfl (hfrom .distinct)
      (.branch_of (f := fun t n => if t = true then _ else _) (Nat.le_succ m) (tests_keyword rfl) (parses_allRest h) (hfrom .all) ?_ ?_) (by decide)) (by decide)
    · intro t ts ht hexpr
      obtain ⟨us, vs, rfl, hus, hvs⟩ := hexpr.of_seq_cons rfl
      exact .seq (derives_expr_of_all ht hus) hvs
    · exact nofun
  exact hforms.of_lang (by simp [argumentForms])

end SqlTree.Syntax.Parser

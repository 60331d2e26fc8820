import SqlTree.Proofs.Regular.Expression
import SqlTree.Proofs.Regular.TypeWords

/-!
The queries, statements and commands that the parsers yield, and what holds of every command of a
text.
-/

namespace SqlTree.Syntax

namespace Parser.Yields

variable {N : String → Bool} {n : Nested} (hn : n.Lawful N)

include hn

section Queries

omit hn in
theorem starredPath : Passes N starredPath :=
  andThen name fun _ => iterate (fun _ _ => andThen (symbol ".") fun _ => andThen (takeSymbol "*")
    fun _ => ite (pure nofun) (andThen name fun _ => pure fun _ _ => trivial)) trivial

theorem selectItem : Yields N (selectItem n) (Regular N) := by
  refine andThen (takeSymbol "*") fun _ => ite (pure rfl) <| andThen get fun _ => ite ?_ ?_
  · exact andThen (spanned starredPath).passes fun _ => pure rfl
  · refine bind (expression hn) fun e he => andThen aliasName fun o => ?_
    split
    · exact pure (node rfl he)
    · exact pure (node rfl he)

theorem selectItems : Yields N (selectItems n) fun ts => ∀ t ∈ ts, Regular N t :=
  commas (selectItem hn)

theorem selectItems_ne_nil : Yields N (Parser.selectItems n) (· ≠ []) :=
  commas_ne_nil (selectItem hn).passes

theorem distinct : Yields N (distinct n) fun o => ∀ t ∈ o, Regular N t :=
  andThen (takeKeyword "distinct") fun _ => ite
    (andThen (takeKeyword "on") fun _ => ite
      (bind (parens (commas hn.expr)) fun _ h => pureSome (node rfl (regular_ofList.mpr h)))
      (pureSome rfl))
    (andThen (takeKeyword "all") fun _ => pure nofun)

theorem parenQuery : Yields N (parenQuery n) (Regular N) := parens hn.query

theorem namedTable : Yields N (namedTable n) (Regular N) :=
  callOrPath hn (fun _ he => andThen aliasName fun _ => pure (node rfl he)) fun _ =>
    andThen aliasName fun _ => pure rfl

theorem lateralTable : Yields N (lateralTable n) (Regular N) :=
  andThen (atSymbol "(") fun _ => ite
    (bind (parenQuery hn) fun _ h => andThen aliasName fun _ => pure (node rfl h))
    (bind (call hn) fun _ h => andThen aliasName fun _ => pure (node rfl h))

theorem table : Yields N (table n) (Regular N) :=
  andThen (atSymbol "(") fun _ => ite
    (bind (parenQuery hn) fun _ h => andThen aliasName fun _ => pure (node rfl h))
    (andThen (takeKeyword "lateral") fun _ => ite (lateralTable hn) (namedTable hn))

theorem joinTest : Yields N (joinTest n) (Regular N) :=
  andThen (takeKeyword "on") fun _ => ite (bind hn.expr fun _ h => pure (node rfl h)) <|
    andThen (keyword "using") fun _ => andThen nameList fun _ => pure rfl

omit hn in
theorem regular_join {kind : JoinKind} (hkind : kind ≠ .cross) {t : Tree .table}
    {test : Tree .joinTest} (ht : Regular N t) (htest : Regular N test) :
    Regular N (.join kind t (.present test)) :=
  node (node (by simpa [isRegular, Tree.isPresent] using hkind) ht) htest

theorem outerJoin {kind : JoinKind} (hkind : kind ≠ .cross) : Yields N (outerJoin n kind) (Regular N) :=
  andThen (takeKeyword "outer") fun _ => andThen (keyword "join") fun _ =>
    bind (table hn) fun _ ht => bind (joinTest hn) fun _ htest =>
      pure (regular_join hkind ht htest)

theorem join : Yields N (join n) fun o => ∀ t ∈ o, Regular N t := by
  have houter : ∀ kind, kind ≠ .cross → Yields N (do return some (← Parser.outerJoin n kind))
      fun o => ∀ t ∈ o, Regular N t := fun _ hkind => bind (outerJoin hn hkind) fun _ h => pureSome h
  refine andThen (takeKeyword "left") fun _ => ite (houter _ nofun) <|
    andThen (takeKeyword "right") fun _ => ite (houter _ nofun) <|
    andThen (takeKeyword "full") fun _ => ite (houter _ nofun) <|
    andThen (takeKeyword "cross") fun _ => ite ?_ <|
    andThen (takeKeyword "inner") fun _ => andThen (atKeyword "join") fun _ => ite ?_ (pure nofun)
  · exact andThen (keyword "join") fun _ => bind (table hn) fun _ ht =>
      pureSome (node (node rfl ht) rfl)
  · exact andThen (keyword "join") fun _ => bind (table hn) fun _ ht =>
      bind (joinTest hn) fun _ htest => pureSome <|
        regular_join (show JoinKind.inner ≠ .cross by decide) ht htest

theorem source : Yields N (source n) (Regular N) := by
  refine bind (table hn) fun t ht => bind (P := fun js => ∀ j ∈ js, Regular N j) ?_ fun js hjs =>
    pure (node (node rfl ht) (regular_ofList.mpr hjs))
  refine iterate (fun done hdone => bind (join hn) fun o ho => ?_) nofun
  split
  · exact pureMore hdone (ho _ rfl)
  · exact pure nofun

theorem fromClause : Yields N (fromClause n) fun o => ∀ ts ∈ o, ∀ t ∈ ts, Regular N t :=
  optional "from" (commas (source hn))

theorem whereClause : Yields N (whereClause n) fun o => ∀ e ∈ o, Regular N e :=
  optional "where" hn.expr

omit hn in
theorem isCons_ofList {k : Kind} {ts : List (Tree k)} (h : ts ≠ []) : (Tree.ofList ts).isCons := by
  cases ts with
  | nil => exact absurd rfl h
  | cons t ts => rfl

theorem select : Yields N (select n) (Regular N) :=
  bind (distinct hn) fun _ hd => bind ((selectItems hn).and (selectItems_ne_nil hn)) fun _ hi =>
    bind (fromClause hn) fun _ hs => bind (whereClause hn) fun _ hc =>
      bind (optional "group" <| andThen (keyword "by") fun _ => exprs hn) fun _ hg =>
        bind (optional "having" hn.expr) fun _ hh => pure <|
          node (node (node (node (node (node (isCons_ofList hi.2) (regular_ofOption.mpr hd))
            (regular_ofList.mpr hi.1)) (regular_getD hs)) (regular_ofOption.mpr hc)) (regular_getD hg))
            (regular_ofOption.mpr hh)

theorem bodyPrimary : Yields N (bodyPrimary n) (Regular N) :=
  andThen (takeKeyword "select") fun _ => ite (bind (select hn) fun _ h => pure (node rfl h))
    (bind (parenQuery hn) fun _ h => pure (node rfl h))

theorem intersectionFrom {b : Tree .body} (h : Regular N b) :
    Yields N (intersectionFrom n b) (Regular N) :=
  iterate (fun _ hleft => andThen (takeKeyword "intersect") fun _ => ite
    (bind (bodyPrimary hn) fun _ hr => pureSome (node (node rfl hleft) hr)) (pure nofun)) h

theorem bodyTerm : Yields N (bodyTerm n) (Regular N) :=
  bind (bodyPrimary hn) fun _ h => intersectionFrom hn h

omit hn in
theorem setOperator : Passes N setOperator :=
  andThen (takeKeyword "union") fun _ => ite
    (andThen (takeKeyword "all") fun _ => ite (pure trivial) <|
      andThen (takeKeyword "distinct") fun _ => pure trivial) <|
    andThen (takeKeyword "except") fun _ => ite
      (andThen (takeKeyword "all") fun _ => ite (pure trivial) (pure trivial)) (pure trivial)

theorem bodyFrom {b : Tree .body} (h : Regular N b) : Yields N (bodyFrom n b) (Regular N) := by
  refine bind (intersectionFrom hn h) fun b hb => iterate (fun left hleft => ?_) hb
  refine andThen setOperator fun o => ?_
  split
  · exact bind (bodyTerm hn) fun _ hr => pureSome (node (node rfl hleft) hr)
  · exact pure nofun

theorem limitRest : Yields N (limitRest n) (Regular N) :=
  andThen (atKeyword "all") fun _ => andThen peekSecond fun _ =>
    ite (andThen skip fun _ => pure rfl) (bind hn.expr fun _ h => pure (node rfl h))

theorem offsetRest : Yields N (offsetRest n) (Regular N) :=
  bind hn.expr fun _ h => andThen (takeKeyword "row") fun _ =>
    ite (andThen (takeKeyword "rows") fun _ => pure (node rfl h)) (pure (node rfl h))

theorem fetchRest : Yields N (fetchRest n) (Regular N) := by
  have hrest : ∀ number : Option Expr, (∀ e ∈ number, Regular N e) → Yields N (do
      if !(← Parser.takeKeyword "row") then Parser.keyword "rows"
      Parser.keyword "only"
      return Tree.fetch (Tree.ofOption number)) (Regular N) := fun number h => by
    have hfetch : Regular N (Tree.fetch (Tree.ofOption number)) :=
      node rfl (regular_ofOption.mpr h)
    exact andThen (takeKeyword "row") fun _ => ite
      (andThen (keyword "rows") fun _ => andThen (keyword "only") fun _ => pure hfetch)
      (andThen (keyword "only") fun _ => pure hfetch)
  have hnumber : Yields N (some <$> n.expr) fun o => ∀ e ∈ o, Regular N e :=
    bind hn.expr fun _ h => pureSome h
  refine andThen (takeKeyword "first") fun _ => ite (andThen (keyword "next") fun _ => ?_) ?_
  all_goals
    exact andThen peek.passes fun _ => andThen peekSecond fun _ =>
      ite (bind (pure nofun) hrest) (bind hnumber hrest)

theorem limits : Yields N (limits n) fun ts => ∀ t ∈ ts, Regular N t := by
  have hrest : ∀ {word : String} {p : Parser (Tree .limit)}, Yields N p (Regular N) →
      Yields N (do return (← Parser.optional word p).toList) fun ts => ∀ t ∈ ts, Regular N t :=
    fun hp => bind (optional _ hp) fun _ ho => pure (by simpa using ho)
  have hpair : ∀ {word : String} {p : Parser (Tree .limit)} {t}, Regular N t → Yields N p (Regular N) →
      Yields N (do return t :: (← Parser.optional word p).toList) fun ts => ∀ t ∈ ts, Regular N t :=
    fun ht hp => bind (optional _ hp) fun _ ho =>
      pure (List.forall_mem_cons.mpr ⟨ht, by simpa using ho⟩)
  refine andThen (takeKeyword "limit") fun _ => ite
    (bind (limitRest hn) fun _ ht => hpair ht (offsetRest hn)) <|
      andThen (takeKeyword "offset") fun _ => ite ?_ (hrest (fetchRest hn))
  exact bind (offsetRest hn) fun _ ht => andThen (takeKeyword "limit") fun _ => ite
    (bind (limitRest hn) fun _ hl => pure (by simpa using ⟨ht, hl⟩)) (hpair ht (fetchRest hn))

omit hn in
theorem lock : Passes N lock := by
  have hstrength : Passes N lockStrength :=
    andThen (takeKeyword "update") fun _ => ite (pure trivial) <|
    andThen (takeKeyword "share") fun _ => ite (pure trivial) <|
    andThen (takeKeyword "no") fun _ => ite (andThen (keywords _) fun _ => pure trivial) <|
    andThen (keywords _) fun _ => pure trivial
  have hwait : Passes N lockWait :=
    andThen (takeKeyword "nowait") fun _ => ite (pure trivial) <|
    andThen (takeKeyword "skip") fun _ => ite (andThen (keyword "locked") fun _ => pure trivial)
      (pure trivial)
  exact (optional "for" (andThen hstrength fun _ => andThen hwait fun _ =>
    pure (P := fun _ => True) trivial)).passes

theorem cte : Yields N (cte n) (Regular N) := by
  have hbody : ∀ name columns, Yields N (do
      Parser.keyword "as"
      return Tree.cte name columns (← Parser.parens n.statement)) (Regular N) := fun _ _ =>
    andThen (keyword "as") fun _ => bind (parens hn.statement) fun _ h => pure (node rfl h)
  exact andThen name fun _ => andThen (atSymbol "(") fun _ =>
    ite (andThen nameList fun _ => hbody _ _) (hbody _ _)

theorem ctes : Yields N (ctes n) fun o => ∀ t ∈ o, Regular N t :=
  optional "with" <| andThen (takeKeyword "recursive") fun _ => bind (commas (cte hn)) fun _ h =>
    pure (node rfl (regular_ofList.mpr h))

theorem queryFrom {withs : Option (Tree .ctes)} {b : Tree .body} (hwiths : ∀ t ∈ withs, Regular N t)
    (hb : Regular N b) : Yields N (queryFrom n withs b) (Regular N) :=
  bind (bodyFrom hn hb) fun _ hbody => bind (orderClause hn) fun _ ho => bind (limits hn) fun _ hl =>
    andThen lock fun _ => pure <|
      node (node (node (node rfl (regular_ofOption.mpr hwiths)) hbody) (regular_getD ho))
        (regular_ofList.mpr hl)

theorem queryRest {withs : Option (Tree .ctes)} (hwiths : ∀ t ∈ withs, Regular N t) :
    Yields N (queryRest n withs) (Regular N) :=
  bind (bodyPrimary hn) fun _ hb => queryFrom hn hwiths hb

theorem query : Yields N (query n) (Regular N) := bind (ctes hn) fun _ h => queryRest hn h

theorem groupFrom {q : Query} {e : Expr} (hq : Regular N q) (he : Regular N e) :
    Yields N (groupFrom n q e) (Group.Regular N) := by
  have hnested : Regular N (.nested q) := node rfl hq
  have hexpr : Yields N (do return Group.expr (← Parser.expressionFrom n e)) (Group.Regular N) :=
    bind (expressionFrom hn he) fun _ h => pure h
  refine andThen peek.passes fun t => ?_
  split
  · exact pure ⟨node (node (node (node rfl rfl) hnested) rfl) rfl, he⟩
  · exact pure ⟨node (node (node (node rfl rfl) hnested) rfl) rfl, he⟩
  · exact ite (bind (queryFrom hn nofun hnested) fun _ h => pure h) hexpr
  · exact hexpr

theorem group : Yields N (group n) (Group.Regular N) := by
  have hrest : ∀ e, Regular N e → Yields N (do return Group.expr (← Parser.expressionFrom n e))
      (Group.Regular N) := fun e he => bind (expressionFrom hn he) fun _ h => pure h
  refine andThen peek.passes fun _ => ite (bind (query hn) fun _ h => pure h) <|
    andThen (takeSymbol "(") fun _ => ite (bind hn.group fun g hg => ?_)
      (bind (expression hn) fun _ h => pure h)
  cases g with
  | query q => exact andThen (symbol ")") fun _ => groupFrom hn hg (node rfl hg)
  | either q e =>
    refine bind (closeGroup hn hg.2) fun e he => ?_
    split
    · exact groupFrom hn hg.1 he
    · exact hrest _ he
  | expr e => exact bind (closeGroup hn hg) hrest

end Queries

section Changes

theorem assignment : Yields N (assignment n) (Regular N) :=
  andThen name fun _ => andThen (symbol "=") fun _ => bind hn.expr fun _ h => pure (node rfl h)

theorem assignments : Yields N (assignments n) (Regular N) :=
  bind (commas (assignment hn)) fun _ h => pure (regular_ofList.mpr h)

theorem row : Yields N (row n) (Regular N) :=
  bind (parens (exprs hn)) fun _ h => pure (node rfl (regular_ofList.mpr h))

theorem insertSource : Yields N (insertSource n) (Regular N) :=
  andThen (takeKeyword "values") fun _ => ite
    (bind (commas (row hn)) fun _ h => pure (node rfl (regular_ofList.mpr h))) <|
  andThen (takeKeyword "default") fun _ => ite (andThen (keyword "values") fun _ => pure rfl) <|
  bind (query hn) fun _ h => pure (node rfl h)

omit hn in
theorem insertColumns : Passes N insertColumns :=
  andThen (atSymbol "(") fun _ => andThen peekSecond fun _ => ite nameList (pure trivial)

theorem conflictTarget : Yields N (conflictTarget n) fun o => ∀ t ∈ o, Regular N t :=
  andThen (atSymbol "(") fun _ => ite
    (bind (parens (exprs hn)) fun _ h => pureSome (node rfl (regular_ofList.mpr h))) <|
  andThen (takeKeyword "on") fun _ => ite
    (andThen (keyword "constraint") fun _ => andThen name fun _ => pureSome rfl) (pure nofun)

theorem conflictAction : Yields N (conflictAction n) (Regular N) :=
  andThen (keyword "do") fun _ => andThen (takeKeyword "nothing") fun _ => ite (pure rfl) <|
    andThen (keywords _) fun _ => bind (assignments hn) fun _ hf => bind (whereClause hn) fun _ hc =>
      pure (node (node rfl hf) (regular_ofOption.mpr hc))

theorem conflict : Yields N (conflict n) fun o => ∀ t ∈ o, Regular N t :=
  optional "on" <| andThen (keyword "conflict") fun _ => bind (conflictTarget hn) fun _ ht =>
    bind (conflictAction hn) fun _ ha => pure (node (node rfl (regular_ofOption.mpr ht)) ha)

theorem returning : Yields N (returning n) (Regular N) :=
  bind (optional "returning" (selectItems hn)) fun _ h => pure (regular_getD h)

variable {withs : Option (Tree .ctes)} (hwiths : ∀ t ∈ withs, Regular N t)

include hwiths

theorem insertRest : Yields N (insertRest n withs) (Regular N) :=
  andThen (keyword "into") fun _ => andThen path fun _ =>
    andThen (optional "as" name).passes fun _ => andThen insertColumns fun _ =>
      bind (insertSource hn) fun _ hs => bind (conflict hn) fun _ hc => bind (returning hn) fun _ hr =>
        pure (node (node (node (node rfl (regular_ofOption.mpr hwiths)) hs)
          (regular_ofOption.mpr hc)) hr)

theorem updateRest : Yields N (updateRest n withs) (Regular N) :=
  andThen path fun _ => andThen aliasName fun _ => andThen (keyword "set") fun _ =>
    bind (assignments hn) fun _ hf => bind (fromClause hn) fun _ hs => bind (whereClause hn) fun _ hc =>
      bind (returning hn) fun _ hr =>
        pure (node (node (node (node (node rfl (regular_ofOption.mpr hwiths)) hf) (regular_getD hs))
          (regular_ofOption.mpr hc)) hr)

theorem deleteRest : Yields N (deleteRest n withs) (Regular N) :=
  andThen (keyword "from") fun _ => andThen path fun _ => andThen aliasName fun _ =>
    bind (optional "using" (commas (table hn))) fun _ ht => bind (whereClause hn) fun _ hc =>
      bind (returning hn) fun _ hr =>
        pure (node (node (node (node rfl (regular_ofOption.mpr hwiths)) (regular_getD ht))
          (regular_ofOption.mpr hc)) hr)

omit hwiths

theorem statement : Yields N (statement n) (Regular N) :=
  bind (ctes hn) fun _ hw =>
    andThen (takeKeyword "insert") fun _ => ite (insertRest hn hw) <|
    andThen (takeKeyword "update") fun _ => ite (updateRest hn hw) <|
    andThen (takeKeyword "delete") fun _ => ite (deleteRest hn hw) <|
    bind (queryRest hn hw) fun _ h => pure (node rfl h)

end Changes

section Definitions

omit hn

theorem columnConstraint : Passes N columnConstraint :=
  andThen (takeKeyword "primary") fun _ => ite (andThen (keyword "key") fun _ => pure trivial) <|
  andThen (takeKeyword "not") fun _ => ite (andThen (keyword "null") fun _ => pure trivial) <|
  andThen (takeKeyword "null") fun _ => ite (pure trivial) <|
  andThen (takeKeyword "unique") fun _ => ite (pure trivial) (pure trivial)

theorem columnDef : Passes N columnDef := by
  refine andThen name fun _ => andThen (typeName false) fun _ =>
    andThen (iterate (P := fun _ => True) (fun done _ => andThen columnConstraint fun o => ?_) trivial)
      fun _ => pure trivial
  split
  · exact pureSome trivial
  · exact pure nofun

theorem createTable : Yields N createTable (Command.Regular N) := by
  refine andThen (keyword "table") fun _ => andThen (takeKeyword "if") fun _ =>
    ite (andThen (keywords _) fun _ => ?_) ?_
  all_goals
    exact andThen path fun _ => andThen (parens (commas columnDef)).passes fun _ => pure trivial

theorem dropTable : Yields N dropTable (Command.Regular N) := by
  refine andThen (keyword "table") fun _ => andThen (takeKeyword "if") fun _ =>
    ite (andThen (keyword _) fun _ => ?_) ?_
  all_goals exact andThen (commas path).passes fun _ => pure trivial

theorem truncate : Yields N truncate (Command.Regular N) :=
  andThen (takeKeyword "table") fun _ => andThen (commas path).passes fun _ => pure trivial

theorem alterAction : Passes N alterAction :=
  andThen (takeKeyword "add") fun _ => ite
    (andThen (takeKeyword "column") fun _ => andThen columnDef fun _ => pure trivial)
    (andThen (keyword "drop") fun _ => andThen (takeKeyword "column") fun _ => andThen name fun _ =>
      pure trivial)

theorem alterTable : Yields N alterTable (Command.Regular N) :=
  andThen (keyword "table") fun _ => andThen path fun _ => andThen (commas alterAction).passes fun _ =>
    pure trivial

end Definitions

section Commands

theorem command : Yields N (command n) (Command.Regular N) :=
  andThen (takeKeyword "create") fun _ => ite createTable <|
  andThen (takeKeyword "drop") fun _ => ite dropTable <|
  andThen (takeKeyword "truncate") fun _ => ite truncate <|
  andThen (takeKeyword "alter") fun _ => ite alterTable <|
  bind (statement hn) fun _ h => pure h

omit hn in
theorem semicolons : Passes N semicolons :=
  iterate (fun _ _ => andThen (takeSymbol ";") fun _ => ite (pureSome trivial) (pure nofun)) trivial

omit hn in
theorem atEnd : Passes N atEnd := by
  rintro ls b rest hls ⟨⟩
  exact ⟨trivial, hls⟩

theorem commands : Yields N (commands n) fun cs => ∀ c ∈ cs, c.Regular N := by
  refine andThen semicolons fun _ => bind (command hn) fun first hfirst => ?_
  refine bind (P := fun cs => ∀ c ∈ cs, c.Regular N) ?_ fun cs hcs =>
    andThen atEnd fun _ => ite unexpected (pure hcs)
  refine iterate (fun done hdone => ?_) (by simpa using hfirst)
  exact andThen semicolons fun _ => andThen atEnd fun _ => ite (pure nofun) <|
    bind (command hn) fun _ hc => pureMore hdone hc

end Commands

end Parser.Yields

/-- The induction over the depth of what is nested. -/
theorem Parser.lawful_nested {N : String → Bool} : ∀ n, (Parser.nested n).Lawful N
  | 0 => ⟨.unexpected, fun _ _ => .unexpected, .unexpected, .unexpected, .unexpected⟩
  | n + 1 =>
    have h := lawful_nested n
    ⟨.expression h, fun _ he => .expressionFrom h he, .query h, .statement h, .group h⟩

section Texts

theorem mem_of_oneOf {spellings : List String} {cs : List Char} {n : Nat}
    (h : Lexer.oneOf spellings cs = some n) : String.ofList (cs.take n) ∈ spellings := by
  obtain ⟨t, ht, rfl⟩ := Option.map_eq_some_iff.mp h
  have hspelled : t.toList.isPrefixOf cs = true := by simpa using List.find?_some ht
  have hprefix := List.isPrefixOf_iff_prefix.mp hspelled
  rw [← List.prefix_iff_eq_take.mp hprefix, String.ofList_toList]
  exact List.mem_of_find?_eq_some ht

theorem operator_of_firstMatch {cs : List Char} {n : Nat} {make : String → Token} {sign : String}
    (h : Lexer.firstMatch cs = some (n, some make))
    (hsign : make (String.ofList (cs.take n)) = .operator sign) : sign ∈ Lexer.operators := by
  obtain ⟨c, hc, hmatch⟩ := List.exists_of_findSome?_eq_some h
  obtain ⟨m, hm, heq⟩ := Option.map_eq_some_iff.mp hmatch
  obtain ⟨rfl, hmake⟩ := Prod.mk.inj heq
  simp only [Lexer.classes, List.mem_cons, List.not_mem_nil, or_false] at hc
  rcases hc with rfl | rfl | rfl | rfl | rfl | rfl | rfl | rfl | rfl | rfl <;> cases hmake
  case inr.inl =>
    unfold Lexer.nameToken at hsign
    dsimp only at hsign
    split at hsign <;> cases hsign
  all_goals cases hsign
  exact mem_of_oneOf hm

theorem exists_firstMatch_of_lexUpTo (n : Nat) (gap cs : List Char) :
    ∀ l ∈ (Lexer.lexUpTo n gap cs).1, ∃ ds m make,
      Lexer.firstMatch ds = some (m, some make) ∧ l.token = make (String.ofList (ds.take m)) := by
  fun_induction Lexer.lexUpTo n gap cs with
  | case1 => nofun
  | case2 => nofun
  | case3 => nofun
  | case4 => assumption
  | case5 n gap c rest length taken left make lexemes stuck hlex hmatch ih =>
    rw [hlex] at ih
    exact List.forall_mem_cons.mpr ⟨⟨c :: rest, length, make, hmatch, rfl⟩, ih⟩

/-- Every command of a text is regular. -/
theorem regular_of_commandsOf {N : String → Bool} {s : String} {cs : List Command}
    (h : commandsOf s = .ok cs)
    (hN : ∀ l ∈ (Lexer.lex s.toList).1, ∀ digits, l.token = .number digits → N digits) :
    ∀ c ∈ cs, c.Regular N := by
  have hsound : Parser.AllSound N (Lexer.lex s.toList).1 := by
    intro l hl
    obtain ⟨ds, m, make, hmatch, htoken⟩ := exists_firstMatch_of_lexUpTo _ _ _ l hl
    refine ⟨fun sign hsign => ?_, hN l hl, fun word hword => ?_⟩
    · exact operator_of_firstMatch hmatch (htoken.symm.trans hsign)
    · exact typeWord_of_firstMatch hmatch (htoken ▸ hword)
  unfold commandsOf at h
  split at h
  next lexemes stuck hlex =>
  rw [hlex] at hsound
  split at h
  · next ds rest hcommands =>
    cases h
    exact (Parser.Yields.commands (Parser.lawful_nested _) _ _ _ hsound hcommands).1
  all_goals cases h

end Texts

end SqlTree.Syntax

import SqlTree.Proofs.Trees
import SqlTree.Proofs.Yields

/-!
The expressions that the parsers yield: their operators are known signs, and in the queries inside
them every selection has items and every join but a cross join has a condition.
-/

namespace SqlTree.Syntax

/-- The signs of operators between two operands, other than comparisons. -/
def infixSigns : List String := ["^", "*", "/", "%", "+", "-"] ++ Lexer.operators

def comparisonSigns : List String := ["=", "<>", "!=", "<=", ">=", "<", ">"]

def Tree.isPresent {k : Kind} : Tree (.option k) → Bool
  | .absent => false
  | .present _ => true

def Tree.isCons {k : Kind} : Tree (.list k) → Bool
  | .nil => false
  | .cons _ _ => true

def isRegular (N : String → Bool) : (k : Kind) → Tree k → Bool
  | _, .number digits => N digits
  | _, .typed type _ => isLiteralType type
  | _, .binary op _ _ => infixSigns.contains op
  | _, .comparison op _ _ => comparisonSigns.contains op
  | _, .join kind _ test => test.isPresent == (kind != .cross)
  | _, .select _ items _ _ _ _ => items.isCons
  | _, _ => true

/-- All nodes are as the parsers make them, of a text in which the test holds of all numerals. -/
def Regular (N : String → Bool) {k : Kind} (t : Tree k) : Prop := t.every (isRegular N) = true

def Group.Regular (N : String → Bool) : Group → Prop
  | .query q => Syntax.Regular N q
  | .either q e => Syntax.Regular N q ∧ Syntax.Regular N e
  | .expr e => Syntax.Regular N e

def Command.Regular (N : String → Bool) : Command → Prop
  | .statement s => Syntax.Regular N s
  | _ => True

/-- The parsers of what is nested yield regular trees. -/
structure Nested.Lawful (N : String → Bool) (n : Nested) : Prop where
  expr : Parser.Yields N n.expr (Regular N)
  rest : ∀ e, Regular N e → Parser.Yields N (n.rest e) (Regular N)
  query : Parser.Yields N n.query (Regular N)
  statement : Parser.Yields N n.statement (Regular N)
  group : Parser.Yields N n.group (Group.Regular N)

section Sequences

variable {N : String → Bool} {k : Kind}

theorem regular_ofList {ts : List (Tree k)} : Regular N (Tree.ofList ts) ↔ ∀ t ∈ ts, Regular N t :=
  Tree.every_ofList

theorem regular_ofOption {t : Option (Tree k)} :
    Regular N (Tree.ofOption t) ↔ ∀ u ∈ t, Regular N u :=
  Tree.every_ofOption

theorem regular_getD {ts : Option (List (Tree k))} (h : ∀ us ∈ ts, ∀ t ∈ us, Regular N t) :
    Regular N (Tree.ofList (ts.getD [])) := by
  rw [regular_ofList]
  cases ts with
  | none => nofun
  | some ts => exact h ts rfl

end Sequences

namespace Parser.Yields

/-- A node is regular if it is so itself and its parts are. -/
theorem node {a b : Bool} (ha : a = true) (hb : b = true) : (a && b) = true :=
  Bool.and_eq_true_iff.mpr ⟨ha, hb⟩

variable {N : String → Bool} {n : Nested} (hn : n.Lawful N)

include hn

theorem exprs : Yields N (exprs n) fun es => ∀ e ∈ es, Regular N e := commas hn.expr

theorem exprList : Yields N (exprList n) (Regular N) :=
  bind (exprs hn) fun _ h => pure (regular_ofList.mpr h)

section Calls

theorem orderItem : Yields N (orderItem n) (Regular N) := by
  refine bind hn.expr fun e he => andThen (takeKeyword "desc") fun descending => ?_
  have hitem : ∀ nulls, Regular N (.orderItem e descending nulls) := fun _ => node rfl he
  refine ite (andThen (takeKeyword "asc") fun _ => ?_) ?_
  all_goals
    exact andThen (takeKeyword "nulls") fun _ => ite
      (andThen (takeKeyword "first") fun _ => ite (pure (hitem _)) <|
        andThen (keyword "last") fun _ => pure (hitem _))
      (pure (hitem _))

theorem orderClause : Yields N (orderClause n) fun o => ∀ ts ∈ o, ∀ t ∈ ts, Regular N t :=
  optional "order" <| andThen (keyword "by") fun _ => commas (orderItem hn)

theorem frameBound : Passes N (frameBound n) := by
  have hword : Passes N (do
      if !(← Parser.takeKeyword "preceding") then Parser.keyword "following") :=
    andThen (takeKeyword "preceding") fun _ => ite (keyword "following") (pure trivial)
  exact andThen (takeKeyword "unbounded") fun _ => ite hword <|
    andThen (takeKeyword "current") fun _ => ite (keyword "row") <|
      andThen hn.expr.passes fun _ => hword

theorem frame : Passes N (frame n) := by
  have hbounds : Passes N (do
      if ← Parser.takeKeyword "between" then
        Parser.frameBound n
        Parser.keyword "and"
        Parser.frameBound n
      else Parser.frameBound n) :=
    andThen (takeKeyword "between") fun _ => ite
      (andThen (frameBound hn) fun _ => andThen (keyword "and") fun _ => frameBound hn)
      (frameBound hn)
  exact andThen (takeKeyword "rows") fun _ =>
    ite (andThen (keyword "range") fun _ => hbounds) hbounds

theorem frameText : Passes N (frameText n) :=
  andThen peek.passes fun _ => ite
    (andThen (spanned (frame hn)).passes fun _ => pure trivial) (pure trivial)

theorem windowSpec : Yields N (windowSpec n) (Regular N) :=
  bind (optional "partition" <| andThen (keyword "by") fun _ => exprs hn) fun _ hp =>
    bind (orderClause hn) fun _ ho => andThen (frameText hn) fun _ =>
      pure (node (node rfl (regular_getD hp)) (regular_getD ho))

theorem window : Yields N (window n) (Regular N) :=
  andThen (atSymbol "(") fun _ => ite (parens (windowSpec hn)) (andThen name fun _ => pure rfl)

theorem filter : Yields N (filter n) (Regular N) :=
  parens <| andThen (keyword "where") fun _ => hn.expr

theorem argumentsFrom (marks : Arguments) {first : Expr} (h : Regular N first) :
    Yields N (argumentsFrom n marks first) fun args => ∀ e ∈ args.items, Regular N e :=
  bind (more "," hn.expr (by simpa using h)) fun _ hi => andThen (orderClause hn).passes fun _ =>
    pure hi

theorem closeGroup {e : Expr} (h : Regular N e) : Yields N (closeGroup n e) (Regular N) := by
  refine andThen (takeSymbol ",") fun _ => ite ?_ ?_
  · exact bind (exprList hn) fun _ hr => andThen (symbol ")") fun _ => pure (node (node rfl h) hr)
  · exact andThen (symbol ")") fun _ => andThen (takeSymbol ".") fun _ => ite
      (andThen name fun _ => pure (node rfl h)) (pure (node rfl h))

end Calls

section Primary

theorem allArguments :
    Yields N (allArguments n) fun args => ∀ e ∈ args.items, Regular N e := by
  have hrest : ∀ e, Regular N e → Yields N (do Parser.argumentsFrom n .all (← n.rest e))
      fun args => ∀ e ∈ args.items, Regular N e := fun e he =>
    bind (hn.rest e he) fun _ hr => argumentsFrom hn .all hr
  refine andThen (symbol "(") fun _ => bind hn.group fun g hg => ?_
  cases g with
  | query q => exact andThen (symbol ")") fun _ => hrest _ (node rfl hg)
  | either q e =>
    refine bind (closeGroup hn hg.2) fun e he => ?_
    split
    · exact hrest _ (node rfl hg.1)
    · exact hrest _ he
  | expr e =>
    refine bind (closeGroup hn hg) fun e he => ?_
    split
    · exact hrest _ (node rfl (Bool.and_eq_true_iff.mp he).2)
    · exact hrest _ he

theorem arguments : Yields N (arguments n) fun args => ∀ e ∈ args.items, Regular N e := by
  have hfirst : ∀ marks, Yields N (do Parser.argumentsFrom n marks (← n.expr))
      fun args => ∀ e ∈ args.items, Regular N e := fun marks =>
    bind hn.expr fun _ he => argumentsFrom hn marks he
  exact andThen (atSymbol ")") fun _ => ite (pure nofun) <|
    andThen (takeSymbol "*") fun _ => ite (pure nofun) <|
      andThen (takeKeyword "distinct") fun _ => ite (hfirst _) <|
        andThen (takeKeyword "all") fun _ => ite
          (andThen (atSymbol "(") fun _ => ite (allArguments hn) (hfirst _)) (hfirst _)

theorem callRest (head : Path) : Yields N (callRest n head) fun r => Regular N r.2 :=
  bind (parens (arguments hn)) fun _ ha => bind (optional "filter" (filter hn)) fun _ hf =>
    bind (optional "over" (window hn)) fun _ hw => pure <|
      node (node (node rfl (regular_ofList.mpr ha)) (regular_ofOption.mpr hf))
        (regular_ofOption.mpr hw)

omit hn in
theorem callWord : Passes N callWord := by
  refine andThen peek.passes fun t => ?_
  split
  · exact ite (andThen skip fun _ => pure trivial) name
  · exact name

omit hn in
theorem callHead : Passes N callHead :=
  andThen callWord fun _ => andThen (takeSymbol ".") fun _ =>
    ite (andThen name fun _ => pure trivial) (pure trivial)

theorem callFrom (start : List Lexeme) (head : Path) : Yields N (callFrom n start head) (Regular N) :=
  bind (callRest hn head) fun _ he => ite (andThen get fun _ => pure rfl) (pure he)

theorem call : Yields N (call n) (Regular N) :=
  andThen get fun start => andThen callHead fun head => callFrom hn start head

theorem callOrPath {α : Type} {P : α → Prop} {called : Expr → Parser α} {other : Path → Parser α}
    (hcalled : ∀ e, Regular N e → Yields N (called e) P) (hother : ∀ path, Yields N (other path) P) :
    Yields N (callOrPath n called other) P := by
  refine andThen peek.passes fun _ => ite (bind (call hn) hcalled) ?_
  exact andThen get fun start => andThen path fun head => andThen (atSymbol "(") fun _ =>
    ite (bind (callFrom hn start head) hcalled) (hother head)

theorem branch : Yields N (branch n) (Regular N) :=
  andThen (keyword "when") fun _ => bind hn.expr fun _ ht => andThen (keyword "then") fun _ =>
    bind hn.expr fun _ he => pure (node (node rfl ht) he)

theorem caseRest : Yields N (caseRest n) fun r => Regular N r.1 ∧ Regular N r.2 := by
  refine bind (branch hn) fun first hfirst => ?_
  refine bind (P := fun bs => ∀ b ∈ bs, Regular N b) ?_ fun bs hbs => ?_
  · exact iterate (fun _ hdone => andThen (atKeyword "when") fun _ =>
      ite (bind (branch hn) fun _ hb => pureMore hdone hb) (pure nofun)) (by simpa using hfirst)
  · exact bind (optional "else" hn.expr) fun _ he => andThen (keyword "end") fun _ =>
      pure ⟨regular_ofList.mpr hbs, regular_ofOption.mpr he⟩

theorem caseOf : Yields N (caseOf n) (Regular N) :=
  andThen (atKeyword "when") fun _ => ite
    (bind (caseRest hn) fun _ h => pure (node (node rfl h.1) h.2))
    (bind hn.expr fun _ hs => bind (caseRest hn) fun _ h =>
      pure (node (node (node rfl hs) h.1) h.2))

theorem quantified (q : Quantifier) : Yields N (quantified n q) (Regular N) := by
  refine parens <| bind hn.group fun g hg => ?_
  cases g with
  | query q => exact pure (node rfl hg)
  | either q e => exact pure (node rfl hg.1)
  | expr e => exact pure (node rfl hg)

theorem arrayRest : Yields N (arrayRest n) (Regular N) :=
  andThen (takeSymbol "[") fun _ => ite
    (andThen (takeSymbol "]") fun _ => ite (pure rfl) <|
      bind (exprList hn) fun _ h => andThen (symbol "]") fun _ => pure (node rfl h))
    (bind (parens hn.query) fun _ h => pure (node rfl h))

theorem rowRest : Yields N (rowRest n) (Regular N) :=
  parens <| andThen (atSymbol ")") fun _ => ite (pure rfl) <|
    bind (exprList hn) fun _ h => pure (node rfl h)

theorem castRest : Yields N (castRest n) (Regular N) :=
  parens <| bind hn.expr fun _ h => andThen (keyword "as") fun _ => andThen (typeName false) fun _ =>
    pure (node rfl h)

theorem extractRest : Yields N (extractRest n) (Regular N) :=
  parens <| andThen name fun _ => andThen (keyword "from") fun _ => bind hn.expr fun _ h =>
    pure (node rfl h)

theorem parenthesised : Yields N (parenthesised n) (Regular N) := by
  refine bind hn.group fun g hg => ?_
  cases g with
  | query q => exact andThen (symbol ")") fun _ => pure (node rfl hg)
  | either q e => exact closeGroup hn hg.2
  | expr e => exact closeGroup hn hg

omit hn in
theorem typedLiteral {word : String} (hword : isLiteralType (Text.lower word) = true)
    (quoted : String) : Yields N (typedLiteral word quoted) (Regular N) := by
  refine andThen (spanned (andThen skip fun _ => skip)).passes fun _ => pure ?_
  split
  · rfl
  · exact hword

omit hn in
theorem typedLiteral? : Yields N typedLiteral? fun o => ∀ e ∈ o, Regular N e := by
  refine bind peek fun t ht => andThen peekSecond fun _ => ?_
  split
  · next _ _ word _ hword =>
    obtain ⟨u, hu, hword⟩ := Option.bind_eq_some_iff.mp hword
    exact bind (typedLiteral ((ht u hu).typeWord word hword) _) fun _ h => pureSome h
  · exact pure nofun

theorem named : Yields N (named n) (Regular N) := by
  refine bind typedLiteral? fun o ho => ?_
  split
  · exact pure (ho _ rfl)
  · exact callOrPath hn (fun _ he => pure he) fun _ => pure rfl

theorem worded (word : String) : Yields N (worded n word) (Regular N) := by
  unfold Parser.worded
  split
  · exact pure rfl
  · exact pure rfl
  · exact pure rfl
  · exact pure rfl
  · exact caseOf hn
  · exact rowRest hn
  · exact bind (parens hn.query) fun _ h => pure (node rfl h)
  · exact arrayRest hn
  · exact castRest hn
  · exact extractRest hn
  · exact quantified hn _
  · exact quantified hn _

theorem primary : Yields N (primary n) (Regular N) := by
  refine bind peek fun t ht => ?_
  split
  · exact andThen skip fun _ => pure ((ht _ rfl).number _ rfl)
  · exact andThen skip fun _ => pure rfl
  · exact andThen skip fun _ => pure rfl
  · exact andThen skip fun _ => parenthesised hn
  · exact ite (andThen skip fun _ => worded hn _) <| ite (named hn) unexpected
  · exact ite (named hn) unexpected
  · exact unexpected

end Primary

section Levels

theorem typecastOrIndex {e : Expr} (h : Regular N e) :
    Yields N (typecastOrIndex n e) fun o => ∀ e ∈ o, Regular N e := by
  refine andThen (takeSymbol "::") fun _ => ite ?_ <| andThen (takeSymbol "[") fun _ => ite ?_ ?_
  · exact andThen (typeName true) fun _ => pureSome (node rfl h)
  · exact bind hn.expr fun _ hi => andThen (symbol "]") fun _ =>
      pureSome (node (node rfl h) hi)
  · exact pure nofun

theorem postfixFrom {e : Expr} (h : Regular N e) : Yields N (postfixFrom n e) (Regular N) :=
  iterate (fun _ he => typecastOrIndex hn he) h

omit hn in
theorem binaryFrom {op? : Option Token → Option String} {operand : Parser Expr}
    (hop : ∀ t op, (∀ u ∈ t, Sound N u) → op? t = some op → op ∈ infixSigns)
    (hoperand : Yields N operand (Regular N)) {e : Expr} (h : Regular N e) :
    Yields N (binaryFrom op? operand e) (Regular N) := by
  refine iterate (fun left hleft => bind peek fun t ht => ?_) h
  split
  · exact pure nofun
  · next op hsign =>
    have hknown := List.contains_iff_mem.mpr (hop t op ht hsign)
    exact andThen skip fun _ => bind hoperand fun _ hr =>
      pureSome (node (node hknown hleft) hr)

omit hn in
theorem mem_of_operatorIn {signs : List String} {t : Option Token} {op : String}
    (h : operatorIn signs t = some op) : op ∈ signs := by
  unfold operatorIn at h
  split at h
  · split at h
    · next hmem => cases h; simpa using hmem
    · cases h
  · cases h

omit hn in
/-- The signs of one level. -/
theorem levelFrom {signs : List String} (hsigns : ∀ sign ∈ signs, sign ∈ infixSigns)
    {operand : Parser Expr} (hoperand : Yields N operand (Regular N)) {e : Expr} (h : Regular N e) :
    Yields N (Parser.binaryFrom (operatorIn signs) operand e) (Regular N) :=
  binaryFrom (fun _ _ _ hop => hsigns _ (mem_of_operatorIn hop)) hoperand h

omit hn in
theorem signs : Yields N signs fun fs => ∀ f ∈ fs, ∀ e, Regular N e → Regular N (f e) := by
  refine iterate (fun done hdone => andThen peek.passes fun t => ?_) nofun
  split
  · exact pure nofun
  · next f hsign =>
    refine andThen skip fun _ => pureMore hdone fun e he => ?_
    unfold sign? at hsign
    split at hsign <;> cases hsign <;> exact node rfl he

theorem unary : Yields N (unary n) (Regular N) := by
  refine bind signs fun fs hfs => bind (primary hn) fun e he => bind (postfixFrom hn he) fun e he =>
    pure ?_
  induction fs with
  | nil => exact he
  | cons f fs ih => exact hfs f (by simp) _ (ih fun g hg => hfs g (by simp [hg]))

omit hn in
theorem zoneFrom {operand : Parser Expr} (hoperand : Yields N operand (Regular N)) {e : Expr}
    (h : Regular N e) : Yields N (zoneFrom operand e) (Regular N) :=
  iterate (fun _ hleft => andThen (takeKeyword "at") fun _ => ite
    (andThen timeZone fun _ => bind hoperand fun _ hz =>
      pureSome (node (node rfl hleft) hz))
    (pure nofun)) h

theorem zoneLevel : Yields N (zoneLevel n) (Regular N) :=
  bind (unary hn) fun _ he => zoneFrom (unary hn) he

theorem powerFrom {e : Expr} (h : Regular N e) : Yields N (powerFrom n e) (Regular N) :=
  levelFrom (by decide) (zoneLevel hn) h

theorem powerLevel : Yields N (powerLevel n) (Regular N) :=
  bind (zoneLevel hn) fun _ he => powerFrom hn he

theorem productFrom {e : Expr} (h : Regular N e) : Yields N (productFrom n e) (Regular N) :=
  levelFrom (by decide) (powerLevel hn) h

theorem productLevel : Yields N (productLevel n) (Regular N) :=
  bind (powerLevel hn) fun _ he => productFrom hn he

theorem sumFrom {e : Expr} (h : Regular N e) : Yields N (sumFrom n e) (Regular N) :=
  levelFrom (by decide) (productLevel hn) h

theorem sumLevel : Yields N (sumLevel n) (Regular N) :=
  bind (productLevel hn) fun _ he => sumFrom hn he

theorem otherFrom {e : Expr} (h : Regular N e) : Yields N (otherFrom n e) (Regular N) := by
  refine binaryFrom (fun t op ht hop => ?_) (sumLevel hn) h
  unfold anyOperator at hop
  split at hop
  · cases hop
    exact List.mem_append_right _ ((ht _ rfl).operator _ rfl)
  · cases hop

theorem otherLevel : Yields N (otherLevel n) (Regular N) :=
  bind (sumLevel hn) fun _ he => otherFrom hn he

theorem betweenBounds (negated : Bool) {e : Expr} (h : Regular N e) :
    Yields N (betweenBounds n negated e) (Regular N) :=
  bind (otherLevel hn) fun _ hl => andThen (keyword "and") fun _ => bind (otherLevel hn) fun _ hh =>
    pure (node (node (node rfl h) hl) hh)

theorem membership (negated : Bool) {e : Expr} (h : Regular N e) :
    Yields N (membership n negated e) (Regular N) := by
  have hlist : ∀ first, Regular N first → Yields N (do
      let items ← Parser.more "," n.expr [first]
      Parser.symbol ")"
      return Tree.inList negated e (Tree.ofList items)) (Regular N) := fun first hf =>
    bind (more "," hn.expr (by simpa using hf)) fun _ hi => andThen (symbol ")") fun _ =>
      pure (node (node rfl h) (regular_ofList.mpr hi))
  refine andThen (symbol "(") fun _ => bind hn.group fun g hg => ?_
  cases g with
  | query q => exact andThen (symbol ")") fun _ => pure (node (node rfl h) hg)
  | either q first =>
    exact andThen (takeSymbol ")") fun _ => ite (pure (node (node rfl h) hg.1)) (hlist _ hg.2)
  | expr first => exact hlist _ hg

theorem predicate? (negated : Bool) {e : Expr} (h : Regular N e) :
    Yields N (predicate? n negated e) fun o => ∀ e ∈ o, Regular N e := by
  have hright : ∀ kind, Yields N (do
      return some (Tree.predicate negated kind e (← Parser.otherLevel n)))
      fun o => ∀ e ∈ o, Regular N e := fun kind =>
    bind (otherLevel hn) fun _ hr => pureSome (node (node rfl h) hr)
  exact andThen (takeKeyword "between") fun _ => ite
      (bind (betweenBounds hn negated h) fun _ hb => pureSome hb) <|
    andThen (takeKeyword "in") fun _ => ite
      (bind (membership hn negated h) fun _ hm => pureSome hm) <|
    andThen (takeKeyword "like") fun _ => ite (hright _) <|
    andThen (takeKeyword "ilike") fun _ => ite (hright _) <|
    andThen (takeKeyword "similar") fun _ => ite
      (andThen (keyword "to") fun _ => hright _) (pure nofun)

theorem predicateFrom {e : Expr} (h : Regular N e) : Yields N (predicateFrom n e) (Regular N) := by
  refine andThen (takeKeyword "not") fun _ => ite (bind (predicate? hn true h) fun o ho => ?_) ?_
  · split
    · exact pure (ho _ rfl)
    · exact unexpected
  · refine bind (predicate? hn false h) fun o ho => pure ?_
    cases o with
    | none => exact h
    | some e => exact ho e rfl

theorem predicateLevel : Yields N (predicateLevel n) (Regular N) :=
  bind (otherLevel hn) fun _ he => predicateFrom hn he

theorem comparisonFrom {e : Expr} (h : Regular N e) : Yields N (comparisonFrom n e) (Regular N) := by
  refine andThen peek.passes fun t => ?_
  split
  · exact pure h
  · next op hop =>
    have hknown := List.contains_iff_mem.mpr (mem_of_operatorIn hop)
    exact andThen skip fun _ => bind (predicateLevel hn) fun _ hr =>
      pure (node (node hknown h) hr)

theorem comparisonLevel : Yields N (comparisonLevel n) (Regular N) :=
  bind (predicateLevel hn) fun _ he => comparisonFrom hn he

theorem isTest {e : Expr} (h : Regular N e) : Yields N (isTest n e) (Regular N) :=
  andThen (takeKeyword "not") fun _ =>
    andThen (takeKeyword "null") fun _ => ite (pure (node rfl h)) <|
    andThen (takeKeyword "true") fun _ => ite (pure (node rfl h)) <|
    andThen (takeKeyword "false") fun _ => ite (pure (node rfl h)) <|
    andThen (keywords _) fun _ => bind (comparisonLevel hn) fun _ hr => pure (node (node rfl h) hr)

theorem testFrom {e : Expr} (h : Regular N e) : Yields N (testFrom n e) (Regular N) := by
  refine iterate (fun left hleft => ?_) h
  exact andThen (takeKeyword "is") fun _ => ite
      (bind (isTest hn hleft) fun _ ht => pureSome ht) <|
    andThen (takeKeyword "isnull") fun _ => ite (pureSome (node rfl hleft)) <|
    andThen (takeKeyword "notnull") fun _ => ite (pureSome (node rfl hleft)) (pure nofun)

theorem testLevel : Yields N (testLevel n) (Regular N) :=
  bind (comparisonLevel hn) fun _ he => testFrom hn he

omit hn in
theorem negations : Passes N negations :=
  iterate (fun _ _ => andThen (takeKeyword "not") fun _ =>
    ite (pure fun _ _ => trivial) (pure nofun)) trivial

theorem notLevel : Yields N (notLevel n) (Regular N) := by
  refine andThen negations fun k => bind (testLevel hn) fun e he => pure ?_
  induction k with
  | zero => exact he
  | succ k ih => exact node rfl ih

omit hn in
theorem connectedFrom (word : String) (op : Connective) {operand : Parser Expr}
    (hoperand : Yields N operand (Regular N)) {e : Expr} (h : Regular N e) :
    Yields N (connectedFrom word op operand e) (Regular N) :=
  iterate (fun _ hleft => andThen (takeKeyword word) fun _ => ite
    (bind hoperand fun _ hr => pureSome (node (node rfl hleft) hr)) (pure nofun)) h

theorem andFrom {e : Expr} (h : Regular N e) : Yields N (andFrom n e) (Regular N) :=
  connectedFrom "and" .and (notLevel hn) h

theorem andLevel : Yields N (andLevel n) (Regular N) := bind (notLevel hn) fun _ he => andFrom hn he

theorem orFrom {e : Expr} (h : Regular N e) : Yields N (orFrom n e) (Regular N) :=
  connectedFrom "or" .or (andLevel hn) h

theorem expression : Yields N (expression n) (Regular N) := bind (andLevel hn) fun _ he => orFrom hn he

theorem expressionFrom {e : Expr} (h : Regular N e) : Yields N (expressionFrom n e) (Regular N) :=
  bind (postfixFrom hn h) fun _ h => bind (zoneFrom (unary hn) h) fun _ h =>
    bind (powerFrom hn h) fun _ h => bind (productFrom hn h) fun _ h =>
      bind (sumFrom hn h) fun _ h => bind (otherFrom hn h) fun _ h =>
        bind (predicateFrom hn h) fun _ h => bind (comparisonFrom hn h) fun _ h =>
          bind (testFrom hn h) fun _ h => bind (andFrom hn h) fun _ h => orFrom hn h

end Levels

end Parser.Yields

end SqlTree.Syntax

import SqlTree.Proofs.RoundTrip.Parsing
import SqlTree.Syntax.Parser.Statement
import SqlTree.Token.Lexer

/-!
The levels of expressions. A token goes on with an expression at one level at most, so in front of
it the levels below that one are finished, and what was read is handed through the others.
-/

namespace SqlTree

/-- The levels of the keywords that go on with an expression. -/
def wordLevels : List (String × Nat) :=
  [("at", 1), ("not", 6), ("between", 6), ("in", 6), ("like", 6), ("ilike", 6), ("similar", 6),
   ("is", 8), ("isnull", 8), ("notnull", 8), ("and", 9), ("or", 10)]

def signLevels : List (String × Nat) :=
  [("^", 2), ("*", 3), ("/", 3), ("%", 3), ("+", 4), ("-", 4), ("=", 7), ("<>", 7), ("!=", 7),
   ("<=", 7), (">=", 7), ("<", 7), (">", 7), (")", 11), (",", 11), (";", 11)]

/-- The level at which a token goes on with an expression: 0 for what binds as strongly as a
name's parts, 11 for what ends every expression. -/
def Token.level : Token → Nat
  | .keyword w _ => (wordLevels.lookup w).getD 11
  | .symbol t => (signLevels.lookup t).getD 0
  | .operator _ => 5
  | _ => 0

namespace Syntax.Parser

/-- All levels up to `k` are finished in front of the token. -/
def Ends (k : Nat) (o : Option Token) : Prop := ∀ t ∈ o, k < t.level

theorem Ends.mono {j k : Nat} {o : Option Token} (h : Ends k o) (hjk : j ≤ k) : Ends j o :=
  fun t ht => Nat.lt_of_le_of_lt hjk (h t ht)

theorem Ends.isKeyword {k : Nat} {o : Option Token} {w : String} (h : Ends k o)
    (hw : (wordLevels.lookup w).getD 11 ≤ k) : isKeyword w o = false := by
  match o with
  | none => rfl
  | some t =>
    have ht := h t rfl
    cases t with
    | keyword v text =>
      by_cases hv : v = w
      · subst hv
        simp only [Token.level] at ht
        omega
      · simp [Parser.isKeyword, hv]
    | _ => rfl

theorem Ends.isSymbol {k : Nat} {o : Option Token} {w : String} (h : Ends k o)
    (hw : (signLevels.lookup w).getD 0 ≤ k) : isSymbol w o = false := by
  match o with
  | none => rfl
  | some t =>
    have ht := h t rfl
    cases t with
    | symbol v =>
      by_cases hv : v = w
      · subst hv
        simp only [Token.level] at ht
        omega
      · simp [Parser.isSymbol, hv]
    | _ => rfl

theorem Ends.operatorIn {k : Nat} {o : Option Token} {signs : List String} (h : Ends k o)
    (hs : ∀ t ∈ signs, (signLevels.lookup t).getD 0 ≤ k) : operatorIn signs o = none := by
  match o with
  | none => rfl
  | some t =>
    have ht := h t rfl
    cases t with
    | symbol v =>
      have hv : v ∉ signs := fun hv => by
        have := hs v hv
        simp only [Token.level] at ht
        omega
      simp [Parser.operatorIn, hv]
    | _ => rfl

theorem Ends.anyOperator {o : Option Token} (h : Ends 5 o) : anyOperator o = none := by
  match o with
  | none => rfl
  | some (.operator _) => exact absurd (h _ rfl) (Nat.lt_irrefl 5)
  | some (.number _) | some (.name _) | some (.quotedName _) | some (.string _)
  | some (.param _) | some (.keyword ..) | some (.symbol _) => rfl

variable (p : Nested) {ts us : List Token} {k : Nat} {post : Expr → Prop} {e : Expr}

section Passing

theorem postfixFrom_passes (h : post e) : Takes (postfixFrom p e) [] (Ends 0) post := by
  refine Iterates.takes (.stop ?_ h)
  refine .noSymbol (fun o ho => ho.isSymbol (by decide)) ?_
  exact .noSymbol (fun o ho => ho.isSymbol (by decide)) (.pure rfl)

theorem zoneFrom_passes (operand : Parser Expr) (h : post e) :
    Takes (zoneFrom operand e) [] (Ends 1) post :=
  Iterates.takes (.stop (.noKeyword (fun o ho => ho.isKeyword (by decide)) (.pure rfl)) h)

theorem binaryFrom_passes {op? : Option Token → Option String} {follow : Option Token → Prop}
    (operand : Parser Expr) (hop : ∀ o, follow o → op? o = none) (h : post e) :
    Takes (binaryFrom op? operand e) [] follow post := by
  refine Iterates.takes (.stop (.peek fun o ho => ?_) h)
  rw [ahead_nil, hop o ho]
  exact .pure rfl

theorem powerFrom_passes (h : post e) : Takes (powerFrom p e) [] (Ends 2) post :=
  binaryFrom_passes _ (fun _ ho => ho.operatorIn (by decide)) h

theorem productFrom_passes (h : post e) : Takes (productFrom p e) [] (Ends 3) post :=
  binaryFrom_passes _ (fun _ ho => ho.operatorIn (by decide)) h

theorem sumFrom_passes (h : post e) : Takes (sumFrom p e) [] (Ends 4) post :=
  binaryFrom_passes _ (fun _ ho => ho.operatorIn (by decide)) h

theorem otherFrom_passes (h : post e) : Takes (otherFrom p e) [] (Ends 5) post :=
  binaryFrom_passes _ (fun _ ho => ho.anyOperator) h

theorem predicate?_absent (negated : Bool) :
    Takes (predicate? p negated e) [] (Ends 6) (· = none) := by
  refine .noKeyword (fun o ho => ho.isKeyword (by decide)) ?_
  refine .noKeyword (fun o ho => ho.isKeyword (by decide)) ?_
  refine .noKeyword (fun o ho => ho.isKeyword (by decide)) ?_
  refine .noKeyword (fun o ho => ho.isKeyword (by decide)) ?_
  exact .noKeyword (fun o ho => ho.isKeyword (by decide)) (.pure rfl)

theorem predicateFrom_passes (h : post e) : Takes (predicateFrom p e) [] (Ends 6) post := by
  refine .noKeyword (fun o ho => ho.isKeyword (by decide)) ?_
  refine (predicate?_absent p false).map ?_
  rintro _ rfl
  exact h

theorem comparisonFrom_passes (h : post e) : Takes (comparisonFrom p e) [] (Ends 7) post := by
  refine .peek fun o ho => ?_
  rw [ahead_nil, ho.operatorIn (by decide)]
  exact .pure h

theorem testFrom_passes (h : post e) : Takes (testFrom p e) [] (Ends 8) post := by
  refine Iterates.takes (.stop ?_ h)
  refine .noKeyword (fun o ho => ho.isKeyword (by decide)) ?_
  refine .noKeyword (fun o ho => ho.isKeyword (by decide)) ?_
  exact .noKeyword (fun o ho => ho.isKeyword (by decide)) (.pure rfl)

theorem connectedFrom_passes {w : String} (op : Connective) (operand : Parser Expr)
    (hw : (wordLevels.lookup w).getD 11 ≤ k) (h : post e) :
    Takes (connectedFrom w op operand e) [] (Ends k) post :=
  Iterates.takes (.stop (.noKeyword (fun _ ho => ho.isKeyword hw) (.pure rfl)) h)

end Passing

section Lifting

theorem Takes.passing {q : Parser Expr} {step : Expr → Parser Expr} {j : Nat}
    (h : Takes q ts (Ends j) post) (hstep : ∀ e, post e → Takes (step e) [] (Ends k) post)
    (hjk : j ≤ k) : Takes (q >>= step) ts (Ends k) post :=
  h.andThen hstep fun _ ho => ho.mono hjk

/-- What an operand's first token is not. -/
def Begins (ts : List Token) : Prop := ∃ t us, ts = t :: us ∧ isKeyword "not" (some t) = false

theorem Begins.append (h : Begins ts) (us : List Token) : Begins (ts ++ us) := by
  obtain ⟨t, ts, rfl, ht⟩ := h
  exact ⟨t, ts ++ us, rfl, ht⟩

theorem zoneLevel_takes (h : Takes (unary p) ts (Ends 0) post) :
    Takes (zoneLevel p) ts (Ends 1) post :=
  h.passing (fun _ he => zoneFrom_passes _ he) (by decide)

theorem powerLevel_takes (h : Takes (zoneLevel p) ts (Ends 1) post) :
    Takes (powerLevel p) ts (Ends 2) post :=
  h.passing (fun _ he => powerFrom_passes p he) (by decide)

theorem productLevel_takes (h : Takes (powerLevel p) ts (Ends 2) post) :
    Takes (productLevel p) ts (Ends 3) post :=
  h.passing (fun _ he => productFrom_passes p he) (by decide)

theorem sumLevel_takes (h : Takes (productLevel p) ts (Ends 3) post) :
    Takes (sumLevel p) ts (Ends 4) post :=
  h.passing (fun _ he => sumFrom_passes p he) (by decide)

theorem otherLevel_takes (h : Takes (sumLevel p) ts (Ends 4) post) :
    Takes (otherLevel p) ts (Ends 5) post :=
  h.passing (fun _ he => otherFrom_passes p he) (by decide)

theorem predicateLevel_takes (h : Takes (otherLevel p) ts (Ends 5) post) :
    Takes (predicateLevel p) ts (Ends 6) post :=
  h.passing (fun _ he => predicateFrom_passes p he) (by decide)

theorem comparisonLevel_takes (h : Takes (predicateLevel p) ts (Ends 6) post) :
    Takes (comparisonLevel p) ts (Ends 7) post :=
  h.passing (fun _ he => comparisonFrom_passes p he) (by decide)

theorem testLevel_takes (h : Takes (comparisonLevel p) ts (Ends 7) post) :
    Takes (testLevel p) ts (Ends 8) post :=
  h.passing (fun _ he => testFrom_passes p he) (by decide)

theorem notLevel_takes (hb : Begins ts) (h : Takes (testLevel p) ts (Ends 8) post) :
    Takes (notLevel p) ts (Ends 8) post := by
  obtain ⟨t, ts, rfl, ht⟩ := hb
  have hn : Takes negations [] (· = some t) (· = 0) :=
    Iterates.takes (.stop (.noKeyword (by rintro _ rfl; exact ht) (.pure rfl)) rfl)
  refine hn.nothing_bind ?_ fun _ _ => rfl
  rintro _ rfl
  exact h.map fun _ => id

theorem andLevel_takes (h : Takes (notLevel p) ts (Ends 8) post) :
    Takes (andLevel p) ts (Ends 9) post :=
  h.passing (fun _ he => connectedFrom_passes _ _ (by decide) he) (by decide)

theorem expression_takes (h : Takes (andLevel p) ts (Ends 9) post) :
    Takes (expression p) ts (Ends 10) post :=
  h.passing (fun _ he => connectedFrom_passes _ _ (by decide) he) (by decide)

theorem expression_of_test (hb : Begins ts) (h : Takes (testLevel p) ts (Ends 8) post) :
    Takes (expression p) ts (Ends 10) post :=
  expression_takes p (andLevel_takes p (notLevel_takes p hb h))

theorem expression_of_comparison (hb : Begins ts)
    (h : Takes (comparisonLevel p) ts (Ends 7) post) : Takes (expression p) ts (Ends 10) post :=
  expression_of_test p hb (testLevel_takes p h)

theorem expression_of_predicate (hb : Begins ts)
    (h : Takes (predicateLevel p) ts (Ends 6) post) : Takes (expression p) ts (Ends 10) post :=
  expression_of_comparison p hb (comparisonLevel_takes p h)

theorem expression_of_other (hb : Begins ts) (h : Takes (otherLevel p) ts (Ends 5) post) :
    Takes (expression p) ts (Ends 10) post :=
  expression_of_predicate p hb (predicateLevel_takes p h)

theorem expression_of_sum (hb : Begins ts) (h : Takes (sumLevel p) ts (Ends 4) post) :
    Takes (expression p) ts (Ends 10) post :=
  expression_of_other p hb (otherLevel_takes p h)

theorem expression_of_product (hb : Begins ts) (h : Takes (productLevel p) ts (Ends 3) post) :
    Takes (expression p) ts (Ends 10) post :=
  expression_of_sum p hb (sumLevel_takes p h)

theorem expression_of_power (hb : Begins ts) (h : Takes (powerLevel p) ts (Ends 2) post) :
    Takes (expression p) ts (Ends 10) post :=
  expression_of_product p hb (productLevel_takes p h)

end Lifting

section Operations

variable {j : Nat} {t : Token} {left right : Expr → Prop}

/-- One operator of a level, between two operands of the level below. -/
theorem binaryLevel_takes {op? : Option Token → Option String} {operand : Parser Expr} {op : String}
    (ht : op? (some t) = some op) (hj : j < t.level) (hjk : j ≤ k)
    (hend : ∀ o, Ends k o → op? o = none)
    (hl : Takes operand ts (Ends j) left) (hr : Takes operand us (Ends j) right)
    (hpost : ∀ a b, left a → right b → post (.binary op a b)) :
    Takes (operand >>= binaryFrom op? operand) (ts ++ t :: us) (Ends k) post := by
  refine hl.bind (fun a ha => Iterates.takes ?_) fun _ _ => by rintro _ ⟨⟩; exact hj
  rw [← List.append_nil (t :: us)]
  refine .again (Ends k) post (by simp) ?_ ?_ fun _ ho => ho
  · refine .peek_cons ?_
    rw [ht]
    refine .skip ((hr.before fun o ho => Ends.mono ho hjk).map fun b hb => ⟨_, rfl, hpost a b ha hb⟩)
  · intro b hb
    refine .stop (.peek fun o ho => ?_) hb
    rw [ahead_nil, hend o ho]
    exact .pure rfl

theorem comparison_takes {op : String} (ht : t = .symbol op)
    (hop : op ∈ ["=", "<>", "!=", "<=", ">=", "<", ">"])
    (hl : Takes (predicateLevel p) ts (Ends 6) left) (hr : Takes (predicateLevel p) us (Ends 6) right)
    (hpost : ∀ a b, left a → right b → post (.comparison op a b)) :
    Takes (comparisonLevel p) (ts ++ t :: us) (Ends 7) post := by
  subst ht
  refine hl.bind (fun a ha => .peek_cons ?_) fun _ _ => ?_
  · have hin : operatorIn ["=", "<>", "!=", "<=", ">=", "<", ">"] (some (.symbol op)) = some op := by
      simp only [operatorIn, List.contains_iff_mem.mpr hop, if_true]
    rw [hin]
    exact .skip ((hr.before fun o ho => Ends.mono ho (by decide)).map fun b hb => hpost a b ha hb)
  · rintro _ ⟨⟩
    have hlevel : ∀ op ∈ ["=", "<>", "!=", "<=", ">=", "<", ">"], 6 < (Token.symbol op).level := by
      decide
    exact hlevel op hop

open Lexer (nameToken)

theorem predicateFrom_takes {follow : Option Token → Prop} (ht : isKeyword "not" (some t) = false)
    (h : Takes (predicate? p false e) (t :: ts) follow fun o => ∃ b, o = some b ∧ post b) :
    Takes (predicateFrom p e) (t :: ts) follow post := by
  refine .noKeyword (fun _ _ => ht) (h.map ?_)
  rintro _ ⟨b, rfl, hb⟩
  exact hb

theorem predicateFrom_not {follow : Option Token → Prop}
    (h : Takes (predicate? p true e) ts follow fun o => ∃ b, o = some b ∧ post b) :
    Takes (predicateFrom p e) (nameToken "NOT" :: ts) follow post := by
  refine .withKeyword rfl ?_
  rw [← List.append_nil ts]
  refine h.bind (fun o ho => ?_) fun _ ho => ho
  obtain ⟨b, rfl, hb⟩ := ho
  exact .pure hb

/-- The words of a predicate between two operands. -/
def predicateWords : Predicate → List Token
  | .like => [nameToken "LIKE"]
  | .ilike => [nameToken "ILIKE"]
  | .similarTo => [nameToken "SIMILAR", nameToken "TO"]
  | .distinctFrom => []

theorem predicate?_takes {pr : Predicate} (hpr : pr ≠ .distinctFrom) (negated : Bool)
    (h : Takes (otherLevel p) us (Ends 5) right) :
    Takes (predicate? p negated e) (predicateWords pr ++ us) (Ends 6) fun o =>
      ∃ b, o = some b ∧ ∃ a, right a ∧ b = .predicate negated pr e a := by
  have h := h.before fun o (ho : Ends 6 o) => ho.mono (by decide)
  cases pr with
  | distinctFrom => contradiction
  | like =>
    refine .noKeyword (fun _ _ => rfl) (.noKeyword (fun _ _ => rfl) (.withKeyword rfl ?_))
    exact h.map fun a ha => ⟨_, rfl, a, ha, rfl⟩
  | ilike =>
    refine .noKeyword (fun _ _ => rfl) (.noKeyword (fun _ _ => rfl) ?_)
    refine .noKeyword (fun _ _ => rfl) (.withKeyword rfl ?_)
    exact h.map fun a ha => ⟨_, rfl, a, ha, rfl⟩
  | similarTo =>
    refine .noKeyword (fun _ _ => rfl) (.noKeyword (fun _ _ => rfl) ?_)
    refine .noKeyword (fun _ _ => rfl) (.noKeyword (fun _ _ => rfl) (.withKeyword rfl ?_))
    exact .keyword rfl (h.map fun a ha => ⟨_, rfl, a, ha, rfl⟩)

/-- The word in front of a negated test. -/
def negation (negated : Bool) : List Token := if negated then [nameToken "NOT"] else []

theorem predicateLevel_of (ws : List Token) (negated : Bool) {follow : Option Token → Prop}
    (hw : ∃ t more, ws = t :: more ∧ isKeyword "not" (some t) = false ∧ 5 < t.level)
    (hl : Takes (otherLevel p) ts (Ends 5) left)
    (h : ∀ a, left a → Takes (predicate? p negated a) ws follow fun o => ∃ b, o = some b ∧ post b) :
    Takes (predicateLevel p) (ts ++ (negation negated ++ ws)) follow post := by
  obtain ⟨t, more, rfl, ht, hlevel⟩ := hw
  cases negated with
  | false =>
    refine hl.bind (fun a ha => predicateFrom_takes p ht (h a ha)) fun _ _ => ?_
    rintro _ ⟨⟩
    exact hlevel
  | true =>
    refine hl.bind (fun a ha => predicateFrom_not p (h a ha)) fun _ _ => ?_
    rintro _ ⟨⟩
    decide

/-- Membership in a list. The first member is read where a query might stand. -/
theorem membership_takes {ι : Type} {R : ι → Expr → Prop} {x : ι} {xs : List ι}
    {tss : List (List Token)} (negated : Bool)
    (hfirst : Takes p.group ts (OrSign "," (· = some (.symbol ")"))) fun g =>
      ∃ a, g = .expr a ∧ R x a)
    (hrest : List.Forall₂ (fun x ts => Takes p.expr ts (OrSign "," (· = some (.symbol ")"))) (R x))
      xs tss) (follow : Option Token → Prop) :
    Takes (predicate? p negated e)
      (nameToken "IN" :: .symbol "(" :: (commaTokens (ts :: tss) ++ [.symbol ")"])) follow fun o =>
      ∃ b, o = some b ∧ ∃ as, List.Forall₂ R (x :: xs) as ∧
        b = .inList negated e (.ofList as) := by
  refine .noKeyword (fun _ _ => rfl) (.withKeyword rfl ?_)
  suffices h : Takes (membership p negated e) (.symbol "(" :: (commaTokens (ts :: tss) ++ [.symbol ")"]))
      follow fun b => ∃ as, List.Forall₂ R (x :: xs) as ∧ b = .inList negated e (.ofList as) from
    h.map fun b hb => ⟨b, rfl, hb⟩
  refine .symbol rfl ?_
  rw [commaTokens_cons, List.append_assoc]
  refine hfirst.bind (fun g hg => ?_) fun _ _ => ?_
  · obtain ⟨a, rfl, ha⟩ := hg
    have hmore := more_takes (by rintro _ rfl; rfl) hrest (.cons ha .nil)
    refine hmore.bind (fun as has => ?_) fun _ _ => rfl
    exact .symbol rfl (.pure ⟨as, has, rfl⟩)
  · cases tss with
    | nil => exact .inr rfl
    | cons => exact .inl rfl

/-- The words of a test of one operand. -/
def testWords : Test → Token
  | .isNull => nameToken "NULL"
  | .isTrue => nameToken "TRUE"
  | .isFalse => nameToken "FALSE"

theorem testFrom_step {ws : List Token} {follow : Option Token → Prop}
    (h : Takes (isTest p e) ws follow post) (hf : ∀ o, Ends 8 o → follow o) :
    Takes (testFrom p e) (nameToken "IS" :: ws) (Ends 8) post := by
  refine Iterates.takes ?_
  rw [← List.append_nil (_ :: ws)]
  refine .again _ post (by simp) (.withKeyword rfl (h.map fun b hb => ⟨b, rfl, hb⟩))
    (fun b hb => ?_) fun o ho => hf o ho
  refine .stop (.noKeyword (fun _ ho => ho.isKeyword (by decide)) ?_) hb
  exact .noKeyword (fun _ ho => ho.isKeyword (by decide))
    (.noKeyword (fun _ ho => ho.isKeyword (by decide)) (.pure rfl))

theorem isTest_takes (negated : Bool) (test : Test) (follow : Option Token → Prop) :
    Takes (isTest p e) (negation negated ++ [testWords test]) follow
      (· = .test negated test e) := by
  cases negated with
  | false =>
    cases test with
    | isNull => exact .noKeyword (fun _ _ => rfl) (.withKeyword rfl (.pure rfl))
    | isTrue =>
      refine .noKeyword (fun _ _ => rfl) (.noKeyword (fun _ _ => rfl) ?_)
      exact .withKeyword rfl (.pure rfl)
    | isFalse =>
      refine .noKeyword (fun _ _ => rfl) (.noKeyword (fun _ _ => rfl) ?_)
      exact .noKeyword (fun _ _ => rfl) (.withKeyword rfl (.pure rfl))
  | true =>
    cases test with
    | isNull => exact .withKeyword rfl (.withKeyword rfl (.pure rfl))
    | isTrue => exact .withKeyword rfl (.noKeyword (fun _ _ => rfl) (.withKeyword rfl (.pure rfl)))
    | isFalse =>
      refine .withKeyword rfl (.noKeyword (fun _ _ => rfl) ?_)
      exact .noKeyword (fun _ _ => rfl) (.withKeyword rfl (.pure rfl))

theorem isTest_distinct (negated : Bool) (h : Takes (comparisonLevel p) us (Ends 7) right) :
    Takes (isTest p e) (negation negated ++ nameToken "DISTINCT" :: nameToken "FROM" :: us) (Ends 8)
      fun b => ∃ a, right a ∧ b = .predicate negated .distinctFrom e a := by
  have h : Takes (do return Tree.predicate negated .distinctFrom e (← comparisonLevel p)) us (Ends 8)
      fun b => ∃ a, right a ∧ b = .predicate negated .distinctFrom e a :=
    (h.before fun o ho => Ends.mono ho (by decide)).map fun a ha => ⟨a, ha, rfl⟩
  have hwords : List.Forall₂ (fun w t => isKeyword w (some t) = true) ["distinct", "from"]
      [nameToken "DISTINCT", nameToken "FROM"] := .cons rfl (.cons rfl .nil)
  have h := Takes.keywords (f := fun _ => _) hwords h
  cases negated with
  | false =>
    refine .noKeyword (fun _ _ => rfl) (.noKeyword (fun _ _ => rfl) ?_)
    refine .noKeyword (fun _ _ => rfl) (.noKeyword (fun _ _ => rfl) ?_)
    exact h
  | true =>
    refine .withKeyword rfl (.noKeyword (fun _ _ => rfl) ?_)
    refine .noKeyword (fun _ _ => rfl) (.noKeyword (fun _ _ => rfl) ?_)
    exact h

theorem testLevel_of {ws : List Token} (hl : Takes (comparisonLevel p) ts (Ends 7) left)
    (h : ∀ a, left a → Takes (isTest p a) ws (Ends 8) post) :
    Takes (testLevel p) (ts ++ nameToken "IS" :: ws) (Ends 8) post := by
  refine hl.bind (fun a ha => testFrom_step p (h a ha) fun _ ho => ho) fun _ _ => ?_
  rintro _ ⟨⟩
  decide

/-- Operands with a connective between them. Its keyword may be spelled differently each time. -/
theorem connectedLevel_takes_words {ι : Type} {holds : ι → Expr → Prop} {w : String}
    {op : Connective} {operand : Parser Expr} {x : ι} {xs : List ι} {uss : List (List Token)}
    (hj : j < (wordLevels.lookup w).getD 11) (hk : (wordLevels.lookup w).getD 11 ≤ k) (hjk : j ≤ k)
    (hfirst : Takes operand ts (Ends j) (holds x))
    (hrest : List.Forall₂ (fun x us => ∃ t ts, us = t :: ts ∧ isKeyword w (some t) = true ∧
      Takes operand ts (Ends j) (holds x)) xs uss) :
    Takes (operand >>= connectedFrom w op operand) (ts ++ uss.flatten) (Ends k) fun e =>
      ∃ a as, List.Forall₂ holds (x :: xs) (a :: as) ∧ e = as.foldl (.connected op) a := by
  have hlevel : ∀ t, isKeyword w (some t) = true → j < t.level := by
    intro t ht
    cases t with
    | keyword v text =>
      obtain rfl : v = w := by simpa [isKeyword] using ht
      exact hj
    | _ => cases ht
  have hahead : ∀ {xs : List ι} {uss : List (List Token)},
      List.Forall₂ (fun x us => ∃ t ts, us = t :: ts ∧ isKeyword w (some t) = true ∧
        Takes operand ts (Ends j) (holds x)) xs uss →
      ∀ o, Ends k o → Ends j (ahead uss.flatten o) := by
    intro xs uss h o ho
    cases h with
    | nil => exact ho.mono hjk
    | cons h =>
      obtain ⟨t, ts, rfl, ht, -⟩ := h
      rintro _ ⟨⟩
      exact hlevel t ht
  refine hfirst.bind (fun a ha => ?_) (hahead hrest)
  suffices hchain : ∀ b, Takes (connectedFrom w op operand b) uss.flatten (Ends k) fun e =>
      ∃ as, List.Forall₂ holds xs as ∧ e = as.foldl (.connected op) b from
    (hchain a).mono (fun _ ho => ho) fun e ⟨as, has, he⟩ => ⟨a, as, .cons ha has, he⟩
  intro b
  refine Iterates.takes ?_
  induction hrest generalizing b with
  | nil => exact .stop (.noKeyword (fun _ ho => ho.isKeyword hk) (.pure rfl)) ⟨[], .nil, rfl⟩
  | @cons y us ys uss hy hys ih =>
    obtain ⟨t, ts, rfl, ht, hy⟩ := hy
    rw [List.flatten_cons]
    refine .again (Ends j) (fun c => ∃ d, holds y d ∧ c = .connected op b d) (by simp)
      (.withKeyword ht (hy.map fun d hd => ⟨_, rfl, d, hd, rfl⟩)) ?_ (hahead hys)
    rintro _ ⟨d, hd, rfl⟩
    exact (ih _).mono fun c ⟨as, has, he⟩ => ⟨d :: as, .cons hd has, he⟩

theorem connectedLevel_takes {ι : Type} {holds : ι → Expr → Prop} {w : String} {op : Connective}
    {operand : Parser Expr} {x : ι} {xs : List ι} {tss : List (List Token)}
    (hw : isKeyword w (some t) = true) (hj : j < (wordLevels.lookup w).getD 11)
    (hk : (wordLevels.lookup w).getD 11 ≤ k) (hjk : j ≤ k)
    (hfirst : Takes operand ts (Ends j) (holds x))
    (hrest : List.Forall₂ (fun x ts => Takes operand ts (Ends j) (holds x)) xs tss) :
    Takes (operand >>= connectedFrom w op operand) (ts ++ tss.flatMap (t :: ·)) (Ends k) fun e =>
      ∃ a as, List.Forall₂ holds (x :: xs) (a :: as) ∧ e = as.foldl (.connected op) a := by
  rw [List.flatMap_def]
  refine connectedLevel_takes_words hj hk hjk hfirst (List.forall₂_map_right_iff.mpr ?_)
  exact hrest.imp fun _ ts h => ⟨t, ts, rfl, hw, h⟩

end Operations

end Syntax.Parser

end SqlTree

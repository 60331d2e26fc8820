import SqlTree.Proofs.RoundTrip.Levels
import SqlTree.Proofs.RoundTrip.PlainName

/-!
The operands of expressions: literals, columns, and expressions in parentheses. An expression in
parentheses is recognised as such where a query might stand as well.
-/

namespace SqlTree

namespace Syntax.Parser

open Lexer (nameToken)

variable (p : Nested) {ts us : List Token} {t : Token} {post : Expr → Prop}
  {follow : Option Token → Prop}

theorem unary_takes (ht : sign? (some t) = none) (h : Takes (primary p) (t :: ts) (Ends 0) post) :
    Takes (unary p) (t :: ts) (Ends 0) post := by
  have hs : Takes signs [] (· = some t) (· = []) :=
    Iterates.takes (.stop (.peek (by rintro _ rfl; rw [ahead_nil, ht]; exact .pure rfl)) rfl)
  refine hs.nothing_bind ?_ fun _ _ => rfl
  rintro _ rfl
  exact h.andThen (fun _ he => (postfixFrom_passes p he).map fun _ => id) fun _ ho => ho

theorem number_takes (digits : String) :
    Takes (unary p) [.number digits] (Ends 0) (· = .number digits) :=
  unary_takes p rfl (.peek_cons (.skip (.pure rfl)))

theorem string_takes (quoted : String) :
    Takes (unary p) [.string quoted] (Ends 0) (· = .string quoted) :=
  unary_takes p rfl (.peek_cons (.skip (.pure rfl)))

theorem true_takes : Takes (unary p) [nameToken "TRUE"] (Ends 0) (· = .boolean true) :=
  unary_takes p rfl (.peek_cons (.skip (.pure rfl)))

theorem false_takes : Takes (unary p) [nameToken "FALSE"] (Ends 0) (· = .boolean false) :=
  unary_takes p rfl (.peek_cons (.skip (.pure rfl)))

theorem negative_takes (digits : String) :
    Takes (unary p) [.symbol "-", .number digits] (Ends 0) (· = .negate (.number digits)) := by
  have hs : Takes signs ([.symbol "-"] ++ []) (· = some (.number digits)) (· = [.negate]) := by
    refine Iterates.takes (.again (fun _ => True) (· = [.negate]) (by simp) ?_ ?_
      fun _ _ => trivial)
    · exact .peek_cons (.skip (.pure ⟨_, rfl, rfl⟩))
    · rintro _ rfl
      exact .stop (.peek (by rintro _ rfl; exact .pure rfl)) rfl
  have hn : Takes (primary p) [.number digits] (Ends 0) (· = .number digits) :=
    .peek_cons (.skip (.pure rfl))
  refine Takes.bind hs ?_ fun _ _ => rfl
  rintro _ rfl
  refine hn.andThen ?_ fun _ ho => ho
  rintro _ rfl
  have hpost : Takes (postfixFrom p (.number digits)) [] (Ends 0) (· = .number digits) :=
    postfixFrom_passes p rfl
  exact hpost.map fun e he => congrArg Tree.negate he

theorem name_takes (q : String) : Takes name [.name q] follow (· = bare q) :=
  .peek_cons (.skip (.pure rfl))

theorem path_takes (q : String) (qs : List String)
    (hdot : ∀ o, follow o → isSymbol "." o = false) :
    Takes path (pathTokens (q :: qs)) follow (· = (q :: qs).map bare) := by
  have hqs : List.Forall₂ (fun q ts => Takes name ts (OrSign "." follow) (· = bare q)) qs
      (qs.map fun q => [.name q]) :=
    List.forall₂_map_right_iff.mpr (List.forall₂_same.mpr fun q _ => name_takes q)
  have hq : Takes name [.name q] (OrSign "." follow) (· = bare q) := name_takes q
  refine hq.bind (fun n hn => ?_) fun _ ho => ?_
  · have hone : List.Forall₂ (fun q n => n = bare q) [q] [n] := .cons hn .nil
    refine (more_takes hdot hqs hone).mono (fun _ ho => ho) fun ns hns => ?_
    rw [← List.forall₂_eq_eq_eq]
    exact List.forall₂_map_right_iff.mpr hns.flip
  · exact .ahead ho _

/-- A name is no typed literal unless a string follows it. -/
theorem typedLiteral?_bind {α : Type} {f : Option Expr → Parser α} {post : α → Prop}
    (hs : ∀ o, follow o → ∀ quoted, ahead ts o ≠ some (.string quoted))
    (h : Takes (f none) (t :: ts) follow post) :
    Takes (typedLiteral? >>= f) (t :: ts) follow post := by
  rw [typedLiteral?]
  simp only [bind_assoc]
  refine .peek_cons (.peekSecond fun o ho => ?_)
  split
  · next quoted _ hq => exact absurd hq (hs o ho quoted)
  · exact h.before fun _ he => he ▸ ho

/-- A path that no parenthesis follows is not called. -/
theorem callOrPath_takes {α : Type} {called : Expr → Parser α} {other : Path → Parser α}
    {post : α → Prop} {follow' : Option Token → Prop} (q : String) (qs : List String)
    (hdot : ∀ o, follow o → isSymbol "." o = false) (hcall : ∀ o, follow o → isSymbol "(" o = false)
    (h : Takes (other ((q :: qs).map bare)) us follow' post)
    (hs : ∀ o, follow' o → follow (ahead us o)) :
    Takes (callOrPath p called other) (pathTokens (q :: qs) ++ us) follow' post := by
  refine .peek_cons (.get fun ls => ?_)
  refine (path_takes q qs hdot).bind (fun path hp => ?_) hs
  subst hp
  refine .notAtSymbol (fun o ho => hcall _ (hs o ho)) ?_
  rw [Bool.and_false]
  exact h

theorem column_takes (q : String) (qs : List String) :
    Takes (unary p) (pathTokens (q :: qs)) (Ends 0) (· = .column ((q :: qs).map bare)) := by
  refine unary_takes p rfl (.peek_cons ?_)
  change Takes (named p) _ _ _
  refine typedLiteral?_bind (fun o ho quoted => ?_) ?_
  · cases qs with
    | nil => rintro rfl; exact absurd (ho _ rfl) (Nat.lt_irrefl 0)
    | cons => rintro ⟨⟩
  · have h : Takes (callOrPath p pure fun path => pure (Tree.column path)) (pathTokens (q :: qs) ++ [])
        (Ends 0) (· = .column ((q :: qs).map bare)) :=
      callOrPath_takes p q qs (fun _ ho => Ends.isSymbol ho (by decide))
        (fun _ ho => Ends.isSymbol ho (by decide)) (.pure rfl) fun _ ho => ho
    rw [List.append_nil] at h
    exact h

theorem closeGroup_takes {e : Expr} :
    Takes (closeGroup p e) [.symbol ")"] (Ends 0) (· = .paren e) := by
  refine .noSymbol (fun _ _ => rfl) (.symbol rfl ?_)
  exact .noSymbol (fun _ ho => ho.isSymbol (by decide)) (.pure rfl)

theorem paren_takes (h : Takes p.group ts (· = some (.symbol ")")) fun g =>
      ∃ a, g = .expr a ∧ post a) :
    Takes (unary p) (.symbol "(" :: (ts ++ [.symbol ")"])) (Ends 0) fun e =>
      ∃ a, post a ∧ e = .paren a := by
  refine unary_takes p rfl (.peek_cons (.skip ?_))
  refine h.bind (fun g hg => ?_) fun _ _ => rfl
  obtain ⟨a, rfl, ha⟩ := hg
  exact (closeGroup_takes p).mono (fun _ => id) fun e he => ⟨a, ha, he⟩

/-- Keywords that start no expression. -/
def otherStarts : List String := ["not", "select", "with", "all", "distinct", "on"]

/-- Tokens that an expression may start with where a query might stand as well. -/
inductive Opens : List Token → Prop
  | word {t : Token} {ts : List Token} :
      (∀ w ∈ otherStarts, isKeyword w (some t) = false) →
      (∀ s ∈ ["(", "*"], isSymbol s (some t) = false) → Opens (t :: ts)
  | paren {ts : List Token} (more : List Token) :
      Takes p.group ts (· = some (.symbol ")")) (fun g => ∃ a, g = .expr a) →
      Opens (.symbol "(" :: (ts ++ .symbol ")" :: more))

variable {p}

theorem Opens.begins (h : Opens p ts) : Begins ts := by
  cases h with
  | word hw => exact ⟨_, _, rfl, hw "not" (by decide)⟩
  | paren => exact ⟨_, _, rfl, rfl⟩

theorem Opens.isKeyword {w : String} (h : Opens p ts) (hw : w ∈ otherStarts) (o : Option Token) :
    isKeyword w (ahead ts o) = false := by
  cases h with
  | word hws => exact hws w hw
  | paren => rfl

theorem Opens.not_star (h : Opens p ts) (o : Option Token) :
    isSymbol "*" (ahead ts o) = false := by
  cases h with
  | word _ hs => exact hs _ (by simp)
  | paren => rfl

theorem Opens.append (h : Opens p ts) (us : List Token) : Opens p (ts ++ us) := by
  cases h with
  | word hw hp => exact .word hw hp
  | paren more hg =>
    rw [List.cons_append, List.append_assoc]
    exact .paren (more ++ us) hg

/-- An expression in parentheses is the first operand of an expression. -/
theorem expression_paren (gap : List Char) (ls : List Lexeme) :
    expression p (⟨gap, .symbol "("⟩ :: ls) = (parenthesised p >>= expressionFrom p) ls := by
  have hn : negations (⟨gap, .symbol "("⟩ :: ls) = .ok (0, ⟨gap, .symbol "("⟩ :: ls) := rfl
  have hs : signs (⟨gap, .symbol "("⟩ :: ls) = .ok ([], ⟨gap, .symbol "("⟩ :: ls) := rfl
  have hp : primary p (⟨gap, .symbol "("⟩ :: ls) = parenthesised p ls := rfl
  simp only [expression, andLevel, notLevel, testLevel, comparisonLevel, predicateLevel, otherLevel,
    sumLevel, productLevel, powerLevel, zoneLevel, bind_assoc]
  rw [bind_run hn]
  simp only [unary, bind_assoc]
  rw [bind_run hs]
  change _ = (parenthesised p >>= fun e => expressionFrom p e) ls
  simp only [expressionFrom, pure_bind, Nat.repeat, List.foldr_nil]
  change (primary p _).bind _ = (parenthesised p ls).bind _
  rw [hp]
  rfl

/-- Tokens of an expression where a query might stand as well: no query starts with them, or an
expression in parentheses does. -/
inductive OpensGroup (p : Nested) : List Token → Prop
  | word {t : Token} {ts : List Token} : (∀ w ∈ ["select", "with"], isKeyword w (some t) = false) →
      isSymbol "(" (some t) = false → OpensGroup p (t :: ts)
  | paren {ts : List Token} (more : List Token) :
      Takes p.group ts (· = some (.symbol ")")) (fun g => ∃ a, g = .expr a) →
      OpensGroup p (.symbol "(" :: (ts ++ .symbol ")" :: more))

theorem Opens.opensGroup (h : Opens p ts) : OpensGroup p ts := by
  cases h with
  | word hw hp =>
    have hwords : ∀ w ∈ ["select", "with"], w ∈ otherStarts := by decide
    exact .word (fun w hmem => hw w (hwords w hmem)) (hp "(" (by simp))
  | paren more hg => exact .paren more hg

theorem OpensGroup.append (h : OpensGroup p ts) (us : List Token) : OpensGroup p (ts ++ us) := by
  cases h with
  | word hw hp => exact .word hw hp
  | paren more hg =>
    rw [List.cons_append, List.append_assoc]
    exact .paren (more ++ us) hg

theorem OpensGroup.takes (hb : OpensGroup p ts) (h : Takes (expression p) ts follow post) :
    Takes (group p) ts follow fun g => ∃ a, g = .expr a ∧ post a := by
  cases hb with
  | word hw hp =>
    refine .peek_cons ?_
    rw [hw "select" (by decide), hw "with" (by decide)]
    exact .noSymbol (fun _ _ => hp) (h.map fun a ha => ⟨a, rfl, ha⟩)
  | @paren ts more hg =>
    intro ls rest hls hr
    obtain ⟨⟨gap, t⟩, ms, rfl, rfl, hms⟩ := List.map_eq_cons_iff.mp hls
    obtain ⟨ms, ns, rfl, hts, hns⟩ := List.map_eq_append_iff.mp hms
    obtain ⟨_, hgroup, a, rfl⟩ := hg ms (ns ++ rest) hts (by rw [next_append hns]; rfl)
    obtain ⟨e, he, hpost⟩ := h _ rest hls hr
    refine ⟨.expr e, ?_, e, rfl, hpost⟩
    rw [List.cons_append, List.append_assoc] at he ⊢
    have hrest : (closeGroup p a >>= expressionFrom p) (ns ++ rest) = .ok (e, rest) := by
      rw [← he, expression_paren, parenthesised, bind_assoc, bind_run hgroup]
    have hpeek : peek (⟨gap, .symbol "("⟩ :: (ms ++ (ns ++ rest))) =
        .ok (some (.symbol "("), ⟨gap, .symbol "("⟩ :: (ms ++ (ns ++ rest))) := rfl
    have htake : takeSymbol "(" (⟨gap, .symbol "("⟩ :: (ms ++ (ns ++ rest))) =
        .ok (true, ms ++ (ns ++ rest)) := rfl
    rw [group, bind_run hpeek]
    simp only [isKeyword, Bool.or_self, Bool.false_eq_true, if_false]
    rw [bind_run htake]
    simp only [if_true]
    rw [bind_run hgroup]
    change (closeGroup p a >>= fun e => expressionFrom p e >>= fun e => pure (Group.expr e))
      (ns ++ rest) = _
    rw [← bind_assoc, bind_run hrest]
    rfl

theorem group_takes (hb : Opens p ts) (h : Takes (expression p) ts follow post) :
    Takes (group p) ts follow fun g => ∃ a, g = .expr a ∧ post a :=
  hb.opensGroup.takes h

section Stars

/-- The tokens start with no path that ends in a star. -/
def Starless (ts : List Token) : Prop :=
  ∀ ls rest, ls.map Lexeme.token = ts → Ends 0 (next rest) → startsStar (ls ++ rest) = false

theorem startsStar_of_not_name {l : Lexeme} (h : isName (some l.token) = false)
    (rest : List Lexeme) : startsStar (l :: rest) = false := by
  rw [startsStar.eq_def]
  split
  · next heq =>
    cases heq
    rw [h, Bool.false_and]
  · rfl

theorem starless_of_not_name (ht : isName (some t) = false) (ts : List Token) :
    Starless (t :: ts) := by
  intro ls rest hls _
  obtain ⟨l, ms, rfl, rfl, -⟩ := List.map_eq_cons_iff.mp hls
  exact startsStar_of_not_name ht _

theorem Starless.append (h : Starless ts) (ht : 0 < t.level) (us : List Token) :
    Starless (ts ++ t :: us) := by
  intro ls rest hls _
  obtain ⟨ls, ms, rfl, hts, hus⟩ := List.map_eq_append_iff.mp hls
  rw [List.append_assoc]
  refine h ls (ms ++ rest) hts ?_
  rw [next_append hus]
  rintro _ ⟨⟩
  exact ht

theorem startsStar_of_not_dot {l : Lexeme} {rest : List Lexeme}
    (h : next rest ≠ some (.symbol ".")) : startsStar (l :: rest) = false := by
  rw [startsStar.eq_def]
  split
  · next heq =>
    cases heq
    exact absurd rfl h
  · rfl

theorem starless_path (q : String) (qs : List String) : Starless (pathTokens (q :: qs)) := by
  intro ls rest hls hr
  induction qs generalizing q ls with
  | nil =>
    obtain ⟨l, rfl, -⟩ := List.map_eq_singleton_iff.mp hls
    refine startsStar_of_not_dot fun hdot => ?_
    exact absurd (hr _ hdot) (Nat.lt_irrefl 0)
  | cons r rs ih =>
    rw [pathTokens_cons_cons] at hls
    obtain ⟨⟨_, _⟩, ms, rfl, rfl, hms⟩ := List.map_eq_cons_iff.mp hls
    obtain ⟨⟨_, _⟩, ns, rfl, rfl, hns⟩ := List.map_eq_cons_iff.mp hms
    have htail := ih r ns hns
    obtain ⟨⟨_, _⟩, ks, rfl, rfl, -⟩ := List.map_eq_cons_iff.mp hns
    rw [List.cons_append] at htail
    rw [List.cons_append, List.cons_append, List.cons_append, startsStar, htail]
    rfl

end Stars

end Syntax.Parser

end SqlTree

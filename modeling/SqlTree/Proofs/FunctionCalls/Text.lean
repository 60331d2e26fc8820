import SqlTree.Proofs.FunctionCalls.Arguments
import SqlTree.Proofs.FunctionCalls.Names
import SqlTree.Proofs.Grammar.Calls

/-!
Calls of functions as values and as text: what they are read as, what that is written to, and what
is read from it. Nothing is known here but that the arguments come back.
-/

namespace SqlTree

open Syntax (Reads Expr Name Nested Arguments Operand headed)
open Lexer (Lexed Spells nameToken)
open Render (Gives Writes)
open Syntax.Parser

/-- A call without a filter and a window. -/
structure FunctionCall where
  head : List String
  marks : Arguments
  items : List Expr
  starred : marks = .star → items = []
  distinct : marks = .distinct → items ≠ []

namespace FunctionCall

def tree (c : FunctionCall) : Expr := .call c.head c.marks (.ofList c.items) .absent .absent

/-- A call as a value, with the values of its arguments. -/
def valueOf (head : List String) (marks : Arguments) (vs : List Value) : Value :=
  headed (Syntax.Reading.callHead head marks) (if marks = .star then [.text "*"] else vs)

/-- The tokens between the parentheses, with those of the arguments. -/
def argumentTokens (marks : Arguments) (tss : List (List Token)) : List Token :=
  match marks with
  | .all => commaTokens tss
  | .distinct => nameToken "DISTINCT" :: commaTokens tss
  | .star => [.symbol "*"]

section Reading

variable {c : FunctionCall} {vs : List Value}

theorem means (h : List.Forall₂ Syntax.Means c.items vs) :
    Syntax.Means c.tree (valueOf c.head c.marks vs) := by
  have hitems : Reads (Syntax.Reading.callItems c.marks (Syntax.Tree.ofList c.items).read)
      (if c.marks = .star then [.text "*"] else vs) := by
    unfold Syntax.Reading.callItems
    split
    · exact .pure _
    · generalize c.items = es at h
      cases h with
      | nil => exact .pure []
      | cons he hes => exact Syntax.Reading.values_reads (.cons he hes)
  have hfilter : Reads ((none : Option Operand).mapM Operand.value) none := .pure none
  have hwindow : Reads ((none : Option (Syntax.Read (Option Value))).mapM id) none := .pure none
  refine .visit (hitems.bind (hfilter.bind (hwindow.bind ?_)))
  exact .pure _

end Reading

section Parsing

variable {n : Nat} {p : Nested} {follow : Option Token → Prop}

theorem callWord_takes {t : Token} {m : Name} (h : callName? t = some m) :
    Takes callWord [t] follow (· = m) := by
  rw [callWord_eq]
  intro ls rest hls _
  obtain ⟨l, rfl, rfl⟩ := List.map_eq_singleton_iff.mp hls
  exact ⟨m, by simp [single, h], rfl⟩

theorem exists_callName {q : String} (h : IsFunctionPart q)
    (hfree : q ∈ Token.keywords → q ∈ "left" :: "right" :: Token.unreserved) :
    ∃ m, callName? (nameToken (Text.upper q)) = some m ∧ Text.lower m.text = q := by
  rw [h.nameToken_upper]
  split
  · next hkey =>
    refine ⟨⟨Text.upper q, false⟩, ?_, h.lower_upper⟩
    rw [callName?]
    split
    · rfl
    · next hcall =>
      have hun : q ∈ Token.unreserved := by
        simp only [isCallWord, isKeyword, Bool.or_eq_true, decide_eq_true_eq, not_or] at hcall
        have hmem := hfree (List.contains_iff_mem.mp hkey)
        simp only [List.mem_cons] at hmem
        rcases hmem with rfl | rfl | hmem
        · exact absurd rfl hcall.1
        · exact absurd rfl hcall.2
        · exact hmem
      exact if_pos (List.contains_iff_mem.mpr hun)
  · exact ⟨⟨Text.upper q, false⟩, rfl, h.lower_upper⟩

theorem exists_name {q : String} (h : IsFunctionPart q)
    (hfree : q ∈ Token.keywords → q ∈ Token.unreserved) :
    ∃ m, nameOf? (nameToken (Text.upper q)) = some m ∧ Text.lower m.text = q := by
  rw [h.nameToken_upper]
  refine ⟨⟨Text.upper q, false⟩, ?_, h.lower_upper⟩
  split
  · next hkey => exact if_pos (List.contains_iff_mem.mpr (hfree (List.contains_iff_mem.mp hkey)))
  · rfl

theorem exists_headTokens {head : List String} (h : IsFunctionName head) :
    ∃ t ts m, headTokens head = t :: ts ∧ callName? t = some m := by
  cases h with
  | plain hq hfree =>
    obtain ⟨m, hm, -⟩ := exists_callName hq hfree
    exact ⟨_, _, m, rfl, hm⟩
  | qualified hq _ hfree _ =>
    obtain ⟨m, hm, -⟩ := exists_callName hq hfree
    exact ⟨_, _, m, rfl, hm⟩

/-- The path that a name stands for. -/
def Named (head : List String) (path : Syntax.Path) : Prop :=
  path.map (fun m => Text.lower m.text) = head

theorem callHead_takes {head : List String} (h : IsFunctionName head) :
    Takes callHead (headTokens head) (isSymbol "." · = false) (Named head) := by
  cases h with
  | @plain q hq hfree =>
    obtain ⟨m, hm, hlower⟩ := exists_callName hq hfree
    refine (callWord_takes hm).andThen ?_ fun _ ho => ho
    rintro _ rfl
    refine .noSymbol (fun _ ho => ho) (.pure ?_)
    rw [Named, List.map_singleton, hlower]
  | @qualified q r hq hr hfree hfree' =>
    obtain ⟨m, hm, hlower⟩ := exists_callName hq hfree
    obtain ⟨k, hk, hlower'⟩ := exists_name hr hfree'
    refine Takes.bindAny (callWord_takes hm) ?_
    rintro _ rfl
    refine .withSymbol rfl ((name_takes_token hk).map ?_)
    rintro _ rfl
    rw [Named, List.map_cons, List.map_singleton, hlower, hlower']

theorem path_takes_head {head : List String} {t : Token} {us : List Token}
    (h : IsFunctionName head) (hts : headTokens head = t :: us) (ht : isCallWord (some t) = false) :
    Takes Syntax.Parser.path (headTokens head) (isSymbol "." · = false) (Named head) := by
  have hname : ∀ {m : Name}, callName? t = some m → nameOf? t = some m := by
    intro m hm
    rwa [callName?, if_neg (by simp [ht])] at hm
  cases h with
  | @plain q hq hfree =>
    obtain ⟨m, hm, hlower⟩ := exists_callName hq hfree
    obtain ⟨rfl, -⟩ := List.cons.inj hts
    refine (path_takes_spelled (.mk (hname hm) .nil) fun _ ho => ho).mono (fun _ => id) ?_
    rintro _ rfl
    rw [Named, List.map_singleton, hlower]
  | @qualified q r hq hr hfree hfree' =>
    obtain ⟨m, hm, hlower⟩ := exists_callName hq hfree
    obtain ⟨k, hk, hlower'⟩ := exists_name hr hfree'
    obtain ⟨rfl, -⟩ := List.cons.inj hts
    refine (path_takes_spelled (.mk (hname hm) (.cons hk .nil)) fun _ ho => ho).mono
      (fun _ => id) ?_
    rintro _ rfl
    rw [Named, List.map_cons, List.map_singleton, hlower, hlower']

/-- No string stands behind the first part of a name. -/
theorem ahead_headTokens {head : List String} {t : Token} {ts : List Token}
    (hts : headTokens head = t :: ts) (us : List Token) (o : Option Token) (quoted : String) :
    ahead (ts ++ .symbol "(" :: us) o ≠ some (.string quoted) := by
  cases head with
  | nil => cases hts
  | cons q qs =>
    obtain ⟨-, rfl⟩ := List.cons.inj hts
    cases qs with
    | nil => exact nofun
    | cons => exact nofun

/-- A name in front of a parenthesis is called. -/
theorem named_takes {head : List String} {us : List Token} {post : Expr → Prop}
    (h : IsFunctionName head) (hcall : ∀ start path, Named head path →
        Takes (callFrom p start path) (.symbol "(" :: us) follow post) :
    Takes (named p) (headTokens head ++ .symbol "(" :: us) follow post := by
  have hopen : isSymbol "." (some (.symbol "(")) = false := by decide
  obtain ⟨t, ts, -, hts, -⟩ := exists_headTokens h
  have hlist : headTokens head ++ .symbol "(" :: us = t :: (ts ++ .symbol "(" :: us) := by
    rw [hts, List.cons_append]
  have hcalled : Takes (callOrPath p pure fun path => pure (.column path))
      (headTokens head ++ .symbol "(" :: us) follow post := by
    rw [hlist]
    refine .peek_cons ?_
    rw [← hlist]
    cases hword : isCallWord (some t) with
    | true =>
      have hrun : Takes (call p) (headTokens head ++ .symbol "(" :: us) follow post :=
        .get fun start => (callHead_takes h).bind (fun path hp => hcall start path hp) fun _ _ => hopen
      exact hrun.map fun _ => id
    | false =>
      refine .get fun start => (path_takes_head h hts hword).bind (fun path hp => ?_) fun _ _ => hopen
      have hlength : path.length ≤ 2 := by
        have hle := h.length_le
        rw [← hp, List.length_map] at hle
        exact hle
      refine .isAtSymbol rfl ?_
      rw [decide_eq_true hlength, Bool.and_self, if_pos rfl]
      exact (hcall start path hp).map fun _ => id
  rw [hlist] at hcalled ⊢
  exact typedLiteral?_bind (fun o _ quoted => ahead_headTokens hts us o quoted) hcalled

/-- The arguments behind their marks, from the first one on. -/
theorem argumentsFrom_takes {marks : Arguments} {x : Expr × Value} {xs : List (Expr × Value)}
    {us : List Token} {tss : List (List Token)}
    (h : List.Forall₂ (fun x ts => Argued x.1 x.2 ts) (x :: xs) (us :: tss))
    (hn : ∀ ts ∈ us :: tss, ts.length ≤ n) :
    Takes (expression (nested n) >>= argumentsFrom (nested (n + 1)) marks)
      (commaTokens (us :: tss)) (· = some (.symbol ")")) fun a =>
        a.marks = marks ∧ a.ordered = false ∧ List.Forall₂ (fun x => Returned x.1 x.2) (x :: xs) a.items := by
  have htakes : List.Forall₂ (fun x ts => Takes (expression (nested n)) ts ArgumentEnd
      (Returned x.1 x.2)) (x :: xs) (us :: tss) :=
    (forall₂_mem h).imp fun _ _ ⟨h, hmem⟩ => h.takes n (hn _ hmem)
  obtain _ | ⟨hx, hxs⟩ := htakes
  rw [commaTokens_cons]
  have hend : ∀ o : Option Token, o = some (.symbol ")") →
      OrSign "," (· = some (.symbol ")")) (ahead (tss.flatMap (.symbol "," :: ·)) o) :=
    fun o ho => @OrSign.ahead (· = some (.symbol ")")) "," o ho tss
  refine hx.bind (fun e he => ?_) hend
  have hmore : Takes (more "," (expression (nested n)) [e]) (tss.flatMap (.symbol "," :: ·))
      (· = some (.symbol ")"))
      (List.Forall₂ (fun (x : Expr × Value) => Returned x.1 x.2) (x :: xs)) :=
    more_takes (by rintro _ rfl; rfl) hxs (.cons he .nil)
  refine hmore.andThen (fun es hes => ?_) fun _ ho => ho
  refine (optional_none (by rintro _ rfl; rfl)).map ?_
  rintro _ rfl
  exact ⟨rfl, rfl, hes⟩

/-- What is between the parentheses of a call. -/
theorem arguments_takes {marks : Arguments} {xs : List (Expr × Value)} {tss : List (List Token)}
    (hstar : marks = .star → xs = []) (hdistinct : marks = .distinct → xs ≠ [])
    (h : List.Forall₂ (fun x ts => Argued x.1 x.2 ts) xs tss) (hn : ∀ ts ∈ tss, ts.length ≤ n) :
    Takes (arguments (nested (n + 1))) (argumentTokens marks tss) (· = some (.symbol ")")) fun a =>
      a.marks = marks ∧ a.ordered = false ∧
        List.Forall₂ (fun x => Returned x.1 x.2) xs a.items := by
  cases marks with
  | star =>
    obtain rfl := hstar rfl
    refine .notAtSymbol (fun _ _ => rfl) (.withSymbol rfl (.pure ⟨rfl, rfl, .nil⟩))
  | distinct =>
    cases h with
    | nil => exact absurd rfl (hdistinct rfl)
    | cons hx hxs =>
      refine .notAtSymbol (fun _ _ => rfl) (.noSymbol (fun _ _ => rfl) (.withKeyword rfl ?_))
      exact argumentsFrom_takes (.cons hx hxs) hn
  | all =>
    cases h with
    | nil =>
      have hpeek : Takes (atSymbol ")") [] (· = some (.symbol ")")) (· = true) := by
        refine Takes.peek (f := fun o => pure (isSymbol ")" o)) ?_
        rintro _ rfl
        exact .pure rfl
      refine hpeek.andThen ?_ fun _ ho => ho
      rintro _ rfl
      exact .pure ⟨rfl, rfl, .nil⟩
    | @cons x us xs tss hx hxs =>
      obtain ⟨t, ts, rfl, hclose, hstar, hdistinct, hall⟩ := hx.starts
      have hahead : ∀ o, ahead (argumentTokens .all ((t :: ts) :: tss)) o = some t := by
        intro o
        cases tss <;> rfl
      refine .notAtSymbol (fun o _ => by rw [hahead]; exact hclose) ?_
      refine .noSymbol (fun o _ => by rw [hahead]; exact hstar) ?_
      refine .noKeyword (fun o _ => by rw [hahead]; exact hdistinct) ?_
      refine .noKeyword (fun o _ => by rw [hahead]; exact hall) ?_
      exact argumentsFrom_takes (.cons hx hxs) hn

/-- A call from its parenthesis on. -/
theorem callFrom_takes {c : FunctionCall} {xs : List (Expr × Value)} {tss : List (List Token)}
    (hxs : xs.map Prod.fst = c.items) (h : List.Forall₂ (fun x ts => Argued x.1 x.2 ts) xs tss)
    (hn : ∀ ts ∈ tss, ts.length ≤ n)
    (hfollow : ∀ o, follow o → isKeyword "filter" o = false ∧ isKeyword "over" o = false)
    (start : List Lexeme) {path : Syntax.Path} (hpath : Named c.head path) :
    Takes (callFrom (nested (n + 1)) start path)
      (.symbol "(" :: (argumentTokens c.marks tss ++ [.symbol ")"])) follow fun e =>
        ∃ d : FunctionCall, e = d.tree ∧ d.head = c.head ∧ d.marks = c.marks ∧
          List.Forall₂ (fun x => Returned x.1 x.2) xs d.items := by
  have hnil : xs = [] ↔ c.items = [] := by rw [← hxs, List.map_eq_nil_iff]
  have hparens : Takes _ _ (fun _ => True) _ := parens_takes (arguments_takes
    (fun hs => hnil.mpr (c.starred hs)) (fun hd hx => c.distinct hd (hnil.mp hx)) h hn)
  have hrest : Takes (callRest (nested (n + 1)) path)
      (.symbol "(" :: (argumentTokens c.marks tss ++ [.symbol ")"])) follow fun r =>
        r.1.ordered = false ∧ ∃ d : FunctionCall, r.2 = d.tree ∧ d.head = c.head ∧
          d.marks = c.marks ∧ List.Forall₂ (fun x => Returned x.1 x.2) xs d.items := by
    refine hparens.andThen (fun a ha => ?_) fun _ _ => trivial
    obtain ⟨hmarks, hordered, hitems⟩ := ha
    have hlen : a.items = [] ↔ c.items = [] := by
      rw [← hnil, ← List.length_eq_zero_iff, ← List.length_eq_zero_iff, hitems.length_eq]
    refine (optional_none fun o ho => (hfollow o ho).1).andThen ?_ fun _ ho => ho
    rintro _ rfl
    refine (optional_none fun o ho => (hfollow o ho).2).map ?_
    rintro _ rfl
    exact ⟨hordered, ⟨c.head, a.marks, a.items, fun hs => hlen.mpr (c.starred (hmarks ▸ hs)),
      fun hd hx => c.distinct (hmarks ▸ hd) (hlen.mp hx)⟩, by rw [hpath]; rfl, rfl, hmarks, hitems⟩
  refine hrest.andThen (fun r hr => ?_) fun _ ho => ho
  obtain ⟨args, e⟩ := r
  obtain ⟨hordered, hcall⟩ : args.ordered = false ∧ _ := hr
  change Takes (if args.ordered = true then _ else _) _ _ _
  rw [hordered, if_neg Bool.false_ne_true]
  exact .pure hcall

theorem callName?_cases {t : Token} {m : Name} (h : callName? t = some m) :
    (∃ text, t = .name text ∨ t = .quotedName text) ∨
      ∃ w text, t = .keyword w text ∧ w ∈ "left" :: "right" :: Token.unreserved := by
  cases t with
  | name text => exact .inl ⟨text, .inl rfl⟩
  | quotedName text => exact .inl ⟨text, .inr rfl⟩
  | keyword w text =>
    refine .inr ⟨w, text, rfl, ?_⟩
    by_contra hw
    simp only [List.mem_cons, not_or] at hw
    simp [callName?, isCallWord, isKeyword, nameOf?, hw] at h
  | _ => cases h

theorem primary_takes_called {t : Token} {m : Name} {ts : List Token} {post : Expr → Prop}
    (h : callName? t = some m) (hn : Takes (named p) (t :: ts) follow post) :
    Takes (primary p) (t :: ts) follow post := by
  refine .peek_cons ?_
  rcases callName?_cases h with ⟨text, rfl | rfl⟩ | ⟨w, text, rfl, hw⟩
  · exact hn
  · exact hn
  · have hwords : ∀ w ∈ "left" :: "right" :: Token.unreserved, exprWords.contains w = false ∧
        isCallStart (some (.keyword w "")) = true := by decide
    obtain ⟨hword, hstart⟩ := hwords w hw
    have hstart : isCallStart (some (.keyword w text)) = true := by
      simpa [isCallStart, isName, nameOf?, isCallWord, isKeyword] using hstart
    simp only [hword, hstart, if_true, Bool.false_eq_true, if_false]
    exact hn

/-- The tokens of a call, with those of its arguments. -/
def tokens (head : List String) (marks : Arguments) (tss : List (List Token)) : List Token :=
  headTokens head ++ .symbol "(" :: (argumentTokens marks tss ++ [.symbol ")"])

/-- What is read from the tokens of a call. -/
theorem expression_takes_call {c : FunctionCall} {xs : List (Expr × Value)}
    {tss : List (List Token)} (hhead : IsFunctionName c.head) (hxs : xs.map Prod.fst = c.items)
    (h : List.Forall₂ (fun x ts => Argued x.1 x.2 ts) xs tss) (hn : ∀ ts ∈ tss, ts.length ≤ n)
    (hends : ∀ o, follow o → Ends 10 o)
    (hfollow : ∀ o, follow o → isKeyword "filter" o = false ∧ isKeyword "over" o = false) :
    Takes (expression (nested (n + 1))) (tokens c.head c.marks tss) follow fun e =>
      ∃ d : FunctionCall, e = d.tree ∧ d.head = c.head ∧ d.marks = c.marks ∧
        List.Forall₂ (fun x => Returned x.1 x.2) xs d.items := by
  have hnamed := named_takes (p := nested (n + 1)) hhead fun start path hpath =>
    callFrom_takes hxs h hn hfollow start hpath
  obtain ⟨t, ts, m, hts, hm⟩ := exists_headTokens hhead
  have hstart : sign? (some t) = none ∧ isKeyword "not" (some t) = false := by
    rcases callName?_cases hm with ⟨text, rfl | rfl⟩ | ⟨w, text, rfl, hw⟩
    · exact ⟨rfl, rfl⟩
    · exact ⟨rfl, rfl⟩
    · have hwords : ∀ w ∈ "left" :: "right" :: Token.unreserved, w ≠ "not" := by decide
      exact ⟨rfl, decide_eq_false (hwords w hw)⟩
  rw [tokens]
  rw [hts] at hnamed ⊢
  have hprimary := primary_takes_called hm hnamed
  exact expression_of_unary ⟨_, _, rfl, hstart.2⟩ hends
    (unary_of_primary hstart.1 (fun o ho => (hends o ho).mono (Nat.zero_le _)) hprimary)

end Parsing

section Rendering

variable {head : List String} {marks : Arguments}

/-- A name behind a percent sign is called, unless the sign stands alone. -/
theorem operation_called {name : String} {c : Char} {cs : List Char} (h : name.toList = '%' :: c :: cs)
    (hlower : Text.lower name = name) (r : Renderer) (m d : Int) (st : Entries) (nested : Bool)
    (args : List Value) : Render.operation r (.inlining m d st) nested name args =
      Render.call r (.inlining m d st) name args := by
  have hmem : name ∉ operatorNames := by
    have hnames : ∀ op ∈ operatorNames, op.toList.head? = some '%' → op.toList.length = 1 := by decide
    intro hop
    have hlength := hnames name hop (by rw [h]; rfl)
    rw [h] at hlength
    cases hlength
  have hnorm : Registry.normalize name = name := by
    have haliases : name ∉ Operator.aliases.map (·.1) := fun hop =>
      hmem (List.mem_append_right _ hop)
    rw [Registry.normalize, hlower, lookup_eq_none haliases]
    rfl
  have hnot := isOperator_eq_false hlower hmem
  simp only [Registry.isOperator, hnorm, Bool.or_eq_false_iff, Option.isSome_eq_false_iff,
    Option.isNone_iff_eq_none] at hnot
  obtain ⟨⟨hbinary, hform⟩, hmembership⟩ := hnot
  have hident : Identifier.isIdentText name = true := by simp [Identifier.isIdentText, h]
  have hregistry : (Settings.inlining m d st).registry = .standard := rfl
  rw [Render.operation, hnorm]
  simp only [hregistry, hbinary, hform, hmembership, hident, Bool.and_false, Bool.true_or, if_true,
    Bool.false_eq_true, if_false]

/-- The call of a name from which the mark is told. -/
theorem call_eq (h : TellsMark head marks) (hhead : ∀ p ∈ head, IsFunctionPart p) (hne : head ≠ [])
    {args : List Value} (hbare : ∀ es, args = [.map es] →
      Form.ofEntries Registry.standard.clauseOrder es ≠ .clause) (r : Renderer) (m d : Int)
    (st : Entries) : Render.call r (.inlining m d st) (Syntax.Reading.callHead head marks) args =
      if args = [] then pure (.ofText (dotted (head.map Text.upper) ++ "()")) else do
        return .between (dotted (head.map Text.upper) ++ "(" ++
          if marks = .distinct then "DISTINCT " else "") ")"
          (.commas (← Render.each r (.inlining m d st) false args)) := by
  have hmarked : Contract.Kept.isMarkedCall (Syntax.Reading.callHead head marks) =
      decide (marks = .distinct) := by
    rw [Bool.eq_iff_iff, decide_eq_true_eq]
    exact h.isMarkedCall_iff hhead hne
  cases args with
  | nil =>
    rw [Render.call, h.checkHead_ok hhead hne, if_pos rfl, ← h.written_eq hhead hne]
    rfl
  | cons v vs =>
    have hlist : Render.call r (.inlining m d st) (Syntax.Reading.callHead head marks) (v :: vs) = do
        return .between (Contract.Kept.callHead (Syntax.Reading.callHead head marks) ++ "(" ++
          if Contract.Kept.isMarkedCall (Syntax.Reading.callHead head marks) then "DISTINCT " else "")
          ")" (← Render.list r (.inlining m d st) (v :: vs)) := by
      rw [Render.call, h.checkHead_ok hhead hne]
      cases vs with
      | cons => cases v <;> rfl
      | nil =>
        cases v with
        | map es =>
          have hclause : (Settings.inlining m d st).isClause (.map es) = false :=
            decide_eq_false (hbare es rfl)
          exact if_neg (by rw [hclause]; exact Bool.false_ne_true)
        | _ => rfl
    rw [hlist, if_neg (List.cons_ne_nil _ _), hmarked, h.written_eq hhead hne]
    simp only [Render.list, bind_assoc, pure_bind, decide_eq_true_eq]

theorem spells_call {t : String} {us : List Token} (h : ∀ p ∈ head, IsFunctionPart p)
    (hne : head ≠ []) (ht : Spells t us) (hopen : t.toList.head? = some '(') :
    Spells (dotted (head.map Text.upper) ++ t) (headTokens head ++ us) where
  starts := by
    obtain ⟨p, ps, rfl⟩ := List.exists_cons_of_ne_nil hne
    obtain ⟨c, cs, hc, -, hspace⟩ := (h p (by simp)).nameSpells.starts
    refine ⟨c, ?_, hspace⟩
    cases ps with
    | nil => simp [dotted, hc]
    | cons => simp [toList_dotted_cons_cons, hc]
  lexed rest ts hb hl := by
    have hbound : ∀ c ∈ (t.toList ++ rest).head?, Lexer.isNameChar c = false ∧ c ≠ '"' := by
      rw [List.head?_append, hopen]
      rintro _ ⟨⟩
      decide
    have hall := lexed_head h hne hbound (ht.lexed rest ts hb hl)
    rwa [String.toList_append, List.append_assoc, List.append_assoc]

/-- The parentheses of a call and what is between them. -/
theorem spells_arguments {fs : List Fragment} {tss : List (List Token)}
    (h : List.Forall₂ (fun f ts => Spells (Fragment.inlineSql f) ts) fs tss) (hne : fs ≠ []) :
    Spells ("(" ++ ((if marks = .distinct then "DISTINCT " else "") ++
      (Fragment.commas fs).inlineSql) ++ ")")
      (.symbol "(" :: ((if marks = .distinct then [nameToken "DISTINCT"] else []) ++
        commaTokens tss) ++ [.symbol ")"]) := by
  have hitems := Fragment.spells_commas hne h
  have hword : Spells "DISTINCT" [nameToken "DISTINCT"] := Lexer.spells_word rfl
  refine Spells.parens ?_
  split
  · have hspace : "DISTINCT " = "DISTINCT" ++ " " := by decide
    rw [hspace]
    exact hword.space hitems
  · simpa using hitems

/-- A call is written as its name in upper case and its arguments. -/
theorem writes (h : TellsMark head marks) (hhead : ∀ p ∈ head, IsFunctionPart p) (hne : head ≠ [])
    {vs : List Value} {tss : List (List Token)} (hvs : List.Forall₂ (Writes false) vs tss)
    (hdistinct : marks = .distinct → vs ≠ []) (hbare : ∀ es, vs = [.map es] →
      Form.ofEntries Registry.standard.clauseOrder es ≠ .clause) (nested : Bool) :
    Writes nested (valueOf head marks vs) (tokens head marks tss) := by
  obtain ⟨args, uss, hargs, huss, hbare, hvalue, htokens⟩ : ∃ args uss,
      List.Forall₂ (Writes false) args uss ∧ (args = [] → marks ≠ .distinct) ∧
      (∀ es, args = [.map es] → Form.ofEntries Registry.standard.clauseOrder es ≠ .clause) ∧
      valueOf head marks vs = headed (Syntax.Reading.callHead head marks) args ∧
      argumentTokens marks tss =
        (if marks = .distinct then [nameToken "DISTINCT"] else []) ++ commaTokens uss := by
    cases marks with
    | star =>
      exact ⟨[.text "*"], [[.symbol "*"]], .cons (Render.writes_star false) .nil, nofun, nofun, rfl, rfl⟩
    | all => exact ⟨vs, tss, hvs, nofun, hbare, rfl, rfl⟩
    | distinct => exact ⟨vs, tss, hvs, fun hnil => absurd hnil (hdistinct rfl), hbare, rfl, rfl⟩
  obtain ⟨c, cs, hc⟩ : ∃ c cs, (Syntax.Reading.callHead head marks).toList = '%' :: c :: cs :=
    exists_callHead hhead hne
  have hrender : ∀ (r : Renderer) (m d : Int) (st : Entries),
      Render.expression r (.inlining m d st) (Render.statement r · true) nested
        (headed (Syntax.Reading.callHead head marks) args) =
      Render.call r (.inlining m d st) (Syntax.Reading.callHead head marks) args :=
    fun r m d st => operation_called hc (lower_callHead hhead) r m d st nested args
  rw [tokens, hvalue, htokens]
  by_cases hnil : args = []
  · subst hnil
    obtain _ | _ := hargs
    refine ⟨.ofText (dotted (head.map Text.upper) ++ "()"), .deeper ((Gives.pure _).congr
      fun r m d st => ?_), ?_⟩
    · rw [hrender, call_eq h hhead hne hbare, if_pos rfl]
    · rw [Fragment.inlineSql_ofText, if_neg (huss rfl)]
      have hempty : Spells "()" [.symbol "(", .symbol ")"] := by
        refine ⟨⟨'(', rfl, rfl⟩, fun rest ts _ hl => ?_⟩
        have hclose : Lexed ([')'] ++ rest) (.symbol ")" :: ts) := hl.token (by simp) rfl
        have hopen : Lexed (['('] ++ ([')'] ++ rest)) (.symbol "(" :: .symbol ")" :: ts) :=
          hclose.token (by simp) rfl
        exact hopen
      exact spells_call hhead hne hempty rfl
  · obtain ⟨fs, hfs, hspells⟩ := Render.exists_fragments hargs
    have hfne : fs ≠ [] := by
      rintro rfl
      cases hfs
      exact hnil rfl
    let opening := dotted (head.map Text.upper) ++ "(" ++ if marks = .distinct then "DISTINCT " else ""
    have hlist := Gives.map (f := fun fs => Fragment.between opening ")" (.commas fs))
      (Render.gives_each (.text (Syntax.Reading.callHead head marks) :: args)
        (fun w hw => List.mem_cons_of_mem _ hw) hfs)
    refine ⟨_, .deeper (hlist.congr fun r m d st => ?_), ?_⟩
    · rw [hrender, call_eq h hhead hne hbare, if_neg hnil]
    · have harguments : Spells ("(" ++ ((if marks = .distinct then "DISTINCT " else "") ++ _) ++ ")")
          _ := spells_arguments hspells hfne
      have hall := spells_call hhead hne harguments (by simp)
      simpa [opening, Fragment.between, String.append_assoc, List.append_assoc] using hall

end Rendering

end FunctionCall

end SqlTree

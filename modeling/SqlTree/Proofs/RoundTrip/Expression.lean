import SqlTree.Proofs.RoundTrip.Operands
import SqlTree.Proofs.RoundTrip.Operations
import SqlTree.Proofs.RoundTrip.Reading

/-!
Expressions that come back from their text: columns, literals, and the operations on them.
-/

namespace SqlTree

open Syntax
open Lexer (Spells nameToken)
open Render (Writes parenTokens listTokens)

/-- The operators that are tokens of their own, or signs with a level of their own. -/
def plainOperators : List String := ["^", "*", "/", "+", "-"] ++ Lexer.operators

def comparisons : List String := ["=", "<>", "<", ">", "<=", ">="]

/-- The expressions that are the same after they were written and read. -/
inductive Expressible : Value → Prop
  | column {p : String} {ps : List String} : PlainPart p → (∀ q ∈ ps, PlainPart q) →
      Expressible (.text (dotted (p :: ps)))
  | int {n : Int} : n.natAbs.repr.length ≤ Literal.digitLimit → Expressible (untyped (.int n))
  | string (s : String) : Expressible (untyped (.text s))
  | bool (b : Bool) : Expressible (untyped (.bool b))
  | binary {op : String} {v w : Value} : op ∈ plainOperators → Expressible v → Expressible w →
      Expressible (headed op [v, w])
  | comparison {op : String} {v w : Value} : op ∈ comparisons → Expressible v → Expressible w →
      Expressible (headed op [v, w])
  | predicate (negated : Bool) (p : Predicate) {v w : Value} : Expressible v → Expressible w →
      Expressible (headed (p.word negated) [v, w])
  | test (negated : Bool) (t : Test) {v : Value} : Expressible v →
      Expressible (headed (if negated then "is-not" else "is") [v, t.operand])
  | chain (op : Connective) {v w : Value} {vs : List Value} : Expressible v → Expressible w →
      (∀ x ∈ vs, Expressible x) → Expressible (headed op.word (v :: w :: vs))
  | inValues (negated : Bool) {v w : Value} {ws : List Value} : Expressible v →
      w.isMap = true → Expressible w → (∀ x ∈ ws, Expressible x) →
      Expressible (headed (if negated then "not-in" else "in") [v, .list (w :: ws)])
  | inRow (negated : Bool) {v w : Value} {ws : List Value} : Expressible v →
      w.isMap = false → Expressible w → (∀ x ∈ ws, Expressible x) →
      Expressible (headed (if negated then "not-in" else "in") [v, headed "composite" (w :: ws)])

namespace Expressible

variable {v : Value}

theorem ne_null (h : Expressible v) : v ≠ .null := by
  cases h <;> rintro ⟨⟩

end Expressible

namespace Syntax.Parser

/-- The tokens that a value is rendered to as a whole, and that it is read from. -/
structure Expressed (v : Value) (ts : List Token) : Prop where
  writes : Writes false v ts
  takes : ∀ n, ts.length ≤ n → Takes (expression (nested n)) ts (Ends 10) (Means · v)
  opens : ∀ n, ts.length ≤ n → Opens (nested n) ts
  starless : Starless ts

/-- The tokens that a value is rendered to as an operand, and that it is read from. -/
structure Operated (v : Value) (ts : List Token) : Prop where
  writes : Writes true v ts
  takes : ∀ n, ts.length ≤ n → Takes (unary (nested n)) ts (Ends 0) (MeansAlone · v)
  opens : ∀ n, ts.length ≤ n → Opens (nested n) ts
  starless : Starless ts

section

variable {v w : Value} {ts us : List Token} {n : Nat}

namespace Operated

theorem zone (h : Operated v ts) (hn : ts.length ≤ n) :
    Takes (zoneLevel (nested n)) ts (Ends 1) (MeansAlone · v) :=
  zoneLevel_takes _ (h.takes n hn)

theorem power (h : Operated v ts) (hn : ts.length ≤ n) :
    Takes (powerLevel (nested n)) ts (Ends 2) (MeansAlone · v) :=
  powerLevel_takes _ (h.zone hn)

theorem product (h : Operated v ts) (hn : ts.length ≤ n) :
    Takes (productLevel (nested n)) ts (Ends 3) (MeansAlone · v) :=
  productLevel_takes _ (h.power hn)

theorem sum (h : Operated v ts) (hn : ts.length ≤ n) :
    Takes (sumLevel (nested n)) ts (Ends 4) (MeansAlone · v) :=
  sumLevel_takes _ (h.product hn)

theorem other (h : Operated v ts) (hn : ts.length ≤ n) :
    Takes (otherLevel (nested n)) ts (Ends 5) (MeansAlone · v) :=
  otherLevel_takes _ (h.sum hn)

theorem predicate (h : Operated v ts) (hn : ts.length ≤ n) :
    Takes (predicateLevel (nested n)) ts (Ends 6) (MeansAlone · v) :=
  predicateLevel_takes _ (h.other hn)

theorem comparison (h : Operated v ts) (hn : ts.length ≤ n) :
    Takes (comparisonLevel (nested n)) ts (Ends 7) (MeansAlone · v) :=
  comparisonLevel_takes _ (h.predicate hn)

theorem negation (h : Operated v ts) (hn : ts.length ≤ n) :
    Takes (notLevel (nested n)) ts (Ends 8) (MeansAlone · v) :=
  notLevel_takes _ (h.opens n hn).begins (testLevel_takes _ (h.comparison hn))

theorem conjunction (h : Operated v ts) (hn : ts.length ≤ n) :
    Takes (andLevel (nested n)) ts (Ends 9) (MeansAlone · v) :=
  andLevel_takes _ (h.negation hn)

/-- What is rendered in the same way as a whole and as an operand. -/
theorem expressed (h : Operated v ts) (hw : Writes false v ts) : Expressed v ts where
  writes := hw
  takes _ hn := (expression_takes _ (h.conjunction hn)).mono (fun _ => id) fun _ he => he.means
  opens := h.opens
  starless := h.starless

end Operated

/-- A whole in parentheses is an operand. -/
theorem Expressed.operated (h : Expressed v ts) (hw : Writes true v (parenTokens true ts)) :
    Operated v (parenTokens true ts) where
  writes := hw
  takes n hn := by
    obtain ⟨m, rfl⟩ : ∃ m, n = m + 1 := ⟨n - 1, by simp [parenTokens] at hn; omega⟩
    have hm : ts.length ≤ m := by simp [parenTokens] at hn; omega
    have hg := group_takes (h.opens m hm) (h.takes m hm)
    refine (paren_takes (nested (m + 1)) (hg.before ?_)).mono (fun _ => id) ?_
    · rintro _ rfl _ ⟨⟩
      decide
    · rintro _ ⟨a, ha, rfl⟩
      exact Reading.paren_means ha
  opens n hn := by
    obtain ⟨m, rfl⟩ : ∃ m, n = m + 1 := ⟨n - 1, by simp [parenTokens] at hn; omega⟩
    have hm : ts.length ≤ m := by simp [parenTokens] at hn; omega
    refine .paren [] (((group_takes (h.opens m hm) (h.takes m hm)).before ?_).mono (fun _ => id) ?_)
    · rintro _ rfl _ ⟨⟩
      decide
    · rintro g ⟨a, hga, -⟩
      exact ⟨a, hga⟩
  starless := starless_of_not_name rfl _

section Atoms

theorem operated_atom {t : Token} {ts : List Token} (hw : Writes true v (t :: ts))
    (ht : ∀ w ∈ otherStarts, isKeyword w (some t) = false)
    (hp : ∀ s ∈ ["(", "*"], isSymbol s (some t) = false) (hs : Starless (t :: ts))
    (h : ∀ p, Takes (unary p) (t :: ts) (Ends 0) (MeansAlone · v)) : Operated v (t :: ts) where
  writes := hw
  takes _ _ := h _
  opens _ _ := .word ht hp
  starless := hs

theorem operated_column {q : String} {qs : List String} (hq : PlainPart q)
    (hqs : ∀ x ∈ qs, PlainPart x) :
    Operated (.text (dotted (q :: qs))) (pathTokens (q :: qs)) := by
  refine operated_atom (Render.writes_column hq hqs true) (fun _ _ => rfl) (fun _ _ => rfl)
    (starless_path q qs) fun p => ?_
  refine (column_takes p q qs).mono (fun _ => id) ?_
  rintro _ rfl
  exact Reading.column_means hq hqs

theorem operated_int {k : Int} (hk : k.natAbs.repr.length ≤ Literal.digitLimit) :
    ∃ ts, Operated (untyped (.int k)) ts ∧ Writes false (untyped (.int k)) ts := by
  by_cases hneg : k < 0
  · have hw := Render.writes_int (n := k)
    simp only [hneg, if_true] at hw
    have hsign : ∀ s ∈ ["(", "*"], isSymbol s (some (.symbol "-")) = false := by decide
    refine ⟨_, operated_atom (hw true) (fun _ _ => rfl) hsign (starless_of_not_name rfl _) fun p => ?_,
      hw false⟩
    refine (negative_takes p _).mono (fun _ => id) ?_
    rintro _ rfl
    have hm := Reading.negative_means hk
    rwa [show -(k.natAbs : Int) = k by omega] at hm
  · have hw := Render.writes_int (n := k)
    simp only [hneg, if_false] at hw
    have hsign : ∀ s ∈ ["(", "*"], isSymbol s (some (.number k.natAbs.repr)) = false := fun _ _ => rfl
    refine ⟨_, operated_atom (hw true) (fun _ _ => rfl) hsign (starless_of_not_name rfl _) fun p => ?_,
      hw false⟩
    refine (number_takes p _).mono (fun _ => id) ?_
    rintro _ rfl
    have hm := Reading.number_means hk
    rwa [show (k.natAbs : Int) = k by omega] at hm

theorem operated_string (s : String) :
    Operated (untyped (.text s)) [.string (Text.enclosed "'" s "'")] := by
  refine operated_atom (Render.writes_string s true) (fun _ _ => rfl) (fun _ _ => rfl)
    (starless_of_not_name rfl _) fun p => ?_
  refine (string_takes p _).mono (fun _ => id) ?_
  rintro _ rfl
  exact Reading.string_means s

theorem operated_bool (b : Bool) : Operated (untyped (.bool b)) [Render.truthToken b] := by
  cases b with
  | false =>
    refine operated_atom (Render.writes_bool false true) (by decide) (by decide)
      (starless_of_not_name rfl _) fun p => ?_
    refine (false_takes p).mono (fun _ => id) ?_
    rintro _ rfl
    exact Reading.boolean_means false
  | true =>
    refine operated_atom (Render.writes_bool true true) (by decide) (by decide)
      (starless_of_not_name rfl _) fun p => ?_
    refine (true_takes p).mono (fun _ => id) ?_
    rintro _ rfl
    exact Reading.boolean_means true

end Atoms

section Operations

variable {op : String}

theorem binary_takes (hop : op ∈ plainOperators) (hv : Operated v ts) (hw : Operated w us)
    (hts : ts.length ≤ n) (hus : us.length ≤ n) {t : Token}
    (ht : t = if op ∈ Lexer.operators then .operator op else .symbol op) :
    Takes (expression (nested n)) (ts ++ t :: us) (Ends 10) (Means · (headed op [v, w])) := by
  have hpost : ∀ a b, MeansAlone a v → MeansAlone b w → Means (.binary op a b) (headed op [v, w]) :=
    fun a b ha hb => Reading.binary_means op ha.means hb.means
  have hb := (hv.opens n hts).begins.append (t :: us)
  simp only [plainOperators, List.cons_append, List.nil_append, List.mem_cons] at hop
  rcases hop with rfl | rfl | rfl | rfl | rfl | hop
  · subst ht
    exact expression_of_power _ hb (binaryLevel_takes rfl (by decide) (by decide)
      (fun _ ho => ho.operatorIn (by decide)) (hv.zone hts) (hw.zone hus) hpost)
  · subst ht
    exact expression_of_product _ hb (binaryLevel_takes rfl (by decide) (by decide)
      (fun _ ho => ho.operatorIn (by decide)) (hv.power hts) (hw.power hus) hpost)
  · subst ht
    exact expression_of_product _ hb (binaryLevel_takes rfl (by decide) (by decide)
      (fun _ ho => ho.operatorIn (by decide)) (hv.power hts) (hw.power hus) hpost)
  · subst ht
    exact expression_of_sum _ hb (binaryLevel_takes rfl (by decide) (by decide)
      (fun _ ho => ho.operatorIn (by decide)) (hv.product hts) (hw.product hus) hpost)
  · subst ht
    exact expression_of_sum _ hb (binaryLevel_takes rfl (by decide) (by decide)
      (fun _ ho => ho.operatorIn (by decide)) (hv.product hts) (hw.product hus) hpost)
  · rw [if_pos hop] at ht
    subst ht
    exact expression_of_other _ hb (binaryLevel_takes rfl (Nat.lt_succ_self 4) (by decide)
      (fun _ ho => ho.anyOperator) (hv.sum hts) (hw.sum hus) hpost)

/-- An operation whose first operand is `w`. What it is rendered to is the same with and without
parentheses around it. -/
theorem exists_operated (hw : Operated w us) (ws : List Token)
    (hws : ∃ t more, ws = t :: more ∧ 0 < t.level)
    (hv : ∀ nested, Writes nested v (parenTokens nested (us ++ ws)))
    (ht : ∀ n, us.length + ws.length ≤ n →
      Takes (expression (nested n)) (us ++ ws) (Ends 10) (Means · v)) :
    (∃ ts, Expressed v ts) ∧ ∃ ts, Operated v ts := by
  obtain ⟨t, more, rfl, hlevel⟩ := hws
  have h : Expressed v (us ++ t :: more) :=
    { writes := hv false
      takes := fun n hn => ht n (by rwa [List.length_append] at hn)
      opens := fun n hn => (hw.opens n (by rw [List.length_append] at hn; omega)).append _
      starless := hw.starless.append hlevel more }
  exact ⟨⟨_, h⟩, _, h.operated (hv true)⟩

theorem plainOperators_lookup :
    ∀ op ∈ plainOperators, Render.IsInfix op ∧ Keyword.render op = op := by
  decide

theorem spells_plainOperator (hop : op ∈ plainOperators) :
    Spells op [if op ∈ Lexer.operators then .operator op else .symbol op] := by
  by_cases h : op ∈ Lexer.operators
  · rw [if_pos h]
    exact Lexer.spells_operator h
  · rw [if_neg h]
    have hsign : op ∈ Lexer.signs := by
      simp only [plainOperators, List.mem_append, h, or_false] at hop
      have hsigns : ∀ op ∈ ["^", "*", "/", "+", "-"], op ∈ Lexer.signs := by decide
      exact hsigns op hop
    exact Lexer.spells_sign hsign

theorem plainOperator_level (hop : op ∈ plainOperators) :
    0 < Token.level (if op ∈ Lexer.operators then .operator op else .symbol op) := by
  by_cases h : op ∈ Lexer.operators
  · rw [if_pos h]
    exact Nat.succ_pos 4
  · rw [if_neg h]
    simp only [plainOperators, List.mem_append, h, or_false] at hop
    have hsigns : ∀ op ∈ ["^", "*", "/", "+", "-"], 0 < (Token.symbol op).level := by decide
    exact hsigns op hop

theorem exists_binary (hop : op ∈ plainOperators) (hnv : v ≠ .null) (hnw : w ≠ .null)
    (hv : Operated v ts) (hw : Operated w us) :
    (∃ ts, Expressed (headed op [v, w]) ts) ∧ ∃ ts, Operated (headed op [v, w]) ts := by
  obtain ⟨hbinary, hrender⟩ := plainOperators_lookup op hop
  refine exists_operated hv _ ⟨_, us, rfl, plainOperator_level hop⟩ (fun nested => ?_) fun n hn => ?_
  · have h := Render.writes_infix hbinary hrender (spells_plainOperator hop) (by simp [hnv, hnw])
      hv.writes hw.writes .nil nested
    rwa [List.flatMap_singleton] at h
  · rw [List.length_cons] at hn
    exact binary_takes hop hv hw (by omega) (by omega) rfl

theorem comparisons_lookup : ∀ op ∈ comparisons,
    (op ∉ Operator.equality → Render.IsInfix op) ∧ Keyword.render op = op ∧ op ∈ Lexer.signs ∧
      op ∈ ["=", "<>", "!=", "<=", ">=", "<", ">"] ∧ op ≠ "!=" ∧ 0 < (Token.symbol op).level := by
  decide

theorem exists_comparison (hop : op ∈ comparisons) (hnv : v ≠ .null) (hnw : w ≠ .null)
    (hv : Operated v ts) (hw : Operated w us) :
    (∃ ts, Expressed (headed op [v, w]) ts) ∧ ∃ ts, Operated (headed op [v, w]) ts := by
  obtain ⟨hbinary, hrender, hsign, hsigns, hne, hlevel⟩ := comparisons_lookup op hop
  refine exists_operated hv _ ⟨_, us, rfl, hlevel⟩ (fun nested => ?_) fun n hn => ?_
  · by_cases heq : op ∈ Operator.equality
    · exact Render.writes_equality heq (Lexer.spells_sign hsign) hnv hnw hv.writes hw.writes nested
    · have h := Render.writes_infix (hbinary heq) hrender (Lexer.spells_sign hsign)
        (by simp [hnv, hnw]) hv.writes hw.writes .nil nested
      rwa [List.flatMap_singleton] at h
  · rw [List.length_cons] at hn
    refine expression_of_comparison _ ((hv.opens n (by omega)).begins.append _) ?_
    exact comparison_takes _ rfl hsigns (hv.predicate (by omega)) (hw.predicate (by omega))
      fun a b ha hb => Reading.comparison_means hne ha.means hb.means

/-- The words of a predicate. -/
def predicateText (negated : Bool) : Predicate → String × List String
  | .like => if negated then ("NOT", ["LIKE"]) else ("LIKE", [])
  | .ilike => if negated then ("NOT", ["ILIKE"]) else ("ILIKE", [])
  | .similarTo => if negated then ("NOT", ["SIMILAR", "TO"]) else ("SIMILAR", ["TO"])
  | .distinctFrom => if negated then ("IS", ["NOT", "DISTINCT", "FROM"]) else ("IS", ["DISTINCT", "FROM"])

theorem predicate_lookup (negated : Bool) (p : Predicate) :
    Render.IsInfix (p.word negated) ∧
      Keyword.render (p.word negated) =
        " ".intercalate ((predicateText negated p).1 :: (predicateText negated p).2) ∧
      (∀ x ∈ (predicateText negated p).1 :: (predicateText negated p).2, Lexer.isWord x = true) ∧
      0 < (nameToken (predicateText negated p).1).level := by
  cases negated <;> cases p <;> decide

theorem exists_predicate (negated : Bool) (p : Predicate) (hnv : v ≠ .null) (hnw : w ≠ .null)
    (hv : Operated v ts) (hw : Operated w us) :
    (∃ ts, Expressed (headed (p.word negated) [v, w]) ts) ∧
      ∃ ts, Operated (headed (p.word negated) [v, w]) ts := by
  obtain ⟨hbinary, hrender, hwords, hlevel⟩ := predicate_lookup negated p
  refine exists_operated hv
    (((predicateText negated p).1 :: (predicateText negated p).2).map nameToken ++ us)
    ⟨_, _, rfl, hlevel⟩ (fun nested => ?_) fun n hn => ?_
  · have h := Render.writes_infix hbinary hrender
      (Lexer.spells_words _ _ (hwords _ (by simp)) fun x hx => hwords x (by simp [hx]))
      (by simp [hnv, hnw]) hv.writes hw.writes .nil nested
    rwa [List.flatMap_singleton] at h
  · simp only [List.length_append] at hn
    have hb := (hv.opens n (by omega)).begins.append
      (((predicateText negated p).1 :: (predicateText negated p).2).map nameToken ++ us)
    have hpost : ∀ a b, MeansAlone a v → MeansAlone b w →
        Means (.predicate negated p a b) (headed (p.word negated) [v, w]) :=
      fun a b ha hb => Reading.predicate_means negated p ha.means hb.means
    by_cases hp : p = .distinctFrom
    · subst hp
      refine expression_of_test _ hb ?_
      have h := testLevel_of (nested n) (hv.comparison (by omega)) fun a ha =>
        (isTest_distinct (nested n) (e := a) negated (hw.comparison (by omega))).mono
          (fun _ => id) fun e ⟨b, hb, he⟩ => he ▸ hpost a b ha hb
      cases negated <;> exact h
    · refine expression_of_predicate _ hb ?_
      have h := predicateLevel_of (nested n) (predicateWords p ++ us) negated ?_ (hv.other (by omega)) fun a ha =>
        (predicate?_takes (nested n) (e := a) hp negated (hw.other (by omega))).mono
          (fun _ => id) fun o ⟨e, ho, b, hb, he⟩ => ⟨e, ho, he ▸ hpost a b ha hb⟩
      · cases negated <;> cases p <;> first | exact h | contradiction
      · cases p <;> first | exact ⟨_, _, rfl, rfl, by decide⟩ | contradiction

theorem writes_testOperand (t : Test) (nested : Bool) :
    Writes nested t.operand [testWords t] := by
  cases t with
  | isNull => exact Render.writes_null nested
  | isTrue => exact Render.writes_truth true nested
  | isFalse => exact Render.writes_truth false nested

theorem exists_test (negated : Bool) (t : Test) (hv : Operated v ts) :
    (∃ ts, Expressed (headed (if negated then "is-not" else "is") [v, t.operand]) ts) ∧
      ∃ ts, Operated (headed (if negated then "is-not" else "is") [v, t.operand]) ts := by
  have hbinary : Render.IsInfix (if negated then "is-not" else "is") ∧
      Registry.standard.ignoresNil (if negated then "is-not" else "is") = false := by
    cases negated <;> decide
  have hspells : Spells (Keyword.render (if negated then "is-not" else "is"))
      (nameToken "IS" :: negation negated) := by
    cases negated with
    | false => exact Lexer.spells_word (t := "IS") rfl
    | true => exact Lexer.spells_words "IS" ["NOT"] rfl (by decide)
  refine exists_operated hv _ ⟨nameToken "IS", negation negated ++ [testWords t], rfl, by decide⟩
    (fun nested => ?_) fun n hn => ?_
  · have h := Render.writes_infix hbinary.1 rfl hspells (fun h => by simp [hbinary.2] at h) hv.writes
      (writes_testOperand t true) .nil nested
    rwa [List.flatMap_singleton] at h
  · refine expression_of_test _ ((hv.opens n (by omega)).begins.append _) ?_
    refine testLevel_of (nested n) (hv.comparison (by omega)) fun a ha => ?_
    refine (isTest_takes (nested n) negated t _).mono (fun _ => id) ?_
    rintro _ rfl
    exact Reading.test_means negated t ha.means

theorem length_le_flatMap {tss : List (List Token)} (h : ts ∈ tss) (ms : List Token) :
    ts.length ≤ (tss.flatMap (ms ++ ·)).length := by
  have hsub : (ms ++ ts).Sublist (tss.flatMap (ms ++ ·)) :=
    List.sublist_flatten_of_mem (List.mem_map_of_mem h)
  have := hsub.length_le
  rw [List.length_append] at this
  omega

theorem length_le_commaTokens {tss : List (List Token)} (h : ts ∈ tss) :
    ts.length ≤ (commaTokens tss).length := by
  cases tss with
  | nil => cases h
  | cons us tss =>
    rw [commaTokens_cons, List.length_append]
    rcases List.mem_cons.mp h with rfl | h
    · omega
    · have := length_le_flatMap h [.symbol ","]
      simp only [List.singleton_append] at this
      omega

theorem exists_forall₂ {α β : Type} {R : α → β → Prop} {xs : List α} (h : ∀ x ∈ xs, ∃ y, R x y) :
    ∃ ys, List.Forall₂ R xs ys := by
  induction xs with
  | nil => exact ⟨[], .nil⟩
  | cons x xs ih =>
    obtain ⟨y, hy⟩ := h x (by simp)
    obtain ⟨ys, hys⟩ := ih fun z hz => h z (by simp [hz])
    exact ⟨y :: ys, .cons hy hys⟩

theorem forall₂_mem {α β : Type} {R : α → β → Prop} {xs : List α} {ys : List β}
    (h : List.Forall₂ R xs ys) : List.Forall₂ (fun x y => R x y ∧ y ∈ ys) xs ys := by
  induction h with
  | nil => exact .nil
  | cons hxy _ ih =>
    refine .cons ⟨hxy, by simp⟩ (ih.imp fun _ _ ⟨h, hmem⟩ => ⟨h, by simp [hmem]⟩)

/-- The word of a connective. -/
def connectiveToken : Connective → Token
  | .and => nameToken "AND"
  | .or => nameToken "OR"

theorem chain_takes (op : Connective) {vs : List Value} {tss : List (List Token)}
    (hv : Operated v ts) (hw : Operated w us) (hvs : List.Forall₂ Operated vs tss)
    (hts : ts.length ≤ n) (htss : ∀ xs ∈ us :: tss, xs.length ≤ n) :
    Takes (expression (nested n)) (ts ++ (us :: tss).flatMap (connectiveToken op :: ·)) (Ends 10)
      (Means · (headed op.word (v :: w :: vs))) := by
  have hpost : ∀ e, (∃ a as, List.Forall₂ (fun v e => MeansAlone e v) (v :: w :: vs) (a :: as) ∧
      e = as.foldl (.connected op) a) → Means e (headed op.word (v :: w :: vs)) := by
    rintro _ ⟨a, as, has, rfl⟩
    cases has with
    | cons ha has =>
      cases has with
      | cons hb has =>
        have hfirst : Reads (a.read.operands op) [v] := by
          rw [ha.alone]
          exact ha.means.map
        exact Reading.connected_means hfirst hb.means (has.flip.imp fun _ _ h => h.means)
  have hall := forall₂_mem (.cons hw hvs)
  cases op with
  | and =>
    refine (expression_takes _ (connectedLevel_takes (j := 8) (k := 9) rfl (by decide) (by decide)
      (by decide) (hv.negation hts) ?_)).mono (fun _ => id) hpost
    exact hall.imp fun _ _ ⟨h, hmem⟩ => h.negation (htss _ hmem)
  | or =>
    refine (connectedLevel_takes (j := 9) (k := 10) rfl (by decide) (by decide) (by decide)
      (hv.conjunction hts) ?_).mono (fun _ => id) hpost
    exact hall.imp fun _ _ ⟨h, hmem⟩ => h.conjunction (htss _ hmem)

theorem connective_lookup (op : Connective) :
    Render.IsInfix op.word ∧ Lexer.Spells (Keyword.render op.word) [connectiveToken op] := by
  cases op with
  | and => exact ⟨by decide, Lexer.spells_word (t := "AND") rfl⟩
  | or => exact ⟨by decide, Lexer.spells_word (t := "OR") rfl⟩

theorem exists_chain (op : Connective) {vs : List Value} {tss : List (List Token)}
    (hne : ∀ x ∈ v :: w :: vs, x ≠ .null) (hv : Operated v ts) (hw : Operated w us)
    (hvs : List.Forall₂ Operated vs tss) :
    (∃ ts, Expressed (headed op.word (v :: w :: vs)) ts) ∧
      ∃ ts, Operated (headed op.word (v :: w :: vs)) ts := by
  obtain ⟨hbinary, hspells⟩ := connective_lookup op
  refine exists_operated hv ((us :: tss).flatMap (connectiveToken op :: ·))
    ⟨_, _, rfl, by cases op <;> decide⟩ (fun nested => ?_) fun n hn => ?_
  · exact Render.writes_infix hbinary rfl hspells (fun _ => hne) hv.writes hw.writes
      (hvs.imp fun _ _ h => h.writes) nested
  · refine chain_takes op hv hw hvs (by omega) fun xs hxs => ?_
    have := length_le_flatMap hxs [connectiveToken op]
    simp only [List.singleton_append] at this
    omega

/-- The members of a list are taken, the first of them where a query might stand. -/
theorem inList_takes (negated : Bool) {ws : List Value} {tss : List (List Token)}
    (hv : Operated v ts) (hw : Expressed w us) (hws : List.Forall₂ Expressed ws tss)
    (hn : (ts ++ (negation negated ++ nameToken "IN" :: listTokens (us :: tss))).length ≤ n) :
    Takes (expression (nested n)) (ts ++ (negation negated ++ nameToken "IN" :: listTokens (us :: tss)))
      (Ends 10) (Means · (headed (if negated then "not-in" else "in") [v, Reading.members (w :: ws)])) := by
  have hlen : ∀ xs ∈ us :: tss, xs.length + 1 ≤ n := by
    intro xs hxs
    have := length_le_commaTokens hxs
    simp only [listTokens, List.length_append, List.length_cons] at hn
    omega
  have hts : ts.length ≤ n := by
    rw [List.length_append] at hn
    omega
  have hus := hlen us (by simp)
  obtain ⟨m, rfl⟩ : ∃ m, n = m + 1 := ⟨n - 1, by omega⟩
  have hfollow : ∀ o, OrSign "," (· = some (.symbol ")")) o → Ends 10 o := by
    rintro _ (rfl | rfl) _ ⟨⟩ <;> decide
  have hfirst := (group_takes (hw.opens m (by omega)) (hw.takes m (by omega))).before hfollow
  have hrest : List.Forall₂ (fun w ts => Takes (expression (nested m)) ts
      (OrSign "," (· = some (.symbol ")"))) (Means · w)) ws tss :=
    (forall₂_mem hws).imp fun _ _ ⟨h, hmem⟩ =>
      (h.takes m (Nat.le_of_succ_le_succ (hlen _ (by simp [hmem])))).before hfollow
  have hmember := fun a (ha : MeansAlone a v) => (membership_takes (nested (m + 1)) (e := a)
    (R := fun w e => Means e w) negated hfirst hrest (Ends 6)).mono (fun _ => id) fun o ⟨b, hb, as, has, hin⟩ =>
      (⟨b, hb, hin ▸ Reading.inList_means negated ha.means (has.flip.imp fun _ _ => id)⟩ :
        ∃ b, o = some b ∧
          Means b (headed (if negated then "not-in" else "in") [v, Reading.members (w :: ws)]))
  refine expression_of_predicate _ ((hv.opens _ hts).begins.append _) ?_
  exact predicateLevel_of _ _ _ ⟨_, _, rfl, rfl, by decide⟩ (hv.other hts) hmember

theorem membership_spells (negated : Bool) :
    (if negated then "not-in" else "in") ∈ Operator.membership ∧
      Spells (Keyword.render (if negated then "not-in" else "in"))
        (negation negated ++ [nameToken "IN"]) := by
  cases negated with
  | false => exact ⟨by decide, Lexer.spells_word (t := "IN") rfl⟩
  | true => exact ⟨by decide, Lexer.spells_words "NOT" ["IN"] rfl (by decide)⟩

theorem exists_inList (negated : Bool) {x : Value} {ws : List Value} {tss : List (List Token)}
    (hx : Reading.members (w :: ws) = x) (hv : Operated v ts) (hw : Expressed w us)
    (hws : List.Forall₂ Expressed ws tss)
    (hwrites : ∀ {op os}, op ∈ Operator.membership → Spells (Keyword.render op) os → ∀ nested,
      Writes nested (headed op [v, x])
        (parenTokens nested (ts ++ (os ++ listTokens (us :: tss))))) :
    (∃ ts, Expressed (headed (if negated then "not-in" else "in") [v, x]) ts) ∧
      ∃ ts, Operated (headed (if negated then "not-in" else "in") [v, x]) ts := by
  subst hx
  obtain ⟨hop, hspells⟩ := membership_spells negated
  refine exists_operated hv (negation negated ++ nameToken "IN" :: listTokens (us :: tss))
    (by cases negated <;> exact ⟨_, _, rfl, by decide⟩) (fun nested => ?_) fun n hn => ?_
  · have h := hwrites hop hspells nested
    rwa [List.append_assoc] at h
  · exact inList_takes negated hv hw hws (by rwa [List.length_append])

end Operations

end

end Syntax.Parser

open Syntax.Parser

theorem members_of_isMap {w : Value} (hw : w.isMap = true) (ws : List Value) :
    Reading.members (w :: ws) = .list (w :: ws) := by
  cases w <;> first | rfl | cases hw

theorem isValueList_of_isMap {w : Value} (hw : w.isMap = true) : Render.isValueList w = true := by
  cases w <;> first | rfl | cases hw

namespace Expressible

/-- An expression is a column, a wrapped literal or an operation. -/
theorem members_of_not_isMap {w : Value} (h : Expressible w) (hw : w.isMap = false)
    (ws : List Value) : Reading.members (w :: ws) = headed "composite" (w :: ws) := by
  cases h <;> first | rfl | cases hw

/-- Tokens that an expression is rendered to and read from, alone and as an operand. -/
theorem exists_tokens {v : Value} (h : Expressible v) :
    (∃ ts, Expressed v ts) ∧ ∃ ts, Operated v ts := by
  induction h with
  | column hp hps =>
    have h := operated_column hp hps
    exact ⟨⟨_, h.expressed (Render.writes_column hp hps false)⟩, _, h⟩
  | int hn =>
    obtain ⟨ts, h, hw⟩ := operated_int hn
    exact ⟨⟨ts, h.expressed hw⟩, ts, h⟩
  | string s =>
    have h := operated_string s
    exact ⟨⟨_, h.expressed (Render.writes_string s false)⟩, _, h⟩
  | bool b =>
    have h := operated_bool b
    exact ⟨⟨_, h.expressed (Render.writes_bool b false)⟩, _, h⟩
  | binary hop hv hw ihv ihw =>
    obtain ⟨-, ts, hts⟩ := ihv
    obtain ⟨-, us, hus⟩ := ihw
    exact exists_binary hop hv.ne_null hw.ne_null hts hus
  | comparison hop hv hw ihv ihw =>
    obtain ⟨-, ts, hts⟩ := ihv
    obtain ⟨-, us, hus⟩ := ihw
    exact exists_comparison hop hv.ne_null hw.ne_null hts hus
  | predicate negated p hv hw ihv ihw =>
    obtain ⟨-, ts, hts⟩ := ihv
    obtain ⟨-, us, hus⟩ := ihw
    exact exists_predicate negated p hv.ne_null hw.ne_null hts hus
  | test negated t _ ihv =>
    obtain ⟨-, ts, hts⟩ := ihv
    exact exists_test negated t hts
  | chain op hv hw hvs ihv ihw ihvs =>
    obtain ⟨-, ts, hts⟩ := ihv
    obtain ⟨-, us, hus⟩ := ihw
    obtain ⟨tss, htss⟩ := exists_forall₂ fun x hx => (ihvs x hx).2
    refine exists_chain op (fun x hx => ?_) hts hus htss
    rcases List.mem_cons.mp hx with rfl | hx
    · exact hv.ne_null
    · rcases List.mem_cons.mp hx with rfl | hx
      · exact hw.ne_null
      · exact (hvs x hx).ne_null
  | inValues negated _ hmap _ _ ihv ihw ihws =>
    obtain ⟨-, ts, hts⟩ := ihv
    obtain ⟨⟨us, hus⟩, -⟩ := ihw
    obtain ⟨uss, huss⟩ := exists_forall₂ fun x hx => (ihws x hx).1
    refine exists_inList negated (members_of_isMap hmap _) hts hus huss fun hop hos nested => ?_
    exact Render.writes_inValues hop hos hts.writes (isValueList_of_isMap hmap)
      (.cons hus.writes (huss.imp fun _ _ h => h.writes)) nested
  | inRow negated _ hmap hw _ ihv ihw ihws =>
    obtain ⟨-, ts, hts⟩ := ihv
    obtain ⟨⟨us, hus⟩, -⟩ := ihw
    obtain ⟨uss, huss⟩ := exists_forall₂ fun x hx => (ihws x hx).1
    refine exists_inList negated (hw.members_of_not_isMap hmap _) hts hus huss
      fun hop hos nested => ?_
    exact Render.writes_inRow hop hos hts.writes (List.cons_ne_nil _ _)
      (.cons hus.writes (huss.imp fun _ _ h => h.writes)) nested

end Expressible

end SqlTree

import Mathlib.Computability.Language
import SqlTree.Proofs.Grammar.Starts

/-!
The right sides as languages. What the rules say in the order of a table is here put in the order of
reading: recursion on the left becomes repetition, and what alternatives start with is taken out.
-/

namespace SqlTree.Grammar

open scoped Computability

open Rhs

def lang (x : Rhs) : Language Token := {ts | Derives x ts}

theorem mem_lang {x : Rhs} {ts : List Token} : ts ∈ lang x ↔ Derives x ts := .rfl

section Operations

variable {x y : Rhs} {xs : List Rhs}

@[simp] theorem lang_void : lang void = 0 := by
  ext ts
  refine ⟨fun h => ?_, fun h => (Language.notMem_zero ts h).elim⟩
  cases (h : Derives void ts)

@[simp] theorem lang_empty : lang empty = 1 := by
  ext ts
  rw [Language.mem_one]
  exact ⟨fun h => by cases (h : Derives empty ts); rfl, fun h => h ▸ Derives.empty⟩

theorem lang_rule (r : Rule) : lang (rule r) = lang (rhs r) := by
  ext ts
  exact ⟨fun h => by cases (h : Derives (rule r) ts); assumption, Derives.rule⟩

@[simp] theorem lang_seq : lang (seq x y) = lang x * lang y := by
  ext ts
  rw [Language.mem_mul]
  constructor
  · intro h
    cases (h : Derives (seq x y) ts) with
    | seq hx hy => exact ⟨_, hx, _, hy, rfl⟩
  · rintro ⟨us, hx, vs, hy, rfl⟩
    exact Derives.seq hx hy

@[simp] theorem lang_alt : lang (alt x y) = lang x + lang y := by
  ext ts
  rw [Language.mem_add]
  constructor
  · intro h
    cases (h : Derives (alt x y) ts) with
    | left hx => exact .inl hx
    | right hy => exact .inr hy
  · rintro (hx | hy)
    · exact Derives.left hx
    · exact Derives.right hy

theorem exists_of_star {z : Rhs} {ts : List Token} (h : Derives z ts) (hz : z = star x) :
    ∃ tss : List (List Token), ts = tss.flatten ∧ ∀ us ∈ tss, Derives x us := by
  induction h with
  | stop => exact ⟨[], rfl, nofun⟩
  | more hx _ _ ih =>
    obtain rfl := Rhs.star.inj hz
    obtain ⟨tss, rfl, htss⟩ := ih rfl
    exact ⟨_ :: tss, rfl, List.forall_mem_cons.mpr ⟨hx, htss⟩⟩
  | _ => cases hz

@[simp] theorem lang_star : lang (star x) = (lang x)∗ := by
  ext ts
  rw [Language.mem_kstar]
  constructor
  · exact fun h => exists_of_star h rfl
  · rintro ⟨tss, rfl, htss⟩
    induction tss with
    | nil => exact Derives.stop
    | cons us tss ih =>
      exact Derives.more (htss us (by simp)) (ih fun vs hvs => htss vs (by simp [hvs]))

@[simp] theorem lang_opt : lang (opt x) = lang x + 1 := by
  rw [opt, lang_alt, lang_empty]

@[simp] theorem lang_plus : lang (plus x) = lang x * (lang x)∗ := by
  rw [plus, lang_seq, lang_star]

@[simp] theorem lang_seqs_nil : lang (seqs []) = 1 := lang_empty

@[simp] theorem lang_seqs_cons : lang (seqs (x :: xs)) = lang x * lang (seqs xs) := lang_seq

@[simp] theorem lang_alts_nil : lang (alts []) = 0 := lang_void

@[simp] theorem lang_alts_cons : lang (alts (x :: xs)) = lang x + lang (alts xs) := lang_alt

/-- One token of one of the terminals. -/
theorem derives_alts_iff {cs : List Terminal} {ts : List Token} :
    Derives (alts (cs.map token)) ts ↔ ∃ t, ts = [t] ∧ ∃ c ∈ cs, c.Matches t := by
  induction cs with
  | nil => exact iff_of_false (fun h => by cases h) (by simp)
  | cons c cs ih =>
    constructor
    · intro h
      cases h with
      | left h =>
        cases h with
        | token ht => exact ⟨_, rfl, c, by simp, ht⟩
      | right h =>
        obtain ⟨t, rfl, d, hd, ht⟩ := ih.mp h
        exact ⟨t, rfl, d, by simp [hd], ht⟩
    · rintro ⟨t, rfl, d, hd, ht⟩
      rcases List.mem_cons.mp hd with rfl | hd
      · exact .left (.token ht)
      · exact .right (ih.mpr ⟨t, rfl, d, hd, ht⟩)

theorem lang_alt_of_imp (h : ∀ ts, Derives x ts → Derives y ts) : lang (alt x y) = lang y := by
  ext ts
  rw [lang_alt, Language.mem_add]
  exact or_iff_right_of_imp (h ts)

theorem nil_notMem_lang (h : x.nullable = false) : [] ∉ lang x := fun hx => by
  rw [Derives.nullable hx rfl] at h
  cases h

/-- A language that goes on from itself on the right repeats what it goes on with. -/
theorem eq_mul_kstar {l m n : Language Token} (hm : [] ∉ m) (h : l = n + l * m) : l = n * m∗ := by
  have hreverse : l.reverse = m.reverse * l.reverse + n.reverse := by
    conv_lhs => rw [h]
    rw [Language.reverse_add, Language.reverse_mul, add_comm]
  have hm' : [] ∉ m.reverse := by simpa [Language.mem_reverse] using hm
  have harden := (Language.self_eq_mul_add_iff hm').mp hreverse
  rw [← Language.reverse_kstar, ← Language.reverse_mul] at harden
  exact Language.reverse_injective harden

/-- A rule that goes on from itself. -/
theorem lang_leftRec {r : Rule} (h : lang (rhs r) = lang x + lang (rule r) * lang y)
    (hy : y.nullable = false) : lang (rule r) = lang x * (lang y)∗ :=
  eq_mul_kstar (nil_notMem_lang hy) ((lang_rule r).trans h)

/-- A rule that goes on to itself. -/
theorem lang_rightRec {r : Rule} (h : lang (rhs r) = lang y * lang (rule r) + lang x)
    (hy : y.nullable = false) : lang (rule r) = (lang y)∗ * lang x :=
  (Language.self_eq_mul_add_iff (nil_notMem_lang hy)).mp ((lang_rule r).trans h)

end Operations

section Levels

open Terminal Rule

/-! What goes on with an expression, from the level that binds most strongly. -/

def castOrIndex : Rhs := alts [seqs [TYPECAST, typeName], seqs [LSQB, expr, RSQB]]

def zoneTail : Rhs := seqs [AT, TIME, ZONE, unaryExpr]

def powerTail : Rhs := seqs [CARET, atExpr]

def productTail : Rhs := seqs [alts [STAR, SLASH, PERCENT], expExpr]

def sumTail : Rhs := seqs [alts [PLUS, MINUS], mulExpr]

def otherTail : Rhs := seqs [OTHER_OP, addExpr]

def predicate : Rhs := alts [
  seqs [BETWEEN, otherExpr, AND, otherExpr], seqs [IN, inSource], seqs [LIKE, otherExpr],
  seqs [ILIKE, otherExpr], seqs [SIMILAR, TO, otherExpr]]

def predicateTail : Rhs := alt (seqs [NOT, predicate]) (opt predicate)

def comparisonTail : Rhs := opt (seqs [compOp, predExpr])

def testTail : Rhs := alts [
  seqs [IS, opt NOT, alts [NULL, TRUE, FALSE, seqs [DISTINCT, FROM, cmpExpr]]], ISNULL, NOTNULL]

def andTail : Rhs := seqs [AND, notExpr]

def orTail : Rhs := seqs [OR, andExpr]

/-- All that goes on with a primary expression. -/
def exprTail : Rhs := seqs [
  star castOrIndex, star zoneTail, star powerTail, star productTail, star sumTail, star otherTail,
  predicateTail, comparisonTail, star testTail, star andTail, star orTail]

theorem lang_postfix : lang postfixExpr = lang primary * (lang castOrIndex)∗ :=
  lang_leftRec (by simp [-add_eq_sup, rhs, castOrIndex, mul_add]) rfl

theorem lang_unary : lang unaryExpr = (lang (alts [MINUS, PLUS]))∗ * lang postfixExpr :=
  lang_rightRec (by simp [-add_eq_sup, rhs, add_mul, add_comm]) rfl

theorem lang_zone : lang atExpr = lang unaryExpr * (lang zoneTail)∗ :=
  lang_leftRec (by simp [-add_eq_sup, rhs, zoneTail]) rfl

theorem lang_power : lang expExpr = lang atExpr * (lang powerTail)∗ :=
  lang_leftRec (by simp [-add_eq_sup, rhs, powerTail]) rfl

theorem lang_product : lang mulExpr = lang expExpr * (lang productTail)∗ :=
  lang_leftRec (by simp [-add_eq_sup, rhs, productTail, mul_add, add_mul]) rfl

theorem lang_sum : lang addExpr = lang mulExpr * (lang sumTail)∗ :=
  lang_leftRec (by simp [-add_eq_sup, rhs, sumTail, mul_add, add_mul]) rfl

theorem lang_other : lang otherExpr = lang addExpr * (lang otherTail)∗ :=
  lang_leftRec (by simp [-add_eq_sup, rhs, otherTail]) rfl

theorem lang_predicate : lang predExpr = lang otherExpr * lang predicateTail := by
  rw [lang_rule]
  simp [-add_eq_sup, rhs, predicateTail, predicate, mul_add]
  ac_rfl

theorem lang_comparison : lang cmpExpr = lang predExpr * lang comparisonTail := by
  rw [lang_rule]
  simp [-add_eq_sup, rhs, comparisonTail, mul_add, add_comm]

theorem lang_test : lang isExpr = lang cmpExpr * (lang testTail)∗ :=
  lang_leftRec (by simp [-add_eq_sup, rhs, testTail, mul_add, add_mul]; ac_rfl) rfl

theorem lang_not : lang notExpr = (lang NOT)∗ * lang isExpr :=
  lang_rightRec (by simp [-add_eq_sup, rhs, add_comm]) rfl

theorem lang_and : lang andExpr = lang notExpr * (lang andTail)∗ :=
  lang_leftRec (by simp [-add_eq_sup, rhs, andTail]) rfl

theorem lang_or : lang orExpr = lang andExpr * (lang orTail)∗ :=
  lang_leftRec (by simp [-add_eq_sup, rhs, orTail]) rfl

theorem lang_expr : lang expr = lang orExpr := by rw [lang_rule, rhs_expr]

/-- An expression is a primary one with negations and signs before it and all that goes on. -/
theorem lang_expr_primary : lang expr = (lang NOT)∗ * ((lang (alts [MINUS, PLUS]))∗ *
    (lang primary * lang exprTail)) := by
  rw [lang_expr, lang_or, lang_and, lang_not, lang_test, lang_comparison, lang_predicate,
    lang_other, lang_sum, lang_product, lang_power, lang_zone, lang_unary, lang_postfix]
  simp [exprTail, mul_assoc]

end Levels

section Queries

open Terminal Rule

/-! What goes on with a query, and what follows all of its set operations. -/

def intersectTail : Rhs := seqs [INTERSECT, setPrimary]

def setOperator : Rhs := alt (seqs [UNION, opt (alt ALL DISTINCT)]) (seqs [EXCEPT, opt ALL])

def unionTail : Rhs := seqs [setOperator, setTerm]

def closingTail : Rhs := seqs [opt orderClause, opt limitOffset, opt forClause]

def queryTail : Rhs := seqs [star intersectTail, star unionTail, closingTail]

theorem lang_setTerm : lang setTerm = lang setPrimary * (lang intersectTail)∗ :=
  lang_leftRec (by simp [-add_eq_sup, rhs, intersectTail]) rfl

theorem lang_setExpr : lang setExpr = lang setTerm * (lang unionTail)∗ :=
  lang_leftRec (by simp [-add_eq_sup, rhs, unionTail, setOperator, mul_add, add_mul]; ac_rfl) rfl

theorem lang_query : lang query = lang (opt withClause) * (lang setPrimary * lang queryTail) := by
  rw [lang_rule]
  simp [-add_eq_sup, rhs, queryTail, closingTail, lang_setExpr, lang_setTerm, mul_assoc]

theorem derives_opt_nil {x : Rhs} : Derives (opt x) [] := .right .empty

theorem derives_query_of_paren {ts : List Token} (h : Derives (seqs [LPAR, query, RPAR]) ts) :
    Derives query ts := by
  have hterm : Derives setTerm ts := .rule (.left (.rule (.right (.left h))))
  have hbody : Derives setExpr ts := .rule (.left hterm)
  have htail : Derives closingTail [] :=
    .seq derives_opt_nil (.seq derives_opt_nil (.seq derives_opt_nil .empty))
  have hquery : Derives (seq setExpr closingTail) (ts ++ []) := .seq hbody htail
  rw [List.append_nil] at hquery
  have hall : Derives (seq (opt withClause) (seq setExpr closingTail)) ([] ++ ts) :=
    .seq derives_opt_nil hquery
  exact .rule hall

end Queries

end SqlTree.Grammar

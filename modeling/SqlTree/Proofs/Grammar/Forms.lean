import SqlTree.Proofs.Grammar.Languages

/-!
The forms of a primary expression, told apart by what they start with, and what an expression goes
on with behind its first token.
-/

namespace SqlTree.Grammar

open Rhs

section Choices

variable {x y : Rhs} {xs : List Rhs} {c : Terminal} {t : Token} {ts : List Token}

theorem derives_alts : Derives (alts xs) ts ↔ ∃ x ∈ xs, Derives x ts := by
  induction xs with
  | nil => exact iff_of_false (fun h => by cases h) (by simp)
  | cons x xs ih =>
    rw [List.exists_mem_cons_iff, ← ih]
    exact ⟨fun h => by cases h with | left h => exact .inl h | right h => exact .inr h,
      fun h => h.elim .left .right⟩

/-- The first token picks the alternatives that may start with it. -/
theorem Derives.filter_alts (h : Derives (alts xs) (t :: ts)) (hc : c.Matches t) :
    ∃ x ∈ xs.filter (c ∈ ·.first), Derives x (t :: ts) := by
  obtain ⟨x, hx, h⟩ := derives_alts.mp h
  exact ⟨x, List.mem_filter.mpr ⟨hx, decide_eq_true (h.mem_first hc)⟩, h⟩

theorem Derives.of_token_seq (h : Derives (.seq (.token c) x) (t :: ts)) : Derives x ts := by
  generalize hts : t :: ts = us at h
  cases h with
  | seq hc hx =>
    cases hc with
    | token => exact (List.cons.inj hts).2 ▸ hx

theorem Derives.of_seq_cons (h : Derives (.seq x y) (t :: ts)) (hx : x.nullable = false) :
    ∃ us vs, ts = us ++ vs ∧ Derives x (t :: us) ∧ Derives y vs := by
  generalize hts : t :: ts = us at h
  cases h with
  | @seq _ _ us vs hus hvs =>
    cases us with
    | nil => exact absurd (hus.nullable rfl) (by simp [hx])
    | cons u us =>
      obtain ⟨rfl, rfl⟩ := List.cons.inj hts
      exact ⟨us, vs, rfl, hus, hvs⟩

theorem Derives.of_star_seq (h : Derives (.seq (.star x) y) (t :: ts)) (hc : c.Matches t)
    (hx : c ∉ x.first) : Derives y (t :: ts) := by
  generalize hts : t :: ts = us at h
  cases h with
  | @seq _ _ us _ hstar hy =>
    cases us with
    | nil => exact hy
    | cons u us =>
      obtain rfl := (List.cons.inj hts).1
      exact absurd (hstar.mem_first hc) hx

end Choices

section Primary

open Terminal Rule

/-- What follows an expression in parentheses. -/
def closeTail : Rhs := alts [seqs [COMMA, exprList, RPAR], seqs [RPAR, DOT, ident], RPAR]

/-- A query or an expression, and what closes it. -/
def groupTail : Rhs := alt (seq query RPAR) (seq expr closeTail)

def caseTail : Rhs := seqs [opt expr, plus whenClause, opt elseClause, END]

def rowTail : Rhs := seqs [LPAR, opt exprList, RPAR]

def arrayTail : Rhs := alt (seqs [LSQB, opt exprList, RSQB]) (seqs [LPAR, query, RPAR])

def castTail : Rhs := seqs [LPAR, expr, AS, typeName, RPAR]

def extractTail : Rhs := seqs [LPAR, ident, FROM, expr, RPAR]

def quantifiedTail : Rhs := seq LPAR (alt (seq query RPAR) (seq expr RPAR))

/-- An expression that starts with a name. -/
def namedForm : Rhs := alts [seqs [alts [NAME, TIME], STRING], funcCall, columnRef]

def primaryForms : List Rhs := [
  NUMBER, STRING, PARAM, seq LPAR groupTail, TRUE, FALSE, NULL, DEFAULT, seq CASE caseTail,
  seq ROW rowTail, seqs [EXISTS, LPAR, query, RPAR], seq ARRAY arrayTail, seq CAST castTail,
  seq EXTRACT extractTail, seq ALL quantifiedTail, seq ANY quantifiedTail, namedForm]

theorem lang_primary : lang primary = lang (alts primaryForms) := by
  simp [lang_rule primary, rhs, lang_rule literal, lang_rule caseExpr, primaryForms, groupTail,
    closeTail, caseTail, rowTail, arrayTail, castTail, extractTail, quantifiedTail, namedForm,
    mul_add, add_mul]
  ac_rfl

theorem lang_expr_forms : lang expr = lang (seq (star NOT) (seq (star (alts [MINUS, PLUS]))
    (seq (alts primaryForms) exprTail))) := by
  rw [lang_expr_primary, lang_primary]
  simp only [lang_seq, lang_star]

/-- Behind no sign an expression starts with one of the forms of an operand. -/
theorem exists_form {c : Terminal} {t : Token} {ts : List Token} (hc : c.Matches t)
    (hsign : c ∉ [NOT, MINUS, PLUS]) (h : Derives expr (t :: ts)) :
    ∃ x ∈ primaryForms.filter (c ∈ ·.first), ∃ us vs, ts = us ++ vs ∧ Derives x (t :: us) ∧
      Derives exprTail vs := by
  have hsigned := (lang_expr_forms.le h : Derives _ _).of_star_seq hc (by simp_all [Rhs.first])
  have hprimary := hsigned.of_star_seq hc (by simp_all [Rhs.first, alts])
  obtain ⟨us, vs, rfl, hus, hvs⟩ := hprimary.of_seq_cons (by decide)
  obtain ⟨x, hx, hxus⟩ := hus.filter_alts hc
  exact ⟨x, hx, us, vs, rfl, hxus, hvs⟩

/-- What goes on with an expression behind a token that tells the form of its first operand. -/
theorem derives_expr_iff {c : Terminal} {x : Rhs} {t : Token} {ts : List Token} (hc : c.Matches t)
    (hform : primaryForms.filter (c ∈ ·.first) = [seq c x]) (hsign : c ∉ [NOT, MINUS, PLUS]) :
    Derives expr (t :: ts) ↔ Derives (seq x exprTail) ts := by
  constructor
  · intro h
    obtain ⟨y, hy, us, vs, rfl, hyus, hvs⟩ := exists_form hc hsign h
    obtain rfl := List.mem_singleton.mp (hform ▸ hy)
    exact .seq hyus.of_token_seq hvs
  · intro h
    have hmem : seq c x ∈ primaryForms := List.mem_of_mem_filter (hform ▸ List.mem_singleton_self _)
    refine lang_expr_forms.ge (Derives.seq .stop (Derives.seq .stop ?_) : Derives _ (t :: ts))
    generalize ts = us at h
    cases h with
    | seq hx htail => exact Derives.seq (derives_alts.mpr ⟨_, hmem, .seq (.token hc) hx⟩) htail

theorem derives_seq_assoc {x y z : Rhs} {ts : List Token} :
    Derives (seq (seq x y) z) ts ↔ Derives (seq x (seq y z)) ts := by
  have hlang : lang (seq (seq x y) z) = lang (seq x (seq y z)) := by simp [mul_assoc]
  exact ⟨fun h => hlang.le h, fun h => hlang.ge h⟩

/-- Likewise where something follows the expression. -/
theorem derives_expr_seq_iff {c : Terminal} {x y : Rhs} {t : Token} {ts : List Token}
    (hc : c.Matches t) (hform : primaryForms.filter (c ∈ ·.first) = [seq c x])
    (hsign : c ∉ [NOT, MINUS, PLUS]) :
    Derives (seq expr y) (t :: ts) ↔ Derives (seq x (seq exprTail y)) ts := by
  rw [← derives_seq_assoc]
  constructor
  · intro h
    obtain ⟨us, vs, rfl, hexpr, hy⟩ := h.of_seq_cons rfl
    exact .seq ((derives_expr_iff hc hform hsign).mp hexpr) hy
  · intro h
    cases h with
    | seq hexpr hy => exact .seq ((derives_expr_iff hc hform hsign).mpr hexpr) hy

theorem derives_expr_of_operand {ts us : List Token} (h : Derives primary ts)
    (htail : Derives exprTail us) : Derives expr (ts ++ us) := by
  refine lang_expr_primary.ge ⟨[], ?_, ts ++ us, ⟨[], ?_, ts ++ us, ⟨ts, h, us, htail, rfl⟩, rfl⟩, rfl⟩
  · exact Language.nil_mem_kstar _
  · exact Language.nil_mem_kstar _

theorem derives_expr_of_primary {ts : List Token} (h : Derives primary ts) : Derives expr ts := by
  have htail : Derives exprTail [] :=
    .seq .stop (.seq .stop (.seq .stop (.seq .stop (.seq .stop (.seq .stop (.seq (.right (.right .empty))
      (.seq (.right .empty) (.seq .stop (.seq .stop (.seq .stop .empty))))))))))
  simpa using derives_expr_of_operand h htail

theorem derives_expr_paren_iff {t : Token} {ts : List Token} (ht : LPAR.Matches t) :
    Derives expr (t :: ts) ↔ Derives (seq groupTail exprTail) ts :=
  derives_expr_iff ht rfl (by decide)

theorem derives_groupTail {ts : List Token}
    (h : Derives (alt (seq query RPAR) (seq expr RPAR)) ts) : Derives groupTail ts := by
  cases h with
  | left hquery => exact .left hquery
  | right hexpr =>
    cases hexpr with
    | seq hexpr hclose => exact .right (.seq hexpr (.right (.right (.left hclose))))

/-- What a quantifier stands before is an expression as well. -/
theorem derives_expr_of_all {t : Token} {ts : List Token} (ht : ALL.Matches t)
    (h : Derives expr (t :: ts)) : Derives expr ts := by
  have htail : Derives (seq quantifiedTail exprTail) ts :=
    (derives_expr_iff ht rfl (by decide)).mp h
  generalize ts = us at htail
  cases htail with
  | seq hquantified htail =>
    cases hquantified with
    | seq hparen hgroup =>
      cases hparen with
      | token hparen =>
        exact (derives_expr_paren_iff hparen).mpr (.seq (derives_groupTail hgroup) htail)

end Primary

end SqlTree.Grammar

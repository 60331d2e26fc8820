import SqlTree.Syntax.Reading.Tree
import SqlTree.Proofs.RoundTrip.PlainName
import Mathlib.Data.List.Forall2

/-!
What trees are read as when no limit on their depth is in the way.
-/

namespace SqlTree.Syntax

/-- The reading yields `a` where enough levels are left. -/
def Reads {α : Type} (r : Read α) (a : α) : Prop :=
  ∃ levels : Nat, ∀ d : Depth, (d.reached : Int) + levels ≤ d.limit → r d = .ok a

namespace Reads

variable {α β : Type} {r : Read α} {a : α}

theorem pure (a : α) : Reads (pure a : Read α) a := ⟨0, fun _ _ => rfl⟩

theorem bind {f : α → Read β} {b : β} (h : Reads r a) (hf : Reads (f a) b) : Reads (r >>= f) b := by
  obtain ⟨j, hj⟩ := h
  obtain ⟨k, hk⟩ := hf
  refine ⟨max j k, fun d hd => ?_⟩
  change (r d).bind _ = _
  rw [hj d (by omega)]
  exact hk d (by omega)

theorem map {f : α → β} (h : Reads r a) : Reads (do return f (← r)) (f a) := h.bind (.pure _)

theorem visit (h : Reads r a) : Reads (visit r) a := by
  obtain ⟨k, hk⟩ := h
  refine ⟨k + 1, fun d hd => ?_⟩
  have hlimit : ¬ d.limit < ((d.reached + 1 : Nat) : Int) := by omega
  simp only [Syntax.visit, hlimit, if_false]
  exact hk _ (by simp only; omega)

theorem mapM {rs : List (Read α)} {as : List α} (h : List.Forall₂ Reads rs as) :
    Reads (rs.mapM id) as := by
  induction h with
  | nil => exact .pure []
  | cons hr _ ih =>
    rw [List.mapM_cons]
    exact hr.bind ih.map

theorem visitAll {rs : List (Read α)} {as : List α} (h : List.Forall₂ Reads rs as) :
    Reads (visitAll rs) as :=
  (mapM h).visit

end Reads

/-- The expression is read as the value. -/
def Means (e : Expr) (v : Value) : Prop := Reads e.read.value v

/-- The expression is no chain of a connective, and is read as the value. -/
structure MeansAlone (e : Expr) (v : Value) : Prop where
  means : Means e v
  alone : ∀ op, e.read.operands op = do return [← e.read.value]

namespace Reading

theorem values_reads {es : List Expr} {vs : List Value} (h : List.Forall₂ Means es vs) :
    Reads (Operand.values (Tree.ofList es).read) vs := by
  refine .visitAll ?_
  induction h with
  | nil => exact .nil
  | cons he _ ih => exact .cons he ih

theorem number_means {n : Nat} (h : n.repr.length ≤ Literal.digitLimit) :
    MeansAlone (.number n.repr) (untyped (.int n)) where
  means := by
    have hdigit : ∀ c ∈ n.repr.toList, c.isDigit = true := by
      rw [Nat.toList_repr]
      exact fun c hc => Nat.isDigit_of_mem_toDigits (by decide) (by decide) hc
    have hint : (n.repr.toList.any fun c => c = '.' || c = 'e' || c = 'E') = false := by
      rw [List.any_eq_false]
      intro c hc
      have hmem := (Lexer.isDigit_classes (hdigit c hc)).2.2
      simp only [List.mem_cons, List.not_mem_nil, or_false] at hmem
      rcases hmem with rfl | rfl | rfl | rfl | rfl | rfl | rfl | rfl | rfl | rfl <;> decide
    have hread : Literal.number n.repr = .ok (.int n) := by
      have hlen : ¬ Literal.digitLimit < n.repr.toList.length := by
        rw [String.length_toList]
        omega
      rw [Literal.number, hint, if_neg (by decide), if_neg hlen, Lexer.digitsValue_repr]
    rw [Means, Tree.read, hread]
    exact Reads.visit (Reads.pure (untyped (.int n)))
  alone _ := by rw [Tree.read]; rfl

theorem negative_means {n : Nat} (h : n.repr.length ≤ Literal.digitLimit) :
    MeansAlone (.negate (.number n.repr)) (untyped (.int (-n))) where
  means := by
    rw [Means, Tree.read]
    exact .visit (number_means h).means.map
  alone _ := by rw [Tree.read]; rfl

theorem string_means (s : String) :
    MeansAlone (.string (Text.enclosed "'" s "'")) (untyped (.text s)) where
  means := by
    have hs : Literal.unquoted (Text.enclosed "'" s "'") = s := Text.unquoted_enclosed '\'' s
    rw [Means, Tree.read, hs]
    exact (Reads.pure _).visit
  alone _ := by rw [Tree.read]; rfl

theorem boolean_means (b : Bool) : MeansAlone (.boolean b) (untyped (.bool b)) :=
  ⟨(Reads.pure _).visit, fun _ => rfl⟩

theorem isPlain_bare {t : String} (h : PlainPart t) : (bare t).isPlain = true := h.isPlain

theorem pathValue_bare {p : String} {ps : List String} (hp : PlainPart p)
    (hps : ∀ q ∈ ps, PlainPart q) :
    Path.value ((p :: ps).map bare) = .text (dotted (p :: ps)) := by
  have hall : ((p :: ps).map bare).all Name.isPlain = true := by
    rw [List.all_eq_true]
    intro n hn
    obtain ⟨q, hq, rfl⟩ := List.mem_map.mp hn
    rcases List.mem_cons.mp hq with rfl | hq
    · exact isPlain_bare hp
    · exact isPlain_bare (hps q hq)
  have htext : ((p :: ps).map bare).map Name.content = p :: ps := by
    rw [List.map_map]
    exact List.map_id' _
  rw [Path.value, if_pos hall, Path.text, htext]
  rfl

theorem column_means {p : String} {ps : List String} (hp : PlainPart p)
    (hps : ∀ q ∈ ps, PlainPart q) :
    MeansAlone (.column ((p :: ps).map bare)) (.text (dotted (p :: ps))) where
  means := by
    rw [Means, Tree.read, pathValue_bare hp hps]
    exact (Reads.pure _).visit
  alone _ := by rw [Tree.read]; rfl

theorem paren_means {e : Expr} {v : Value} (h : Means e v) : MeansAlone (.paren e) v :=
  ⟨h.visit, fun _ => rfl⟩

variable {e f : Expr} {v w : Value}

theorem form_reads {head : String} {es : List Operand} {vs : List Value}
    (h : List.Forall₂ (fun e v => Reads e.value v) es vs) :
    Reads (Operand.form head es).value (headed head vs) := by
  have hvs : Reads (es.mapM Operand.value) vs := by
    induction h with
    | nil => exact .pure []
    | cons he _ ih =>
      rw [List.mapM_cons]
      exact he.bind ih.map
  exact hvs.map.visit

theorem binary_means (op : String) (he : Means e v) (hf : Means f w) :
    Means (.binary op e f) (headed op [v, w]) :=
  form_reads (.cons he (.cons hf .nil))

theorem comparison_means {op : String} (hop : op ≠ "!=") (he : Means e v) (hf : Means f w) :
    Means (.comparison op e f) (headed op [v, w]) := by
  have hform : (Tree.comparison op e f).read = Operand.form op [e.read, f.read] := by
    rw [Tree.read]
    simp only [Reading.comparison, if_neg hop]
    rfl
  rw [Means, hform]
  exact form_reads (.cons he (.cons hf .nil))

theorem predicate_means (negated : Bool) (p : Predicate) (he : Means e v) (hf : Means f w) :
    Means (.predicate negated p e f) (headed (p.word negated) [v, w]) :=
  form_reads (.cons he (.cons hf .nil))

theorem test_means (negated : Bool) (t : Test) (he : Means e v) :
    Means (.test negated t e) (headed (if negated then "is-not" else "is") [v, t.operand]) :=
  Reads.visit (Reads.map (f := fun v => headed (if negated then "is-not" else "is") [v, t.operand]) he)

theorem inList_means (negated : Bool) {es : List Expr} {vs : List Value} (he : Means e v)
    (hes : List.Forall₂ Means es vs) :
    Means (.inList negated e (.ofList es))
      (headed (if negated then "not-in" else "in") [v, members vs]) := by
  have hvs : Reads (Syntax.visit (Operand.values (Tree.ofList es).read)) vs :=
    (values_reads hes).visit
  exact Reads.visit (Reads.bind he (Reads.bind hvs (.pure _)))

theorem chainOperands_reads {op : Connective} {left right : Operand} {us : List Value}
    (hl : Reads (left.operands op) us) (hr : Reads right.value w) :
    Reads (chainOperands op left right) (us ++ [w]) :=
  hl.bind (Reads.map (f := fun w => us ++ [w]) hr)

/-- A chain of one connective is read as one operation. -/
theorem connected_means {op : Connective} {us ws : List Value} {es : List Expr}
    (he : Reads (e.read.operands op) us) (hf : Means f w) (hes : List.Forall₂ Means es ws) :
    Means ((f :: es).foldl (.connected op) e) (headed op.word (us ++ w :: ws)) := by
  induction hes generalizing e f us w with
  | nil =>
    rw [List.foldl_cons, List.foldl_nil, Means, Tree.read]
    exact .visit (chainOperands_reads he hf).map
  | @cons g x es ws hg _ ih =>
    have hstep : Reads ((Tree.connected op e f).read.operands op) (us ++ [w]) := by
      rw [Tree.read]
      simpa [Reading.connected] using chainOperands_reads he hf
    have hnext := ih hstep hg
    rwa [List.append_assoc] at hnext

end Reading

end SqlTree.Syntax

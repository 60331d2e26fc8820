import SqlTree.Proofs.Conditions.Grammar

/-! Conditions as values, and what these are rendered to. A null among the operands of a connective
is dropped, so it has the truth value that the connective does not change. -/

namespace SqlTree

open Syntax (Reads Connective headed untyped)
open Lexer (Spells nameToken)
open Render (Writes Gives parenTokens)
open Syntax.Parser (connectiveToken)

namespace Condition

section Reading

/-- What a condition is read as, and what it is read as behind a connective. -/
structure Meaning where
  value : Value
  operands : Connective → List Value

namespace Meaning

def single (v : Value) : Meaning := ⟨v, fun _ => [v]⟩

def connected (op : Connective) (left right : Meaning) : Meaning :=
  let vs := left.operands op ++ [right.value]
  ⟨headed op.word vs, fun op' => if op' = op then vs else [headed op.word vs]⟩

end Meaning

def meaning : Condition → Meaning
  | column path => .single path.value
  | truth b => .single (untyped (.bool b))
  | null => .single .null
  | paren c => .single c.meaning.value
  | not c => .single (headed "not" [c.meaning.value])
  | connected op c d => .connected op c.meaning d.meaning

theorem reads_single {r : Syntax.Read Value} {v : Value} (h : Reads r v) :
    Reads (Syntax.Operand.single r).value v ∧
      ∀ op, Reads ((Syntax.Operand.single r).operands op) ((Meaning.single v).operands op) :=
  ⟨h, fun _ => h.map⟩

/-- The tree of a condition is read as its value. -/
theorem reads (c : Condition) : Reads c.tree.read.value c.meaning.value ∧
    ∀ op, Reads (c.tree.read.operands op) (c.meaning.operands op) := by
  induction c with
  | column path => exact reads_single (.visit (.pure _))
  | truth b => exact reads_single (.visit (.pure _))
  | null => exact reads_single (.visit (.pure _))
  | paren c ih => exact reads_single ih.1.visit
  | not c ih => exact reads_single (Syntax.Reading.form_reads (.cons ih.1 .nil))
  | connected op c d ihc ihd =>
    have hoperands : Reads (Syntax.Reading.chainOperands op c.tree.read d.tree.read)
        (c.meaning.operands op ++ [d.meaning.value]) :=
      Syntax.Reading.chainOperands_reads (ihc.2 op) ihd.1
    have hvalue : Reads (Syntax.visit do
        return headed op.word (← Syntax.Reading.chainOperands op c.tree.read d.tree.read))
        (headed op.word (c.meaning.operands op ++ [d.meaning.value])) :=
      (hoperands.map (f := headed op.word)).visit
    refine ⟨hvalue, fun op' => ?_⟩
    change Reads (if op' = op then _ else _) (if op' = op then _ else _)
    split
    · exact hoperands
    · exact hvalue.map

end Reading

section Truth

/-- A null literal, perhaps in parentheses. -/
def isNull : Condition → Bool
  | null => true
  | paren c => c.isNull
  | _ => false

/-- The truth value of a condition without the null literals among the operands of connectives. -/
def keptEval (ρ : List String → Truth) : Condition → Truth
  | column path => ρ (path.map Syntax.Name.folded)
  | truth b => some b
  | null => none
  | paren c => c.keptEval ρ
  | not c => (c.keptEval ρ).map (!·)
  | connected op c d =>
    op.apply (if c.isNull then some op.unit else c.keptEval ρ)
      (if d.isNull then some op.unit else d.keptEval ρ)

/-- No operand of a connective is a null literal. -/
def NullsApart : Condition → Prop
  | connected _ c d => c.isNull = false ∧ d.isNull = false ∧ c.NullsApart ∧ d.NullsApart
  | paren c | not c => c.NullsApart
  | _ => True

theorem keptEval_eq {c : Condition} (h : c.NullsApart) (ρ : List String → Truth) :
    c.keptEval ρ = c.eval ρ := by
  induction c with
  | column | truth | null => rfl
  | paren c ih => exact ih h
  | not c ih => rw [keptEval, eval, ih h]
  | connected op c d ihc ihd =>
    obtain ⟨hc, hd, hcs, hds⟩ := h
    simp only [keptEval, eval, hc, hd, Bool.false_eq_true, if_false, ihc hcs, ihd hds]

theorem eval_of_isNull {c : Condition} (h : c.isNull = true) (ρ : List String → Truth) :
    c.eval ρ = none := by
  induction c with
  | null => rfl
  | paren c ih => exact ih h
  | _ => cases h

theorem value_eq_null_iff (c : Condition) : c.meaning.value = .null ↔ c.isNull = true := by
  induction c with
  | column path =>
    have hpath : path.value ≠ .null := by
      rw [Syntax.Path.value]
      split <;> simp [headed]
    exact iff_of_false hpath (by simp [isNull])
  | paren c ih => exact ih
  | null => exact iff_of_true rfl rfl
  | truth | not | connected => exact iff_of_false (by rintro ⟨⟩) (by simp [isNull])

end Truth

section Rendering

/-- A value is rendered to a condition that is true where `f` says so. -/
def Shown (v : Value) (f : (List String → Truth) → Truth) : Prop :=
  ∀ nested, ∃ ts d, Writes nested v ts ∧ Written (if nested then .factor else .whole) d ts ∧
    ∀ ρ, d.eval ρ = f ρ

theorem Written.ranked {d : Condition} {ts : List Token} (h : Written .factor d ts) (nested : Bool) :
    Written (if nested then .factor else .whole) d ts := by
  cases nested with
  | false => exact .whole (.term h)
  | true => exact h

theorem shown_operand {v : Value} {d : Condition} {ts : List Token} {f : (List String → Truth) → Truth}
    (hw : ∀ nested, Writes nested v ts) (hd : Written .operand d ts) (hf : ∀ ρ, d.eval ρ = f ρ) :
    Shown v f :=
  fun nested => ⟨ts, d, hw nested, hd.factor.ranked nested, hf⟩

theorem shown_truth (b : Bool) : Shown (untyped (.bool b)) fun _ => some b := by
  refine shown_operand (fun nested => Render.writes_bool b nested) (d := .truth b) ?_ fun _ => rfl
  refine .truth ?_
  cases b <;> decide

theorem shown_null : Shown .null fun _ => none := by
  have hnull : Syntax.Parser.isKeyword "null" (some (nameToken "NULL")) = true := by decide
  exact shown_operand Render.writes_null (.null hnull) fun _ => rfl

/-- A negation is rendered without parentheses. -/
theorem writes_not {v : Value} {ts : List Token} (h : Writes true v ts) (nested : Bool) :
    Writes nested (headed "not" [v]) (nameToken "NOT" :: ts) := by
  obtain ⟨f, hf, hs⟩ := h
  refine ⟨.after "NOT " f, .deeper ?_, ?_⟩
  · have hv := hf.mono (Render.height_le_of_mem [.text "not", v] (by simp))
    refine (hv.map (f := Fragment.after "NOT ")).congr fun r m d st => ?_
    rfl
  · have hnot : Spells "NOT" [nameToken "NOT"] := Lexer.spells_word rfl
    rw [Fragment.inlineSql_after]
    have h := hnot.space hs
    rwa [String.append_assoc] at h

theorem Shown.not {v : Value} {f : (List String → Truth) → Truth} (h : Shown v f) :
    Shown (headed "not" [v]) fun ρ => (f ρ).map (!·) := by
  obtain ⟨ts, d, hw, hd, hf⟩ := h true
  have hnot : Syntax.Parser.isKeyword "not" (some (nameToken "NOT")) = true := by decide
  refine fun nested => ⟨_, .not d, writes_not hw nested, (Written.not hnot hd).ranked nested,
    fun ρ => ?_⟩
  rw [eval, hf]

/-- What an operand of a connective adds: nothing if it is null. -/
def Adds (op : Connective) (v : Value) (f : (List String → Truth) → Truth) : Prop :=
  (v = .null ∧ ∀ ρ, f ρ = some op.unit) ∨ (v ≠ .null ∧ Shown v f)

/-- The operands one after the other. -/
def evalAll (op : Connective) (fs : List ((List String → Truth) → Truth)) (ρ : List String → Truth) :
    Truth :=
  fs.foldl (fun t f => op.apply t (f ρ)) (some op.unit)

theorem keptOperands_connective (op : Connective) (vs : List Value) :
    Render.keptOperands op.word vs = vs.filter (!Render.isNull ·) := by
  have hnil : Registry.standard.ignoresNil op.word = true := by cases op <;> decide
  rw [Render.keptOperands, if_pos hnil]

/-- The operands that are kept have the truth value of all. -/
theorem exists_kept {op : Connective} {vs : List Value} {fs : List ((List String → Truth) → Truth)}
    (h : List.Forall₂ (Adds op) vs fs) :
    ∃ gs, List.Forall₂ Shown (Render.keptOperands op.word vs) gs ∧
      ∀ ρ, evalAll op gs ρ = evalAll op fs ρ := by
  rw [keptOperands_connective]
  suffices hall : ∃ gs, List.Forall₂ Shown (vs.filter (!Render.isNull ·)) gs ∧ ∀ ρ t,
      gs.foldl (fun t f => op.apply t (f ρ)) t = fs.foldl (fun t f => op.apply t (f ρ)) t by
    obtain ⟨gs, hgs, heval⟩ := hall
    exact ⟨gs, hgs, fun ρ => heval ρ _⟩
  induction h with
  | nil => exact ⟨[], .nil, fun _ _ => rfl⟩
  | @cons v f vs fs hv _ ih =>
    obtain ⟨gs, hgs, heval⟩ := ih
    rcases hv with ⟨rfl, hunit⟩ | ⟨hne, hshown⟩
    · refine ⟨gs, hgs, fun ρ t => ?_⟩
      rw [heval, List.foldl_cons, hunit, Connective.apply_unit]
    · refine ⟨f :: gs, ?_, fun ρ t => by rw [List.foldl_cons, List.foldl_cons, heval]⟩
      have hkept : Render.isNull v = false := by
        cases v <;> first | rfl | exact absurd rfl hne
      rw [List.filter_cons_of_pos (by simp [hkept])]
      exact .cons hshown hgs

/-- An operator without operands is rendered as what it does not change. -/
theorem writes_unit {op t : String} {args : List Value} {ts : List Token} (hop : Render.IsInfix op)
    (hkept : Render.keptOperands op args = []) (hunit : Operator.unit? op = some t)
    (hs : Spells t ts) (nested : Bool) : Writes nested (headed op args) ts := by
  refine ⟨.ofText t, .deeper ?_, by rwa [Fragment.inlineSql_ofText]⟩
  refine (Gives.pure (Fragment.ofText t)).congr fun r m d st => ?_
  have hfilter : (if Registry.standard.ignoresNil op then args.filter (!Render.isNull ·) else args) =
      [] := hkept
  rw [headed, Render.infixed_eq hop, Render.infixed]
  erw [hfilter]
  rw [hunit]

/-- An operator with one operand is rendered as the operand. -/
theorem writes_only {op : String} {args : List Value} {v : Value} {ts : List Token}
    (hop : Render.IsInfix op) (hunary : Registry.standard.isUnary op = false)
    (hkept : Render.keptOperands op args = [v]) {nested : Bool} (hv : Writes nested v ts) :
    Writes nested (headed op args) ts := by
  obtain ⟨f, hf, hs⟩ := hv
  refine ⟨f, .deeper ?_, hs⟩
  have hmem : v ∈ .text op :: args :=
    List.mem_cons_of_mem _ (Render.keptOperands_subset op args (by simp [hkept]))
  refine (hf.mono (Render.height_le_of_mem _ hmem)).congr fun r m d st => ?_
  have hfilter : (if Registry.standard.ignoresNil op then args.filter (!Render.isNull ·) else args) =
      [v] := hkept
  rw [headed, Render.infixed_eq hop, Render.infixed]
  erw [hfilter]
  exact if_neg (by
    change ¬ Registry.standard.isUnary op = true
    rw [hunary]
    decide)

theorem eval_foldl (op : Connective) (ρ : List String → Truth) (c : Condition)
    (ds : List Condition) :
    (ds.foldl (.connected op) c).eval ρ = ds.foldl (fun t d => op.apply t (d.eval ρ)) (c.eval ρ) := by
  induction ds generalizing c with
  | nil => rfl
  | cons d ds ih => exact ih _

/-- Factors with a connective between them. -/
theorem written_chain {op : Connective} {c : Condition} {ds : List Condition} {ts : List Token}
    {tss : List (List Token)} (hc : Written .factor c ts)
    (hds : List.Forall₂ (Written .factor) ds tss) :
    Written .whole (ds.foldl (.connected op) c) (ts ++ tss.flatMap (connectiveToken op :: ·)) := by
  cases op with
  | and =>
    refine .whole ?_
    have hword : Syntax.Parser.isKeyword "and" (some (connectiveToken .and)) = true := by decide
    suffices h : ∀ c ts, Written .term c ts → Written .term (ds.foldl (.connected .and) c)
        (ts ++ tss.flatMap (connectiveToken .and :: ·)) from h c ts (.term hc)
    induction hds with
    | nil => exact fun c ts h => by simpa using h
    | @cons d us ds tss hd _ ih =>
      intro c ts h
      simpa using ih _ _ (.and h hword hd)
  | or =>
    have hword : Syntax.Parser.isKeyword "or" (some (connectiveToken .or)) = true := by decide
    suffices h : ∀ c ts, Written .whole c ts → Written .whole (ds.foldl (.connected .or) c)
        (ts ++ tss.flatMap (connectiveToken .or :: ·)) from h c ts (.whole (.term hc))
    induction hds with
    | nil => exact fun c ts h => by simpa using h
    | @cons d us ds tss hd _ ih =>
      intro c ts h
      simpa using ih _ _ (.or h hword (.term hd))

theorem exists_factors {vs : List Value} {fs : List ((List String → Truth) → Truth)}
    (h : List.Forall₂ Shown vs fs) :
    ∃ tss ds, List.Forall₂ (Writes true) vs tss ∧ List.Forall₂ (Written .factor) ds tss ∧
      ∀ ρ, ds.map (eval ρ) = fs.map (· ρ) := by
  induction h with
  | nil => exact ⟨[], [], .nil, .nil, fun _ => rfl⟩
  | @cons v f vs fs hv _ ih =>
    obtain ⟨ts, d, hw, hd, hf⟩ := hv true
    obtain ⟨tss, ds, hws, hds, hfs⟩ := ih
    exact ⟨ts :: tss, d :: ds, .cons hw hws, .cons hd hds, fun ρ => by
      rw [List.map_cons, List.map_cons, hf, hfs]⟩

/-- A connective is rendered as its operands that are not null. -/
theorem shown_connective {op : Connective} {vs : List Value}
    {fs : List ((List String → Truth) → Truth)} (h : List.Forall₂ (Adds op) vs fs) :
    Shown (headed op.word vs) (evalAll op fs) := by
  obtain ⟨hop, hspells⟩ := Syntax.Parser.connective_lookup op
  obtain ⟨gs, hgs, heval⟩ := exists_kept h
  have hunary : Registry.standard.isUnary op.word = false := by cases op <;> decide
  have hunit : Operator.unit? op.word = some (if op.unit then "TRUE" else "FALSE") := by
    cases op <;> rfl
  suffices hshown : Shown (headed op.word vs) (evalAll op gs) by
    refine fun nested => ?_
    obtain ⟨ts, d, hw, hd, hf⟩ := hshown nested
    exact ⟨ts, d, hw, hd, fun ρ => (hf ρ).trans (heval ρ)⟩
  generalize hkept : Render.keptOperands op.word vs = ks at hgs
  cases hgs with
  | nil =>
    have htruth := writes_unit hop hkept hunit (Render.spells_truth op.unit)
    refine shown_operand htruth (d := .truth op.unit) (.truth ?_) fun _ => rfl
    cases op <;> decide
  | @cons v f ks gs hv hgs =>
    cases hgs with
    | nil =>
      intro nested
      obtain ⟨ts, d, hw, hd, hf⟩ := hv nested
      refine ⟨ts, d, writes_only hop hunary hkept hw, hd, fun ρ => ?_⟩
      rw [hf]
      exact (op.unit_apply (f ρ)).symm
    | @cons w g ks gs hw hgs =>
      obtain ⟨us, c, hv, hc, hf⟩ := hv true
      obtain ⟨tss, ds, hws, hds, hfs⟩ := exists_factors (.cons hw hgs)
      obtain _ | ⟨hw, hws⟩ := hws
      have hwrites := Render.writes_kept hop rfl hspells hkept hv hw hws
      have hwritten : Written .whole (ds.foldl (.connected op) c) _ := written_chain hc hds
      have htruth : ∀ ρ, (ds.foldl (.connected op) c).eval ρ = evalAll op (f :: g :: gs) ρ := by
        intro ρ
        have hfold : ∀ t, ds.foldl (fun t d => op.apply t (d.eval ρ)) t =
            (ds.map (eval ρ)).foldl op.apply t := fun t => by rw [List.foldl_map]
        have hfirst : evalAll op (f :: g :: gs) ρ =
            (g :: gs).foldl (fun t f => op.apply t (f ρ)) (f ρ) := by
          rw [evalAll, List.foldl_cons, Connective.unit_apply]
        rw [eval_foldl, hfold, hfs, List.foldl_map, hf, hfirst]
      intro nested
      cases nested with
      | false => exact ⟨_, _, hwrites false, hwritten, htruth⟩
      | true => exact ⟨_, _, hwrites true, .factor (.paren hwritten), htruth⟩

/-- The columns of a condition are the same columns after they were formatted. -/
def IsStable : Condition → Prop
  | column path => path.IsStable
  | paren c | not c => c.IsStable
  | connected _ c d => c.IsStable ∧ d.IsStable
  | truth _ | null => True

theorem adds_of_shown {op : Connective} {c : Condition}
    (h : Shown c.meaning.value fun ρ => c.keptEval ρ) :
    Adds op c.meaning.value fun ρ => if c.isNull then some op.unit else c.keptEval ρ := by
  by_cases hnull : c.isNull = true
  · exact .inl ⟨c.value_eq_null_iff.mpr hnull, fun _ => if_pos hnull⟩
  · simp only [hnull, Bool.false_eq_true, if_false]
    exact .inr ⟨mt c.value_eq_null_iff.mp hnull, h⟩

/-- A condition is rendered as what is left of it without null operands, and its operands behind a
connective as parts of a chain. -/
theorem shown {c : Condition} (h : c.IsStable) : Shown c.meaning.value (fun ρ => c.keptEval ρ) ∧
    ∀ op : Connective, ∃ fs, List.Forall₂ (Adds op) (c.meaning.operands op) fs ∧
      ∀ ρ, evalAll op fs ρ = if c.isNull then some op.unit else c.keptEval ρ := by
  have halone : ∀ c : Condition, Shown c.meaning.value (fun ρ => c.keptEval ρ) → ∀ op : Connective,
      ∃ fs, List.Forall₂ (Adds op) [c.meaning.value] fs ∧
        ∀ ρ, evalAll op fs ρ = if c.isNull then some op.unit else c.keptEval ρ :=
    fun c hc op => ⟨[_], .cons (adds_of_shown hc) .nil, fun ρ => op.unit_apply _⟩
  induction c with
  | column path =>
    obtain ⟨path', ts, hw, hspelled, hfolded, -⟩ := Syntax.Path.IsStable.exists_written h
    have hshown : Shown path.value fun ρ => (column path).keptEval ρ :=
      shown_operand hw (.column hspelled) fun ρ => by rw [eval, keptEval, hfolded]
    exact ⟨hshown, halone (column path) hshown⟩
  | truth b => exact ⟨shown_truth b, halone (truth b) (shown_truth b)⟩
  | null => exact ⟨shown_null, halone null shown_null⟩
  | paren c ih => exact ⟨(ih h).1, halone (paren c) (ih h).1⟩
  | not c ih => exact ⟨(ih h).1.not, halone (not c) (ih h).1.not⟩
  | connected op c d ihc ihd =>
    obtain ⟨fs, hfs, hc⟩ := (ihc h.1).2 op
    have hall : List.Forall₂ (Adds op) (c.meaning.operands op ++ [d.meaning.value]) (fs ++ [_]) :=
      List.rel_append hfs (.cons (adds_of_shown (ihd h.2).1) .nil)
    have heval : ∀ ρ, evalAll op (fs ++ [fun ρ => if d.isNull then some op.unit else d.keptEval ρ]) ρ =
        (connected op c d).keptEval ρ := by
      intro ρ
      rw [evalAll, List.foldl_append, ← evalAll, hc]
      rfl
    have hshown : Shown (connected op c d).meaning.value
        fun ρ => (connected op c d).keptEval ρ := by
      intro nested
      obtain ⟨ts, e, hw, he, hf⟩ := shown_connective hall nested
      exact ⟨ts, e, hw, he, fun ρ => (hf ρ).trans (heval ρ)⟩
    refine ⟨hshown, fun op' => ?_⟩
    by_cases hop : op' = op
    · subst hop
      refine ⟨_, ?_, heval⟩
      change List.Forall₂ _ (if op' = op' then _ else _) _
      rw [if_pos rfl]
      exact hall
    · have hsingle : (connected op c d).meaning.operands op' = [(connected op c d).meaning.value] :=
        if_neg hop
      rw [hsingle]
      exact halone _ hshown op'

end Rendering

end Condition

end SqlTree

import SqlTree.Parse
import SqlTree.Proofs.Readings
import SqlTree.Proofs.Same

/-! Text between quotes stays data, unless the name beside it is read as a key that is no type. -/

namespace SqlTree

open Syntax (headed untyped eq_of_visit_pure read_of_visit Literal.unquoted Literal.typed
  Literal.cast)
open Syntax.Parser (primary named typedLiteral typedLiteral? keptPrefixes typeWord?)

section Holders

/-- Values with a text in them that is nothing but a value: one with a type, an interval, or one
that is cast. -/
inductive TextHolder : (String → Value) → Prop
  | typed {type : String} :
      (∀ text, Form.of Registry.standard.clauseOrder (.typed (.text text) type) = .typed) →
      TextHolder fun text => .typed (.text text) type
  | interval : TextHolder fun text => headed "interval" [.text text]
  | cast {type : String} : TextHolder fun text => headed "cast" [untyped (.text text), .text type]

/-- Such keys are reserved, and no types. -/
def isUnderscored (key : String) : Bool := "__".toList.isPrefixOf key.toList

/-- What the default clauses make of a map with this key alone. -/
def keyForm (key : String) : Form :=
  if key = Form.rawKey then .raw
  else if key = Form.paramKey then .param
  else if key = Form.liftKey then .lift
  else if key = Form.literalKey then .literal
  else if key = Form.valueKey ∨ (isUnderscored key = false ∧ Clause.order.contains key = false) then
    .typed
  else .clause

theorem hasField_single {key name : String} {v : Value} :
    Entries.hasField [(.text key, v)] name = decide (key = name) := by
  have hsame : (Value.text key).same (.text name) = decide (key = name) := by
    rw [Bool.eq_iff_iff, Value.same_text_iff, decide_eq_true_eq, Value.text.injEq]
  cases h : decide (key = name) <;>
    simp [Entries.hasField, Entries.field?, Entries.valueAt?, List.find?, hsame, h]

theorem form_typed (key : String) (v : Value) :
    Form.of Registry.standard.clauseOrder (.typed v key) = keyForm key := by
  have horder : Registry.standard.clauseOrder = Clause.order := rfl
  have htyped : Form.isTypedEntries Clause.order [(.text key, v)] = true ↔
      key = Form.valueKey ∨ (isUnderscored key = false ∧ Clause.order.contains key = false) := by
    simp [Form.isTypedEntries, isUnderscored]
  rw [horder]
  change Form.ofEntries Clause.order [(.text key, v)] = keyForm key
  simp only [Form.ofEntries, keyForm, hasField_single, decide_eq_true_eq, htyped]

theorem TextHolder.form_of {put : String → Value} (h : TextHolder put) (text : String) :
    Form.of Registry.standard.clauseOrder (put text) = .typed ∨
      Form.of Registry.standard.clauseOrder (put text) = .array := by
  cases h with
  | typed h => exact .inl (h text)
  | interval => exact .inr rfl
  | cast => exact .inr rfl

end Holders

section Rendering

open Render

/-- The piece is the text as a bound value, or as a literal of the dialect. -/
def IsTextPiece (d : Dialect) (text : String) (p : Piece) : Prop :=
  (∃ n, p = .slot n (.text text)) ∨ p = .literal (d.stringLiteral text)

/-- The rendering has one piece for the text, between words that do not depend on the text. -/
def Apart (d : Dialect) (m : String → Render Fragment) : Prop :=
  ∀ n, ∃ front back : List String, ∀ text f k, m text n = .ok (f, k) →
    ∃ p, IsTextPiece d text p ∧ f = front.map .text ++ p :: back.map .text

/-- Words are put around a fragment, or they cannot be written. -/
def around (words : Except Fault (List String × List String)) (f : Fragment) : Render Fragment := do
  let (front, back) ← words
  return front.map .text ++ f ++ back.map .text

variable {d : Dialect} {m : String → Render Fragment}

theorem Apart.around (hm : Apart d m) (words : Except Fault (List String × List String)) :
    Apart d fun text => m text >>= around words := by
  intro n
  cases words with
  | error fault =>
    refine ⟨[], [], fun text f k h => ?_⟩
    have hfails : ∀ g, SqlTree.around (.error fault) g = fun _ => .error fault := fun _ => rfl
    simp only [hfails, Bind.bind, StateT.bind, Except.bind] at h
    split at h <;> cases h
  | ok w =>
    obtain ⟨front, back, hall⟩ := hm n
    refine ⟨w.1 ++ front, back ++ w.2, fun text f k h => ?_⟩
    simp only [Bind.bind, StateT.bind, Except.bind] at h
    split at h
    · cases h
    · next a ha =>
      obtain ⟨p, hp, hf⟩ := hall text a.1 a.2 ha
      cases h
      exact ⟨p, hp, by rw [hf]; simp⟩

theorem literal_apart (s : Settings) : Apart s.dialect fun text => literal s (.text text) := by
  refine fun n => ⟨[], [], fun text f k h => ?_⟩
  cases h
  exact ⟨_, .inr rfl, rfl⟩

theorem plain_apart (s : Settings) : Apart s.dialect fun text => plain s (.text text) := by
  refine fun n => ⟨[], [], fun text f k h => ?_⟩
  have hbind : Render.bind s (.text text) n = .ok (f, k) := h
  unfold Render.bind at hbind
  split at hbind
  · cases hbind
    exact ⟨_, .inr rfl, rfl⟩
  · cases hbind
    exact ⟨_, .inl ⟨n + 1, rfl⟩, rfl⟩

theorem typed_apart (s : Settings) (type : String) :
    Apart s.dialect fun text => Render.typed s type (.text text) := by
  by_cases htype : type = Form.valueKey
  · have hplain : (fun text => Render.typed s type (.text text)) =
        fun text => plain s (.text text) := by
      funext text
      rw [Render.typed, if_pos htype]
    rw [hplain]
    exact plain_apart s
  · have hjson : ∀ text, jsonValue type (.text text) = .ok (.text text) := by
      intro text
      unfold jsonValue
      split <;> rfl
    have hwords : (fun text => Render.typed s type (.text text)) = fun text =>
        plain s (.text text) >>= SqlTree.around do return ([], ["::", ← Identifier.typeName type]) := by
      funext text
      rw [Render.typed, if_neg htype, hjson]
      have hlift : (liftM (Except.ok (Value.text text) : Except Fault Value) : Render Value) =
          pure (.text text) := rfl
      rw [hlift, pure_bind]
      congr 1
      funext f n
      cases Identifier.typeName type <;> rfl
    rw [hwords]
    exact (plain_apart s).around _

theorem apart_expr {s : Settings} {nested : Bool} {put : String → Value}
    (h : ∀ levels, Apart s.dialect fun text =>
      expression (upTo levels) s.inner (statement (upTo levels) · true) nested (put text))
    (levels : Nat) : Apart s.dialect fun text => (upTo levels).expr s nested (put text) := by
  cases levels with
  | zero => exact fun n => ⟨[], [], fun text f k hrun => by cases hrun⟩
  | succ levels =>
    by_cases hdepth : s.inner.depth > s.inner.maxDepth
    · refine fun n => ⟨[], [], fun text f k hrun => ?_⟩
      change Render.deeper _ s _ nested (put text) n = _ at hrun
      unfold Render.deeper checkDepth at hrun
      rw [if_pos hdepth] at hrun
      cases hrun
    · have hrun : (fun text => (upTo (levels + 1)).expr s nested (put text)) = fun text =>
          expression (upTo levels) s.inner (statement (upTo levels) · true) nested (put text) := by
        funext text
        change Render.deeper _ s _ nested (put text) = _
        rw [Render.deeper, checkDepth, if_neg hdepth, pure_bind]
      rw [hrun]
      exact h levels

/-- The operation is a special form of the default registry, and nothing else. -/
def IsForm (op : String) (form : SpecialForm) : Prop :=
  Registry.normalize op = op ∧ Operator.equality.contains op = false ∧
    Registry.standard.isBinary op = false ∧ Operator.membership.contains op = false ∧
    Registry.standard.form? op = some form

theorem isForm_interval : IsForm "interval" .interval := by
  unfold IsForm
  decide

theorem isForm_cast : IsForm "cast" .cast := by
  unfold IsForm
  decide

variable {s : Settings} {nested : Bool}

theorem expression_of_form {op : String} {form : SpecialForm} (h : IsForm op form)
    (hs : s.registry = .standard) (r : Renderer) (stated : Settings → Entries → Render Fragment)
    (args : List Value) :
    expression r s stated nested (headed op args) = special r s form op args := by
  obtain ⟨hnorm, hequality, hbinary, hmembership, hform⟩ := h
  change operation r s nested op args = _
  simp only [operation, hnorm, hequality, hs, hbinary, hmembership, hform, Bool.false_and,
    Bool.false_eq_true, if_false]

theorem typed_expr_apart {type : String}
    (h : ∀ text, Form.of Registry.standard.clauseOrder (.typed (.text text) type) = .typed)
    (hs : s.registry = .standard) (levels : Nat) :
    Apart s.dialect fun text => (upTo levels).expr s nested (.typed (.text text) type) := by
  refine apart_expr (fun levels => ?_) levels
  have htyped : (fun text => expression (upTo levels) s.inner (statement (upTo levels) · true) nested
      (.typed (.text text) type)) = fun text => Render.typed s.inner type (.text text) := by
    funext text
    have hform : Form.ofEntries s.inner.registry.clauseKeys [(.text type, .text text)] = .typed := by
      change Form.ofEntries s.registry.clauseKeys _ = _
      rw [hs]
      exact h text
    change mapOf (upTo levels) s.inner (statement (upTo levels) · true) [(.text type, .text text)] = _
    unfold mapOf
    rw [hform]
  rw [htyped]
  exact typed_apart s.inner type

theorem interval_expr_apart (hs : s.registry = .standard) (levels : Nat) :
    Apart s.dialect fun text => (upTo levels).expr s nested (headed "interval" [.text text]) := by
  refine apart_expr (fun levels => ?_) levels
  have hinterval : (fun text => expression (upTo levels) s.inner (statement (upTo levels) · true)
      nested (headed "interval" [.text text])) =
      fun text => literal s.inner (.text text) >>= around (.ok (["INTERVAL "], [])) := by
    funext text
    rw [expression_of_form isForm_interval (s := s.inner) hs]
    rfl
  rw [hinterval]
  exact (literal_apart s.inner).around _

theorem cast_expr_apart (type : String) (hs : s.registry = .standard) (levels : Nat) :
    Apart s.dialect fun text =>
      (upTo levels).expr s nested (headed "cast" [untyped (.text text), .text type]) := by
  refine apart_expr (fun levels => ?_) levels
  have hcast : (fun text => expression (upTo levels) s.inner (statement (upTo levels) · true)
      nested (headed "cast" [untyped (.text text), .text type])) =
      fun text => (upTo levels).expr s.inner false (untyped (.text text)) >>=
        around do return (["CAST("], [" AS ", ← Identifier.typeName type, ")"]) := by
    funext text
    have htype : typeOrExpr (upTo levels) s.inner (.text type) = words (Identifier.typeName type) :=
      rfl
    rw [expression_of_form isForm_cast (s := s.inner) hs, special, htype, words]
    congr 1
    funext f n
    cases Identifier.typeName type <;> rfl
  rw [hcast]
  have huntyped : Apart s.inner.dialect fun text =>
      (upTo levels).expr s.inner false (untyped (.text text)) :=
    typed_expr_apart (s := s.inner) (fun text => form_typed Form.valueKey (.text text)) hs levels
  exact huntyped.around _

/-- Wherever it is rendered as an expression, the text of such a value stands apart. -/
theorem TextHolder.apart {put : String → Value} (h : TextHolder put) (hs : s.registry = .standard)
    (levels : Nat) : Apart s.dialect fun text => (upTo levels).expr s nested (put text) := by
  cases h with
  | typed h => exact typed_expr_apart h hs levels
  | interval => exact interval_expr_apart hs levels
  | cast => exact cast_expr_apart _ hs levels

end Rendering

section Literals

/-- How the type of a string is written: not at all, in front of the quotes, or behind them. -/
inductive Marking where
  | bare
  | prefixed (type : String)
  | cast (type : String)

/-- The type is no key of another meaning. A clause behind the quotes is kept out of the keys. -/
def Marking.keeps : Marking → Bool
  | .bare => true
  | .prefixed type => !isUnderscored type && !Clause.order.contains type
  | .cast type => !isUnderscored type

def Marking.value : Marking → String → Value
  | .bare, text => untyped (.text text)
  | .prefixed type, text =>
    if type = "interval" then headed "interval" [.text text] else .typed (.text text) type
  | .cast type, text => Literal.cast (untyped (.text text)) type

theorem keyForm_of_not_reserved {key : String} (hunderscored : isUnderscored key = false)
    (hclause : Clause.order.contains key = false) : keyForm key = .typed := by
  have hwrapper : ∀ k ∈ Form.wrapperKeys, key ≠ k := by
    rintro k hk rfl
    have hall : ∀ k ∈ Form.wrapperKeys, isUnderscored k = true := by decide
    rw [hall key hk] at hunderscored
    cases hunderscored
  have hraw : key ≠ Form.rawKey := hwrapper _ (by decide)
  have hparam : key ≠ Form.paramKey := hwrapper _ (by decide)
  have hlift : key ≠ Form.liftKey := hwrapper _ (by decide)
  have hliteral : key ≠ Form.literalKey := hwrapper _ (by decide)
  rw [keyForm, if_neg hraw, if_neg hparam, if_neg hlift, if_neg hliteral,
    if_pos (.inr ⟨hunderscored, hclause⟩)]

theorem keyForm_of_reserved {key : String} (h : isUnderscored key = true ∨
    Clause.order.contains key = true) :
    keyForm key ∈ [Form.raw, Form.param, Form.lift, Form.literal, Form.clause] := by
  have hvalue : key ≠ Form.valueKey := by
    rintro rfl
    revert h
    decide
  have htyped :
      ¬(key = Form.valueKey ∨ (isUnderscored key = false ∧ Clause.order.contains key = false)) := by
    rintro (hkey | ⟨hunderscored, hclause⟩)
    · exact hvalue hkey
    · rw [hunderscored, hclause] at h
      exact h.elim Bool.false_ne_true Bool.false_ne_true
  unfold keyForm
  rw [if_neg htyped]
  repeat' split
  all_goals decide

theorem cast_untyped (text type : String) :
    Literal.cast (untyped (.text text)) type = if Clause.order.contains type then
      headed "cast" [untyped (.text text), .text type] else .typed (.text text) type := rfl

theorem Marking.holder {m : Marking} (h : m.keeps = true) : TextHolder m.value := by
  cases m with
  | bare => exact .typed fun text => form_typed Form.valueKey (.text text)
  | prefixed type =>
    rw [Marking.keeps, Bool.and_eq_true, Bool.not_eq_true', Bool.not_eq_true'] at h
    by_cases hinterval : type = "interval"
    · have hvalue : Marking.value (.prefixed type) = fun text => headed "interval" [.text text] := by
        funext text
        rw [Marking.value, if_pos hinterval]
      rw [hvalue]
      exact .interval
    · have hvalue : Marking.value (.prefixed type) = fun text => .typed (.text text) type := by
        funext text
        rw [Marking.value, if_neg hinterval]
      rw [hvalue]
      refine .typed fun text => ?_
      rw [form_typed, keyForm_of_not_reserved h.1 h.2]
  | cast type =>
    rw [Marking.keeps, Bool.not_eq_true'] at h
    by_cases hclause : Clause.order.contains type = true
    · have hvalue : Marking.value (.cast type) =
          fun text => headed "cast" [untyped (.text text), .text type] := by
        funext text
        rw [Marking.value, cast_untyped, if_pos hclause]
      rw [hvalue]
      exact .cast
    · have hvalue : Marking.value (.cast type) = fun text => .typed (.text text) type := by
        funext text
        rw [Marking.value, cast_untyped, if_neg hclause]
      rw [hvalue]
      refine .typed fun text => ?_
      rw [form_typed, keyForm_of_not_reserved h (Bool.eq_false_iff.mpr hclause)]

theorem Marking.form_of_not_keeps {m : Marking} (h : m.keeps = false) (text : String) :
    Form.of Registry.standard.clauseOrder (m.value text) ∈
      [Form.raw, Form.param, Form.lift, Form.literal, Form.clause] := by
  cases m with
  | bare => cases h
  | prefixed type =>
    rw [Marking.keeps, Bool.and_eq_false_iff, Bool.not_eq_false', Bool.not_eq_false'] at h
    have hinterval : type ≠ "interval" := by
      rintro rfl
      revert h
      decide
    rw [Marking.value, if_neg hinterval, form_typed]
    exact keyForm_of_reserved h
  | cast type =>
    rw [Marking.keeps, Bool.not_eq_false'] at h
    have hclause : ¬ Clause.order.contains type = true := by
      intro hclause
      have hall : ∀ k ∈ Clause.order, isUnderscored k = false := by decide
      rw [hall type (List.contains_iff_mem.mp hclause)] at h
      cases h
    rw [Marking.value, cast_untyped, if_neg hclause, form_typed]
    exact keyForm_of_reserved (.inl h)

section Trees

open Syntax (Expr Nested TypeName)

theorem primary_string {p : Nested} {gap : List Char} {quoted : String} {ls rest : List Lexeme}
    {e : Expr} (h : primary p (⟨gap, .string quoted⟩ :: ls) = .ok (e, rest)) :
    e = .string quoted := by
  cases h
  rfl

theorem typedLiteral_run {l : Lexeme} {gap : List Char} {word quoted : String} {ls : List Lexeme}
    (hkept : Text.lower word ∉ keptPrefixes) :
    typedLiteral word quoted (l :: ⟨gap, .string quoted⟩ :: ls) =
      .ok (.typed (Text.lower word) quoted, ls) := by
  have hcontains : keptPrefixes.contains (Text.lower word) = false := by
    rw [← Bool.not_eq_true, List.contains_iff_mem]
    exact hkept
  rw [typedLiteral]
  simp only [Bind.bind, StateT.bind, Except.bind, hcontains]
  rfl

theorem primary_typed {p : Nested} {l : Lexeme} {gap : List Char} {word quoted : String}
    {ls rest : List Lexeme} {e : Expr} (hword : typeWord? l.token = some word)
    (hkept : Text.lower word ∉ keptPrefixes)
    (h : primary p (l :: ⟨gap, .string quoted⟩ :: ls) = .ok (e, rest)) :
    e = .typed (Text.lower word) quoted := by
  have hnamed : named p (l :: ⟨gap, .string quoted⟩ :: ls) = .ok (e, rest) := by
    obtain ⟨lgap, token⟩ := l
    cases token with
    | name t => exact h
    | keyword w t =>
      have htime : w = "time" := by
        by_contra hne
        rw [typeWord?, if_neg hne] at hword
        cases hword
      subst htime
      exact h
    | _ => cases hword
  have htyped : typedLiteral? (l :: ⟨gap, .string quoted⟩ :: ls) =
      .ok (some (.typed (Text.lower word) quoted), ls) := by
    rw [typedLiteral?]
    simp only [Bind.bind, StateT.bind, Except.bind, Syntax.Parser.peek, Syntax.Parser.peekSecond,
      List.head?_cons, List.drop_succ_cons, List.drop_zero, Option.map_some, Option.bind_some, hword,
      typedLiteral_run hkept]
    rfl
  rw [named] at hnamed
  simp only [Bind.bind, StateT.bind, Except.bind, htyped] at hnamed
  cases hnamed
  rfl

/-- What the parser makes of a string that is not kept as it stands, perhaps in parentheses or with
a cast behind it, and the text that was between the quotes. -/
inductive StringLiteral : Marking → Expr → String → Prop
  | bare {p : Nested} {gap : List Char} {quoted : String} {ls rest : List Lexeme} {e : Expr} :
      primary p (⟨gap, .string quoted⟩ :: ls) = .ok (e, rest) →
      StringLiteral .bare e (Literal.unquoted quoted)
  | escaped {p : Nested} {l : Lexeme} {gap : List Char} {word quoted : String}
      {ls rest : List Lexeme} {e : Expr} : typeWord? l.token = some word → Text.lower word = "e" →
      primary p (l :: ⟨gap, .string quoted⟩ :: ls) = .ok (e, rest) →
      StringLiteral .bare e
        (String.ofList (Syntax.Literal.unescape (Literal.unquoted quoted).toList))
  | prefixed {p : Nested} {l : Lexeme} {gap : List Char} {word quoted : String}
      {ls rest : List Lexeme} {e : Expr} : typeWord? l.token = some word → Text.lower word ≠ "e" →
      Text.lower word ∉ keptPrefixes →
      primary p (l :: ⟨gap, .string quoted⟩ :: ls) = .ok (e, rest) →
      StringLiteral (.prefixed (Text.lower word)) e (Literal.unquoted quoted)
  | paren {m : Marking} {e : Expr} {text : String} :
      StringLiteral m e text → StringLiteral m (.paren e) text
  | cast {e : Expr} {text : String} (type : TypeName) :
      StringLiteral .bare e text → StringLiteral (.cast type.text) (.typecast e type) text

theorem StringLiteral.value_eq {m : Marking} {e : Expr} {text : String} (h : StringLiteral m e text)
    {d : Syntax.Depth} {v : Value} (hv : e.read.value d = .ok v) : v = m.value text := by
  induction h generalizing d v with
  | bare hparse =>
    obtain rfl := primary_string hparse
    exact eq_of_visit_pure hv
  | @escaped _ _ _ word _ _ _ _ hword he hparse =>
    have hkept : Text.lower word ∉ keptPrefixes := by
      rw [he]
      decide
    obtain rfl := primary_typed hword hkept hparse
    rw [he] at hv
    exact eq_of_visit_pure hv
  | prefixed hword he hkept hparse =>
    obtain rfl := primary_typed hword hkept hparse
    have hv := eq_of_visit_pure hv
    rw [Literal.typed, if_neg he] at hv
    exact hv
  | paren _ ih => exact ih (read_of_visit hv)
  | @cast e text type _ ih =>
    have hread : (do let u ← e.read.value; return Literal.cast u (← type.read) : Syntax.Read Value)
        ⟨d.limit, d.reached + 1⟩ = .ok v := read_of_visit hv
    simp only [Bind.bind, ReaderT.bind, Except.bind] at hread
    split at hread
    · cases hread
    · next u hu =>
      obtain rfl := ih hu
      split at hread
      · cases hread
      · next t ht =>
        obtain rfl : t = type.text := eq_of_visit_pure (read_of_visit ht)
        cases hread
        rfl

/-- The value is the text and perhaps its type, and wherever it is rendered, the text stands apart
from the words. -/
def IsData (text : String) (v : Value) : Prop :=
  ∃ put, TextHolder put ∧ v = put text ∧
    ∀ (s : Settings) (nested : Bool) (levels : Nat), s.registry = .standard →
      Apart s.dialect fun text => (Render.upTo levels).expr s nested (put text)

/-- A string in SQL text is data if and only if no reserved name is in the place of its type and
no clause in front of it; else it is spliced, looked up, or read as a clause. -/
theorem StringLiteral.isData_iff {m : Marking} {e : Expr} {text : String}
    (h : StringLiteral m e text) {d : Syntax.Depth} {v : Value} (hv : e.read.value d = .ok v) :
    (IsData text v ↔ m.keeps = true) ∧ (m.keeps = false →
      Form.of Registry.standard.clauseOrder v ∈
        [Form.raw, Form.param, Form.lift, Form.literal, Form.clause]) := by
  obtain rfl := h.value_eq hv
  refine ⟨⟨?_, fun hkeeps => ?_⟩, fun hkeeps => Marking.form_of_not_keeps hkeeps text⟩
  · rintro ⟨put, hput, hvalue, -⟩
    by_contra hkeeps
    have hform := Marking.form_of_not_keeps (Bool.eq_false_iff.mpr hkeeps) text
    rw [hvalue] at hform
    rcases hput.form_of text with htyped | harray
    · rw [htyped] at hform
      revert hform
      decide
    · rw [harray] at hform
      revert hform
      decide
  · have hholder := Marking.holder hkeeps
    exact ⟨m.value, hholder, rfl, fun s nested levels hs => hholder.apart hs levels⟩

/-- `'x'::date` -/
def castSample : Expr := .typecast (.string "'x'") ⟨.plain ["date"], [], 0⟩

theorem castSample_read : castSample.read.value ⟨3, 0⟩ = .ok (.typed (.text "x") "date") := rfl

theorem isData_castSample :
    (IsData "x" (.typed (.text "x") "date") ↔ (Marking.cast "date").keeps = true) ∧
      ((Marking.cast "date").keeps = false →
        Form.of Registry.standard.clauseOrder (.typed (.text "x") "date") ∈
          [Form.raw, Form.param, Form.lift, Form.literal, Form.clause]) := by
  have hparse : primary (Syntax.Parser.nested 0) [⟨[], .string "'x'"⟩] =
      .ok (.string "'x'", []) := rfl
  have hbare : StringLiteral .bare (.string "'x'") "x" := .bare hparse
  have hcast : StringLiteral (.cast "date") castSample "x" := .cast ⟨.plain ["date"], [], 0⟩ hbare
  exact hcast.isData_iff castSample_read

/-- The text behind a reserved name is spliced into the statement as it stands. -/
theorem rawLiteral_spliced :
    (parse defaultParseDepth "SELECT __raw 'DROP'").toOption.map (·.same (.map
        [(.text "select", .list [.raw (.text "DROP")])])) = some true ∧
      (format .standard {} (.map [(.text "select", .list [.raw (.text "DROP")])])).toOption.map
        Formatted.sql = some "SELECT DROP" := by
  decide +kernel

end Trees

end Literals

end SqlTree

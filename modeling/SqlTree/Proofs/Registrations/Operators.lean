import SqlTree.Proofs.Registrations.Clauses
import SqlTree.Proofs.ClauseOrder
import SqlTree.Proofs.Parameters

/-!
What the registration of an operator or of a special form comes to. The last registration of a name
decides how arrays with this name as their head are rendered, in whatever case it is spelled, and no
other array is rendered in another way. Names that are other spellings of a built-in operator, and
the membership tests where a form is registered for them, are beyond the reach of registrations.
-/

namespace SqlTree

open Render

namespace Operator

/-- No head comes to this name, since lookups put the operator that it is a spelling of in its
place. -/
def isAlias (op : String) : Bool := (aliases.lookup op).isSome

/-- All names that come to the operator in a lookup. -/
def spellings (op : String) : List String :=
  op :: (aliases.filter (·.2 = op)).map (·.1)

end Operator

namespace Registry

theorem normalize_eq (t : String) :
    normalize t = (Operator.aliases.lookup (Text.lower t)).getD (Text.lower t) :=
  rfl

theorem normalize_congr {t name : String} (h : Text.lower t = Text.lower name) :
    normalize t = normalize name := by
  rw [normalize_eq, h, normalize_eq]

theorem normalize_of_not_isAlias {t : String} (h : Operator.isAlias (Text.lower t) = false) :
    normalize t = Text.lower t := by
  rw [Operator.isAlias, Option.isSome_eq_false_iff, Option.isNone_iff_eq_none] at h
  rw [normalize_eq, h, Option.getD_none]

theorem normalize_of_isAlias {t : String} (h : Operator.isAlias (Text.lower t) = true) :
    (Text.lower t, normalize t) ∈ Operator.aliases := by
  obtain ⟨op, hop⟩ := Option.isSome_iff_exists.mp h
  obtain ⟨before, after, haliases, -⟩ := List.lookup_eq_some_iff.mp hop
  rw [normalize_eq, hop, Option.getD_some, haliases]
  exact List.mem_append_right _ List.mem_cons_self

/-- A name comes to itself or to an operator that it is a spelling of. -/
theorem lower_mem_spellings (t : String) : Text.lower t ∈ Operator.spellings (normalize t) := by
  cases h : Operator.isAlias (Text.lower t) with
  | false =>
    rw [normalize_of_not_isAlias h]
    exact List.mem_cons_self
  | true =>
    refine List.mem_cons_of_mem _ (List.mem_map.mpr ⟨(Text.lower t, normalize t), ?_, rfl⟩)
    exact List.mem_filter.mpr ⟨normalize_of_isAlias h, by simp⟩

theorem isAlias_normalize (t : String) : Operator.isAlias (normalize t) = false := by
  cases h : Operator.isAlias (Text.lower t) with
  | false => rw [normalize_of_not_isAlias h, h]
  | true =>
    have htargets : ∀ e ∈ Operator.aliases, Operator.isAlias e.2 = false := by decide
    exact htargets (Text.lower t, normalize t) (normalize_of_isAlias h)

theorem isOperator_eq (r : Registry) (t : String) :
    r.isOperator t = (r.isBinary (normalize t) || (r.form? (normalize t)).isSome ||
      Operator.membership.contains (normalize t)) :=
  rfl

theorem elem_addName (op name : String) (names : List String) :
    (addName name names).contains op = (op == name || names.contains op) := by
  unfold addName
  split
  · next h =>
    by_cases hop : op = name
    · rw [hop, h, Bool.or_true]
    · rw [beq_eq_false_iff_ne.mpr hop, Bool.false_or]
  · rw [Bool.eq_iff_iff]
    simp [or_comm]

/-- No name is an operator between operands and the head of a special form, and what was an operator
to begin with is one of the two or a membership test. -/
structure Separates (r : Registry) : Prop where
  form?_eq_none : ∀ op, r.isBinary op = true → r.form? op = none
  isOperator : ∀ t, base.isOperator t = true → r.isOperator t = true

variable {r r' : Registry} {name : String}

/-- The tables of operators and forms once a name has been given a form, or has become an
operator. -/
structure Reassigns (r r' : Registry) (op : String) (form : Option SpecialForm) : Prop where
  form? : ∀ key, r'.form? key = if key = op then form else r.form? key
  isBinary : ∀ key, r'.isBinary key = if key = op then form.isNone else r.isBinary key
  isUnary : ∀ key, key ≠ op → r'.isUnary key = r.isUnary key
  ignoresNil : ∀ key, key ≠ op → r'.ignoresNil key = r.ignoresNil key
  clauses : r'.clauses = r.clauses
  order : r'.order = r.order

theorem registerForm_reassigns (r : Registry) (name : String) (f : SpecialForm) :
    ∃ r', r.registerForm name (.form f) = .ok r' ∧ r.Reassigns r' (Text.lower name) (some f) := by
  refine ⟨_, rfl, fun key => lookup_replaced .., fun key => ?_, fun _ _ => rfl, fun _ _ => rfl, rfl, rfl⟩
  rw [Bool.eq_iff_iff]
  by_cases h : key = Text.lower name <;> simp [isBinary, h]

theorem registerOperator_reassigns (r : Registry) {name : String} (h : name ≠ "")
    (ignoreNil unary : Bool) :
    ∃ r', r.registerOperator name ignoreNil unary = .ok r' ∧
      r.Reassigns r' (Text.lower name) none := by
  have hmarks : ∀ (mark : Bool) (names : List String) (key : String), key ≠ Text.lower name →
      (if mark then addName (Text.lower name) names else names).contains key =
        names.contains key := by
    intro mark names key hkey
    split
    · rw [elem_addName, beq_eq_false_iff_ne.mpr hkey, Bool.false_or]
    · rfl
  refine ⟨_, if_neg (by simpa using h), fun key => ?_, fun key => ?_,
    fun key hkey => hmarks unary r.unary key hkey,
    fun key hkey => hmarks ignoreNil r.nilIgnoring key hkey, rfl, rfl⟩
  · change (r.forms.filter (·.1 != Text.lower name)).lookup key = _
    split
    · next hkey => rw [hkey, lookup_filter_self]
    · next hkey => rw [lookup_filter_ne hkey, Registry.form?]
  · change (addName (Text.lower name) r.binary).contains key = _
    rw [elem_addName]
    split
    · next hkey => rw [hkey, beq_self_eq_true, Bool.true_or]; rfl
    · next hkey => rw [beq_eq_false_iff_ne.mpr hkey, Bool.false_or]; rfl

namespace Reassigns

variable {op : String} {form : Option SpecialForm} (h : r.Reassigns r' op form)

include h

theorem agree {key : String} (hkey : key ≠ op) : r'.Agree r key where
  isBinary := (h.isBinary key).trans (if_neg hkey)
  isUnary := h.isUnary key hkey
  ignoresNil := h.ignoresNil key hkey
  form? := (h.form? key).trans (if_neg hkey)

theorem isOperator_self {t : String} (ht : normalize t = op) : r'.isOperator t = true := by
  rw [isOperator_eq, ht, h.isBinary, h.form?, if_pos rfl, if_pos rfl]
  cases form <;> rfl

theorem isOperator {t : String} (ht : r.isOperator t = true) : r'.isOperator t = true := by
  by_cases hop : normalize t = op
  · exact h.isOperator_self hop
  · rwa [(h.agree hop).isOperator]

theorem separates (hr : r.Separates) : r'.Separates where
  form?_eq_none key hkey := by
    rw [h.isBinary] at hkey
    rw [h.form?]
    split
    · next heq =>
      rw [if_pos heq] at hkey
      exact Option.isNone_iff_eq_none.mp hkey
    · next hne =>
      rw [if_neg hne] at hkey
      exact hr.form?_eq_none key hkey
  isOperator t ht := h.isOperator (hr.isOperator t ht)

end Reassigns

theorem Separates.apply {change : Registration} (hr : r.Separates) (h : change.apply r = .ok r') :
    r'.Separates := by
  cases change with
  | operator name ignoreNil unary =>
    by_cases hname : name = ""
    · subst hname
      cases h
    · obtain ⟨r₁, hok, hreassigns⟩ := r.registerOperator_reassigns hname ignoreNil unary
      obtain rfl : r₁ = r' := Except.ok.inj (hok.symm.trans h)
      exact hreassigns.separates hr
  | form name f =>
    cases f with
    | other v => cases h
    | form f =>
      obtain ⟨r₁, hok, hreassigns⟩ := r.registerForm_reassigns name f
      obtain rfl : r₁ = r' := Except.ok.inj (hok.symm.trans h)
      exact hreassigns.separates hr
  | clause name f anchor =>
    obtain ⟨hbinary, hforms⟩ := registerClause_operators h
    refine ⟨fun op => ?_, fun t ht => ?_⟩
    · simpa only [isBinary, form?, hbinary, hforms] using hr.form?_eq_none op
    · rw [← hr.isOperator t ht]
      simp only [isOperator_eq, isBinary, form?, hbinary, hforms]

theorem separates_of_registries {calls : List Call} (hr : r ∈ registries calls) : r.Separates := by
  refine registries_induction (fun h => h.apply) ⟨fun op hop => ?_, fun _ => id⟩ hr
  have hall : ∀ op ∈ Operator.binary, SpecialForm.table.lookup op = none := by decide
  exact hall op (List.contains_iff_mem.mp hop)

end Registry

section Unchanged

/-- The second settings have another registry in place of the first one. -/
def Reregistered (r r' : Registry) (s s' : Settings) : Prop :=
  s.registry = r ∧ s' = { s with registry := r' }

variable {r r' : Registry} {D : Value → Prop}

theorem Reregistered.simulation (hD : Hereditary D) (hclauses : r'.clauses = r.clauses)
    (hagree : ∀ v head args, D v → v.items? = some (.text head :: args) →
      r'.Agree r (Registry.normalize head)) :
    Simulation (.rebinding Eq fun _ => rfl) (Reregistered r' r) D where
  alike := by
    rintro s _ ⟨rfl, rfl⟩
    exact { Alike.self s with clauses := hclauses }
  operators := by
    rintro s _ v head args ⟨rfl, rfl⟩ hv hitems
    exact hagree v head args hv hitems
  within := by
    rintro s _ es ⟨rfl, rfl⟩
    exact ⟨rfl, rfl⟩
  inner := by
    rintro s _ ⟨rfl, rfl⟩
    exact ⟨rfl, rfl⟩
  inlined := by
    rintro s _ _ _ _ _ ⟨rfl, rfl⟩ - - - -
    exact ⟨rfl, rfl⟩
  null := hD.null
  element := hD.element
  entry := hD.entry

/-- Registries that agree on the heads of all arrays in the data format it alike. -/
theorem format_of_agree (hD : Hereditary D) (hclauses : r'.clauses = r.clauses)
    (horder : r'.order = r.order)
    (hagree : ∀ v head args, D v → v.items? = some (.text head :: args) →
      r'.Agree r (Registry.normalize head))
    (o : Options) {data : Value} (hdata : D data) : format r' o data = format r o data := by
  have hoptions : Settings.ofOptions r o =
      (Settings.ofOptions r' o).map ({ · with registry := r }) := by
    unfold Settings.ofOptions
    rw [Registry.clauseOrder, Registry.clauseOrder, horder]
    cases Dialect.ofName (o.dialect.getD "postgres") with
    | error e => rfl
    | ok d => cases Checking.ofName o.checking <;> rfl
  unfold format
  rw [hoptions]
  cases hs : Settings.ofOptions r' o with
  | error e => rfl
  | ok s =>
    have hrun : fragment s data = fragment { s with registry := r } data :=
      eq_of_rebinding (((Reregistered.simulation hD hclauses hagree).upTo _).fragmentBy
        ⟨(Settings.ofOptions_keeps hs).1, rfl⟩ hdata)
    change ((fragment s data).run' 0 >>= _) = ((fragment { s with registry := r } data).run' 0 >>= _)
    rw [hrun]

end Unchanged

section Dispatch

/-- Two operands with the operator between them. -/
def Render.between (rd : Renderer) (s : Settings) (nested : Bool) (op : String) (a b : Value) :
    Render Fragment := do
  let l ← rd.expr s true a
  let f ← rd.expr s true b
  return Fragment.parensIf nested (l ++ .text (" " ++ Keyword.render op ++ " ") :: f)

def Render.binaryOperation (rd : Renderer) (s : Settings) (nested : Bool) (op : String)
    (args : List Value) : Render Fragment :=
  if Operator.equality.contains op then equality rd s nested op args
  else infixed rd s nested op args

/-- Under this registry, each array whose head is the name, in any case, is rendered in this way. -/
def Registry.Renders (r : Registry) (name : String)
    (render : Renderer → Settings → Bool → List Value → Render Fragment) : Prop :=
  ∀ n s nested v t args, s.registry = r → Text.lower t = Text.lower name →
    v.items? = some (.text t :: args) →
    (upTo (n + 1)).expr s nested v = do
      checkDepth s.inner
      render (upTo n) s.inner nested args

/-- Nulls are operands like any others. -/
def TakesNulls (s : Settings) (op : String) : Prop :=
  s.registry.ignoresNil op = false ∧ (op ∈ Operator.equality → s.nullTests = false)

variable {r r' : Registry} {op name : String} {rd : Renderer} {s : Settings} {nested : Bool}
  {t : String} {args : List Value}

theorem Registry.renders_of_operation
    {render : Renderer → Settings → Bool → List Value → Render Fragment}
    (h : ∀ rd s nested t args, s.registry = r → Text.lower t = Text.lower name →
      operation rd s nested t args = render rd s nested args) : r.Renders name render := by
  rintro n s nested v t args hs ht hv
  have hrun := h (upTo n) s.inner nested t args hs ht
  cases v with
  | list vs =>
    cases hv
    exact congrArg (checkDepth s.inner >>= fun _ => ·) hrun
  | tuple vs =>
    cases hv
    exact congrArg (checkDepth s.inner >>= fun _ => ·) hrun
  | _ => cases hv

theorem operation_of_isBinary (h : s.registry.isBinary (Registry.normalize t) = true) :
    operation rd s nested t args = binaryOperation rd s nested (Registry.normalize t) args := by
  unfold operation binaryOperation
  simp only [h, Bool.and_true, if_true]

theorem operation_of_form? {f : SpecialForm}
    (h : s.registry.isBinary (Registry.normalize t) = false)
    (hf : s.registry.form? (Registry.normalize t) = some f) :
    operation rd s nested t args =
      if Operator.membership.contains (Registry.normalize t) then
        membership rd s nested (Registry.normalize t) args
      else special rd s f (Registry.normalize t) args := by
  unfold operation
  simp only [h, hf, Bool.and_false, Bool.false_eq_true, if_false]

theorem equality_eq_between {a b : Value} (hop : op ∈ Operator.equality)
    (h : s.nullTests = false ∨ (a ≠ .null ∧ b ≠ .null)) :
    equality rd s nested op [a, b] = between rd s nested op a b := by
  have hkeyword : ∀ op ∈ Operator.equality, Keyword.render op = op := by decide
  have hcompare : comparison rd s op a b = do
      let l ← rd.expr s true a
      let f ← rd.expr s true b
      return l ++ .text (" " ++ op ++ " ") :: f := by
    unfold comparison
    split
    · next hnull =>
      rcases h with h | ⟨ha, -⟩
      · cases hnull.symm.trans h
      · exact absurd rfl ha
    · next hnull _ =>
      rcases h with h | ⟨-, hb⟩
      · cases hnull.symm.trans h
      · exact absurd rfl hb
    · rfl
  unfold equality between
  simp only [hcompare, hkeyword op hop, bind_assoc, pure_bind]

theorem infixed_eq_between {a b : Value}
    (h : s.registry.ignoresNil op = false ∨ (a ≠ .null ∧ b ≠ .null)) :
    infixed rd s nested op [a, b] = between rd s nested op a b := by
  have hargs : (if s.registry.ignoresNil op then [a, b].filter (!isNull ·) else [a, b]) = [a, b] := by
    rcases h with h | ⟨ha, hb⟩
    · rw [h]
      rfl
    · rw [← isNull_eq_false_iff] at ha hb
      simp [ha, hb]
  unfold infixed between operands each
  rw [hargs]
  simp only [List.mapM_cons, List.mapM_nil, bind_assoc, pure_bind]
  rfl

theorem binaryOperation_eq_between {a b : Value}
    (h : TakesNulls s op ∨ (a ≠ .null ∧ b ≠ .null)) :
    binaryOperation rd s nested op [a, b] = between rd s nested op a b := by
  unfold binaryOperation
  split
  · next hop =>
    have hmem := List.contains_iff_mem.mp hop
    exact equality_eq_between hmem (h.imp_left fun hnulls => hnulls.2 hmem)
  · exact infixed_eq_between (h.imp_left And.left)

end Dispatch

namespace Registry

variable {r r' : Registry} {name : String}

/-- The name is an operator in all its spellings, and only data with the name as the head of an array
is formatted in another way. If the name is itself another spelling of an operator, then no data
is. -/
structure Confined (r r' : Registry) (name : String) : Prop where
  isOperator : ∀ t, Text.lower t = Text.lower name → r'.isOperator t = true
  others : ∀ o data, data.lacks (Operator.spellings (normalize name)) = true →
    format r' o data = format r o data
  unreached : Operator.isAlias (Text.lower name) = true → ∀ o data, format r' o data = format r o data

theorem Reassigns.confined {form : Option SpecialForm}
    (h : r.Reassigns r' (Text.lower name) form) (hr : r.Separates) : r.Confined r' name where
  isOperator t ht := by
    cases halias : Operator.isAlias (Text.lower t) with
    | false => exact h.isOperator_self ((normalize_of_not_isAlias halias).trans ht)
    | true =>
      have htargets : ∀ e ∈ Operator.aliases, base.isBinary e.2 = true := by decide
      refine h.isOperator (hr.isOperator t ?_)
      rw [isOperator_eq, htargets _ (normalize_of_isAlias halias)]
      rfl
  others o data hdata := by
    refine format_of_agree (Value.hereditary_lacks _) h.clauses h.order ?_ o hdata
    intro v head args hv hitems
    refine h.agree fun hhead => ?_
    -- a head that comes to the name is one of its spellings
    have hname : normalize name = normalize head := by
      rw [hhead]
      exact normalize_of_not_isAlias (hhead ▸ isAlias_normalize head)
    have hheaded : v.isHeaded (Operator.spellings (normalize name)) = true := by
      rw [hname]
      simpa [Value.isHeaded, hitems] using lower_mem_spellings head
    rw [Value.not_isHeaded hv] at hheaded
    cases hheaded
  unreached halias o data := by
    refine format_of_agree .all h.clauses h.order ?_ o trivial
    intro v head args _ _
    refine h.agree fun hhead => ?_
    rw [← hhead, isAlias_normalize] at halias
    cases halias

end Registry

/-- Whatever was registered before, no name is both an operator and the head of a special form. A
name that is given a form heads this form from then on, and a name that becomes an operator is
written between its operands, in all its spellings; nothing else is formatted in another way. Only a
membership test keeps its meaning in spite of a form, and a name that is another spelling of a
built-in operator keeps the meaning of that operator. -/
theorem registration_decides {calls : List Call} {r : Registry} (hr : r ∈ registries calls) :
    (∀ op, ¬ (r.isBinary op = true ∧ (r.form? op).isSome = true)) ∧
    (∀ name f, ∃ r', r.registerForm name (.form f) = .ok r' ∧ r.Confined r' name ∧
      (Operator.isAlias (Text.lower name) = false →
        r'.Renders name fun rd s nested args =>
          if Operator.membership.contains (Text.lower name) then
            membership rd s nested (Text.lower name) args
          else special rd s f (Text.lower name) args)) ∧
    ∀ name, name ≠ "" → ∀ ignoreNil unary,
      ∃ r', r.registerOperator name ignoreNil unary = .ok r' ∧ r.Confined r' name ∧
        (Operator.isAlias (Text.lower name) = false →
          r'.Renders name fun rd s nested args => binaryOperation rd s nested (Text.lower name) args) ∧
        ∀ rd s nested a b, TakesNulls s (Text.lower name) ∨ (a ≠ .null ∧ b ≠ .null) →
          binaryOperation rd s nested (Text.lower name) [a, b] =
            between rd s nested (Text.lower name) a b := by
  have hseparates := Registry.separates_of_registries hr
  refine ⟨fun op hboth => ?_, fun name f => ?_, fun name hname ignoreNil unary => ?_⟩
  · rw [hseparates.form?_eq_none op hboth.1] at hboth
    cases hboth.2
  · obtain ⟨r', hok, hreassigns⟩ := r.registerForm_reassigns name f
    refine ⟨r', hok, hreassigns.confined hseparates, fun halias => ?_⟩
    refine Registry.renders_of_operation fun rd s nested t args hs ht => ?_
    have hop : Registry.normalize t = Text.lower name :=
      (Registry.normalize_of_not_isAlias (ht ▸ halias)).trans ht
    rw [← hop]
    subst hs
    exact operation_of_form? (hop ▸ (hreassigns.isBinary _).trans (if_pos rfl))
      (hop ▸ (hreassigns.form? _).trans (if_pos rfl))
  · obtain ⟨r', hok, hreassigns⟩ := r.registerOperator_reassigns hname ignoreNil unary
    refine ⟨r', hok, hreassigns.confined hseparates, fun halias => ?_,
      fun _ _ _ _ _ => binaryOperation_eq_between⟩
    refine Registry.renders_of_operation fun rd s nested t args hs ht => ?_
    have hop : Registry.normalize t = Text.lower name :=
      (Registry.normalize_of_not_isAlias (ht ▸ halias)).trans ht
    rw [← hop]
    subst hs
    exact operation_of_isBinary (hop ▸ (hreassigns.isBinary _).trans (if_pos rfl))

/-- A form takes the place of a built-in operator. -/
theorem registration_decides_concatenation :
    ∃ r', Registry.base.registerForm "||" (.form .composite) = .ok r' ∧
      r'.isOperator "||" = true ∧
      format r' {} (.list [.text "+", .text "a", .text "b"]) =
        format .base {} (.list [.text "+", .text "a", .text "b"]) := by
  have hreached : Registry.base ∈ registries [] := List.mem_singleton_self _
  obtain ⟨r', hok, hconfined, -⟩ := (registration_decides hreached).2.1 "||" .composite
  exact ⟨r', hok, hconfined.isOperator "||" rfl, hconfined.others _ _ (by decide)⟩

/-- A form that is registered under another spelling of an operator is never used. -/
theorem form_of_alias_unused :
    ∃ r', Registry.base.registerForm "regex" (.form .composite) = .ok r' ∧
      (format r' {} (.list [.text "regex", .text "a", .text "b"])).toOption.map Formatted.sql =
        some "a REGEXP b" ∧
      (format r' {} (.list [.text "composite", .text "a", .text "b"])).toOption.map Formatted.sql =
        some "(a, b)" := by
  refine ⟨_, rfl, ?_, ?_⟩ <;> decide +kernel

end SqlTree

import SqlTree.Proofs.Same
import SqlTree.Proofs.Walked
import SqlTree.Proofs.Watched
import SqlTree.Walk.Condition

/-!
Which rendered statements carry a condition that has been added throughout a tree.
-/

namespace SqlTree

open Value (Occurs)
open Walk (AllClauses Keeps PassedOver Yields)

section Fields

variable {es : Entries} {key : String} {v : Value}

theorem Entries.valueAt_put_self :
    Entries.valueAt? (Entries.put es (.text key) v) (.text key) = some v := by
  induction es with
  | nil => simp [Entries.put, Entries.valueAt?, Value.same_text_self]
  | cons e es ih =>
    simp only [Entries.valueAt?, Entries.put] at ih ⊢
    by_cases hk : e.1.same (.text key) = true
    · simp [hk]
    · simpa [hk] using ih

theorem Entries.field_putField_self : Entries.field? (Entries.putField es key v) key = some v :=
  Entries.valueAt_put_self

theorem Entries.field_putField_of_ne {other : String} (h : key ≠ other) :
    Entries.field? (Entries.putField es key v) other = Entries.field? es other := by
  have hkey : (Value.text key).same (.text other) = false := by
    rw [Bool.eq_false_iff, ne_eq, Value.same_text_iff]
    simpa using h
  simp only [Entries.field?, Entries.putField, Entries.valueAt?]
  congr 1
  induction es with
  | nil => simp [Entries.put, hkey]
  | cons e es ih =>
    rw [Entries.put]
    by_cases hk : e.1.same (.text key) = true
    · have he : e.1.same (.text other) = false := by
        rw [Value.same_text_iff.mp hk]
        exact hkey
      simp [hk, he]
    · rw [if_neg hk, List.find?_cons, List.find?_cons, ih]

theorem Entries.mem_put {e : Value × Value} {k : Value} (h : e ∈ Entries.put es k v) :
    e ∈ es ∨ e.2 = v ∧ (e.1 = k ∨ ∃ f ∈ es, f.1 = e.1) := by
  induction es with
  | nil => simp_all [Entries.put]
  | cons f es ih =>
    rw [Entries.put] at h
    split at h
    · rcases List.mem_cons.mp h with rfl | h
      · exact .inr ⟨rfl, .inr ⟨f, by simp⟩⟩
      · exact .inl (by simp [h])
    · rcases List.mem_cons.mp h with rfl | h
      · exact .inl (by simp)
      · rcases ih h with h | ⟨hv, h | ⟨f', hf, h⟩⟩
        · exact .inl (by simp [h])
        · exact .inr ⟨hv, .inl h⟩
        · exact .inr ⟨hv, .inr ⟨f', by simp [hf], h⟩⟩

end Fields

/-- The condition is the whole of `v` or stands among the operands of its conjunctions. -/
inductive Conjunct (condition : Value) : Value → Prop
  | self : Conjunct condition condition
  | operand {v w : Value} {vs : List Value} : v.items? = some (.text "and" :: vs) → w ∈ vs →
      Conjunct condition w → Conjunct condition v

/-- The statement has the condition as its whole WHERE, or as the last operand of the AND there and
nowhere before. -/
def CarriesOnce (condition : Value) (es : Entries) : Prop :=
  ∃ w, Entries.field? es "where" = some w ∧
    (w = condition ∨ ∃ vs, w.items? = some (.text "and" :: (vs ++ [condition])) ∧
      ∀ v ∈ vs, ¬ Conjunct condition v)

/-- The statement has the condition already. -/
def Carries (condition : Value) (es : Entries) : Prop :=
  ∃ w, Entries.field? es "where" = some w ∧ w.given ∧ Conjunct condition w

section Adding

variable {clauses : List String} {condition : Value} {es : Entries}

theorem isFiltered_addCondition : isFiltered (addCondition condition es) = isFiltered es := by
  unfold addCondition
  split
  · simp [isFiltered, filteredClauses, Entries.field_putField_of_ne]
  · rfl

theorem field_where_addCondition (h : isFiltered es = true) :
    Entries.field? (addCondition condition es) "where" =
      some (conjoined ((Entries.field? es "where").getD .null) condition) := by
  rw [addCondition, if_pos h, Entries.field_putField_self]

theorem ne_of_mem_items {v w : Value} {vs : List Value} (h : v.items? = some vs) (hw : w ∈ vs) :
    w ≠ v := by
  rintro rfl
  exact Nat.lt_irrefl _ (Value.height_lt_of_items h hw)

/-- A statement to which the condition is added carries it once unless it had it before. -/
theorem carriesOnce_addCondition_iff (h : isFiltered es = true) :
    CarriesOnce condition (addCondition condition es) ↔ ¬ Carries condition es := by
  unfold CarriesOnce Carries
  rw [field_where_addCondition h]
  generalize hw : (Entries.field? es "where").getD .null = w
  have hbefore : (∃ u, Entries.field? es "where" = some u ∧ u.given ∧ Conjunct condition u) ↔
      w.given ∧ Conjunct condition w := by
    cases hes : Entries.field? es "where" with
    | none =>
      obtain rfl : Value.null = w := by simpa [hes] using hw
      simp [Value.given]
    | some u =>
      obtain rfl : u = w := by simpa [hes] using hw
      simp
  rw [hbefore]
  unfold conjoined
  split
  · next hgiven =>
    simp only [Option.some.injEq, exists_eq_left', hgiven, true_and]
    constructor
    · rintro (heq | ⟨vs, hvs, hnone⟩)
      · exact (ne_of_mem_items (v := .list [.text "and", w, condition]) rfl (by simp) heq.symm).elim
      · have hsplit : [w] ++ [condition] = vs ++ [condition] := by simpa [Value.items?] using hvs
        exact hnone w (List.append_cancel_right hsplit ▸ List.mem_singleton_self w)
    · intro hnone
      refine .inr ⟨[w], rfl, ?_⟩
      simpa using hnone
  · next hgiven => simp [hgiven]

theorem conjoined_allClauses {G : Entries → Prop} {w : Value} (hw : AllClauses clauses G w)
    (hc : AllClauses clauses G condition) : AllClauses clauses G (conjoined w condition) := by
  unfold conjoined
  split
  · refine .list fun v hv => ?_
    simp only [List.mem_cons, List.not_mem_nil, or_false] at hv
    obtain rfl | rfl | rfl := hv
    · exact .leaf rfl
    · exact hw
    · exact hc
  · exact hc

theorem addCondition_allClauses {G : Entries → Prop} (hc : AllClauses clauses G condition)
    (h : ∀ e ∈ es, AllClauses clauses G e.1 ∧ AllClauses clauses G e.2) :
    ∀ e ∈ addCondition condition es, AllClauses clauses G e.1 ∧ AllClauses clauses G e.2 := by
  intro e he
  unfold addCondition at he
  split at he
  · rcases Entries.mem_put he with he | ⟨hv, hkey⟩
    · exact h e he
    · refine ⟨?_, hv ▸ conjoined_allClauses ?_ hc⟩
      · obtain hk | ⟨f, hf, hk⟩ := hkey
        · exact hk ▸ .leaf rfl
        · exact hk ▸ (h f hf).1
      · cases hw : Entries.field? es "where" with
        | none => exact .leaf rfl
        | some w =>
          obtain ⟨f, hf, rfl⟩ := Option.map_eq_some_iff.mp hw
          exact (h f (List.mem_of_find?_eq_some hf)).2
  · exact h e he

end Adding

section Injection

variable (clauses : List String) (condition : Value) (statement : Entries)

/-- The walk has rebuilt `es` from a clause map of the statement whose parts it rebuilt to `es₁`,
and has then added the condition, this once. -/
def Rebuilt (es₁ es : Entries) : Prop :=
  (∃ es₀, Occurs (.map es₀) (.map statement) ∧
    Yields (Walk.entries clauses
      (fun es => (pure (addCondition condition es) : Walk Unit Entries)) es₀) es₁) ∧
  es = addCondition condition es₁

/-- The walk has passed over a part of the statement in which `es` lies. -/
def Untouched (es : Entries) : Prop :=
  ∃ u, PassedOver clauses u (some .expression) (.map statement) ∧ Occurs (.map es) u

variable {clauses condition statement}

theorem injectWhere_allClauses {v : Value}
    (hstatement : Form.ofEntries clauses statement = .clause)
    (hcondition : AllClauses clauses (fun _ => False) condition)
    (h : injectWhere clauses condition (.map statement) = .ok v) :
    AllClauses clauses
      (fun es => (∃ es₁, Rebuilt clauses condition statement es₁ es) ∨
        Untouched clauses statement es) v := by
  have hyields := Walk.yields_of_walkPure h
  rw [← Walk.expr_eq_walk hstatement] at hyields
  refine Walk.exprSound _ _ hyields ⟨?_, ?_⟩ ?_
  · rintro es es₁ es₂ hes hes₁ hes₂
    exact .inl ⟨es₁, ⟨es, hes, hes₁⟩, hes₂.pure⟩
  · rintro es₁ es₂ hes₂ h
    rw [hes₂.pure]
    exact addCondition_allClauses (fun es hes hform => (hcondition es hes hform).elim) h
  · exact fun u hu es hes _ => .inr ⟨u, hu, hes⟩

theorem hereditary_allClauses {G : Entries → Prop} :
    Render.Hereditary (AllClauses clauses G) where
  null := .leaf rfl
  element h he hw := h.of_occurs (.element he hw .here)
  entry h he := h.of_occurs (.entry he .here)

theorem injectWhere_rendersOnly {registry : Registry} {o : Options} {v : Value}
    (hstatement : Form.ofEntries registry.clauseOrder statement = .clause)
    (hcondition : ∀ es, Occurs (.map es) condition →
      Form.ofEntries registry.clauseOrder es ≠ .clause)
    (h : injectWhere registry.clauseOrder condition (.map statement) = .ok v) :
    ((∃ out, format registry o v = .ok out) →
      RendersOnly registry o v fun es => Form.ofEntries registry.clauseOrder es = .clause →
        (∃ es₁, Rebuilt registry.clauseOrder condition statement es₁ es) ∨
          Untouched registry.clauseOrder statement es) ∧
    (RendersOnly registry o v (fun es => Form.ofEntries registry.clauseOrder es = .clause →
        isFiltered es = true → CarriesOnce condition es) ↔
      RendersOnly registry o v fun es => Form.ofEntries registry.clauseOrder es = .clause →
        isFiltered es = true →
          (∃ es₁, Rebuilt registry.clauseOrder condition statement es₁ es ∧
            ¬ Carries condition es₁) ∨
          Untouched registry.clauseOrder statement es ∧ CarriesOnce condition es) := by
  have hall := injectWhere_allClauses hstatement (fun es hes hform => hcondition es hes hform) h
  refine ⟨fun hout => ?_, ?_, ?_⟩
  · exact (rendersOnly_true_iff.mpr hout).mono_on hereditary_allClauses hall fun es hes _ => hes es .here
  · refine fun honly => honly.mono_on hereditary_allClauses hall fun es hes hcarries hform hfiltered => ?_
    obtain ⟨es₁, hbuilt⟩ | huntouched := hes es .here hform
    · refine .inl ⟨es₁, hbuilt, ?_⟩
      have honce := hcarries hform hfiltered
      obtain ⟨-, rfl⟩ := hbuilt
      rw [isFiltered_addCondition] at hfiltered
      exact (carriesOnce_addCondition_iff hfiltered).mp honce
    · exact .inr ⟨huntouched, hcarries hform hfiltered⟩
  · refine fun honly => honly.mono fun es hes hform hfiltered => ?_
    obtain ⟨es₁, ⟨-, rfl⟩, hbefore⟩ | ⟨-, hcarries⟩ := hes hform hfiltered
    · rw [isFiltered_addCondition] at hfiltered
      exact (carriesOnce_addCondition_iff hfiltered).mpr hbefore
    · exact hcarries

theorem injectWhere_rendersOnly_select :
    RendersOnly .standard {}
      (.map [(.text "select", .list [.text "a"]), (.text "from", .text "t"),
        (.text "where", .text "active")])
      fun es => Form.ofEntries Registry.standard.clauseOrder es = .clause →
        (∃ es₁, Rebuilt Registry.standard.clauseOrder (.text "active")
          [(.text "select", .list [.text "a"]), (.text "from", .text "t")] es₁ es) ∨
        Untouched Registry.standard.clauseOrder
          [(.text "select", .list [.text "a"]), (.text "from", .text "t")] es := by
  have hcondition : AllClauses Registry.standard.clauseOrder (fun _ => False) (.text "active") :=
    .leaf rfl
  exact (injectWhere_rendersOnly rfl hcondition rfl).1 ⟨_, rfl⟩

/-- `SELECT a FROM t ORDER BY (SELECT b FROM u)` -/
def orderedBySubquery : Entries :=
  [(.text "select", .list [.text "a"]), (.text "from", .text "t"),
    (.text "order-by",
      .list [.map [(.text "select", .list [.text "b"]), (.text "from", .text "u")]])]

def tenantIsOne : Value := .list [.text "=", .text "tenant", .int 1]

set_option maxRecDepth 10000 in
/-- The walk does not look into ORDER BY, so the subquery there is rendered as it was. -/
theorem orderBy_subquery_not_filtered :
    format .standard {} (.map orderedBySubquery) =
        .ok ⟨"SELECT a FROM t ORDER BY (SELECT b FROM u)", []⟩ ∧
      injectWhere Registry.standard.clauseOrder tenantIsOne (.map orderedBySubquery) =
          .ok (.map (orderedBySubquery ++ [(.text "where", tenantIsOne)])) ∧
      format .standard {} (.map (orderedBySubquery ++ [(.text "where", tenantIsOne)])) =
        .ok ⟨"SELECT a FROM t WHERE tenant = $1 ORDER BY (SELECT b FROM u)", [.int 1]⟩ ∧
      ¬ RendersOnly .standard {} (.map (orderedBySubquery ++ [(.text "where", tenantIsOne)]))
        fun es => Form.ofEntries Registry.standard.clauseOrder es = .clause →
          isFiltered es = true → CarriesOnce tenantIsOne es := by
  refine ⟨rfl, rfl, rfl, fun honly => ?_⟩
  have hcheck : ∀ es : Entries,
      (Form.ofEntries Registry.standard.clauseOrder es = .clause → isFiltered es = true →
        CarriesOnce tenantIsOne es) →
      (Form.ofEntries Registry.standard.clauseOrder es != .clause || !isFiltered es ||
        Entries.hasField es "where") = true := by
    intro es hes
    by_cases hform : Form.ofEntries Registry.standard.clauseOrder es = .clause
    · cases hfiltered : isFiltered es
      · simp
      · obtain ⟨w, hw, -⟩ := hes hform hfiltered
        simp [Entries.hasField, hw]
    · simp [hform]
  obtain ⟨s, r, hs, hr⟩ := honly.passes hcheck
  cases hs
  cases hr

end Injection

end SqlTree
